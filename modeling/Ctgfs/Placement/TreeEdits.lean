import Ctgfs.Placement.Lines

/-!
# What `Create` and `Remove` do to the lines

Both walk down a path and change the set of one directory.  On the way back the sizes are
pushed up, which no line shows.
-/

namespace Ctgfs.Placement

open Foundation

def components (path : Bytes) : List Bytes := path.splitOn slash

theorem splitPath_append {first rest : Bytes} (plain : slash ∉ first) :
    splitPath (first ++ slash :: rest) = (true, first, rest) := by
  have before : ∀ byte ∈ first, decide (byte ≠ slash) = true := by
    intro byte member
    simpa using ne_of_mem_of_not_mem member plain
  rw [splitPath, if_pos (by simp), List.takeWhile_append_of_pos before,
    List.dropWhile_append_of_pos before]
  simp

theorem components_split {path : Bytes} (split : (splitPath path).1 = true) :
    components path = (splitPath path).2.1 :: components (splitPath path).2.2 ∧
      (splitPath path).2.2.length < path.length := by
  by_cases slashed : slash ∈ path
  · obtain ⟨first, rest, rfl, plain⟩ := List.eq_append_cons_of_mem slashed
    rw [splitPath_append plain]
    constructor
    · rw [components, List.splitOn_append_cons_self, List.splitOn_eq_singleton plain]
      rfl
    · simp only [List.length_append, List.length_cons]
      omega
  · rw [splitPath_plain slashed] at split
    cases split

theorem components_single {path : Bytes} (single : (splitPath path).1 = false) :
    components path = [(splitPath path).2.1] := by
  by_cases slashed : slash ∈ path
  · rw [splitPath_slash slashed] at single
    cases single
  · rw [splitPath_plain slashed]
    exact List.splitOn_eq_singleton slashed

theorem components_ne_nil (path : Bytes) : components path ≠ [] := List.splitOn_ne_nil _ _

namespace TreeNode

def named (list : List TreeNode) (name : Bytes) : Option TreeNode :=
  list.find? fun child => child.info.path = name

section Siblings

variable {list : List TreeNode} {node child : TreeNode} {path name : Bytes}

theorem childAt_eq_some (found : childAt list path = some child) :
    child ∈ list ∧ child.info.path = path := by
  obtain ⟨first, named⟩ := Option.filter_eq_some_iff.mp found
  exact ⟨List.mem_of_find?_eq_some first, by simpa using named⟩

theorem absent_of_childAt (ordered : InOrder list) (missing : childAt list path = none) :
    ∀ child ∈ list, child.info.path ≠ path := by
  induction list with
  | nil => rintro child ⟨⟩
  | cons first rest ih =>
      obtain ⟨least, ordered⟩ := List.pairwise_cons.mp ordered
      rw [childAt, lowerBound] at missing
      by_cases before : first.info.path < path
      · rw [List.find?_cons_of_neg (by simpa using before)] at missing
        intro child member
        obtain rfl | later := List.mem_cons.mp member
        · exact before.ne
        · exact ih ordered missing child later
      · rw [List.find?_cons_of_pos (by simpa using before)] at missing
        have different : first.info.path ≠ path := by simpa using missing
        have after : path < first.info.path := lt_of_le_of_ne (not_lt.mp before) different.symm
        intro child member
        obtain rfl | later := List.mem_cons.mp member
        · exact different
        · exact (after.trans (least child later)).ne'

theorem nodeAt_cons (node : TreeNode) (name : Bytes) (rest : List Bytes) :
    node.nodeAt (name :: rest) = (named node.getList name).bind fun child => child.nodeAt rest :=
  rfl

theorem named_eq_some (found : named list name = some child) :
    child ∈ list ∧ child.info.path = name :=
  ⟨List.mem_of_find?_eq_some found, by simpa using List.find?_some found⟩

theorem InOrder.named_eq (ordered : InOrder list) (member : child ∈ list) :
    named list child.info.path = some child := by
  cases found : named list child.info.path with
  | none =>
      rw [named, List.find?_eq_none] at found
      exact absurd (decide_eq_true rfl) (found child member)
  | some other =>
      obtain ⟨listed, same⟩ := named_eq_some found
      have paths : (list.map fun child => child.info.path).Nodup :=
        (List.pairwise_map.mpr ordered).imp fun before => before.ne
      rw [List.inj_on_of_nodup_map paths listed member same]

theorem InOrder.childAt_eq (ordered : InOrder list) (name : Bytes) :
    childAt list name = named list name := by
  cases found : childAt list name with
  | none =>
      symm
      rw [named, List.find?_eq_none]
      intro child member
      simpa using absent_of_childAt ordered found child member
  | some child =>
      obtain ⟨listed, rfl⟩ := childAt_eq_some found
      exact (ordered.named_eq listed).symm

theorem insertNode_cons (first node : TreeNode) (rest : List TreeNode) :
    insertNode (first :: rest) node =
      if first.info.path < node.info.path then first :: insertNode rest node
      else node :: first :: rest := by
  by_cases before : first.info.path < node.info.path
  · simp [insertNode, before]
  · simp [insertNode, before]

theorem insertNode_perm (list : List TreeNode) (node : TreeNode) :
    (insertNode list node).Perm (node :: list) := by
  rw [insertNode]
  refine List.perm_middle.trans (List.Perm.cons _ ?_)
  rw [List.takeWhile_append_dropWhile]

theorem inOrder_insertNode (ordered : InOrder list)
    (absent : ∀ child ∈ list, child.info.path ≠ node.info.path) :
    InOrder (insertNode list node) := by
  induction list with
  | nil => exact List.pairwise_singleton _ _
  | cons first rest ih =>
      obtain ⟨least, others⟩ := List.pairwise_cons.mp ordered
      rw [insertNode_cons]
      split
      next before =>
        refine List.pairwise_cons.mpr ⟨fun child member => ?_,
          ih others fun child member =>
            absent child (List.mem_cons_of_mem _ member)⟩
        obtain rfl | old := mem_insertNode.mp member
        · exact before
        · exact least child old
      next before =>
        have after : node.info.path < first.info.path :=
          lt_of_le_of_ne (not_lt.mp before) (absent first List.mem_cons_self).symm
        refine List.pairwise_cons.mpr ⟨fun child member => ?_, ordered⟩
        obtain rfl | later := List.mem_cons.mp member
        · exact after
        · exact after.trans (least child later)

theorem inOrder_replaceNode (ordered : InOrder list) : InOrder (replaceNode list node) := by
  have paths : (list.map fun child => child.info.path).Pairwise (· < ·) :=
    List.pairwise_map.mpr ordered
  rw [← paths_replaceNode list node] at paths
  exact List.pairwise_map.mp paths

theorem InOrder.place (ordered : InOrder list) (member : child ∈ list) :
    ∃ before after, list = before ++ child :: after ∧ eraseNode list child = before ++ after ∧
      ∀ other : TreeNode, other.info.path = child.info.path →
        replaceNode list other = before ++ other :: after := by
  obtain ⟨before, after, rfl⟩ := List.append_of_mem member
  obtain ⟨-, later, earlier⟩ := List.pairwise_append.mp ordered
  have different : ∀ other ∈ before ++ after, other.info.path ≠ child.info.path := by
    intro other member
    obtain first | last := List.mem_append.mp member
    · exact (earlier other first child List.mem_cons_self).ne
    · exact ((List.pairwise_cons.mp later).1 other last).ne'
  refine ⟨before, after, rfl, ?_, fun other named => ?_⟩
  · rw [eraseNode, List.filter_append, List.filter_cons_of_neg (by simp), ← List.filter_append,
      List.filter_eq_self]
    simpa using different
  · have kept : ∀ node ∈ before ++ after,
        (if node.info.path = other.info.path then other else node) = node := by
      intro node member
      rw [if_neg (named ▸ different node member)]
    rw [replaceNode, List.map_append, List.map_cons, if_pos named.symm,
      List.map_congr_left fun node member => kept node (List.mem_append_left _ member),
      List.map_congr_left fun node member => kept node (List.mem_append_right _ member),
      List.map_id', List.map_id']

end Siblings

section Directory

variable {info : NodeInfo} {list changed : List TreeNode} {line : List Mark}

theorem ordered_dir :
    (dir info list).Ordered ↔ InOrder list ∧ ∀ child ∈ list, child.Ordered := by
  constructor
  · intro ordered
    refine ⟨ordered _ (self_mem_nodes _), fun child member node inside => ?_⟩
    exact ordered node (mem_nodes.mpr (.inr ⟨child, member, inside⟩))
  · rintro ⟨siblings, below⟩ node member
    obtain rfl | ⟨child, listed, inside⟩ := mem_nodes.mp member
    · exact siblings
    · exact below child listed node inside

theorem ordered_pushUp : (pushUp info list).Ordered ↔ (dir info list).Ordered := by
  rw [pushUp, ordered_dir, ordered_dir]

theorem lines_dir (info : NodeInfo) (list : List TreeNode) :
    (dir info list).lines = [(dir info []).mark] ::
      (list.flatMap lines).map fun line => line ++ [(dir info []).mark] :=
  lines_eq _

theorem lines_pushUp : (pushUp info list).lines = (dir info list).lines := by
  rw [pushUp, lines_dir, lines_dir]
  rfl

theorem lines_dir_perm (line : List Mark)
    (grown : (changed.flatMap lines).Perm (line :: list.flatMap lines)) :
    (dir info changed).lines.Perm ((line ++ [(dir info []).mark]) :: (dir info list).lines) := by
  rw [lines_dir, lines_dir]
  refine ((grown.map _).cons _).trans ?_
  rw [List.map_cons]
  exact List.Perm.swap _ _ _

section Replace

variable {child replacement : TreeNode} (ordered : (dir info list).Ordered) (member : child ∈ list)
  (mark : replacement.mark = child.mark)

include ordered

theorem ordered_replace (replaced : replacement.Ordered) :
    (pushUp info (replaceNode list replacement)).Ordered := by
  obtain ⟨siblings, below⟩ := ordered_dir.mp ordered
  refine ordered_pushUp.mpr (ordered_dir.mpr ⟨inOrder_replaceNode siblings, fun node member => ?_⟩)
  obtain ⟨old, listed, rfl⟩ := List.mem_map.mp member
  split
  · exact replaced
  · exact below old listed

include member mark

theorem flatMap_replace : ∃ before after,
    list.flatMap lines = before ++ (child.lines ++ after) ∧
      (replaceNode list replacement).flatMap lines = before ++ (replacement.lines ++ after) := by
  obtain ⟨before, after, shape, -, replace⟩ := (ordered_dir.mp ordered).1.place member
  refine ⟨before.flatMap lines, after.flatMap lines, ?_, ?_⟩
  · rw [shape, List.flatMap_append, List.flatMap_cons]
  · rw [replace replacement (congrArg Mark.path mark), List.flatMap_append, List.flatMap_cons]

theorem lines_replace (same : replacement.lines = child.lines) :
    (pushUp info (replaceNode list replacement)).lines = (dir info list).lines := by
  obtain ⟨before, after, old, new⟩ := flatMap_replace ordered member mark
  rw [lines_pushUp, lines_dir, lines_dir, old, new, same]

theorem lines_replace_grown (grown : replacement.lines.Perm (line :: child.lines)) :
    (pushUp info (replaceNode list replacement)).lines.Perm
      ((line ++ [(dir info []).mark]) :: (dir info list).lines) := by
  obtain ⟨before, after, old, new⟩ := flatMap_replace ordered member mark
  rw [lines_pushUp]
  apply lines_dir_perm line
  rw [old, new]
  exact ((grown.append_right after).append_left before).trans List.perm_middle

theorem lines_replace_shrunk (shrunk : child.lines.Perm (line :: replacement.lines)) :
    (dir info list).lines.Perm ((line ++ [(dir info []).mark]) ::
      (pushUp info (replaceNode list replacement)).lines) := by
  obtain ⟨before, after, old, new⟩ := flatMap_replace ordered member mark
  rw [lines_pushUp]
  apply lines_dir_perm line
  rw [old, new]
  exact ((shrunk.append_right after).append_left before).trans List.perm_middle

end Replace

end Directory

def ownerOf (above : Int) (line : List Mark) : Int :=
  line.foldr (fun mark domainId => if domainId = noDomain then mark.domainId else domainId) above

structure Inserts (node : TreeNode) (new : Bytes → Mark) (domainId : Int) (result : Insertion) :
    Prop where
  mark : result.node.mark = node.mark
  ordered : result.node.Ordered
  same : result.created = false → result.node.lines = node.lines
  grown : result.created = true → ∃ name, ∃ up ∈ node.lines,
    result.node.lines.Perm ((new name :: up) :: node.lines) ∧ result.domainId = ownerOf domainId up

section Insert

variable {address : Address} {ino : UInt64} {isDir : Bool} {nodeSz : UInt64}

theorem lines_create (address : Address) (path : Bytes) (ino : UInt64) (isDir : Bool)
    (sz : UInt64) : (create address path ino isDir sz).lines =
      [[⟨address, path, ino, isDir, noDomain⟩]] := by
  cases isDir <;> rfl

theorem ordered_create (address : Address) (path : Bytes) (ino : UInt64) (isDir : Bool)
    (sz : UInt64) : (create address path ino isDir sz).Ordered := by
  cases isDir with
  | false =>
      intro node member
      obtain rfl := List.mem_singleton.mp member
      exact List.Pairwise.nil
  | true => exact ordered_dir.mpr ⟨List.Pairwise.nil, by rintro child ⟨⟩⟩

variable {above : Int}

theorem Inserts.unchanged {node : TreeNode} {new : Bytes → Mark} (status : Status) (domainId : Int)
    (ordered : node.Ordered) : Inserts node new above ⟨status, node, domainId, false⟩ :=
  ⟨rfl, ordered, fun _ => rfl, by rintro ⟨⟩⟩

theorem Inserts.child {info : NodeInfo} {list : List TreeNode} {name : Bytes}
    (ordered : (dir info list).Ordered) (absent : ∀ child ∈ list, child.info.path ≠ name) :
    Inserts (dir info list) (fun name => ⟨address, name, ino, isDir, noDomain⟩) above
      ⟨.ok, pushUp info (insertNode list (create address name ino isDir nodeSz)),
        if above = noDomain then info.domainId else above, true⟩ := by
  obtain ⟨siblings, below⟩ := ordered_dir.mp ordered
  refine ⟨rfl, ?_, by rintro ⟨⟩, fun _ => ⟨name, _, self_mem_lines _, ?_, rfl⟩⟩
  · refine ordered_pushUp.mpr
      (ordered_dir.mpr ⟨inOrder_insertNode siblings ?_, fun child member => ?_⟩)
    · rwa [info_create]
    · obtain rfl | old := mem_insertNode.mp member
      · exact ordered_create _ _ _ _ _
      · exact below child old
  · rw [lines_pushUp]
    refine lines_dir_perm [_] (((insertNode_perm _ _).flatMap_right _).trans ?_)
    rw [List.flatMap_cons, lines_create]
    rfl

theorem Inserts.below {info : NodeInfo} {list : List TreeNode} {child : TreeNode}
    {new : Bytes → Mark} {result : Insertion} (ordered : (dir info list).Ordered)
    (listed : child ∈ list)
    (inserted : Inserts child new (if above = noDomain then info.domainId else above) result) :
    Inserts (dir info list) new above
      ⟨.ok, pushUp info (replaceNode list result.node), result.domainId, result.created⟩ := by
  refine ⟨rfl, ordered_replace ordered inserted.ordered,
    fun kept => lines_replace ordered listed inserted.mark (inserted.same kept),
    fun created => ?_⟩
  obtain ⟨name, up, line, grown, owner⟩ := inserted.grown created
  refine ⟨name, up ++ [(dir info []).mark], ?_,
    lines_replace_grown ordered listed inserted.mark grown, ?_⟩
  · exact mem_lines.mpr (.inr ⟨child, listed, up, line, rfl⟩)
  · rw [ownerOf, List.foldr_append]
    exact owner

theorem doInsert_inserts (calls : Nat) {node : TreeNode} (ordered : node.Ordered) (path : Bytes)
    (domainId : Int) :
    Inserts node (fun name => ⟨address, name, ino, isDir, noDomain⟩) domainId
      (doInsert address ino isDir nodeSz calls node path domainId) := by
  induction calls generalizing node path domainId with
  | zero => exact .unchanged _ _ ordered
  | succ calls ih =>
      cases node with
      | file info => exact .unchanged _ _ ordered
      | dir info list =>
          simp only [doInsert]
          split
          next missing =>
            split
            · exact .unchanged _ _ ordered
            · exact .child ordered (absent_of_childAt (ordered_dir.mp ordered).1 missing)
          next child found =>
            obtain ⟨listed, -⟩ := childAt_eq_some found
            split
            · split
              · exact .below ordered listed
                  (ih ((ordered_dir.mp ordered).2 child listed) _ _)
              · exact .unchanged _ _ ordered
            · exact ⟨rfl, ordered_pushUp.mpr ordered, fun _ => lines_pushUp, by rintro ⟨⟩⟩

end Insert

structure Removes (node : TreeNode) (result : Status × TreeNode × Option TreeNode) : Prop where
  mark : result.2.1.mark = node.mark
  ordered : result.2.1.Ordered
  same : result.2.2 = none → result.2.1.lines = node.lines
  shrunk : ∀ taken, result.2.2 = some taken →
    ∃ up, node.lines.Perm ((taken.mark :: up) :: result.2.1.lines)

theorem Removes.unchanged {node : TreeNode} (status : Status) (ordered : node.Ordered) :
    Removes node (status, node, none) :=
  ⟨rfl, ordered, fun _ => rfl, by rintro taken ⟨⟩⟩

theorem Removes.child {info : NodeInfo} {list : List TreeNode} {child : TreeNode}
    (ordered : (dir info list).Ordered) (listed : child ∈ list) (empty : child.getList = []) :
    Removes (dir info list) (.ok, pushUp info (eraseNode list child), some child) := by
  obtain ⟨siblings, below⟩ := ordered_dir.mp ordered
  obtain ⟨before, after, shape, erase, -⟩ := siblings.place listed
  have alone : child.lines = [[child.mark]] := by
    cases child with
    | file info => rfl
    | dir info list =>
        obtain rfl : list = [] := empty
        rfl
  refine ⟨rfl, ?_, by rintro ⟨⟩, ?_⟩
  · refine ordered_pushUp.mpr (ordered_dir.mpr ⟨siblings.filter _, fun node member => ?_⟩)
    exact below node (List.mem_filter.mp member).1
  · rintro taken ⟨⟩
    refine ⟨[(dir info []).mark], ?_⟩
    rw [lines_pushUp]
    apply lines_dir_perm [child.mark]
    rw [erase, shape, List.flatMap_append, List.flatMap_cons, List.flatMap_append, alone]
    exact List.perm_middle

theorem doRemove_removes (calls : Nat) {node : TreeNode} (ordered : node.Ordered) (path : Bytes) :
    Removes node (doRemove calls node path) := by
  induction calls generalizing node path with
  | zero => exact .unchanged _ ordered
  | succ calls ih =>
      cases node with
      | file info => exact .unchanged _ ordered
      | dir info list =>
          simp only [doRemove]
          split
          next => exact .unchanged _ ordered
          next child found =>
            obtain ⟨listed, -⟩ := childAt_eq_some found
            have removed := ih ((ordered_dir.mp ordered).2 child listed)
              (splitPath path).2.2
            split
            · refine ⟨rfl, ordered_replace ordered removed.ordered,
                fun kept => lines_replace ordered listed removed.mark (removed.same kept),
                fun taken out => ?_⟩
              obtain ⟨up, lines⟩ := removed.shrunk taken out
              exact ⟨_, lines_replace_shrunk ordered listed removed.mark lines⟩
            · split
              · exact .unchanged _ ordered
              next empty =>
                exact .child ordered listed (List.length_eq_zero_iff.mp (not_not.mp empty))

theorem nodeAt_of_doRemove {calls : Nat} {node : TreeNode} (ordered : node.Ordered) {path : Bytes}
    {taken : TreeNode} (removed : (doRemove calls node path).2.2 = some taken) :
    node.nodeAt (components path) = some taken ∧ taken.getList = [] := by
  induction calls generalizing node path with
  | zero => cases removed
  | succ calls ih =>
      cases node with
      | file info => cases removed
      | dir info list =>
          obtain ⟨siblings, below⟩ := ordered_dir.mp ordered
          simp only [doRemove, siblings.childAt_eq] at removed
          split at removed
          next => cases removed
          next child found =>
            split at removed
            next more =>
              obtain ⟨there, bare⟩ :=
                ih (below child (named_eq_some found).1) removed
              rw [(components_split more).1, nodeAt_cons, getList, found]
              exact ⟨there, bare⟩
            next last =>
              split at removed
              next => cases removed
              next empty =>
                obtain rfl := Option.some.inj removed
                rw [components_single (Bool.eq_false_iff.mpr last), nodeAt_cons, getList, found]
                exact ⟨rfl, List.length_eq_zero_iff.mp (not_not.mp empty)⟩

end TreeNode

end Ctgfs.Placement
