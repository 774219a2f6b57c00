import Ctgfs.Placement.PathEffects
import Mathlib.Data.List.Infix

/-!
# The KV that `Create` reports

On its way down, `doInsert` keeps the first domain that it meets.  It looks at the directories
only: a new node without a domain above it gets one from its neighbourhood, but the domain of
a node that is there already is never read.
-/

namespace Ctgfs.Placement

open Foundation

variable {mark : Mark}

theorem Mark.tagged_eq_true : mark.tagged = true ↔ mark.domainId ≠ noDomain :=
  decide_eq_true_iff

namespace TreeNode

variable (node : TreeNode)

def marksOn (names : List Bytes) : List Mark := names.inits.filterMap node.markAt

def ownerOn (names : List Bytes) : Int :=
  ((node.marksOn names).find? Mark.tagged).elim noDomain Mark.domainId

section Owner

variable {node child : TreeNode} {name : Bytes} {names rest : List Bytes}

theorem marksOn_cons (found : named node.getList name = some child) (rest : List Bytes) :
    node.marksOn (name :: rest) = node.mark :: child.marksOn rest := by
  rw [marksOn, List.inits_cons, List.filterMap_cons_some (markAt_nil node), List.filterMap_map]
  congr 2
  funext others
  rw [Function.comp_apply, markAt_cons, found, Option.bind_some]

theorem owner_single (mark : Mark) :
    ([mark].find? Mark.tagged).elim noDomain Mark.domainId = mark.domainId := by
  by_cases tagged : mark.tagged = true
  · rw [List.find?_cons_of_pos tagged]
    rfl
  · rw [List.find?_cons_of_neg tagged]
    exact (not_not.mp fun domain => tagged (Mark.tagged_eq_true.mpr domain)).symm

theorem ownerOn_nil (node : TreeNode) : node.ownerOn [] = node.info.domainId :=
  owner_single node.mark

theorem ownerOn_cons (found : named node.getList name = some child) (rest : List Bytes) :
    node.ownerOn (name :: rest) =
      if node.info.domainId = noDomain then child.ownerOn rest else node.info.domainId := by
  rw [ownerOn, marksOn_cons found]
  split
  next untagged =>
    rw [List.find?_cons_of_neg fun tagged => Mark.tagged_eq_true.mp tagged untagged]
    rfl
  next tagged =>
    rw [List.find?_cons_of_pos (Mark.tagged_eq_true.mpr tagged)]
    rfl

theorem marksOn_append (node : TreeNode) (names : List Bytes) (last : Bytes) :
    node.marksOn (names ++ [last]) =
      node.marksOn names ++ (node.markAt (names ++ [last])).toList := by
  rw [marksOn, List.inits_append, List.filterMap_append]
  rfl

theorem ownerOn_eq_noDomain :
    node.ownerOn names = noDomain ↔ ∀ mark ∈ node.marksOn names, mark.domainId = noDomain := by
  rw [ownerOn]
  cases found : (node.marksOn names).find? Mark.tagged with
  | none =>
      refine iff_of_true rfl fun mark on => ?_
      simpa [Mark.tagged] using List.find?_eq_none.mp found mark on
  | some mark =>
      have tagged := Mark.tagged_eq_true.mp (List.find?_some found)
      exact iff_of_false tagged fun untagged =>
        tagged (untagged mark (List.mem_of_find?_eq_some found))

theorem ownerOn_append (last : Bytes) (here : node.markAt (names ++ [last]) = some mark) :
    node.ownerOn (names ++ [last]) =
      if node.ownerOn names = noDomain then mark.domainId else node.ownerOn names := by
  rw [ownerOn, marksOn_append, here, List.find?_append]
  cases found : (node.marksOn names).find? Mark.tagged with
  | none =>
      rw [ownerOn, found, Option.none_or, Option.elim_none, if_pos rfl]
      exact owner_single mark
  | some above =>
      have tagged := Mark.tagged_eq_true.mp (List.find?_some found)
      rw [ownerOn, found, Option.some_or, Option.elim_some, if_neg tagged]

theorem ownerOn_congr {other : TreeNode}
    (same : ∀ before after, before ++ after = names → other.markAt before = node.markAt before) :
    other.ownerOn names = node.ownerOn names := by
  rw [ownerOn, ownerOn, marksOn, marksOn]
  congr 2
  refine List.filterMap_congr fun before inside => ?_
  obtain ⟨after, whole⟩ := (List.mem_inits _ _).mp inside
  exact same before after whole

theorem open_of_nodeAt {found : TreeNode} (there : node.nodeAt names = some found) :
    node.Open names := by
  induction names generalizing node with
  | nil =>
      intro before after whole proper
      exact absurd (List.append_eq_nil_iff.mp whole).2 proper
  | cons name rest ih =>
      rw [nodeAt_cons] at there
      obtain ⟨child, here, there⟩ := Option.bind_eq_some_iff.mp there
      refine open_cons.mpr ⟨?_, fun _ => ⟨child, here, ih there⟩⟩
      cases node with
      | file info => cases here
      | dir info list => rfl

end Owner

theorem domainId_doInsert {address : Address} {ino : UInt64} {isDir : Bool} {nodeSz : UInt64}
    (calls : Nat) {node : TreeNode} (ordered : node.Ordered) {path : Bytes}
    (enough : path.length < calls) (opened : node.Open (components path)) (domainId : Int) :
    (doInsert address ino isDir nodeSz calls node path domainId).domainId =
      if domainId = noDomain then node.ownerOn (components path).dropLast else domainId := by
  induction calls generalizing node path domainId with
  | zero => exact absurd enough (Nat.not_lt_zero _)
  | succ calls ih =>
      cases node with
      | file info => exact absurd (opened.isDir (components_ne_nil path)) Bool.false_ne_true
      | dir info list =>
          obtain ⟨siblings, below⟩ := ordered_dir.mp ordered
          simp only [doInsert, siblings.childAt_eq]
          cases more : (splitPath path).1 with
          | false =>
              rw [components_single more, List.dropLast_singleton, ownerOn_nil]
              split <;> rfl
          | true =>
              obtain ⟨shape, shorter⟩ := components_split more
              rw [shape, open_cons] at opened
              obtain ⟨child, found, opened⟩ := opened.2 (components_ne_nil _)
              have isDir := opened.isDir (components_ne_nil _)
              have rest := ih (below child (named_eq_some found).1)
                (show (splitPath path).2.2.length < calls by omega) opened
                (if domainId = noDomain then info.domainId else domainId)
              rw [shape, List.dropLast_cons_of_ne_nil (components_ne_nil _), ownerOn_cons found]
              change named list _ = some child at found
              simp only [found, isDir, if_true, rest]
              -- the domain of this directory comes before those below it
              change (if (if domainId = noDomain then info.domainId else domainId) = noDomain
                then _ else _) = if domainId = noDomain then if info.domainId = noDomain then _
                  else info.domainId else domainId
              by_cases first : domainId = noDomain
              · simp only [first, if_true]
              · simp only [first, if_false]

theorem markAt_retag (domain : Address → Int → Int) (node : TreeNode) (names : List Bytes) :
    (node.retag domain).markAt names = (node.markAt names).map (Mark.retag domain) := by
  have kept : (node.retag domain).nodeAt names = (node.nodeAt names).map (retag domain) := by
    apply nodeAt_mapInfo
    intro info
    rfl
  rw [markAt, kept, Option.map_map, markAt, Option.map_map]
  congr 1
  funext found
  exact mark_retag domain found

theorem nodeAt_mem {node found : TreeNode} {names : List Bytes}
    (there : node.nodeAt names = some found) : found ∈ node.nodes := by
  induction names generalizing node with
  | nil =>
      obtain rfl := Option.some.inj there
      exact self_mem_nodes _
  | cons name rest ih =>
      rw [nodeAt_cons] at there
      obtain ⟨child, here, there⟩ := Option.bind_eq_some_iff.mp there
      exact mem_nodes.mpr (.inr ⟨child, (named_eq_some here).1, ih there⟩)

def Untagged : Prop :=
  ∀ mark ∈ node.nodes.map TreeNode.mark, mark.domainId = noDomain

theorem markAt_mem {node : TreeNode} {names : List Bytes} (here : node.markAt names = some mark) :
    mark ∈ node.nodes.map TreeNode.mark := by
  obtain ⟨found, there, rfl⟩ := Option.map_eq_some_iff.mp here
  exact List.mem_map_of_mem (nodeAt_mem there)

theorem marksOn_subset (names : List Bytes) :
    node.marksOn names ⊆ node.nodes.map TreeNode.mark := by
  intro mark on
  obtain ⟨before, -, here⟩ := List.mem_filterMap.mp on
  exact markAt_mem here

theorem Untagged.ownerOn {node : TreeNode} (untagged : node.Untagged) (names : List Bytes) :
    node.ownerOn names = noDomain :=
  ownerOn_eq_noDomain.mpr fun mark on => untagged mark (marksOn_subset node names on)

theorem untagged_of_near {root grown : TreeNode} {new : Mark} {up : List Mark}
    (distinct : grown.addresses.Nodup) (lines : grown.lines.Perm ((new :: up) :: root.lines))
    (untagged : new.domainId = noDomain)
    (fresh : ∀ mark ∈ root.nodes.map TreeNode.mark, mark.address ≠ new.address)
    (nothing : (grown.getNearByDomainID new.address).domainId = noDomain) : grown.Untagged := by
  intro mark member
  obtain ⟨node, inside, rfl⟩ := List.mem_map.mp member
  obtain ⟨above, line, -⟩ := line_of_child inside
  obtain here | old := List.mem_cons.mp (lines.mem_iff.mp line)
  · obtain ⟨same, -⟩ := List.cons.inj here
    rw [same, untagged]
  · by_contra tagged
    obtain ⟨stop, on, address⟩ := stop_of_getNearByDomainID distinct nothing line
      List.mem_cons_self (Mark.tagged_eq_true.mpr tagged)
    obtain ⟨other, member, rfl, -⟩ := below_of_line old on
    exact fresh _ (List.mem_map_of_mem member) address

end TreeNode

/-- What `Create` should report for the node at a sequence of names. -/
structure ReportsOwner (after : PrefixTree) (names : List Bytes) (kv : Int) : Prop where
  first : kv = after.root.ownerOn names
  registered : kv ≠ noDomain → kv ∈ after.kvList.map KVInfo.id
  nowhere : kv = noDomain → after.root.Untagged

theorem ReportsOwner.of_sound {after : PrefixTree} (sound : Sound after) {names : List Bytes}
    {kv : Int} (first : kv = after.root.ownerOn names)
    (nowhere : kv = noDomain → after.root.Untagged) : ReportsOwner after names kv where
  first := first
  registered tagged := by
    rw [first, TreeNode.ownerOn] at tagged ⊢
    cases found : (after.root.marksOn names).find? Mark.tagged with
    | none => exact absurd (by rw [found]; rfl) tagged
    | some mark =>
        have inside := after.root.marksOn_subset names (List.mem_of_find?_eq_some found)
        rw [found] at tagged
        refine (sound.known mark ?_).resolve_left tagged
        rw [PrefixTree.marks, List.map_append]
        exact List.mem_append_left _ inside
  nowhere := nowhere

variable {last : Bytes}

section Create

variable {tree after : PrefixTree} (sound : Sound after)

include sound

theorem reportsOwner_new {names : List Bytes} {kv : Int}
    (above : ∀ before rest, before ++ rest = names →
      after.root.markAt before = tree.root.markAt before)
    (here : after.root.markAt (names ++ [last]) = some mark)
    (reported : kv = if tree.root.ownerOn names = noDomain then mark.domainId
      else tree.root.ownerOn names) (nowhere : kv = noDomain → after.root.Untagged) :
    ReportsOwner after (names ++ [last]) kv := by
  refine .of_sound sound ?_ nowhere
  rw [TreeNode.ownerOn_append last here, TreeNode.ownerOn_congr above, reported]

theorem reportsOwner_found {names : List Bytes}
    (here : tree.root.markAt (names ++ [last]) = some mark)
    (marks : ∀ others, after.root.markAt others = tree.root.markAt others)
    (nodes : after.root.nodes.map TreeNode.mark = tree.root.nodes.map TreeNode.mark) :
    ReportsOwner after (names ++ [last]) (tree.root.ownerOn names) ↔
      tree.root.ownerOn names ≠ noDomain ∨ tree.root.Untagged := by
  have untagged : after.root.Untagged ↔ tree.root.Untagged := by
    rw [TreeNode.Untagged, nodes, TreeNode.Untagged]
  have owner : after.root.ownerOn (names ++ [last]) = tree.root.ownerOn (names ++ [last]) :=
    TreeNode.ownerOn_congr fun before _ _ => marks before
  constructor
  · intro reports
    by_cases above : tree.root.ownerOn names = noDomain
    · exact .inr (untagged.mp (reports.nowhere above))
    · exact .inl above
  · rintro (above | nothing)
    · refine .of_sound sound ?_ fun none => absurd none above
      rw [owner, TreeNode.ownerOn_append last here, if_neg above]
    · refine .of_sound sound ?_ fun _ => untagged.mpr nothing
      rw [owner, nothing.ownerOn, nothing.ownerOn]

omit sound in
theorem open_of_created (sound : Sound tree) {path : Bytes} {ino : UInt64} {isDir : Bool}
    {nodeSz : UInt64} {node : TreeNode}
    (present : (tree.create path ino isDir nodeSz).2.1.root.nodeAt (components path) = some node) :
    tree.root.Open (components path) := by
  obtain ⟨created, made, entries⟩ := entryAt_create sound path ino isDir nodeSz
  have here := entries (components path)
  cases new : created with
  | true => exact (made.mp new).1
  | false =>
      rw [if_neg fun both => Bool.false_ne_true (new.symm.trans both.1), TreeNode.entryAt,
        present] at here
      obtain ⟨old, there, -⟩ := Option.map_eq_some_iff.mp here.symm
      exact TreeNode.open_of_nodeAt there

end Create

theorem Sound.addresses_nodup {tree : PrefixTree} (sound : Sound tree) :
    tree.root.addresses.Nodup := by
  have distinct := sound.distinct
  rw [PrefixTree.marks, List.map_append, List.map_append, List.map_map] at distinct
  exact distinct.of_append_left

theorem Sound.fresh_root {tree : PrefixTree} (sound : Sound tree) :
    ∀ mark ∈ tree.root.nodes.map TreeNode.mark, mark.address ≠ tree.next := by
  intro mark member
  refine (sound.fresh mark ?_).ne
  rw [PrefixTree.marks, List.map_append]
  exact List.mem_append_left _ member

theorem reportsOwner_tagNode {tree grown : PrefixTree} (sound : Sound tree) {names : List Bytes}
    {new line : Mark} {up : List Mark} (soundAfter : Sound (grown.tagNode tree.next).1)
    (address : new.address = tree.next) (same : line.address = tree.next)
    (untagged : line.domainId = noDomain)
    (lines : grown.root.lines.Perm ((line :: up) :: tree.root.lines))
    (above : ∀ before rest, before ++ rest = names →
      grown.root.markAt before = tree.root.markAt before)
    (here : grown.root.markAt (names ++ [last]) = some new)
    (nothing : tree.root.ownerOn names = noDomain) :
    ReportsOwner (grown.tagNode tree.next).1 (names ++ [last]) (grown.tagNode tree.next).2 := by
  have root : (grown.tagNode tree.next).1.root = grown.root.retag fun other old =>
      if other = tree.next then (grown.tagNode tree.next).2 else old :=
    congrFun (TreeNode.setDomainId_eq_retag _ _) _
  have distinct : grown.root.addresses.Nodup := by
    rw [← TreeNode.addresses_retag, ← root]
    exact soundAfter.addresses_nodup
  have kept : ∀ before rest, before ++ rest = names →
      (grown.tagNode tree.next).1.root.markAt before = tree.root.markAt before := by
    intro before rest whole
    rw [root, TreeNode.markAt_retag, above before rest whole]
    cases old : tree.root.markAt before with
    | none => rfl
    | some mark =>
        rw [Option.map_some, Mark.retag, if_neg (sound.fresh_root mark (TreeNode.markAt_mem old))]
  refine reportsOwner_new soundAfter kept (by rw [root, TreeNode.markAt_retag, here]; rfl) ?_
    fun none => ?_
  · rw [if_pos nothing, Mark.retag, address, if_pos rfl]
  · have before : grown.root.Untagged := by
      refine TreeNode.untagged_of_near distinct lines untagged ?_ (same ▸ none)
      rw [same]
      exact sound.fresh_root
    rw [TreeNode.Untagged, root, TreeNode.nodes_retag, TreeNode.marks_retag]
    intro mark member
    obtain ⟨old, inside, rfl⟩ := List.mem_map.mp member
    simp only [Mark.retag, none, before old inside, ite_self]

/-- The KV that `Create` reports is the owner of the node if and only if the node is new, a
directory above it has a domain, or no node has one. -/
theorem create_reports_owner {tree : PrefixTree} {calls : List TreeCall}
    (run : Run (StepOf PrefixTree.call) .initial calls tree) (path : Bytes) (ino : UInt64)
    (isDir : Bool) (nodeSz : UInt64)
    (present : ∃ node,
      (tree.create path ino isDir nodeSz).2.1.root.nodeAt (components path) = some node) :
    ReportsOwner (tree.create path ino isDir nodeSz).2.1 (components path)
        (tree.create path ino isDir nodeSz).2.2 ↔
      tree.root.nodeAt (components path) = none ∨
        (∃ mark ∈ tree.root.marksOn (components path).dropLast, mark.domainId ≠ noDomain) ∨
        tree.root.Untagged := by
  have sound := sound_of_run run
  have soundAfter := sound.create path ino isDir nodeSz
  obtain ⟨node, present⟩ := present
  have opened := open_of_created sound present
  have inserts := @TreeNode.doInsert_inserts tree.next ino isDir nodeSz (path.length + 1) tree.root
    sound.ordered path noDomain
  have places := @TreeNode.doInsert_at tree.next ino isDir nodeSz (path.length + 1) tree.root
    sound.ordered path (Nat.lt_succ_self _) noDomain
  have owner := @TreeNode.domainId_doInsert tree.next ino isDir nodeSz (path.length + 1) tree.root
    sound.ordered path (Nat.lt_succ_self _) opened noDomain
  have tagged : (∃ mark ∈ tree.root.marksOn (components path).dropLast,
      mark.domainId ≠ noDomain) ↔ tree.root.ownerOn (components path).dropLast ≠ noDomain := by
    rw [ne_eq, TreeNode.ownerOn_eq_noDomain]
    push Not
    rfl
  rw [if_pos rfl] at owner
  rw [tagged]
  obtain ⟨last, shape⟩ : ∃ last, (components path).dropLast ++ [last] = components path :=
    ⟨_, List.dropLast_append_getLast (components_ne_nil path)⟩
  generalize (components path).dropLast = above at *
  simp only [PrefixTree.create] at soundAfter present ⊢
  generalize tree.root.doInsert tree.next ino isDir nodeSz (path.length + 1) path noDomain =
    inserted at *
  obtain ⟨name, marks⟩ := places.marks
  rw [← shape] at marks present ⊢
  cases made : inserted.created with
  | false =>
      have same : ∀ others, inserted.node.markAt others = tree.root.markAt others := by
        intro others
        rw [marks, made]
        split
        next here => rw [here, if_neg Bool.false_ne_true]
        next => rfl
      simp only [made, Bool.false_eq_true, if_false] at soundAfter present ⊢
      have there : tree.root.markAt (above ++ [last]) = some node.mark := by
        rw [← same, TreeNode.markAt, present, Option.map_some]
      have nodes : inserted.node.nodes.map TreeNode.mark = tree.root.nodes.map TreeNode.mark := by
        rw [TreeNode.marks_eq, inserts.same made, TreeNode.marks_eq]
      rw [owner, reportsOwner_found soundAfter there same nodes, ← TreeNode.markAt_eq_none, there]
      simp
  | true =>
      have before : ∀ before rest, before ++ rest = above →
          inserted.node.markAt before = tree.root.markAt before := by
        rintro before rest rfl
        rw [marks, if_neg fun whole => ?_]
        simpa using congrArg List.length whole
      have here : inserted.node.markAt (above ++ [last]) =
          some ⟨tree.next, name, ino, isDir, noDomain⟩ := by
        rw [marks, if_pos rfl, if_pos made]
      refine iff_of_true ?_ (.inl (shape ▸ (places.created.mp made).2))
      obtain ⟨other, up, -, lines, -⟩ := inserts.grown made
      simp only [made, if_true] at soundAfter ⊢
      split
      next none =>
        rw [if_pos none] at soundAfter
        exact reportsOwner_tagNode sound soundAfter rfl rfl rfl lines before here
          (owner.symm.trans none)
      next some =>
        rw [if_neg some] at soundAfter
        refine reportsOwner_new soundAfter before here ?_ fun none => absurd none some
        rw [← owner, if_neg some]

/-- The tree after `Adjust` has moved its only file to the second KV. -/
def adjustedTree (path : Bytes) : PrefixTree :=
  ⟨.dir ⟨0, [], 0, 5, noDomain⟩ [.file ⟨1, path, 1, 5, 2⟩],
    [⟨1, 10, 0, []⟩, ⟨2, 10, 0, [1]⟩], [], 2⟩

theorem run_adjustedTree :
    Run (StepOf PrefixTree.call) .initial
      [.registNewKV 0 1 10, .registNewKV 0 2 10, .create [97] 1 false 5, .adjust 20 40]
      (adjustedTree [97]) :=
  run_of_exec rfl

/-- After `Adjust` has moved the file `a` to the second KV, a new file `b` gets that KV, too. -/
theorem create_reports_owner_neighbour :
    ∃ tree, Run (StepOf PrefixTree.call) .initial
        [.registNewKV 0 1 10, .registNewKV 0 2 10, .create [97] 1 false 5, .adjust 20 40] tree ∧
      (tree.create [98] 2 false 5).2.2 = 2 ∧
      ReportsOwner (tree.create [98] 2 false 5).2.1 (components [98])
        (tree.create [98] 2 false 5).2.2 :=
  ⟨adjustedTree [97], run_adjustedTree, by decide,
    (create_reports_owner run_adjustedTree [98] 2 false 5
      (Option.isSome_iff_exists.mp (by decide))).mpr (.inl (by decide))⟩

/-- In the same state `Create("a")` returns OK and -1, but the file belongs to the second KV. -/
theorem create_misses_own_domain :
    ∃ tree, Run (StepOf PrefixTree.call) .initial
        [.registNewKV 0 1 10, .registNewKV 0 2 10, .create [97] 1 false 5, .adjust 20 40] tree ∧
      (tree.create [97] 2 false 5).1 = .ok ∧
      (∃ node, (tree.create [97] 2 false 5).2.1.root.nodeAt (components [97]) = some node ∧
        node.info.domainId = 2) ∧
      (tree.create [97] 2 false 5).2.2 = noDomain ∧
      ¬ ReportsOwner (tree.create [97] 2 false 5).2.1 (components [97])
        (tree.create [97] 2 false 5).2.2 := by
  refine ⟨adjustedTree [97], run_adjustedTree, rfl, ⟨.file ⟨1, [97], 1, 5, 2⟩, rfl, rfl⟩, rfl, ?_⟩
  intro reports
  have first := reports.first
  revert first
  decide

end Ctgfs.Placement
