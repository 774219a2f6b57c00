import Ctgfs.Placement.Sizes
import Mathlib.Logic.Function.Basic

/-!
# What `Create` and `Remove` do at a path

A tree is a map from sequences of names to nodes.  `Create` adds at most the node at its path
and `Remove` takes at most that node away, whatever they return.
-/

namespace Ctgfs.Placement

open Foundation

variable {names rest : List Bytes}

namespace TreeNode

section Named

variable {list : List TreeNode} {node child : TreeNode} {name : Bytes}

theorem named_insertNode (absent : named list node.info.path = none) (name : Bytes) :
    named (insertNode list node) name =
      if name = node.info.path then some node else named list name := by
  rw [named, List.find?_eq_none] at absent
  split
  next same =>
    subst same
    exact find_insertNode fun child member => by simpa using absent child member
  next different =>
    have split :=
      list.takeWhile_append_dropWhile (p := fun child => child.info.path < node.info.path)
    have whole := congrArg (List.find? fun child => decide (child.info.path = name)) split
    rw [List.find?_append] at whole
    rw [named, insertNode, List.find?_append,
      List.find?_cons_of_neg (by simpa using Ne.symm different), whole]
    rfl

theorem named_replaceNode (listed : (named list node.info.path).isSome) (name : Bytes) :
    named (replaceNode list node) name =
      if name = node.info.path then some node else named list name := by
  have kept : (fun child : TreeNode => decide (child.info.path = name)) ∘
      (fun child => if child.info.path = node.info.path then node else child) =
      fun child : TreeNode => decide (child.info.path = name) := by
    funext child
    simp only [Function.comp_apply]
    split
    next same => rw [same]
    next => rfl
  rw [named, replaceNode, List.find?_map, kept]
  change (named list name).map _ = _
  split
  next same =>
    obtain ⟨child, found⟩ := Option.isSome_iff_exists.mp (same ▸ listed)
    rw [found, Option.map_some, if_pos ((named_eq_some found).2.trans same)]
  next different =>
    cases found : named list name with
    | none => rfl
    | some child =>
        rw [Option.map_some, if_neg fun same => different ((named_eq_some found).2.symm.trans same)]

theorem named_replaceNode_of_mark (found : named list name = some child)
    (mark : node.mark = child.mark) (other : Bytes) :
    named (replaceNode list node) other =
      if other = name then some node else named list other := by
  have path : node.info.path = name := (congrArg Mark.path mark).trans (named_eq_some found).2
  rw [named_replaceNode (by rw [path, found]; rfl), path]

theorem named_eraseNode (name : Bytes) :
    named (eraseNode list node) name =
      if name = node.info.path then none else named list name := by
  split
  next same =>
    rw [named, List.find?_eq_none]
    intro child member
    have other := (List.mem_filter.mp member).2
    simpa [same] using other
  next different =>
    rw [named, eraseNode, List.find?_filter, named]
    congr 1
    funext child
    by_cases here : child.info.path = name
    · simp [here, different]
    · simp [here]

end Named

variable (node : TreeNode)

def Open (names : List Bytes) : Prop :=
  ∀ before after, before ++ after = names → after ≠ [] →
    ∃ dir, node.nodeAt before = some dir ∧ dir.isDir = true

def markAt (names : List Bytes) : Option Mark := (node.nodeAt names).map mark

theorem Open.isDir {node : TreeNode} (opened : node.Open names) (proper : names ≠ []) :
    node.isDir = true := by
  obtain ⟨dir, here, isDir⟩ := opened [] names rfl proper
  obtain rfl := Option.some.inj here
  exact isDir

theorem open_cons {node : TreeNode} {name : Bytes} :
    node.Open (name :: rest) ↔ node.isDir = true ∧
      (rest ≠ [] → ∃ child, named node.getList name = some child ∧ child.Open rest) := by
  constructor
  · intro opened
    refine ⟨opened.isDir (List.cons_ne_nil _ _), fun more => ?_⟩
    obtain ⟨_, found, -⟩ := opened [name] rest rfl more
    rw [nodeAt_cons] at found
    obtain ⟨child, there, -⟩ := Option.bind_eq_some_iff.mp found
    refine ⟨child, there, fun before after whole proper => ?_⟩
    obtain ⟨dir, reached, isDir⟩ := opened (name :: before) after (by rw [← whole]; rfl) proper
    rw [nodeAt_cons, there] at reached
    exact ⟨dir, reached, isDir⟩
  · rintro ⟨isDir, deeper⟩ before after whole proper
    cases before with
    | nil => exact ⟨node, rfl, isDir⟩
    | cons first before =>
        obtain ⟨rfl, rfl⟩ := List.cons.inj whole
        obtain ⟨child, there, opened⟩ := deeper (List.append_ne_nil_of_right_ne_nil _ proper)
        rw [nodeAt_cons, there]
        exact opened before after rfl proper

theorem open_single {node : TreeNode} {name : Bytes} :
    node.Open [name] ↔ node.isDir = true := by
  rw [open_cons]
  exact ⟨And.left, fun isDir => ⟨isDir, fun more => absurd rfl more⟩⟩

theorem Open.take {node : TreeNode} (opened : node.Open names) (count : Nat) :
    node.Open (names.take count) := by
  intro before after whole proper
  refine opened before (after ++ names.drop count) ?_ (List.append_ne_nil_of_left_ne_nil proper _)
  rw [← List.append_assoc, whole, List.take_append_drop]

section MarkAt

variable {info : NodeInfo} {list changed : List TreeNode}

theorem markAt_nil (node : TreeNode) : node.markAt [] = some node.mark := rfl

theorem markAt_cons (node : TreeNode) (name : Bytes) (rest : List Bytes) :
    node.markAt (name :: rest) =
      (named node.getList name).bind fun child => child.markAt rest := by
  rw [markAt, nodeAt_cons, Option.map_bind]
  rfl

theorem markAt_eq_none {node : TreeNode} : node.markAt names = none ↔ node.nodeAt names = none :=
  Option.map_eq_none_iff

theorem markAt_bare {node : TreeNode} (bare : node.getList = []) (below : names ≠ []) :
    node.markAt names = none := by
  obtain ⟨name, rest, rfl⟩ := List.exists_cons_of_ne_nil below
  rw [markAt_cons, bare]
  rfl

theorem markAt_pushUp {name : Bytes} {replacement : Option TreeNode} {new : Option Mark}
    (children : ∀ other,
      named changed other = if other = name then replacement else named list other)
    (own : ∀ others, (replacement.bind fun child => child.markAt others) =
      if others = rest then new else (named list name).bind fun child => child.markAt others)
    (names : List Bytes) :
    (pushUp info changed).markAt names =
      if names = name :: rest then new else (dir info list).markAt names := by
  cases names with
  | nil => rfl
  | cons other more =>
      rw [markAt_cons, markAt_cons]
      change (named changed other).bind _ = if _ then _ else (named list other).bind _
      rw [children]
      by_cases same : other = name
      · subst same
        rw [if_pos rfl, own]
        simp only [List.cons.injEq, true_and]
      · rw [if_neg same, if_neg fun equal => same (List.cons.inj equal).1]

theorem markAt_pushUp_self (names : List Bytes) :
    (pushUp info list).markAt names = (dir info list).markAt names := by
  cases names with
  | nil => rfl
  | cons name rest => rfl

end MarkAt

section Insert

variable {address : Address} {ino : UInt64} {isDir : Bool} {nodeSz : UInt64}

structure InsertsAt (node : TreeNode) (names : List Bytes) (new : Bytes → Mark)
    (result : Insertion) : Prop where
  created : result.created = true ↔ node.Open names ∧ node.nodeAt names = none
  marks : ∃ name, ∀ others, result.node.markAt others =
    if others = names then (if result.created then some (new name) else node.markAt names)
    else node.markAt others

theorem InsertsAt.unchanged {node : TreeNode} {new : Bytes → Mark} {result : Insertion}
    (kept : result.created = false)
    (same : ∀ others, result.node.markAt others = node.markAt others)
    (because : ¬ (node.Open names ∧ node.nodeAt names = none)) :
    InsertsAt node names new result where
  created := by simpa [kept] using because
  marks := by
    refine ⟨[], fun others => ?_⟩
    rw [kept, same]
    split
    next here => rw [here, if_neg Bool.false_ne_true]
    next => rfl

theorem InsertsAt.child {info : NodeInfo} {list : List TreeNode} {name : Bytes} (status : Status)
    (domainId : Int) (missing : named list name = none) :
    InsertsAt (dir info list) [name] (fun name => ⟨address, name, ino, isDir, noDomain⟩)
      ⟨status, pushUp info (insertNode list (create address name ino isDir nodeSz)), domainId,
        true⟩ := by
  have own := info_create address name ino isDir nodeSz
  have children : ∀ other, named (insertNode list (create address name ino isDir nodeSz)) other =
      if other = name then some (create address name ino isDir nodeSz) else named list other := by
    intro other
    rw [named_insertNode (by rw [own]; exact missing), own]
  constructor
  · refine iff_of_true rfl ⟨open_single.mpr rfl, ?_⟩
    rw [nodeAt_cons]
    exact congrArg (Option.bind · _) missing
  · refine ⟨name, markAt_pushUp children fun others => ?_⟩
    rw [missing]
    cases others with
    | nil => cases isDir <;> rfl
    | cons other rest => exact markAt_bare (by cases isDir <;> rfl) (List.cons_ne_nil _ _)

theorem InsertsAt.below {info : NodeInfo} {list : List TreeNode} {name : Bytes} {child : TreeNode}
    {new : Bytes → Mark} {result : Insertion} (status : Status)
    (found : named list name = some child) (more : rest ≠ []) (mark : result.node.mark = child.mark)
    (inserted : InsertsAt child rest new result) :
    InsertsAt (dir info list) (name :: rest) new
      ⟨status, pushUp info (replaceNode list result.node), result.domainId, result.created⟩ := by
  constructor
  · rw [inserted.created, open_cons, nodeAt_cons]
    simp only [getList, found, Option.some.injEq, exists_eq_left', Option.bind_some, isDir,
      true_and, more, ne_eq, not_false_eq_true, forall_const]
  · obtain ⟨last, marks⟩ := inserted.marks
    refine ⟨last, markAt_pushUp (named_replaceNode_of_mark found mark) fun others => ?_⟩
    rw [found, Option.bind_some, Option.bind_some, marks, markAt_cons]
    simp only [getList, found, Option.bind_some]

theorem doInsert_at (calls : Nat) {node : TreeNode} (ordered : node.Ordered) {path : Bytes}
    (enough : path.length < calls) (domainId : Int) :
    InsertsAt node (components path) (fun name => ⟨address, name, ino, isDir, noDomain⟩)
      (doInsert address ino isDir nodeSz calls node path domainId) := by
  induction calls generalizing node path domainId with
  | zero => exact absurd enough (Nat.not_lt_zero _)
  | succ calls ih =>
      cases node with
      | file info =>
          refine .unchanged rfl (fun _ => rfl) fun both => ?_
          exact Bool.false_ne_true (both.1.isDir (components_ne_nil path))
      | dir info list =>
          obtain ⟨siblings, below⟩ := ordered_dir.mp ordered
          simp only [doInsert, siblings.childAt_eq]
          split
          next missing =>
            split
            next more =>
              -- a directory on the way is missing
              refine .unchanged rfl (fun _ => rfl) fun both => ?_
              rw [(components_split more).1, open_cons] at both
              obtain ⟨child, found, -⟩ := both.1.2 (components_ne_nil _)
              exact Option.some_ne_none _ (found.symm.trans missing)
            next last =>
              rw [components_single (Bool.eq_false_iff.mpr last)]
              exact .child _ _ missing
          next child found =>
            split
            next more =>
              obtain ⟨shape, shorter⟩ := components_split more
              split
              next =>
                have ordered := below child (named_eq_some found).1
                rw [shape]
                exact .below _ found (components_ne_nil _)
                  (doInsert_inserts calls ordered _ _).mark
                  (ih ordered (by omega) _)
              next file =>
                -- there is a file on the way
                refine .unchanged rfl (fun _ => rfl) fun both => ?_
                rw [shape, open_cons] at both
                obtain ⟨other, there, opened⟩ := both.1.2 (components_ne_nil _)
                obtain rfl := Option.some.inj (found.symm.trans there)
                exact file (opened.isDir (components_ne_nil _))
            next last =>
              refine .unchanged rfl markAt_pushUp_self fun both => ?_
              rw [components_single (Bool.eq_false_iff.mpr last), nodeAt_cons] at both
              change _ ∧ (named list _).bind _ = none at both
              rw [found] at both
              exact Option.some_ne_none _ both.2

theorem status_doInsert (calls : Nat) {node : TreeNode} (ordered : node.Ordered) (path : Bytes)
    (domainId : Int) :
    (doInsert address ino isDir nodeSz (calls + 1) node path domainId).status = .ok ↔
      node.Open ((components path).take 2) := by
  cases node with
  | file info =>
      refine iff_of_false Status.noConfusion fun opened => ?_
      have proper : (components path).take 2 ≠ [] := by simp [components_ne_nil path]
      exact Bool.false_ne_true (opened.isDir proper)
  | dir info list =>
      simp only [doInsert, (ordered_dir.mp ordered).1.childAt_eq]
      cases more : (splitPath path).1 with
      | false =>
          rw [components_single more]
          refine iff_of_true ?_ (open_single.mpr rfl)
          split <;> rfl
      | true =>
          obtain ⟨next, rest, shape⟩ := List.exists_cons_of_ne_nil
            (components_ne_nil (splitPath path).2.2)
          rw [(components_split more).1, shape, List.take_succ_cons, List.take_succ_cons,
            List.take_zero, open_cons]
          simp only [open_single, getList]
          cases found : named list (splitPath path).2.1 with
          | none => simp
          | some child =>
              have root : (TreeNode.dir info list).isDir = true := rfl
              cases kind : child.isDir <;> simp [kind, root]

end Insert

def entryAt (names : List Bytes) : Option (Address × Bool × UInt64) :=
  (node.nodeAt names).map fun found => (found.info.address, found.isDir, found.info.ino)

theorem entryAt_eq (names : List Bytes) :
    node.entryAt names =
      (node.markAt names).map fun mark => (mark.address, mark.isDir, mark.ino) := by
  rw [markAt, Option.map_map]
  rfl

theorem entryAt_mapInfo {change : NodeInfo → NodeInfo} (retags : PrefixTree.Retags change)
    (node : TreeNode) (names : List Bytes) :
    (node.mapInfo change).entryAt names = node.entryAt names := by
  rw [entryAt, nodeAt_mapInfo (fun info => by rw [retags]), Option.map_map, entryAt]
  congr 1
  funext found
  rw [Function.comp_apply, info_mapInfo, isDir_mapInfo, retags]

end TreeNode

/-- What a call of `Create` should do to the nodes. -/
structure CreatesFaithfully (before : TreeNode) (names : List Bytes) (status : Status)
    (after : TreeNode) : Prop where
  present : status = .ok → ∃ node, after.nodeAt names = some node
  kept : status = .ok → ∀ others entry, before.entryAt others = some entry →
    after.entryAt others = some entry
  alone : status = .ok → ∀ others, others ≠ names → before.entryAt others = none →
    after.entryAt others = none
  unchanged : status ≠ .ok → ∀ others, after.entryAt others = before.entryAt others
  refused : ¬ before.Open names → status ≠ .ok

section Create

variable {tree : PrefixTree}

theorem entryAt_create (sound : Sound tree) (path : Bytes) (ino : UInt64) (isDir : Bool)
    (nodeSz : UInt64) :
    ∃ created : Bool, (created = true ↔ tree.root.Open (components path) ∧
        tree.root.nodeAt (components path) = none) ∧
      ∀ others, (tree.create path ino isDir nodeSz).2.1.root.entryAt others =
        if created = true ∧ others = components path then some (tree.next, isDir, ino)
        else tree.root.entryAt others := by
  obtain ⟨change, retags, -, root⟩ := tree.root_create path ino isDir nodeSz
  have inserts := @TreeNode.doInsert_at tree.next ino isDir nodeSz (path.length + 1) tree.root
    sound.ordered path (Nat.lt_succ_self _) noDomain
  obtain ⟨name, marks⟩ := inserts.marks
  refine ⟨_, inserts.created, fun others => ?_⟩
  rw [root, TreeNode.entryAt_mapInfo retags, TreeNode.entryAt_eq, marks]
  split
  next here =>
    subst here
    split
    next made => simp [made]
    next kept => simp [kept, TreeNode.entryAt_eq]
  next elsewhere => rw [if_neg fun both => elsewhere both.2, TreeNode.entryAt_eq]

theorem status_create (sound : Sound tree) (path : Bytes) (ino : UInt64) (isDir : Bool)
    (nodeSz : UInt64) : (tree.create path ino isDir nodeSz).1 = .ok ↔
      tree.root.Open ((components path).take 2) := by
  obtain ⟨change, -, status, -⟩ := tree.root_create path ino isDir nodeSz
  rw [status]
  exact TreeNode.status_doInsert path.length sound.ordered path noDomain

/-- `Create` is faithful if and only if no directory is missing below the first two levels: the
status of the inner calls is dropped. -/
theorem create_faithful {calls : List TreeCall}
    (run : Run (StepOf PrefixTree.call) .initial calls tree) (path : Bytes) (ino : UInt64)
    (isDir : Bool) (nodeSz : UInt64) :
    CreatesFaithfully tree.root (components path) (tree.create path ino isDir nodeSz).1
        (tree.create path ino isDir nodeSz).2.1.root ↔
      (tree.root.Open ((components path).take 2) → tree.root.Open (components path)) := by
  have sound := sound_of_run run
  obtain ⟨created, made, entries⟩ := entryAt_create sound path ino isDir nodeSz
  have status := status_create sound path ino isDir nodeSz
  constructor
  · intro faithful begun
    by_contra closed
    exact faithful.refused closed (status.mpr begun)
  · intro opens
    have opened : (tree.create path ino isDir nodeSz).1 = .ok →
        tree.root.Open (components path) := fun ok => opens (status.mp ok)
    refine ⟨fun ok => ?_, fun ok others entry here => ?_, fun ok others elsewhere missing => ?_,
      fun error others => ?_, fun closed ok => closed (opened ok)⟩
    · have here := entries (components path)
      cases found : tree.root.nodeAt (components path) with
      | none =>
          rw [if_pos ⟨made.mpr ⟨opened ok, found⟩, rfl⟩] at here
          obtain ⟨node, there, -⟩ := Option.map_eq_some_iff.mp here
          exact ⟨node, there⟩
      | some old =>
          rw [if_neg fun new => Option.some_ne_none old (found.symm.trans (made.mp new.1).2),
            TreeNode.entryAt, TreeNode.entryAt, found] at here
          obtain ⟨node, there, -⟩ := Option.map_eq_some_iff.mp here
          exact ⟨node, there⟩
    · obtain ⟨old, there, -⟩ := Option.map_eq_some_iff.mp here
      rw [entries, if_neg, here]
      rintro ⟨new, rfl⟩
      exact Option.some_ne_none old (there.symm.trans (made.mp new).2)
    · rw [entries, if_neg fun new => elsewhere new.2, missing]
    · have closed : ¬ tree.root.Open (components path) :=
        fun opened => error (status.mpr (opened.take 2))
      rw [entries, if_neg fun new => closed (made.mp new.1).1]

/-- `Create("a/b")` below the directory `a`. -/
theorem create_faithful_nested :
    ∃ tree, Run (StepOf PrefixTree.call) .initial
        [.registNewKV 0 1 10, .create [97] 1 true 0] tree ∧
      CreatesFaithfully tree.root (components [97, 47, 98])
        (tree.create [97, 47, 98] 2 false 5).1 (tree.create [97, 47, 98] 2 false 5).2.1.root := by
  obtain ⟨tree, executed⟩ : ∃ tree, exec PrefixTree.call .initial
      [.registNewKV 0 1 10, .create [97] 1 true 0] = some tree :=
    Option.isSome_iff_exists.mp (by decide +kernel)
  have run := run_of_exec executed
  exact ⟨tree, run, (create_faithful run [97, 47, 98] 2 false 5).mpr id⟩

/-- `Create("a/b/c")` with a directory `a` that has no `b` returns OK, and creates nothing. -/
theorem create_drops_status :
    ∃ tree, Run (StepOf PrefixTree.call) .initial
        [.registNewKV 0 1 10, .create [97] 1 true 0] tree ∧
      (tree.create [97, 47, 98, 47, 99] 2 false 5).1 = .ok ∧
      ¬ CreatesFaithfully tree.root (components [97, 47, 98, 47, 99])
        (tree.create [97, 47, 98, 47, 99] 2 false 5).1
        (tree.create [97, 47, 98, 47, 99] 2 false 5).2.1.root := by
  refine ⟨_, run_of_exec rfl, rfl, fun faithful => ?_⟩
  obtain ⟨node, found⟩ := faithful.present rfl
  exact Option.some_ne_none node (found.symm.trans rfl)

end Create

namespace TreeNode

section Remove

structure RemovesAt (node : TreeNode) (names : List Bytes)
    (result : Status × TreeNode × Option TreeNode) : Prop where
  ok : result.1 = .ok ↔ ∃ found, node.nodeAt names = some found ∧ found.getList = []
  marks : result.1 = .ok → ∀ others, result.2.1.markAt others =
    if others = names then none else node.markAt others
  unchanged : result.1 ≠ .ok → result.2 = (node, none)

theorem RemovesAt.refused {node : TreeNode}
    (because : ¬ ∃ found, node.nodeAt names = some found ∧ found.getList = []) :
    RemovesAt node names (.prefixTreeError, node, none) where
  ok := iff_of_false Status.noConfusion because
  marks := Status.noConfusion
  unchanged _ := rfl

theorem nodeAt_single (node : TreeNode) (name : Bytes) :
    node.nodeAt [name] = named node.getList name := by
  rw [nodeAt_cons]
  exact Option.bind_fun_some _

variable {info : NodeInfo} {list : List TreeNode} {name : Bytes}

theorem pushUp_exact (exact : (dir info list).Exact) : pushUp info list = dir info list := by
  have sum := (exact_dir.mp exact).1
  rw [sumSizes] at sum
  rw [pushUp, ← sum]

theorem RemovesAt.child {child : TreeNode} (found : named list name = some child)
    (bare : child.getList = []) :
    RemovesAt (dir info list) [name] (.ok, pushUp info (eraseNode list child), some child) where
  ok := iff_of_true rfl ⟨child, (nodeAt_single _ _).trans found, bare⟩
  marks _ := by
    have children : ∀ other, named (eraseNode list child) other =
        if other = name then none else named list other := by
      intro other
      rw [named_eraseNode, (named_eq_some found).2]
    refine markAt_pushUp children fun others => ?_
    rw [found, Option.bind_some, Option.bind_none]
    split
    next => rfl
    next below => exact (markAt_bare bare below).symm
  unchanged error := absurd rfl error

theorem RemovesAt.below {child : TreeNode} {result : Status × TreeNode × Option TreeNode}
    (ordered : (dir info list).Ordered) (exact : (dir info list).Exact)
    (found : named list name = some child) (mark : result.2.1.mark = child.mark)
    (removed : RemovesAt child rest result) :
    RemovesAt (dir info list) (name :: rest)
      (result.1, pushUp info (replaceNode list result.2.1), result.2.2) := by
  refine ⟨?_, fun ok => ?_, fun error => ?_⟩
  · rw [removed.ok, nodeAt_cons]
    simp only [getList, found, Option.bind_some]
  · refine markAt_pushUp (named_replaceNode_of_mark found mark) fun others => ?_
    rw [found, Option.bind_some, Option.bind_some, removed.marks ok]
  · obtain ⟨before, after, shape, -, replaced⟩ := (ordered_dir.mp ordered).1.place
      (named_eq_some found).1
    rw [removed.unchanged error, replaced child rfl, ← shape, pushUp_exact exact]

theorem doRemove_at (calls : Nat) {node : TreeNode} (ordered : node.Ordered) (exact : node.Exact)
    {path : Bytes} (enough : path.length < calls) :
    RemovesAt node (components path) (doRemove calls node path) := by
  induction calls generalizing node path with
  | zero => exact absurd enough (Nat.not_lt_zero _)
  | succ calls ih =>
      cases node with
      | file info =>
          refine .refused ?_
          obtain ⟨name, rest, shape⟩ := List.exists_cons_of_ne_nil (components_ne_nil path)
          rw [shape]
          rintro ⟨found, there, -⟩
          cases there
      | dir info list =>
          obtain ⟨siblings, below⟩ := ordered_dir.mp ordered
          simp only [doRemove, siblings.childAt_eq]
          split
          next missing =>
            refine .refused ?_
            rintro ⟨found, there, -⟩
            obtain ⟨name, rest, shape, here⟩ : ∃ name rest, components path = name :: rest ∧
                named list name = none := by
              cases more : (splitPath path).1 with
              | false => exact ⟨_, _, components_single more, missing⟩
              | true => exact ⟨_, _, (components_split more).1, missing⟩
            rw [shape, nodeAt_cons] at there
            change (named list name).bind _ = some found at there
            rw [here] at there
            cases there
          next child found =>
            have listed := (named_eq_some found).1
            split
            next more =>
              obtain ⟨shape, shorter⟩ := components_split more
              have inner := below child listed
              rw [shape]
              exact .below ordered exact found (doRemove_removes calls inner _).mark
                (ih inner ((exact_dir.mp exact).2 child listed) (by omega))
            next last =>
              rw [components_single (Bool.eq_false_iff.mpr last)]
              split
              next children =>
                refine .refused ?_
                rintro ⟨other, there, bare⟩
                rw [nodeAt_single] at there
                obtain rfl := Option.some.inj (found.symm.trans there)
                exact children (List.length_eq_zero_iff.mpr bare)
              next bare =>
                exact .child found (List.length_eq_zero_iff.mp (not_not.mp bare))

end Remove

end TreeNode

structure RemovesExactly (before : PrefixTree) (names : List Bytes) (status : Status)
    (after : PrefixTree) : Prop where
  ok : status = .ok ↔ ∃ node, before.root.nodeAt names = some node ∧
    (node.isDir = false ∨ node.getList = [])
  gone : status = .ok → after.root.nodeAt names = none
  others : status = .ok → ∀ others, others ≠ names →
    after.root.markAt others = before.root.markAt others
  unchanged : status ≠ .ok → after = before

/-- `Remove` takes exactly a file or an empty directory away, or it changes nothing. -/
theorem remove_exact {tree : PrefixTree} {calls : List TreeCall}
    (run : Run (Guarded (StepOf PrefixTree.call) fun _ call => call.Sized) .initial calls tree)
    (path : Bytes) :
    RemovesExactly tree (components path) (tree.remove path).1 (tree.remove path).2 := by
  have sound := sound_of_run (run.mono fun _ _ _ taken => taken.2)
  have removed := TreeNode.doRemove_at (path.length + 1) sound.ordered (exact_of_run run).1
    (Nat.lt_succ_self path.length)
  simp only [PrefixTree.remove]
  generalize tree.root.doRemove (path.length + 1) path = result at removed ⊢
  obtain ⟨status, root, taken⟩ := result
  refine ⟨?_, fun ok => ?_, fun ok others elsewhere => ?_, fun error => ?_⟩
  · have bare (node : TreeNode) :
        (node.isDir = false ∨ node.getList = []) ↔ node.getList = [] := by
      cases node <;> simp [TreeNode.isDir, TreeNode.getList]
    simp only [bare]
    exact removed.ok
  · rw [← TreeNode.markAt_eq_none]
    exact (removed.marks ok _).trans (if_pos rfl)
  · exact (removed.marks ok others).trans (if_neg elsewhere)
  · obtain ⟨rfl, rfl⟩ := Prod.mk.inj (removed.unchanged error)
    rfl

/-- A directory with a file is not removed, and then the file is. -/
theorem remove_exact_nested :
    ∃ tree, Run (Guarded (StepOf PrefixTree.call) fun _ call => call.Sized) .initial
        [.create [97] 1 true 0, .create [97, 47, 98] 2 false 5, .remove [97]] tree ∧
      (tree.remove [97, 47, 98]).1 = .ok ∧
      RemovesExactly tree (components [97, 47, 98]) (tree.remove [97, 47, 98]).1
        (tree.remove [97, 47, 98]).2 := by
  have run : Run (Guarded (StepOf PrefixTree.call) fun _ call => call.Sized) .initial
      [.create [97] 1 true 0, .create [97, 47, 98] 2 false 5, .remove [97]] _ :=
    guarded_of_exec rfl (meets_of_forall (by simp [TreeCall.Sized]) _)
  exact ⟨_, run, rfl, remove_exact run [97, 47, 98]⟩

end Ctgfs.Placement
