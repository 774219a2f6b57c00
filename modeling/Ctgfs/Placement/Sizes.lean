import Ctgfs.Placement.Reachable
import Mathlib.Algebra.BigOperators.Group.List.Basic

/-!
# The sizes of subtrees

The size of a directory is only ever set by `pushUp`, on the way back of an insertion or a
removal, also of one that fails.  Since a new directory is created with the size 0, every
directory has the sizes of the files below it, modulo 2^64.
-/

namespace Ctgfs.Placement

open Foundation

namespace TreeNode

def sumSizes (list : List TreeNode) : UInt64 :=
  list.foldl (fun sz child => sz + child.info.sz) 0

def Exact (node : TreeNode) : Prop :=
  ∀ dir ∈ node.nodes, dir.isDir = true → dir.info.sz = sumSizes dir.getList

def fileSizes (node : TreeNode) : Nat :=
  ((node.nodes.filter fun other => !other.isDir).map fun file => file.info.sz.toNat).sum

theorem toNat_sumSizes (list : List TreeNode) :
    (sumSizes list).toNat = (list.map fun child => child.info.sz.toNat).sum % 2 ^ 64 := by
  suffices general : ∀ sz : UInt64,
      (list.foldl (fun sz child => sz + child.info.sz) sz).toNat =
        (sz.toNat + (list.map fun child => child.info.sz.toNat).sum) % 2 ^ 64 by
    simpa [sumSizes] using general 0
  induction list with
  | nil =>
      intro sz
      simp [Nat.mod_eq_of_lt sz.toNat_lt]
  | cons child rest ih =>
      intro sz
      rw [List.foldl_cons, ih, UInt64.toNat_add, List.map_cons, List.sum_cons,
        Nat.mod_add_mod, Nat.add_assoc]

theorem exact_file (info : NodeInfo) : (file info).Exact := by
  intro dir member isDir
  obtain rfl := List.mem_singleton.mp member
  cases isDir

variable {list : List TreeNode} {info : NodeInfo}

theorem exact_dir :
    (dir info list).Exact ↔ info.sz = sumSizes list ∧ ∀ child ∈ list, child.Exact := by
  constructor
  · intro exact
    refine ⟨exact _ (self_mem_nodes _) rfl, fun child listed node inside => ?_⟩
    exact exact node (mem_nodes.mpr (.inr ⟨child, listed, inside⟩))
  · rintro ⟨sum, below⟩ node member
    obtain rfl | ⟨child, listed, inside⟩ := mem_nodes.mp member
    · exact fun _ => sum
    · exact below child listed node inside

theorem exact_pushUp (below : ∀ child ∈ list, child.Exact) : (pushUp info list).Exact :=
  exact_dir.mpr ⟨rfl, below⟩

variable {node : TreeNode}

theorem exact_replace (below : ∀ child ∈ list, child.Exact) (replaced : node.Exact) :
    (pushUp info (replaceNode list node)).Exact := by
  apply exact_pushUp
  intro child member
  obtain ⟨old, listed, rfl⟩ := List.mem_map.mp member
  split
  · exact replaced
  · exact below old listed

theorem exact_create (address : Address) (path : Bytes) (ino : UInt64) {isDir : Bool} {sz : UInt64}
    (empty : isDir = true → sz = 0) : (create address path ino isDir sz).Exact := by
  cases isDir with
  | false => exact exact_file _
  | true => exact exact_dir.mpr ⟨empty rfl, by rintro child ⟨⟩⟩

section Edits

variable {address : Address} {ino : UInt64} {isDir : Bool} {nodeSz : UInt64}

theorem exact_doInsert (empty : isDir = true → nodeSz = 0) (calls : Nat) (exact : node.Exact)
    (path : Bytes) (domainId : Int) :
    (doInsert address ino isDir nodeSz calls node path domainId).node.Exact := by
  induction calls generalizing node path domainId with
  | zero => exact exact
  | succ calls ih =>
      cases node with
      | file info => exact exact
      | dir info list =>
          have below := (exact_dir.mp exact).2
          simp only [doInsert]
          split
          next =>
            split
            · exact exact
            · apply exact_pushUp
              intro child member
              obtain rfl | old := mem_insertNode.mp member
              · exact exact_create _ _ _ empty
              · exact below child old
          next child found =>
            split
            · split
              · exact exact_replace below
                  (ih (below child (childAt_eq_some found).1) _ _)
              · exact exact
            · exact exact_pushUp below

theorem exact_doRemove (calls : Nat) (exact : node.Exact) (path : Bytes) :
    (doRemove calls node path).2.1.Exact ∧
      ∀ taken, (doRemove calls node path).2.2 = some taken → taken.Exact := by
  induction calls generalizing node path with
  | zero => exact ⟨exact, by rintro taken ⟨⟩⟩
  | succ calls ih =>
      cases node with
      | file info => exact ⟨exact, by rintro taken ⟨⟩⟩
      | dir info list =>
          have below := (exact_dir.mp exact).2
          simp only [doRemove]
          split
          next => exact ⟨exact, by rintro taken ⟨⟩⟩
          next child found =>
            have listed := (childAt_eq_some found).1
            split
            · obtain ⟨rest, removed⟩ := ih (below child listed)
                (splitPath path).2.2
              exact ⟨exact_replace below rest, removed⟩
            · split
              · exact ⟨exact, by rintro taken ⟨⟩⟩
              · refine ⟨exact_pushUp fun other member => ?_, ?_⟩
                · exact below other (List.mem_filter.mp member).1
                · rintro taken ⟨⟩
                  exact below _ listed

end Edits

theorem sumSizes_retag (domain : Address → Int → Int) (list : List TreeNode) :
    sumSizes (list.map (retag domain)) = sumSizes list := by
  rw [sumSizes, List.foldl_map]
  simp only [retag, info_mapInfo]
  rfl

theorem Exact.retag (exact : node.Exact) (domain : Address → Int → Int) :
    (node.retag domain).Exact := by
  rw [Exact, nodes_retag]
  intro dir member isDir
  obtain ⟨old, inside, rfl⟩ := List.mem_map.mp member
  rw [getList_retag, sumSizes_retag, ← exact old inside (by simpa [TreeNode.retag] using isDir)]
  simp [TreeNode.retag]

theorem fileSizes_dir (info : NodeInfo) (list : List TreeNode) :
    (dir info list).fileSizes = (list.map fileSizes).sum := by
  rw [fileSizes, nodes_eq, List.filter_cons_of_neg (by simp [isDir])]
  change ((list.flatMap nodes).filter _ |>.map _).sum = _
  induction list with
  | nil => rfl
  | cons child rest ih =>
      rw [List.flatMap_cons, List.filter_append, List.map_append, List.sum_append,
        ih, List.map_cons, List.sum_cons]
      rfl

theorem Exact.toNat_sz (exact : node.Exact) : node.info.sz.toNat = node.fileSizes % 2 ^ 64 := by
  induction node with
  | file info =>
      have small := info.sz.toNat_lt
      simp only [fileSizes, nodes, isDir, List.filter_cons_of_pos, List.filter_nil, List.map_cons,
        List.map_nil, List.sum_cons, List.sum_nil, Nat.add_zero, Bool.not_false]
      exact (Nat.mod_eq_of_lt small).symm
  | dir info list ih =>
      obtain ⟨sum, below⟩ := exact_dir.mp exact
      rw [fileSizes_dir, List.sum_nat_mod, List.map_map]
      change info.sz.toNat = _
      rw [sum, toNat_sumSizes]
      congr 2
      exact List.map_congr_left fun child listed => ih child listed
        (below child listed)

end TreeNode

def PrefixTree.Exact (tree : PrefixTree) : Prop :=
  tree.root.Exact ∧ ∀ node ∈ tree.removed, node.Exact

variable {tree after : PrefixTree}

theorem RetaggedBy.exact {domain : Address → Int → Int} (retagged : RetaggedBy domain tree after)
    (exact : tree.Exact) : after.Exact := by
  refine ⟨retagged.root ▸ exact.1.retag domain, ?_⟩
  rw [retagged.removed]
  intro node member
  obtain ⟨old, outside, rfl⟩ := List.mem_map.mp member
  exact (exact.2 old outside).retag domain

theorem PrefixTree.Exact.create (exact : tree.Exact) (path : Bytes) (ino : UInt64) {isDir : Bool}
    {nodeSz : UInt64} (empty : isDir = true → nodeSz = 0) :
    (tree.create path ino isDir nodeSz).2.1.Exact := by
  have inserted : (TreeNode.doInsert tree.next ino isDir nodeSz (path.length + 1) tree.root path
      noDomain).node.Exact := TreeNode.exact_doInsert empty _ exact.1 path noDomain
  simp only [PrefixTree.create]
  split
  · split
    · refine ⟨?_, exact.2⟩
      simp only [PrefixTree.tagNode, TreeNode.setDomainId_eq_retag]
      exact inserted.retag _
    · exact ⟨inserted, exact.2⟩
  · exact ⟨inserted, exact.2⟩

theorem PrefixTree.Exact.remove (exact : tree.Exact) (path : Bytes) :
    (tree.remove path).2.Exact := by
  obtain ⟨root, taken⟩ := TreeNode.exact_doRemove (path.length + 1) exact.1 path
  refine ⟨root, fun node member => ?_⟩
  obtain out | old := List.mem_append.mp member
  · exact taken node (Option.mem_toList.mp out)
  · exact exact.2 node old

theorem PrefixTree.Exact.registNewKV (exact : tree.Exact) (pastEnd id : Int) (sumMemory : UInt64) :
    (tree.registNewKV pastEnd id sumMemory).Exact := by
  have registers := tree.registers_registNewKV pastEnd id sumMemory
  generalize tree.registNewKV pastEnd id sumMemory = after at registers ⊢
  cases registers with
  | first =>
      refine ⟨?_, exact.2⟩
      dsimp only
      rw [TreeNode.setDomainId_eq_retag]
      exact exact.1.retag _
  | later => exact exact

theorem PrefixTree.Exact.adjust {turns : Nat} {targetScore : Int} {moves : List Move}
    (exact : tree.Exact) (adjusted : tree.adjust turns targetScore = some (after, moves)) :
    after.Exact := by
  refine PrefixTree.adjust_invariant (fun state next exact turn => ?_) exact adjusted
  obtain ⟨domain, retagged⟩ := turn.retagged
  exact retagged.exact exact

def TreeCall.Sized : TreeCall → Prop
  | .create _ _ isDir nodeSz => isDir = true → nodeSz = 0
  | .registNewKV _ _ _ | .remove _ | .adjust _ _ => True

theorem PrefixTree.Exact.call {call : TreeCall} (exact : tree.Exact) (sized : call.Sized)
    (returned : tree.call call = some after) : after.Exact := by
  cases PrefixTree.called_of_call returned with
  | registNewKV pastEnd id sumMemory => exact exact.registNewKV pastEnd id sumMemory
  | create path ino isDir nodeSz => exact exact.create path ino sized
  | remove path => exact exact.remove path
  | adjust adjusted => exact exact.adjust adjusted

theorem exact_of_run {calls : List TreeCall}
    (run : Run (Guarded (StepOf PrefixTree.call) fun _ call => call.Sized) .initial calls tree) :
    tree.Exact := by
  refine run.invariant PrefixTree.Exact ⟨?_, by rintro node ⟨⟩⟩
    fun _ _ _ exact taken => exact.call taken.1 taken.2
  exact @TreeNode.exact_create 0 [] 0 true 0 fun _ => rfl

/-- Every directory of a tree has the sizes of its children, and so those of the files below. -/
structure SizesExact (root : TreeNode) : Prop where
  children : ∀ dir ∈ root.nodes, dir.isDir = true →
    dir.info.sz.toNat = (dir.getList.map fun child => child.info.sz.toNat).sum % 2 ^ 64
  files : ∀ dir ∈ root.nodes, dir.isDir = true → dir.info.sz.toNat = dir.fileSizes % 2 ^ 64

/-- In every run the sizes are exact after each call. -/
theorem sizes_exact_after_calls {calls : List TreeCall}
    (run : Run (Guarded (StepOf PrefixTree.call) fun _ call => call.Sized) .initial calls tree) :
    SizesExact tree.root := by
  obtain ⟨exact, -⟩ := exact_of_run run
  constructor
  · intro dir inside isDir
    rw [exact dir inside isDir, TreeNode.toNat_sumSizes]
  · intro dir inside _
    have below : dir.Exact := fun other member =>
      exact other ((TreeNode.nodes_sublist inside).subset member)
    exact below.toNat_sz

/-- A file two levels down, a directory whose removal fails, and an adjustment. -/
theorem sizes_exact_after_calls_nested :
    ∃ tree, Run (Guarded (StepOf PrefixTree.call) fun _ call => call.Sized) .initial
        [.registNewKV 0 1 10, .registNewKV 0 2 10, .create [97] 1 true 0,
          .create [97, 47, 98] 2 false 5, .remove [97], .adjust 20 40] tree ∧
      SizesExact tree.root := by
  obtain ⟨tree, executed⟩ : ∃ tree, exec PrefixTree.call .initial
      [.registNewKV 0 1 10, .registNewKV 0 2 10, .create [97] 1 true 0,
        .create [97, 47, 98] 2 false 5, .remove [97], .adjust 20 40] = some tree :=
    Option.isSome_iff_exists.mp (by decide +kernel)
  have run : Run (Guarded (StepOf PrefixTree.call) fun _ call => call.Sized) .initial
      [.registNewKV 0 1 10, .registNewKV 0 2 10, .create [97] 1 true 0,
        .create [97, 47, 98] 2 false 5, .remove [97], .adjust 20 40] tree :=
    guarded_of_exec executed (meets_of_forall (by simp [TreeCall.Sized]) _)
  exact ⟨tree, run, sizes_exact_after_calls run⟩

end Ctgfs.Placement
