import Ctgfs.Placement.Reachable

/-!
# The turns of `Adjust` in any run

A list covers an amount of the tree, and a move takes the amount of a node from one list to
another.  Every KV has memory, so that the scores can be calculated.
-/

namespace Ctgfs.Placement

open Foundation

def PrefixTree.Funded (tree : PrefixTree) : Prop := ∀ kv ∈ tree.kvList, kv.sumMemory ≠ 0

theorem PrefixTree.Funded.congr {tree after : PrefixTree} (funded : tree.Funded)
    (sums : after.kvList.map KVInfo.sumMemory = tree.kvList.map KVInfo.sumMemory) :
    after.Funded := by
  intro kv member
  have sum : kv.sumMemory ∈ tree.kvList.map KVInfo.sumMemory :=
    sums ▸ List.mem_map_of_mem member
  obtain ⟨old, before, same⟩ := List.mem_map.mp sum
  exact same ▸ funded old before

theorem exists_calculateScore (curSum : UInt64) {allSum : UInt64} (memory : allSum ≠ 0) :
    ∃ score, calculateScore curSum allSum = some score :=
  ⟨_, if_neg memory⟩

variable {address : Address}

section Find

variable {tree : PrefixTree}

theorem Sound.find_eq (sound : Sound tree) {node : TreeNode}
    (member : node ∈ tree.root.nodes ++ tree.removed) :
    tree.find node.info.address = some node := by
  obtain ⟨found, here⟩ : ∃ found, tree.find node.info.address = some found := by
    apply Option.isSome_iff_exists.mp
    rw [PrefixTree.find, List.find?_isSome]
    exact ⟨node, member, by simp⟩
  have distinct : ((tree.root.nodes ++ tree.removed).map fun node => node.info.address).Nodup := by
    have distinct := sound.distinct
    rwa [PrefixTree.marks, List.map_map] at distinct
  rw [here, List.inj_on_of_nodup_map distinct (mem_of_find here).1 member (mem_of_find here).2]

theorem Sound.find_listed (sound : Sound tree) {kv : KVInfo} (member : kv ∈ tree.kvList)
    (listed : address ∈ kv.domainNodeList) : ∃ node, tree.find address = some node := by
  obtain ⟨mark, inside, rfl⟩ := List.mem_map.mp (sound.listed kv member address listed)
  obtain ⟨node, there, rfl⟩ := List.mem_map.mp inside
  exact ⟨node, sound.find_eq there⟩

end Find

def PrefixTree.amountAt (amount : TreeNode → Nat) (tree : PrefixTree) (address : Address) : Nat :=
  (tree.find address).elim 0 amount

def PrefixTree.amountOf (amount : TreeNode → Nat) (tree : PrefixTree) (list : List Address) : Nat :=
  (list.map (tree.amountAt amount)).sum

section Amount

variable {tree after : PrefixTree} {domain : Address → Int → Int} (amount : TreeNode → Nat)

theorem RetaggedBy.amountOf {amount : TreeNode → Nat}
    (stable : ∀ domain node, amount (TreeNode.retag domain node) = amount node)
    (retagged : RetaggedBy domain tree after) (list : List Address) :
    after.amountOf amount list = tree.amountOf amount list := by
  refine congrArg List.sum (List.map_congr_left fun address _ => ?_)
  rw [PrefixTree.amountAt, PrefixTree.amountAt, retagged.find]
  cases tree.find address with
  | none => rfl
  | some node => exact stable domain node

theorem amountAt_eq {amount : TreeNode → Nat} {node : TreeNode}
    (found : tree.find address = some node) : tree.amountAt amount address = amount node := by
  rw [PrefixTree.amountAt, found, Option.elim_some]

variable {list : List Address}

theorem amountAt_le_amountOf (tree : PrefixTree) (listed : address ∈ list) :
    tree.amountAt amount address ≤ tree.amountOf amount list :=
  List.single_le_sum (by simp) _ (List.mem_map_of_mem listed)

theorem amountOf_endOf (tree : PrefixTree) {forward : Bool}
    (here : endOf forward list = some address) :
    tree.amountOf amount list =
      tree.amountAt amount address + tree.amountOf amount (PrefixTree.popped forward list) := by
  have perm : list.Perm (address :: PrefixTree.popped forward list) :=
    (List.perm_cons_erase (mem_of_endOf here)).trans ((popped_perm here).symm.cons address)
  rw [PrefixTree.amountOf, (perm.map _).sum_eq, List.map_cons, List.sum_cons]
  rfl

theorem amountOf_pushed (tree : PrefixTree) (forward : Bool) (address : Address)
    (list : List Address) : tree.amountOf amount (PrefixTree.pushed forward address list) =
      tree.amountAt amount address + tree.amountOf amount list := by
  rw [PrefixTree.amountOf, ((pushed_perm forward address list).map _).sum_eq, List.map_cons,
    List.sum_cons]
  rfl

theorem Sound.amountOf_split (sound : Sound tree) {node : TreeNode}
    (found : tree.find address = some node) (last : list.getLast? = some address) :
    tree.amountOf amount (list.dropLast ++ node.getList.map fun child => child.info.address) +
        amount node = tree.amountOf amount list + (node.getList.map amount).sum := by
  have whole : tree.amountOf amount list = tree.amountAt amount address +
      tree.amountOf amount (PrefixTree.popped true list) := amountOf_endOf amount tree last
  have children : tree.amountOf amount (node.getList.map fun child => child.info.address) =
      (node.getList.map amount).sum := by
    rw [PrefixTree.amountOf, List.map_map]
    refine congrArg List.sum (List.map_congr_left fun child listed => ?_)
    exact amountAt_eq (sound.find_eq (List.mem_append_left _ (sound.child_mem found listed)))
  rw [amountAt_eq found] at whole
  change _ = _ + tree.amountOf amount list.dropLast at whole
  rw [PrefixTree.amountOf, List.map_append, List.sum_append]
  change tree.amountOf amount _ + tree.amountOf amount _ + _ = _
  omega

end Amount

namespace Adjusting

variable {targetScore : Int} {state next : Adjusting}

section Lists

variable {src dst place : Nat} {node : TreeNode} {forward : Bool} {kv : KVInfo}

theorem Moved.source_eq (moved : Moved state src dst node forward next) (apart : src ≠ dst)
    (here : state.tree.kvList[src]? = some kv) : next.tree.kvList[src]? =
      some { kv with domainNodeList := PrefixTree.popped forward kv.domainNodeList } := by
  cases moved
  change (PrefixTree.handOver _ _ _ _ _ _).kvList[src]? = _
  rw [PrefixTree.handOver, List.getElem?_modify, List.getElem?_modify, here]
  simp [apart.symm]

theorem Moved.sink_eq (moved : Moved state src dst node forward next) (apart : src ≠ dst)
    (here : state.tree.kvList[dst]? = some kv) : next.tree.kvList[dst]? = some { kv with
      domainNodeList := PrefixTree.pushed forward node.info.address kv.domainNodeList } := by
  cases moved
  change (PrefixTree.handOver _ _ _ _ _ _).kvList[dst]? = _
  rw [PrefixTree.handOver, List.getElem?_modify, List.getElem?_modify, here]
  simp [apart]

theorem Moved.other_eq (moved : Moved state src dst node forward next) (notSource : place ≠ src)
    (notSink : place ≠ dst) : next.tree.kvList[place]? = state.tree.kvList[place]? := by
  cases moved
  change (PrefixTree.handOver _ _ _ _ _ _).kvList[place]? = _
  rw [PrefixTree.handOver, List.getElem?_modify, List.getElem?_modify]
  simp [notSource.symm, notSink.symm]

theorem split_eq (here : state.tree.kvList[place]? = some kv) :
    (state.split place node).tree.kvList[place]? = some { kv with
      domainNodeList := kv.domainNodeList.dropLast ++
        node.getList.map fun child => child.info.address } := by
  change (PrefixTree.splitFileNode _ _ _).kvList[place]? = _
  rw [PrefixTree.splitFileNode, List.getElem?_modify, here]
  simp

end Lists

structure Working (targetScore : Int) (state : Adjusting) : Prop
    extends Running targetScore state where
  sound : Sound state.tree
  funded : state.tree.Funded

theorem Turn.working (turn : Turn targetScore state next) (working : Working targetScore state) :
    Working targetScore next :=
  ⟨turn.running working.toRunning, turn.sound working.sound, working.funded.congr turn.sums.1⟩

end Adjusting

structure Prepared (tree : PrefixTree) : Prop where
  sound : Sound tree
  funded : tree.Funded
  uncounted : tree.Uncounted

section Calls

variable {tree after : PrefixTree}

theorem Prepared.working (prepared : Prepared tree) (targetScore : Int)
    {contexts : List AdjustContext} (calculated : tree.calculateAdjustContext = some contexts) :
    Adjusting.Working targetScore ⟨tree, contexts, 0, .visit, []⟩ :=
  ⟨prepared.uncounted.running targetScore calculated, prepared.sound, prepared.funded⟩

theorem PrefixTree.Funded.adjust {turns : Nat} {targetScore : Int} {moves : List Move}
    (funded : tree.Funded) (adjusted : tree.adjust turns targetScore = some (after, moves)) :
    after.Funded :=
  PrefixTree.adjust_invariant (fun _ _ funded turn => funded.congr turn.sums.1) funded adjusted

def TreeCall.Funded : TreeCall → Prop
  | .registNewKV _ _ sumMemory => sumMemory ≠ 0
  | .create _ _ _ _ | .remove _ | .adjust _ _ => True

theorem Prepared.call {call : TreeCall} (prepared : Prepared tree) (funded : call.Funded)
    (returned : tree.call call = some after) : Prepared after := by
  refine ⟨prepared.sound.call returned, ?_, prepared.uncounted.call returned⟩
  cases PrefixTree.called_of_call returned with
  | registNewKV pastEnd id sumMemory =>
      intro kv member
      obtain ⟨-, memory⟩ | old := mem_registNewKV member
      · exact memory ▸ funded
      · exact prepared.funded kv old
  | create path ino isDir nodeSz =>
      exact prepared.funded.congr (map_create (fun _ _ => rfl) tree path ino isDir nodeSz)
  | remove path => exact prepared.funded
  | adjust adjusted => exact prepared.funded.adjust adjusted

theorem prepared_of_run {calls : List TreeCall}
    (run : Run (Guarded (StepOf PrefixTree.call) fun _ call => call.Funded) .initial calls tree) :
    Prepared tree :=
  run.invariant Prepared ⟨.initial, by rintro kv ⟨⟩, by rintro kv ⟨⟩⟩
    fun _ _ _ prepared taken => prepared.call taken.1 taken.2

theorem exists_mapM {First Second : Type} {f : First → Option Second} {list : List First}
    (all : ∀ first ∈ list, ∃ second, f first = some second) :
    ∃ results, list.mapM f = some results := by
  induction list with
  | nil => exact ⟨[], rfl⟩
  | cons first rest ih =>
      obtain ⟨⟨second, here⟩, later⟩ := List.forall_mem_cons.mp all
      obtain ⟨results, others⟩ := ih later
      exact ⟨second :: results, by rw [List.mapM_cons, here, others]; rfl⟩

theorem Sound.exists_calculateSum (sound : Sound tree) {kv : KVInfo} (member : kv ∈ tree.kvList) :
    ∃ sum, tree.calculateSum kv = some sum := by
  obtain ⟨nodes, found⟩ := exists_mapM fun address listed => sound.find_listed member listed
  exact ⟨_, by rw [PrefixTree.calculateSum, found]; rfl⟩

theorem Prepared.exists_contexts (prepared : Prepared tree) :
    ∃ contexts, tree.calculateAdjustContext = some contexts := by
  refine exists_mapM fun kv member => ?_
  obtain ⟨curMemory, sum⟩ := prepared.sound.exists_calculateSum member
  obtain ⟨score, calculated⟩ :=
    exists_calculateScore curMemory (prepared.funded kv member)
  exact ⟨⟨curMemory, score⟩, by rw [sum, Option.bind_some, calculated]; rfl⟩

end Calls

end Ctgfs.Placement
