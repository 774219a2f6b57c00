import Ctgfs.Foundation.Runs
import Ctgfs.Placement.AdjustState

/-!
# The domains of a prefix tree in a run

In a run of `RegistNewKV`, `Create`, `Remove` and `Adjust`, the tags of the nodes and the lists
of the KVs agree, and every file has one owner, as long as `Remove` takes no node with a domain
out of the tree and no file is created where nothing has a domain.
-/

namespace Ctgfs.Placement

open Foundation

variable {kv : KVInfo}

namespace Adjusting

variable {targetScore : Int} {state next : Adjusting}

structure Balanced (targetScore : Int) (state : Adjusting) : Prop
    extends Running targetScore state where
  part : Partitioned state.tree

/-- The pull loop has split a directory at the front of the list, and will do so for ever. -/
structure Stuck (targetScore : Int) (state : Adjusting) : Prop where
  phase : state.phase = .pulling
  low : ∀ context, state.contexts[state.i]? = some context →
    context.score ≤ standardScore targetScore
  blocked : ∀ kv next context, state.tree.kvList[state.i]? = some kv →
    state.tree.kvList[state.i + 1]? = some next → state.contexts[state.i]? = some context →
    ∀ mvEle rest, next.domainNodeList = mvEle :: rest →
      ∃ node, state.tree.find mvEle = some node ∧ node.isDir = true ∧
        (∀ score, calculateScore (context.curMemory + node.info.sz) kv.sumMemory = some score →
          targetScore < score) ∧
        (rest ≠ [] ∨ node.getList = [])

theorem partitioned_setTagCnt (part : Partitioned state.tree) (place : Nat) (count : Int → Int) :
    Partitioned (state.setTagCnt place count).tree where
  ordered := part.ordered
  covered := part.covered
  indexed := by
    refine part.indexed.relist (map_modify_of_same (by intro kv; rfl) _ _) fun kv member => ?_
    obtain ⟨index, found⟩ := List.mem_iff_getElem?.mp member
    rw [setTagCnt, changeKV, List.getElem?_modify, Option.map_eq_map,
      Option.map_eq_some_iff] at found
    obtain ⟨old, there, rfl⟩ := found
    refine ⟨old, List.mem_of_getElem? there, ?_⟩
    split <;> exact ⟨rfl, rfl⟩

variable {node : TreeNode}

theorem Moved.partitioned {src dst : Nat} {forward : Bool}
    (moved : Moved state src dst node forward next) (part : Partitioned state.tree)
    (apart : src ≠ dst) (here : ∀ source, state.tree.kvList[src]? = some source →
      endOf forward source.domainNodeList = some node.info.address) : Partitioned next.tree := by
  cases moved with
  | mk first second => exact part.handOver apart first second (here _ first)

section Turns

variable {mvEle : Address}

section

variable (balanced : Balanced targetScore state)

include balanced

theorem Balanced.takeOver (phase : state.phase = .takeOver mvEle)
    (found : state.tree.find mvEle = some node) :
    ∃ previous, (state.setTagCnt state.i (· - 1)).tree.kvList[state.i - 1]? = some previous ∧
      previous.domainNodeList.getLast? = some node.info.address ∧ state.i - 1 ≠ state.i ∧
      node ∈ state.tree.root.nodes ∧ node.info.domainId = previous.id := by
  obtain ⟨later, previous, before, last⟩ := balanced.placed.held mvEle phase
  obtain ⟨inside, rfl, owner⟩ := balanced.part.find_listed (List.mem_of_getElem? before)
    (List.mem_of_getLast? last) found
  have apart : state.i - 1 ≠ state.i := by omega
  refine ⟨previous, ?_, last, apart, inside, owner⟩
  rw [setTagCnt, changeKV, List.getElem?_modify, before]
  simp [apart.symm]

variable {moved : Adjusting}

theorem Balanced.taken (phase : state.phase = .takeOver mvEle)
    (found : state.tree.find mvEle = some node)
    (move : Moved (state.setTagCnt state.i (· - 1)) (state.i - 1) state.i node true moved) :
    Partitioned moved.tree := by
  obtain ⟨previous, before, last, apart, -, -⟩ := balanced.takeOver phase found
  refine move.partitioned (partitioned_setTagCnt balanced.part _ _) apart fun source same => ?_
  obtain rfl := Option.some.inj (before.symm.trans same)
  exact last

theorem Balanced.takenApart (phase : state.phase = .takeOver mvEle)
    (found : state.tree.find mvEle = some node) (isDir : node.isDir = true) :
    Partitioned ((state.setTagCnt state.i (· - 1)).split (state.i - 1) node).tree := by
  obtain ⟨previous, before, last, -, inside, owner⟩ := balanced.takeOver phase found
  exact (partitioned_setTagCnt balanced.part _ _).splitFileNode before inside owner isDir last

theorem Balanced.pulled {next : KVInfo} (there : state.tree.kvList[state.i + 1]? = some next)
    (first : next.domainNodeList.head? = some mvEle) (found : state.tree.find mvEle = some node)
    (move : Moved state (state.i + 1) state.i node false moved) : Partitioned moved.tree := by
  obtain ⟨-, rfl, -⟩ := balanced.part.find_listed (List.mem_of_getElem? there)
    (List.mem_of_head? first) found
  refine move.partitioned balanced.part (Nat.succ_ne_self _) fun source same => ?_
  obtain rfl := Option.some.inj (there.symm.trans same)
  exact first

end

theorem stuck_split (phase : state.phase = .pulling)
    (low : ∀ context, state.contexts[state.i]? = some context →
      context.score ≤ standardScore targetScore) {next : KVInfo} {context : AdjustContext}
    {rest : List Address} (here : state.tree.kvList[state.i]? = some kv)
    (there : state.tree.kvList[state.i + 1]? = some next)
    (books : state.contexts[state.i]? = some context) (shape : next.domainNodeList = mvEle :: rest)
    (found : state.tree.find mvEle = some node)
    (large : ∀ score, calculateScore (context.curMemory + node.info.sz) kv.sumMemory = some score →
      targetScore < score) (isDir : node.isDir = true) (other : rest ≠ [] ∨ node.getList = []) :
    Stuck targetScore (state.split (state.i + 1) node) := by
  refine ⟨phase, low, fun kv' next' context' here' there' books' first others list => ?_⟩
  obtain rfl := Option.some.inj (books.symm.trans books')
  obtain rfl : kv = kv' := by
    simpa [split, PrefixTree.splitFileNode, List.getElem?_modify, here] using here'
  rw [split, PrefixTree.splitFileNode, List.getElem?_modify, there] at there'
  obtain rfl := Option.some.inj there'
  simp only [if_true, shape] at list
  cases rest with
  | nil =>
      have empty : node.getList = [] := other.resolve_left (by simp)
      simp [empty] at list
  | cons second more =>
      obtain ⟨rfl, rfl⟩ := List.cons.inj list
      obtain ⟨after, found', isDir', sz, length⟩ := find_splitFileNode found (state.i + 1) node
      refine ⟨after, found', isDir'.trans isDir, sz ▸ large, ?_⟩
      by_cases empty : node.getList = []
      · right
        rw [← List.length_eq_zero_iff, length, empty]
        rfl
      · left
        simp [empty]

theorem Balanced.pulledApart (balanced : Balanced targetScore state)
    (phase : state.phase = .pulling) {next : KVInfo} {context : AdjustContext} {curScore : Int}
    (here : state.tree.kvList[state.i]? = some kv)
    (there : state.tree.kvList[state.i + 1]? = some next)
    (books : state.contexts[state.i]? = some context)
    (first : next.domainNodeList.head? = some mvEle) (found : state.tree.find mvEle = some node)
    (score : calculateScore (context.curMemory + node.info.sz) kv.sumMemory = some curScore)
    (large : targetScore < curScore) (isDir : node.isDir = true) :
    Partitioned (state.split (state.i + 1) node).tree ∨
      Stuck targetScore (state.split (state.i + 1) node) := by
  obtain ⟨rest, shape⟩ := List.head?_eq_some_iff.mp first
  by_cases alone : rest = [] ∧ node.getList ≠ []
  · left
    obtain ⟨rfl, -⟩ := alone
    obtain ⟨inside, rfl, owner⟩ := balanced.part.find_listed (List.mem_of_getElem? there)
      (List.mem_of_head? first) found
    exact balanced.part.splitFileNode there inside owner isDir (by rw [shape]; rfl)
  · have other : rest ≠ [] ∨ node.getList = [] := by tauto
    refine .inr (stuck_split phase (balanced.placed.low phase) here there books shape found ?_ isDir
      other)
    intro another same
    obtain rfl := Option.some.inj (score.symm.trans same)
    exact large

theorem Balanced.pushed (balanced : Balanced targetScore state) {moveEle : Address}
    (here : state.tree.kvList[state.i]? = some kv)
    (last : kv.domainNodeList.getLast? = some moveEle) (found : state.tree.find moveEle = some node)
    (move : Moved state state.i (state.i + 1) node true moved) : Partitioned moved.tree := by
  obtain ⟨-, rfl, -⟩ := balanced.part.find_listed (List.mem_of_getElem? here)
    (List.mem_of_getLast? last) found
  refine move.partitioned balanced.part (Nat.succ_ne_self _).symm fun source equal => ?_
  obtain rfl := Option.some.inj (here.symm.trans equal)
  exact last

theorem Balanced.pushedApart (balanced : Balanced targetScore state) {moveEle : Address}
    (here : state.tree.kvList[state.i]? = some kv)
    (last : kv.domainNodeList.getLast? = some moveEle) (found : state.tree.find moveEle = some node)
    (isDir : node.isDir = true) : Partitioned (state.split state.i node).tree := by
  obtain ⟨inside, rfl, owner⟩ := balanced.part.find_listed (List.mem_of_getElem? here)
    (List.mem_of_getLast? last) found
  exact balanced.part.splitFileNode here inside owner isDir last

theorem Stuck.no_transfer {dst : Nat} (stuck : Stuck targetScore state)
    (transfer : Transfers targetScore state dst moved next) : False := by
  cases transfer with
  | taken phase => cases stuck.phase.symm.trans phase
  | pushed phase => cases stuck.phase.symm.trans phase
  | pulled _ here there books first found score fits =>
      obtain ⟨rest, list⟩ := List.head?_eq_some_iff.mp first
      obtain ⟨node, same, -, large, -⟩ := stuck.blocked _ _ _ here there books _ rest list
      obtain rfl := Option.some.inj (found.symm.trans same)
      exact absurd fits (not_le.mpr (large _ score))

theorem Stuck.turn (stuck : Stuck targetScore state) (turn : Turn targetScore state next) :
    Stuck targetScore next := by
  have phase := stuck.phase
  cases turn with
  | transferred transfer => exact (stuck.no_transfer transfer).elim
  | endPull _ here there books first found _ _ file =>
      obtain ⟨rest, shape⟩ := List.head?_eq_some_iff.mp first
      obtain ⟨node, same, isDir, -⟩ := stuck.blocked _ _ _ here there books _ rest shape
      obtain rfl := Option.some.inj (found.symm.trans same)
      exact absurd (file.symm.trans isDir) Bool.false_ne_true
  | pulledApart _ here there books first found _ _ isDir =>
      obtain ⟨rest, shape⟩ := List.head?_eq_some_iff.mp first
      obtain ⟨node, same, -, large, other⟩ := stuck.blocked _ _ _ here there books _ rest shape
      obtain rfl := Option.some.inj (found.symm.trans same)
      rw [if_pos (stuck.low _ books)]
      exact stuck_split phase stuck.low here there books shape found large isDir other
  | _ other => cases phase.symm.trans other

theorem Balanced.partitioned (balanced : Balanced targetScore state)
    (turn : Turn targetScore state next) : Partitioned next.tree ∨ Stuck targetScore next := by
  have part := balanced.part
  cases turn with
  | overweighed | visited | beginPull | noPull | endPull | endPush => exact .inl part
  | transferred transfer =>
      left
      cases transfer with
      | taken phase _ _ found _ move =>
          have moved := balanced.taken phase found move
          split
          · exact partitioned_setTagCnt moved state.i fun _ => 0
          · exact moved
      | pulled _ _ there _ first found _ _ move =>
          have moved := balanced.pulled there first found move
          split <;> exact moved
      | pushed _ here _ _ last _ _ found _ _ move => exact balanced.pushed here last found move
  | takenApart phase _ found isDir => exact .inl (balanced.takenApart phase found isDir)
  | refused =>
      exact .inl (partitioned_setTagCnt (partitioned_setTagCnt part state.i (· - 1)) state.i
        fun _ => 0)
  | pulledApart phase here there books first found score large isDir =>
      rw [if_pos (balanced.placed.low phase _ books)]
      exact balanced.pulledApart phase here there books first found score large isDir
  | pushedApart _ here _ _ last found isDir =>
      exact .inl (balanced.pushedApart here last found isDir)
  | pushedOver => exact .inl (partitioned_setTagCnt part (state.i + 1) (· + 1))

theorem Balanced.turn (balanced : Balanced targetScore state)
    (turn : Turn targetScore state next) : Balanced targetScore next ∨ Stuck targetScore next :=
  (balanced.partitioned turn).imp_left fun part => ⟨turn.running balanced.toRunning, part⟩

end Turns

end Adjusting

structure Settled (tree : PrefixTree) : Prop where
  part : Partitioned tree
  uncounted : tree.Uncounted

variable {tree after : PrefixTree}

theorem Settled.adjust {turns : Nat} {targetScore : Int} {moves : List Move}
    (settled : Settled tree) (adjusted : tree.adjust turns targetScore = some (after, moves)) :
    Settled after := by
  simp only [PrefixTree.adjust, Option.bind_eq_some_iff, Option.map_eq_some_iff] at adjusted
  obtain ⟨contexts, calculated, final, ended, result⟩ := adjusted
  obtain ⟨rfl, rfl⟩ := Prod.mk.inj result
  obtain ⟨balanced | stuck, done⟩ := @Adjusting.finish_invariant targetScore
    (fun state => state.Balanced targetScore ∨ state.Stuck targetScore)
    (fun state next inv turn => inv.elim (·.turn turn) fun stuck => .inr (stuck.turn turn))
    _ _ _ ended (.inl ⟨settled.uncounted.running targetScore calculated, settled.part⟩)
  · exact ⟨balanced.part, balanced.uncounted done⟩
  · cases done.1.symm.trans stuck.phase

/-- A call of the tree.  `Adjust` is given a number of turns that it may take. -/
inductive TreeCall where
  | registNewKV (pastEnd id : Int) (sumMemory : UInt64)
  | create (path : Bytes) (ino : UInt64) (isDir : Bool) (nodeSz : UInt64)
  | remove (path : Bytes)
  | adjust (turns : Nat) (targetScore : Int)

def PrefixTree.call (tree : PrefixTree) : TreeCall → Option PrefixTree
  | .registNewKV pastEnd id sumMemory => some (tree.registNewKV pastEnd id sumMemory)
  | .create path ino isDir nodeSz => some (tree.create path ino isDir nodeSz).2.1
  | .remove path => some (tree.remove path).2
  | .adjust turns targetScore => (tree.adjust turns targetScore).map Prod.fst

/-- What a call that returns has done. -/
inductive PrefixTree.Called (tree : PrefixTree) : TreeCall → PrefixTree → Prop where
  | registNewKV (pastEnd id : Int) (sumMemory : UInt64) : Called tree
      (.registNewKV pastEnd id sumMemory) (tree.registNewKV pastEnd id sumMemory)
  | create (path : Bytes) (ino : UInt64) (isDir : Bool) (nodeSz : UInt64) : Called tree
      (.create path ino isDir nodeSz) (tree.create path ino isDir nodeSz).2.1
  | remove (path : Bytes) : Called tree (.remove path) (tree.remove path).2
  | adjust {turns : Nat} {targetScore : Int} {after : PrefixTree} {moves : List Move} :
      tree.adjust turns targetScore = some (after, moves) →
      Called tree (.adjust turns targetScore) after

theorem PrefixTree.called_of_call {tree after : PrefixTree} {call : TreeCall}
    (returned : tree.call call = some after) : tree.Called call after := by
  cases call with
  | registNewKV | create | remove =>
      obtain rfl := Option.some.inj returned
      constructor
  | adjust =>
      obtain ⟨⟨_, moves⟩, adjusted, rfl⟩ := Option.map_eq_some_iff.mp returned
      exact .adjust adjusted

def PrefixTree.Orderly (tree : PrefixTree) : TreeCall → Prop
  | .registNewKV _ id _ => id ∉ tree.kvList.map KVInfo.id ∧ id ≠ noDomain
  | .create _ _ isDir _ => isDir = false → ∃ node ∈ tree.root.nodes, node.info.domainId ≠ noDomain
  | .remove path => ∀ node, tree.root.nodeAt (components path) = some node → node.getList = [] →
      node.info.domainId = noDomain
  | .adjust _ _ => True

structure DomainPartition (tree : PrefixTree) : Prop where
  distinct : tree.root.addresses.Nodup
  known : ∀ node ∈ tree.root.nodes, node.info.domainId ≠ noDomain →
    node.info.domainId ∈ tree.kvList.map KVInfo.id
  nodup : ∀ kv ∈ tree.kvList, kv.domainNodeList.Nodup
  lists : ∀ kv ∈ tree.kvList, ∀ address, address ∈ kv.domainNodeList ↔
    ∃ node ∈ tree.root.nodes, node.info.address = address ∧ node.info.domainId = kv.id
  alone : ∀ mark up, mark :: up ∈ tree.root.lines → mark.tagged = true →
    ∀ above ∈ up, above.tagged = false
  files : ∀ mark up, mark :: up ∈ tree.root.lines → mark.isDir = false →
    (mark :: up).countP Mark.tagged = 1

theorem tagged_iff {root : TreeNode} {address : Address} {domainId : Int} :
    Tagged root.lines address domainId ↔
      ∃ node ∈ root.nodes, node.info.address = address ∧ node.info.domainId = domainId := by
  constructor
  · rintro ⟨mark, up, line, here, domain⟩
    obtain ⟨node, inside, rfl⟩ := TreeNode.node_of_line line
    exact ⟨node, inside, here, domain⟩
  · rintro ⟨node, inside, here, domain⟩
    obtain ⟨up, line, -⟩ := TreeNode.line_of_child inside
    exact ⟨node.mark, up, line, here, domain⟩

theorem Partitioned.domainPartition (part : Partitioned tree) :
    DomainPartition tree where
  distinct := part.distinct
  known node inside tagged := by
    obtain ⟨up, line, -⟩ := TreeNode.line_of_child inside
    exact (part.indexed.known _ _ line).resolve_left tagged
  nodup := part.indexed.nodup
  lists kv member address := (part.indexed.lists kv member address).trans tagged_iff
  alone mark up line tagged := by
    have once := (part.covered _ line).once
    rw [List.countP_cons, tagged] at once
    have none : up.countP Mark.tagged = 0 := by simpa using once
    simpa [List.countP_eq_zero] using none
  files mark up line file := (part.covered _ line).file mark rfl file

theorem map_create {Value : Type} {view : KVInfo → Value}
    (same : ∀ kv list, view { kv with domainNodeList := list } = view kv) (tree : PrefixTree)
    (path : Bytes) (ino : UInt64) (isDir : Bool) (nodeSz : UInt64) :
    (tree.create path ino isDir nodeSz).2.1.kvList.map view = tree.kvList.map view := by
  simp only [PrefixTree.create]
  split
  · split
    · exact map_updateKV_of_same (fun kv => same kv _) _ _
    · rfl
  · rfl

theorem mem_registNewKV {pastEnd id : Int} {sumMemory : UInt64}
    (member : kv ∈ (tree.registNewKV pastEnd id sumMemory).kvList) :
    (kv.overweighedTagCnt = 0 ∧ kv.sumMemory = sumMemory) ∨ kv ∈ tree.kvList := by
  have registers := tree.registers_registNewKV pastEnd id sumMemory
  generalize tree.registNewKV pastEnd id sumMemory = after at registers member
  cases registers with
  | first =>
      rw [List.mem_singleton.mp member]
      exact .inl ⟨rfl, rfl⟩
  | later _ split =>
      rw [split]
      rcases List.mem_cons.mp (List.perm_middle.mem_iff.mp member) with rfl | old
      · exact .inl ⟨rfl, rfl⟩
      · exact .inr old

theorem PrefixTree.Uncounted.call {call : TreeCall} (uncounted : tree.Uncounted)
    (returned : tree.call call = some after) : after.Uncounted := by
  cases PrefixTree.called_of_call returned with
  | registNewKV pastEnd id sumMemory =>
      intro kv member
      obtain ⟨zero, -⟩ | old := mem_registNewKV member
      · exact zero.le
      · exact uncounted kv old
  | create path ino isDir nodeSz =>
      intro kv member
      have count := List.mem_map_of_mem (f := KVInfo.overweighedTagCnt) member
      rw [map_create fun _ _ => rfl] at count
      obtain ⟨old, listed, same⟩ := List.mem_map.mp count
      exact same ▸ uncounted old listed
  | remove path => exact uncounted
  | adjust adjusted => exact uncounted.adjust adjusted

theorem Settled.call {call : TreeCall} (settled : Settled tree) (orderly : tree.Orderly call)
    (returned : tree.call call = some after) : Settled after := by
  have uncounted := settled.uncounted.call returned
  cases PrefixTree.called_of_call returned with
  | registNewKV pastEnd id sumMemory =>
      exact ⟨settled.part.registNewKV pastEnd orderly.1 orderly.2 sumMemory, uncounted⟩
  | create path ino isDir nodeSz =>
      refine ⟨settled.part.create path ino nodeSz fun file => ?_, uncounted⟩
      obtain ⟨node, inside, tagged⟩ := orderly file
      exact ⟨_, _, tagged, tagged_iff.mpr ⟨node, inside, rfl, rfl⟩⟩
  | remove path => exact ⟨settled.part.remove path orderly, uncounted⟩
  | adjust adjusted => exact settled.adjust adjusted

theorem settled_of_run {calls : List TreeCall}
    (run : Run (Guarded (StepOf PrefixTree.call) PrefixTree.Orderly) .initial calls tree) :
    Settled tree :=
  run.invariant Settled ⟨Partitioned.initial, by rintro kv ⟨⟩⟩
    fun _ _ _ settled taken => settled.call taken.1 taken.2

/-- In a run of orderly calls the domains are a partition of the tree after every call. -/
theorem domains_partition_tree {calls : List TreeCall} {tree : PrefixTree}
    (run : Run (Guarded (StepOf PrefixTree.call) PrefixTree.Orderly) .initial calls tree) :
    DomainPartition tree :=
  (settled_of_run run).part.domainPartition

/-- Two KVs, a file that is removed while the root has the domain, and one that `Adjust` gives
to the second KV. -/
theorem domains_partition_tree_adjusted :
    ∃ tree, Run (Guarded (StepOf PrefixTree.call) PrefixTree.Orderly) .initial
        [.registNewKV 0 1 10, .registNewKV 0 2 10, .create [97] 1 false 5, .create [98] 2 false 1,
          .remove [98], .adjust 20 40] tree ∧
      DomainPartition tree := by
  let kvs : List KVInfo := [⟨1, 10, 0, [0]⟩, ⟨2, 10, 0, []⟩]
  let kept : TreeNode := .file ⟨1, [97], 1, 5, noDomain⟩
  let gone : TreeNode := .file ⟨2, [98], 2, 1, noDomain⟩
  have registered : Run (Guarded (StepOf PrefixTree.call) PrefixTree.Orderly) .initial
      [.registNewKV 0 1 10] ⟨.dir ⟨0, [], 0, 0, 1⟩ [], [⟨1, 10, 0, [0]⟩], [], 1⟩ :=
    Run.refl.tail ⟨⟨by decide, by decide⟩, rfl⟩
  have both : Run (Guarded (StepOf PrefixTree.call) PrefixTree.Orderly) .initial
      [.registNewKV 0 1 10, .registNewKV 0 2 10] ⟨.dir ⟨0, [], 0, 0, 1⟩ [], kvs, [], 1⟩ :=
    registered.tail ⟨⟨by decide, by decide⟩, rfl⟩
  have created : Run (Guarded (StepOf PrefixTree.call) PrefixTree.Orderly) .initial
      [.registNewKV 0 1 10, .registNewKV 0 2 10, .create [97] 1 false 5]
      ⟨.dir ⟨0, [], 0, 5, 1⟩ [kept], kvs, [], 2⟩ :=
    both.tail ⟨fun _ => ⟨_, List.mem_cons_self, by decide⟩, rfl⟩
  have full : Run (Guarded (StepOf PrefixTree.call) PrefixTree.Orderly) .initial
      [.registNewKV 0 1 10, .registNewKV 0 2 10, .create [97] 1 false 5, .create [98] 2 false 1]
      ⟨.dir ⟨0, [], 0, 6, 1⟩ [kept, gone], kvs, [], 3⟩ :=
    created.tail ⟨fun _ => ⟨_, List.mem_cons_self, by decide⟩, rfl⟩
  have removed : Run (Guarded (StepOf PrefixTree.call) PrefixTree.Orderly) .initial
      [.registNewKV 0 1 10, .registNewKV 0 2 10, .create [97] 1 false 5, .create [98] 2 false 1,
        .remove [98]] ⟨.dir ⟨0, [], 0, 5, 1⟩ [kept], kvs, [gone], 3⟩ :=
    full.tail ⟨by rintro node ⟨⟩; exact fun _ => rfl, rfl⟩
  have adjusted : Run (Guarded (StepOf PrefixTree.call) PrefixTree.Orderly) .initial
      [.registNewKV 0 1 10, .registNewKV 0 2 10, .create [97] 1 false 5, .create [98] 2 false 1,
        .remove [98], .adjust 20 40]
      ⟨.dir ⟨0, [], 0, 5, noDomain⟩ [.file ⟨1, [97], 1, 5, 2⟩],
        [⟨1, 10, 0, []⟩, ⟨2, 10, 0, [1]⟩], [gone], 3⟩ :=
    removed.tail ⟨trivial, by dsimp only [kvs, kept, gone]; rfl⟩
  exact ⟨_, adjusted, domains_partition_tree adjusted⟩

/-- `Adjust` gives a file to the second KV, and `Remove` leaves it in the list. -/
theorem removed_node_listed :
    ∃ tree, Run (StepOf PrefixTree.call) .initial [.registNewKV 0 1 10, .registNewKV 0 2 10,
        .create [97] 1 false 5, .adjust 20 40, .remove [97]] tree ∧ ¬ DomainPartition tree := by
  refine ⟨⟨.dir ⟨0, [], 0, 0, noDomain⟩ [], [⟨1, 10, 0, []⟩, ⟨2, 10, 0, [1]⟩],
    [.file ⟨1, [97], 1, 5, 2⟩], 2⟩, run_of_exec rfl, fun partition => ?_⟩
  have listed := (partition.lists ⟨2, 10, 0, [1]⟩ (by decide) 1).mp (by decide)
  obtain ⟨node, inside, here, -⟩ := listed
  obtain rfl := List.mem_singleton.mp inside
  cases here

end Ctgfs.Placement
