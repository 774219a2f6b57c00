import Ctgfs.Placement.PrefixTree
import Mathlib.Data.List.Forall2

/-!
# `Adjust`

`Adjust` goes through the KVs in the order of the list and moves domains between neighbours.
Its loops are taken iteration by iteration, so that a run of `Adjust` is a run of `step`; it
need not come to an end.
-/

namespace Ctgfs.Placement

open Foundation

abbrev Move := UInt64 × Int × Int

def limitScore : Int := 30

def standardScore (targetScore : Int) : Int :=
  if targetScore < limitScore then targetScore else limitScore

/-- `calculateScore`, which has no value for a KV without memory.  The quotient is cut to an
`int`. -/
def calculateScore (curSum allSum : UInt64) : Option Int :=
  if allSum = 0 then none else some (100 * curSum / allSum).toUInt32.toInt32.toInt

/-- `AdjustContext`.  The `i`-th context belongs to the `i`-th KV. -/
structure AdjustContext where
  curMemory : UInt64
  score : Int
  deriving DecidableEq, Repr

/-- `doMove`: the files below a node. -/
def doMove (node : TreeNode) (addr : Int × Int) : List Move :=
  (node.nodes.filter fun other => !other.isDir).map fun file => (file.info.ino, addr)

namespace PrefixTree

def find (tree : PrefixTree) (address : Address) : Option TreeNode :=
  (tree.root.nodes ++ tree.removed).find? fun node => node.info.address = address

/-- `SetDomainId` reaches the nodes that were taken out of the tree, too. -/
def retag (domain : Address → Int → Int) (tree : PrefixTree) : PrefixTree :=
  { tree with
    root := tree.root.retag domain
    removed := tree.removed.map (TreeNode.retag domain) }

variable (tree : PrefixTree)

def setDomainId (address : Address) (domainId : Int) : PrefixTree :=
  tree.retag fun other old => if other = address then domainId else old

def pushedDown (node : TreeNode) (address : Address) (old : Int) : Int :=
  if address = node.info.address then noDomain
  else if address ∈ node.getList.map (fun child => child.info.address) then node.info.domainId
  else old

/-- `PushDownDomainTag` of a directory. -/
def pushDownDomainTag (node : TreeNode) : PrefixTree :=
  if node.info.domainId = noDomain then tree else tree.retag (pushedDown node)

def popped (forward : Bool) (list : List Address) : List Address :=
  if forward then list.dropLast else list.tail

def pushed (forward : Bool) (address : Address) (list : List Address) : List Address :=
  if forward then address :: list else list ++ [address]

def handOver (src dst : Nat) (address : Address) (domainId : Int) (forward : Bool) : PrefixTree :=
  { tree.setDomainId address domainId with
    kvList := (tree.kvList.modify src fun kv =>
        { kv with domainNodeList := popped forward kv.domainNodeList }).modify dst fun kv =>
      { kv with domainNodeList := pushed forward address kv.domainNodeList } }

/-- `splitFileNode` of a directory: the last node of the list gives way to the children. -/
def splitFileNode (place : Nat) (node : TreeNode) : PrefixTree :=
  { tree.pushDownDomainTag node with
    kvList := tree.kvList.modify place fun kv =>
      { kv with domainNodeList := kv.domainNodeList.dropLast ++
          node.getList.map fun child => child.info.address } }

theorem root_handOver (src dst : Nat) (address : Address) (domainId : Int) (forward : Bool) :
    (tree.handOver src dst address domainId forward).root =
      tree.root.retag fun other old => if other = address then domainId else old := rfl

theorem next_splitFileNode (place : Nat) (node : TreeNode) :
    (tree.splitFileNode place node).next = tree.next := by
  simp only [splitFileNode, pushDownDomainTag]
  split <;> rfl

theorem root_splitFileNode (place : Nat) {node : TreeNode}
    (tagged : node.info.domainId ≠ noDomain) :
    (tree.splitFileNode place node).root = tree.root.retag (pushedDown node) := by
  simp only [splitFileNode, pushDownDomainTag, if_neg tagged]
  rfl

def calculateSum (kv : KVInfo) : Option UInt64 :=
  (kv.domainNodeList.mapM tree.find).map fun nodes =>
    nodes.foldl (fun sum node => sum + node.info.sz) 0

def calculateAdjustContext : Option (List AdjustContext) :=
  tree.kvList.mapM fun kv =>
    (tree.calculateSum kv).bind fun curMemory =>
      (calculateScore curMemory kv.sumMemory).map fun score => ⟨curMemory, score⟩

theorem forall₂_of_mapM {First Second : Type} {f : First → Option Second} {list : List First}
    {results : List Second} (all : list.mapM f = some results) :
    List.Forall₂ (fun first second => f first = some second) list results := by
  induction list generalizing results with
  | nil =>
      obtain rfl : [] = results := by simpa using all
      exact .nil
  | cons first rest ih =>
      rw [List.mapM_cons] at all
      obtain ⟨second, here, all⟩ := Option.bind_eq_some_iff.mp all
      obtain ⟨others, later, all⟩ := Option.bind_eq_some_iff.mp all
      obtain rfl : second :: others = results := Option.some.inj all
      exact .cons here (ih later)

theorem length_calculateAdjustContext {tree : PrefixTree} {contexts : List AdjustContext}
    (calculated : tree.calculateAdjustContext = some contexts) :
    contexts.length = tree.kvList.length :=
  (forall₂_of_mapM calculated).length_eq.symm

end PrefixTree

/-- Where `Adjust` is in the iteration for one KV.  `takeOver`, `pulling` and `push` are its
three loops; the node of the first is read before the loop. -/
inductive Phase where
  | visit
  | takeOver (mvEle : Address)
  | pull
  | pulling
  | push
  deriving DecidableEq, Repr

structure Adjusting where
  tree : PrefixTree
  contexts : List AdjustContext
  i : Nat
  phase : Phase
  opRes : List Move

namespace Adjusting

variable (state : Adjusting)

def changeKV (place : Nat) (change : KVInfo → KVInfo) : Adjusting :=
  { state with tree := { state.tree with kvList := state.tree.kvList.modify place change } }

def setTagCnt (place : Nat) (count : Int → Int) : Adjusting :=
  state.changeKV place fun kv => { kv with overweighedTagCnt := count kv.overweighedTagCnt }

/-- Move a node from one KV to another.  `moveSubTree`, the books and the lists are the same in
the three loops. -/
def move (src dst : Nat) (node : TreeNode) (forward : Bool) : Option Adjusting :=
  (state.tree.kvList[src]?).bind fun source =>
  (state.tree.kvList[dst]?).bind fun sink =>
  (state.contexts[src]?).bind fun sourceContext =>
  (state.contexts[dst]?).bind fun sinkContext =>
    let less := sourceContext.curMemory - node.info.sz
    let more := sinkContext.curMemory + node.info.sz
    (calculateScore less source.sumMemory).bind fun sourceScore =>
    (calculateScore more sink.sumMemory).map fun sinkScore =>
      { state with
        tree := state.tree.handOver src dst node.info.address sink.id forward
        contexts := (state.contexts.set src ⟨less, sourceScore⟩).set dst ⟨more, sinkScore⟩
        opRes := state.opRes ++ doMove node (source.id, sink.id) }

def split (place : Nat) (node : TreeNode) : Adjusting :=
  { state with tree := state.tree.splitFileNode place node }

def visit : Option Adjusting :=
  (state.tree.kvList[state.i]?).bind fun kv =>
    if 0 < kv.overweighedTagCnt ∧ 0 < state.i then
      (state.tree.kvList[state.i - 1]?).bind fun previous =>
        previous.domainNodeList.getLast?.map fun mvEle => { state with phase := .takeOver mvEle }
    else some { state with phase := .pull }

def takeOver (mvEle : Address) : Option Adjusting :=
  (state.tree.kvList[state.i]?).bind fun kv =>
  (state.contexts[state.i]?).bind fun context =>
  (state.tree.find mvEle).bind fun node =>
    let counted := state.setTagCnt state.i (· - 1)
    let again := if 0 < kv.overweighedTagCnt - 1 then state.phase else .pull
    if node.info.sz + context.curMemory ≤ kv.sumMemory then
      (counted.move (state.i - 1) state.i node true).bind fun moved =>
      (moved.contexts[state.i - 1]?).bind fun previous =>
      (moved.contexts[state.i]?).map fun current =>
        if current.score ≤ previous.score then
          { moved.setTagCnt state.i fun _ => 0 with phase := .pull }
        else { moved with phase := again }
    else if node.isDir then some { counted.split (state.i - 1) node with phase := again }
    else some { counted.setTagCnt state.i fun _ => 0 with phase := .pull }

variable (targetScore : Int)

def pull (state : Adjusting) : Option Adjusting :=
  (state.contexts[state.i]?).map fun context =>
    match state.contexts[state.i + 1]? with
    | none => { state with phase := .push }
    | some next =>
        if context.score ≤ standardScore targetScore ∧ targetScore < next.score then
          { state with phase := .pulling }
        else { state with phase := .push }

/-- Pull the first node of the next KV.  When it is too large, `splitFileNode` takes the last
node off the list. -/
def pulling (state : Adjusting) : Option Adjusting :=
  (state.tree.kvList[state.i]?).bind fun kv =>
  (state.tree.kvList[state.i + 1]?).bind fun next =>
  (state.contexts[state.i]?).bind fun context =>
  (state.contexts[state.i + 1]?).bind fun nextContext =>
  (next.domainNodeList.head?).bind fun mvEle =>
  (state.tree.find mvEle).bind fun node =>
  (calculateScore (context.curMemory + node.info.sz) kv.sumMemory).bind fun curScore =>
  (calculateScore (nextContext.curMemory - node.info.sz) next.sumMemory).bind fun _ =>
    if curScore ≤ targetScore then
      (state.move (state.i + 1) state.i node false).map fun moved =>
        if curScore ≤ standardScore targetScore then moved else { moved with phase := .push }
    else if node.isDir then
      let cut := state.split (state.i + 1) node
      some (if context.score ≤ standardScore targetScore then cut else { cut with phase := .push })
    else some { state with phase := .push }

def advance : Adjusting := { state with i := state.i + 1, phase := .visit }

def push (state : Adjusting) : Option Adjusting :=
  (state.tree.kvList[state.i]?).bind fun kv =>
  (state.contexts[state.i]?).bind fun context =>
    if targetScore < context.score then
      match kv.domainNodeList.getLast?, state.tree.kvList[state.i + 1]? with
      | some moveEle, some next =>
          (state.contexts[state.i + 1]?).bind fun nextContext =>
          (state.tree.find moveEle).bind fun node =>
          (calculateScore (node.info.sz + nextContext.curMemory) next.sumMemory).bind
            fun nxtScoreAfterMove =>
              if nxtScoreAfterMove ≤ targetScore then state.move state.i (state.i + 1) node true
              else if node.isDir then some (state.split state.i node)
              else some (state.setTagCnt (state.i + 1) (· + 1)).advance
      | _, _ => some state.advance
    else some state.advance

def step (state : Adjusting) : Option Adjusting :=
  match state.phase with
  | .visit => state.visit
  | .takeOver mvEle => state.takeOver mvEle
  | .pull => state.pull targetScore
  | .pulling => state.pulling targetScore
  | .push => state.push targetScore

inductive Moved (state : Adjusting) (src dst : Nat) (node : TreeNode) (forward : Bool) :
    Adjusting → Prop where
  | mk {source sink : KVInfo} {sourceContext sinkContext : AdjustContext}
      {sourceScore sinkScore : Int} (source_eq : state.tree.kvList[src]? = some source)
      (sink_eq : state.tree.kvList[dst]? = some sink)
      (sourceContext_eq : state.contexts[src]? = some sourceContext)
      (sinkContext_eq : state.contexts[dst]? = some sinkContext)
      (sourceScore_eq : calculateScore (sourceContext.curMemory - node.info.sz) source.sumMemory =
        some sourceScore)
      (sinkScore_eq : calculateScore (sinkContext.curMemory + node.info.sz) sink.sumMemory =
        some sinkScore) :
      Moved state src dst node forward { state with
        tree := state.tree.handOver src dst node.info.address sink.id forward
        contexts := (state.contexts.set src
          ⟨sourceContext.curMemory - node.info.sz, sourceScore⟩).set dst
            ⟨sinkContext.curMemory + node.info.sz, sinkScore⟩
        opRes := state.opRes ++ doMove node (source.id, sink.id) }

theorem moved_of_move {state next : Adjusting} {src dst : Nat} {node : TreeNode} {forward : Bool}
    (moved : state.move src dst node forward = some next) :
    Moved state src dst node forward next := by
  simp only [move, Option.bind_eq_some_iff, Option.map_eq_some_iff] at moved
  obtain ⟨source, sourceAt, sink, sinkAt, sourceContext, sourceContextAt, sinkContext,
    sinkContextAt, sourceScore, sourceScoreAt, sinkScore, sinkScoreAt, rfl⟩ := moved
  exact .mk sourceAt sinkAt sourceContextAt sinkContextAt sourceScoreAt sinkScoreAt

/-- A turn that moves a node to the KV at `dst`: the state with the node moved, and the state after
the turn. -/
inductive Transfers (targetScore : Int) (state : Adjusting) :
    Nat → Adjusting → Adjusting → Prop where
  | taken {mvEle : Address} {kv : KVInfo} {context : AdjustContext} {node : TreeNode}
      {moved : Adjusting} {previous current : AdjustContext} (phase : state.phase = .takeOver mvEle)
      (here : state.tree.kvList[state.i]? = some kv)
      (books : state.contexts[state.i]? = some context) (found : state.tree.find mvEle = some node)
      (fits : node.info.sz + context.curMemory ≤ kv.sumMemory)
      (move : Moved (state.setTagCnt state.i (· - 1)) (state.i - 1) state.i node true moved)
      (before : moved.contexts[state.i - 1]? = some previous)
      (after : moved.contexts[state.i]? = some current) :
      Transfers targetScore state state.i moved (if current.score ≤ previous.score then
        { moved.setTagCnt state.i fun _ => 0 with phase := .pull }
        else { moved with
          phase := if 0 < kv.overweighedTagCnt - 1 then .takeOver mvEle else .pull })
  | pulled {kv next : KVInfo} {context : AdjustContext} {mvEle : Address} {node : TreeNode}
      {curScore : Int} {moved : Adjusting} (phase : state.phase = .pulling)
      (here : state.tree.kvList[state.i]? = some kv)
      (there : state.tree.kvList[state.i + 1]? = some next)
      (books : state.contexts[state.i]? = some context)
      (first : next.domainNodeList.head? = some mvEle) (found : state.tree.find mvEle = some node)
      (score : calculateScore (context.curMemory + node.info.sz) kv.sumMemory = some curScore)
      (fits : curScore ≤ targetScore)
      (move : Moved state (state.i + 1) state.i node false moved) :
      Transfers targetScore state state.i moved
        (if curScore ≤ standardScore targetScore then moved else { moved with phase := .push })
  | pushed {kv next : KVInfo} {context nextContext : AdjustContext} {moveEle : Address}
      {node : TreeNode} {score : Int} {moved : Adjusting} (phase : state.phase = .push)
      (here : state.tree.kvList[state.i]? = some kv)
      (books : state.contexts[state.i]? = some context) (high : targetScore < context.score)
      (last : kv.domainNodeList.getLast? = some moveEle)
      (there : state.tree.kvList[state.i + 1]? = some next)
      (nextBooks : state.contexts[state.i + 1]? = some nextContext)
      (found : state.tree.find moveEle = some node)
      (after : calculateScore (node.info.sz + nextContext.curMemory) next.sumMemory = some score)
      (fits : score ≤ targetScore)
      (move : Moved state state.i (state.i + 1) node true moved) :
      Transfers targetScore state (state.i + 1) moved moved

inductive Turn (targetScore : Int) (state : Adjusting) : Adjusting → Prop where
  | overweighed {kv previous : KVInfo} {mvEle : Address} (phase : state.phase = .visit)
      (here : state.tree.kvList[state.i]? = some kv) (counted : 0 < kv.overweighedTagCnt)
      (later : 0 < state.i) (before : state.tree.kvList[state.i - 1]? = some previous)
      (last : previous.domainNodeList.getLast? = some mvEle) :
      Turn targetScore state { state with phase := .takeOver mvEle }
  | visited {kv : KVInfo} (phase : state.phase = .visit)
      (here : state.tree.kvList[state.i]? = some kv)
      (light : ¬ (0 < kv.overweighedTagCnt ∧ 0 < state.i)) :
      Turn targetScore state { state with phase := .pull }
  | transferred {dst : Nat} {moved next : Adjusting}
      (transfer : Transfers targetScore state dst moved next) : Turn targetScore state next
  | takenApart {mvEle : Address} {kv : KVInfo} {node : TreeNode}
      (phase : state.phase = .takeOver mvEle) (here : state.tree.kvList[state.i]? = some kv)
      (found : state.tree.find mvEle = some node) (isDir : node.isDir = true) :
      Turn targetScore state { (state.setTagCnt state.i (· - 1)).split (state.i - 1) node with
        phase := if 0 < kv.overweighedTagCnt - 1 then .takeOver mvEle else .pull }
  | refused {mvEle : Address} {node : TreeNode} (phase : state.phase = .takeOver mvEle)
      (found : state.tree.find mvEle = some node) (file : node.isDir = false) :
      Turn targetScore state
        { (state.setTagCnt state.i (· - 1)).setTagCnt state.i fun _ => 0 with phase := .pull }
  | beginPull {context next : AdjustContext} (phase : state.phase = .pull)
      (books : state.contexts[state.i]? = some context)
      (nextBooks : state.contexts[state.i + 1]? = some next)
      (low : context.score ≤ standardScore targetScore) (high : targetScore < next.score) :
      Turn targetScore state { state with phase := .pulling }
  | noPull (phase : state.phase = .pull) : Turn targetScore state { state with phase := .push }
  | pulledApart {kv next : KVInfo} {context : AdjustContext} {mvEle : Address} {node : TreeNode}
      {curScore : Int} (phase : state.phase = .pulling)
      (here : state.tree.kvList[state.i]? = some kv)
      (there : state.tree.kvList[state.i + 1]? = some next)
      (books : state.contexts[state.i]? = some context)
      (first : next.domainNodeList.head? = some mvEle) (found : state.tree.find mvEle = some node)
      (score : calculateScore (context.curMemory + node.info.sz) kv.sumMemory = some curScore)
      (large : targetScore < curScore) (isDir : node.isDir = true) :
      Turn targetScore state (if context.score ≤ standardScore targetScore then
        state.split (state.i + 1) node
        else { state.split (state.i + 1) node with phase := .push })
  | endPull {kv next : KVInfo} {context : AdjustContext} {mvEle : Address} {node : TreeNode}
      {curScore : Int} (phase : state.phase = .pulling)
      (here : state.tree.kvList[state.i]? = some kv)
      (there : state.tree.kvList[state.i + 1]? = some next)
      (books : state.contexts[state.i]? = some context)
      (first : next.domainNodeList.head? = some mvEle) (found : state.tree.find mvEle = some node)
      (score : calculateScore (context.curMemory + node.info.sz) kv.sumMemory = some curScore)
      (large : targetScore < curScore) (file : node.isDir = false) :
      Turn targetScore state { state with phase := .push }
  | pushedApart {kv : KVInfo} {context : AdjustContext} {moveEle : Address} {node : TreeNode}
      (phase : state.phase = .push) (here : state.tree.kvList[state.i]? = some kv)
      (books : state.contexts[state.i]? = some context) (high : targetScore < context.score)
      (last : kv.domainNodeList.getLast? = some moveEle)
      (found : state.tree.find moveEle = some node) (isDir : node.isDir = true) :
      Turn targetScore state (state.split state.i node)
  | pushedOver {kv : KVInfo} {context : AdjustContext} {moveEle : Address} {node : TreeNode}
      (phase : state.phase = .push) (here : state.tree.kvList[state.i]? = some kv)
      (books : state.contexts[state.i]? = some context) (high : targetScore < context.score)
      (last : kv.domainNodeList.getLast? = some moveEle)
      (found : state.tree.find moveEle = some node) (file : node.isDir = false) :
      Turn targetScore state (state.setTagCnt (state.i + 1) (· + 1)).advance
  | endPush (phase : state.phase = .push) : Turn targetScore state state.advance

section Turn

variable {targetScore : Int} {state next : Adjusting}

theorem turn_of_visit (phase : state.phase = .visit) (taken : state.visit = some next) :
    Turn targetScore state next := by
  simp only [visit, Option.bind_eq_some_iff] at taken
  obtain ⟨kv, here, taken⟩ := taken
  split at taken
  next heavy =>
    simp only [Option.bind_eq_some_iff, Option.map_eq_some_iff] at taken
    obtain ⟨previous, before, mvEle, last, rfl⟩ := taken
    exact .overweighed phase here heavy.1 heavy.2 before last
  next light =>
    obtain rfl := Option.some.inj taken
    exact .visited phase here light

theorem turn_of_takeOver {mvEle : Address} (phase : state.phase = .takeOver mvEle)
    (taken : state.takeOver mvEle = some next) : Turn targetScore state next := by
  simp only [takeOver, Option.bind_eq_some_iff, phase] at taken
  obtain ⟨kv, here, context, books, node, found, taken⟩ := taken
  split at taken
  next fits =>
    simp only [Option.bind_eq_some_iff, Option.map_eq_some_iff] at taken
    obtain ⟨moved, move, previous, before, current, after, rfl⟩ := taken
    exact .transferred (.taken phase here books found fits (moved_of_move move) before after)
  next =>
    split at taken
    next isDir =>
      obtain rfl := Option.some.inj taken
      exact .takenApart phase here found isDir
    next file =>
      obtain rfl := Option.some.inj taken
      exact .refused phase found (Bool.eq_false_iff.mpr file)

theorem turn_of_pull (phase : state.phase = .pull) (taken : state.pull targetScore = some next) :
    Turn targetScore state next := by
  simp only [pull, Option.map_eq_some_iff] at taken
  obtain ⟨context, books, rfl⟩ := taken
  split
  next => exact .noPull phase
  next following nextBooks =>
    split
    next both => exact .beginPull phase books nextBooks both.1 both.2
    next => exact .noPull phase

theorem turn_of_pulling (phase : state.phase = .pulling)
    (taken : state.pulling targetScore = some next) : Turn targetScore state next := by
  simp only [pulling, Option.bind_eq_some_iff] at taken
  obtain ⟨kv, here, following, there, context, books, nextContext, -, mvEle, first, node, found,
    curScore, score, -, -, taken⟩ := taken
  split at taken
  next fits =>
    obtain ⟨moved, move, rfl⟩ := Option.map_eq_some_iff.mp taken
    exact .transferred
      (.pulled phase here there books first found score fits (moved_of_move move))
  next large =>
    split at taken
    next isDir =>
      obtain rfl := Option.some.inj taken
      exact .pulledApart phase here there books first found score (not_le.mp large) isDir
    next file =>
      obtain rfl := Option.some.inj taken
      exact .endPull phase here there books first found score (not_le.mp large)
        (Bool.eq_false_iff.mpr file)

theorem turn_of_push (phase : state.phase = .push) (taken : state.push targetScore = some next) :
    Turn targetScore state next := by
  simp only [push, Option.bind_eq_some_iff] at taken
  obtain ⟨kv, here, context, books, taken⟩ := taken
  split at taken
  next high =>
    split at taken
    next moveEle following last there =>
      simp only [Option.bind_eq_some_iff] at taken
      obtain ⟨nextContext, nextBooks, node, found, score, after, taken⟩ := taken
      split at taken
      next fits =>
        exact .transferred (.pushed phase here books high last there nextBooks found after fits
          (moved_of_move taken))
      next =>
        split at taken
        next isDir =>
          obtain rfl := Option.some.inj taken
          exact .pushedApart phase here books high last found isDir
        next file =>
          obtain rfl := Option.some.inj taken
          exact .pushedOver phase here books high last found (Bool.eq_false_iff.mpr file)
    next =>
      obtain rfl := Option.some.inj taken
      exact .endPush phase
  next =>
    obtain rfl := Option.some.inj taken
    exact .endPush phase

theorem turn_of_step (taken : state.step targetScore = some next) :
    Turn targetScore state next := by
  rw [step] at taken
  split at taken
  next phase => exact turn_of_visit phase taken
  next mvEle phase => exact turn_of_takeOver phase taken
  next phase => exact turn_of_pull phase taken
  next phase => exact turn_of_pulling phase taken
  next phase => exact turn_of_push phase taken

end Turn

def Done : Prop := state.phase = .visit ∧ state.contexts.length ≤ state.i

instance (state : Adjusting) : Decidable state.Done :=
  inferInstanceAs (Decidable (state.phase = .visit ∧ state.contexts.length ≤ state.i))

/-- At most a number of turns, up to the end; `none` if the end is not reached. -/
def finish (targetScore : Int) : Nat → Adjusting → Option Adjusting
  | 0, _ => none
  | turns + 1, state =>
      if state.Done then some state
      else (state.step targetScore).bind (finish targetScore turns)

theorem finish_invariant {targetScore : Int} {Inv : Adjusting → Prop}
    (preserved : ∀ state next, Inv state → Turn targetScore state next → Inv next) {turns : Nat}
    {state final : Adjusting} (ended : state.finish targetScore turns = some final)
    (initial : Inv state) : Inv final ∧ final.Done := by
  induction turns generalizing state with
  | zero => cases ended
  | succ turns ih =>
      rw [finish] at ended
      split at ended
      next done =>
        obtain rfl := Option.some.inj ended
        exact ⟨initial, done⟩
      next =>
        obtain ⟨next, taken, rest⟩ := Option.bind_eq_some_iff.mp ended
        exact ih rest (preserved state next initial (turn_of_step taken))

end Adjusting

/-- `Adjust`.  The contexts are calculated anew by every call. -/
def PrefixTree.adjust (tree : PrefixTree) (turns : Nat) (targetScore : Int) :
    Option (PrefixTree × List Move) :=
  tree.calculateAdjustContext.bind fun contexts =>
    (Adjusting.finish targetScore turns ⟨tree, contexts, 0, .visit, []⟩).map fun state =>
      (state.tree, state.opRes.reverse)

theorem PrefixTree.adjust_invariant {Inv : PrefixTree → Prop} {tree after : PrefixTree}
    {turns : Nat} {targetScore : Int} {moves : List Move}
    (preserved : ∀ state next, Inv state.tree → Adjusting.Turn targetScore state next →
      Inv next.tree) (initial : Inv tree)
    (adjusted : tree.adjust turns targetScore = some (after, moves)) : Inv after := by
  simp only [PrefixTree.adjust, Option.bind_eq_some_iff, Option.map_eq_some_iff] at adjusted
  obtain ⟨contexts, -, final, ended, result⟩ := adjusted
  obtain ⟨rfl, rfl⟩ := Prod.mk.inj result
  exact (@Adjusting.finish_invariant targetScore (fun state => Inv state.tree) preserved _ _ _
    ended initial).1

end Ctgfs.Placement
