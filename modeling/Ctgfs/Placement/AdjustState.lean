import Ctgfs.Placement.AdjustPartition

/-!
# The turns of `Adjust`

What holds between the turns of `Adjust` whether or not the domains are a partition: a KV is
counted as overweighed at most once, the node that is taken over is the last one of the KV
before, and a KV pulls only while its score is low.
-/

namespace Ctgfs.Placement

open Foundation

def Phase.allowance (phase : Phase) (i place : Nat) : Int :=
  match phase with
  | .visit | .takeOver _ => if place = i ∧ 0 < i then 1 else 0
  | .pull | .pulling | .push => 0

def Phase.Calm (phase : Phase) : Prop := phase = .pull ∨ phase = .pulling ∨ phase = .push

theorem Phase.Calm.allowance_eq {phase : Phase} (calm : phase.Calm) (i place : Nat) :
    phase.allowance i place = 0 := by
  obtain rfl | rfl | rfl := calm <;> rfl

def Steady {Value : Type} (view : KVInfo → Value) : Prop :=
  ∀ kv count list, view { kv with overweighedTagCnt := count, domainNodeList := list } = view kv

namespace Adjusting

variable {targetScore : Int} {state next : Adjusting}

def counts (state : Adjusting) : List Int := state.tree.kvList.map KVInfo.overweighedTagCnt

theorem counts_setTagCnt (state : Adjusting) (place : Nat) (count : Int → Int) :
    (state.setTagCnt place count).counts = state.counts.modify place count := by
  apply List.ext_getElem?
  intro index
  simp only [counts, setTagCnt, changeKV, List.getElem?_map, List.getElem?_modify]
  cases state.tree.kvList[index]? with
  | none => rfl
  | some kv =>
      simp only [Option.map_eq_map, Option.map_some]
      split <;> rfl

theorem counts_split (state : Adjusting) (place : Nat) (node : TreeNode) :
    (state.split place node).counts = state.counts :=
  map_modify_of_same (by intro kv; rfl) _ _

variable {node : TreeNode} {forward : Bool} {src dst : Nat}

theorem Moved.counts_eq (moved : Moved state src dst node forward next) :
    next.counts = state.counts := by
  cases moved
  exact (map_modify_of_same (by intro kv; rfl) _ _).trans
    (map_modify_of_same (by intro kv; rfl) _ _)

section Views

variable {Value : Type} {view : KVInfo → Value} (steady : Steady view)

include steady

theorem map_setTagCnt (state : Adjusting) (place : Nat) (count : Int → Int) :
    (state.setTagCnt place count).tree.kvList.map view = state.tree.kvList.map view :=
  map_modify_of_same (fun kv => steady kv _ _) _ _

theorem map_split (state : Adjusting) (place : Nat) (node : TreeNode) :
    (state.split place node).tree.kvList.map view = state.tree.kvList.map view :=
  map_modify_of_same (fun kv => steady kv _ _) _ _

theorem Moved.map_eq (moved : Moved state src dst node forward next) :
    next.tree.kvList.map view = state.tree.kvList.map view := by
  cases moved
  exact (map_modify_of_same (fun kv => steady kv _ _) _ _).trans
    (map_modify_of_same (fun kv => steady kv _ _) _ _)

theorem Turn.map_eq (turn : Turn targetScore state next) :
    next.tree.kvList.map view = state.tree.kvList.map view := by
  cases turn with
  | overweighed | visited | beginPull | noPull | endPull | endPush => rfl
  | transferred transfer =>
      cases transfer with
      | taken _ _ _ _ _ move =>
          have before := (move.map_eq steady).trans (map_setTagCnt steady state state.i (· - 1))
          split
          · exact (map_setTagCnt steady _ state.i fun _ => 0).trans before
          · exact before
      | pulled _ _ _ _ _ _ _ _ move =>
          have moved := move.map_eq steady
          split <;> exact moved
      | pushed _ _ _ _ _ _ _ _ _ _ move => exact move.map_eq steady
  | takenApart =>
      exact (map_split steady _ _ _).trans (map_setTagCnt steady state state.i (· - 1))
  | refused =>
      exact (map_setTagCnt steady _ state.i fun _ => 0).trans
        (map_setTagCnt steady state state.i (· - 1))
  | @pulledApart _ _ _ _ node =>
      have apart := map_split steady state (state.i + 1) node
      split <;> exact apart
  | pushedApart => exact map_split steady _ _ _
  | pushedOver => exact map_setTagCnt steady state (state.i + 1) (· + 1)

end Views

def Counted (state : Adjusting) : Prop :=
  ∀ place count, state.counts[place]? = some count → count ≤ state.phase.allowance state.i place

theorem Moved.length_contexts (moved : Moved state src dst node forward next) :
    next.contexts.length = state.contexts.length ∧
      next.tree.kvList.length = state.tree.kvList.length ∧ next.i = state.i ∧
      next.phase = state.phase := by
  cases moved
  simp [PrefixTree.handOver]

variable {kv : KVInfo}

theorem Moved.sink_books (moved : Moved state src dst node forward next)
    {context after : AdjustContext} (here : state.tree.kvList[dst]? = some kv)
    (books : state.contexts[dst]? = some context) (found : next.contexts[dst]? = some after) :
    after.curMemory = context.curMemory + node.info.sz ∧
      calculateScore after.curMemory kv.sumMemory = some after.score := by
  cases moved with
  | mk _ sinkAt _ sinkContextAt _ sinkScoreAt =>
      obtain rfl := Option.some.inj (here.symm.trans sinkAt)
      obtain rfl := Option.some.inj (books.symm.trans sinkContextAt)
      have inside : dst < state.contexts.length := (List.getElem?_eq_some_iff.mp books).1
      rw [List.getElem?_set_self (by simpa using inside)] at found
      obtain rfl := Option.some.inj found
      exact ⟨rfl, sinkScoreAt⟩

theorem Moved.score_eq (moved : Moved state src dst node forward next)
    {context after : AdjustContext} {score : Int} (here : state.tree.kvList[dst]? = some kv)
    (books : state.contexts[dst]? = some context)
    (calculated : calculateScore (context.curMemory + node.info.sz) kv.sumMemory = some score)
    (found : next.contexts[dst]? = some after) : after.score = score := by
  obtain ⟨memory, entered⟩ := moved.sink_books here books found
  rw [memory, calculated] at entered
  exact (Option.some.inj entered).symm

section Settled

theorem mem_modify_counts {counts : List Int} {place : Nat} {change : Int → Int} {count : Int}
    (member : count ∈ counts.modify place change) :
    ∃ index old, counts[index]? = some old ∧
      ((place = index ∧ count = change old) ∨ (place ≠ index ∧ count = old)) := by
  obtain ⟨index, found⟩ := List.mem_iff_getElem?.mp member
  rw [List.getElem?_modify, Option.map_eq_map, Option.map_eq_some_iff] at found
  obtain ⟨old, there, rfl⟩ := found
  refine ⟨index, old, there, ?_⟩
  split
  next same => exact .inl ⟨same, rfl⟩
  next different => exact .inr ⟨different, rfl⟩

theorem Counted.settled (counted : state.Counted) (calm : state.phase.Calm) :
    ∀ count ∈ state.counts, count ≤ 0 := by
  intro count member
  obtain ⟨place, found⟩ := List.mem_iff_getElem?.mp member
  exact calm.allowance_eq state.i place ▸ counted place count found

theorem Counted.settled_visit (counted : state.Counted) (phase : state.phase = .visit)
    (here : state.tree.kvList[state.i]? = some kv)
    (light : ¬ (0 < kv.overweighedTagCnt ∧ 0 < state.i)) : ∀ count ∈ state.counts, count ≤ 0 := by
  intro count member
  obtain ⟨place, found⟩ := List.mem_iff_getElem?.mp member
  have bound := counted place count found
  rw [phase, Phase.allowance] at bound
  split at bound
  next this =>
    rw [Adjusting.counts, this.1, List.getElem?_map, here] at found
    obtain rfl : kv.overweighedTagCnt = count := Option.some.inj found
    exact not_lt.mp fun positive => light ⟨positive, this.2⟩
  next => exact bound

theorem Counted.settled_takeOver (counted : state.Counted) {mvEle : Address}
    (phase : state.phase = .takeOver mvEle) :
    ∀ count ∈ (state.setTagCnt state.i (· - 1)).counts, count ≤ 0 := by
  rw [counts_setTagCnt]
  intro count member
  obtain ⟨place, old, found, ⟨same, rfl⟩ | ⟨different, rfl⟩⟩ := mem_modify_counts member
  · have bound := counted place old found
    rw [phase, Phase.allowance] at bound
    split at bound <;> omega
  · have bound := counted place count found
    rwa [phase, Phase.allowance, if_neg fun this => different this.1.symm] at bound

theorem Counted.again (counted : state.Counted) {mvEle : Address}
    (phase : state.phase = .takeOver mvEle) (here : state.tree.kvList[state.i]? = some kv) :
    (if 0 < kv.overweighedTagCnt - 1 then Phase.takeOver mvEle else .pull) = .pull := by
  have found : state.counts[state.i]? = some kv.overweighedTagCnt := by
    rw [Adjusting.counts, List.getElem?_map, here]
    rfl
  have bound := counted state.i _ found
  rw [phase, Phase.allowance] at bound
  apply if_neg
  split at bound <;> omega

section

variable (settled : ∀ count ∈ state.counts, count ≤ 0)

include settled

theorem counted_of_settled (calm : state.phase.Calm) : state.Counted :=
  fun place count found =>
    (calm.allowance_eq state.i place).symm ▸ settled count (List.mem_of_getElem? found)

theorem counted_advance : state.advance.Counted := by
  intro place count found
  have bound := settled count (List.mem_of_getElem? found)
  change count ≤ if place = state.i + 1 ∧ 0 < state.i + 1 then 1 else 0
  split <;> omega

theorem counted_pushedOver : (state.setTagCnt (state.i + 1) (· + 1)).advance.Counted := by
  intro place count found
  change (state.setTagCnt (state.i + 1) (· + 1)).counts[place]? = some count at found
  rw [counts_setTagCnt, List.getElem?_modify, Option.map_eq_map, Option.map_eq_some_iff] at found
  obtain ⟨old, before, rfl⟩ := found
  have bound := settled old (List.mem_of_getElem? before)
  change _ ≤ if place = state.i + 1 ∧ 0 < state.i + 1 then (1 : Int) else 0
  split <;> split <;> omega

theorem settled_clear (place : Nat) :
    ∀ count ∈ (state.setTagCnt place fun _ => 0).counts, count ≤ 0 := by
  rw [counts_setTagCnt]
  intro count member
  obtain ⟨index, old, found, ⟨-, rfl⟩ | ⟨-, rfl⟩⟩ := mem_modify_counts member
  · exact le_refl 0
  · exact settled count (List.mem_of_getElem? found)

end

end Settled

theorem Turn.sums (turn : Turn targetScore state next) :
    next.tree.kvList.map KVInfo.sumMemory = state.tree.kvList.map KVInfo.sumMemory ∧
      next.contexts.length = state.contexts.length := by
  refine ⟨turn.map_eq fun _ _ _ => rfl, ?_⟩
  cases turn with
  | transferred transfer =>
      cases transfer with
      | taken _ _ _ _ _ move =>
          split
          · exact move.length_contexts.1
          · exact move.length_contexts.1
      | pulled _ _ _ _ _ _ _ _ move =>
          split
          · exact move.length_contexts.1
          · exact move.length_contexts.1
      | pushed _ _ _ _ _ _ _ _ _ _ move => exact move.length_contexts.1
  | pulledApart => split <;> rfl
  | _ => rfl

theorem Turn.counted (turn : Turn targetScore state next) (counted : state.Counted) :
    next.Counted := by
  cases turn with
  | overweighed phase =>
      rw [Counted, phase] at counted
      exact counted
  | visited phase here light =>
      have settled := counted.settled_visit phase here light
      exact counted_of_settled settled (.inl rfl)
  | transferred transfer =>
      cases transfer with
      | taken phase here _ _ _ move =>
          have settled := counted.settled_takeOver phase
          rw [← move.counts_eq] at settled
          split
          · exact counted_of_settled (settled_clear settled state.i) (.inl rfl)
          · rw [counted.again phase here]
            exact counted_of_settled settled (.inl rfl)
      | pulled phase _ _ _ _ _ _ _ move =>
          have settled := counted.settled (.inr (.inl phase))
          rw [← move.counts_eq] at settled
          split
          · exact counted_of_settled settled (.inr (.inl (move.length_contexts.2.2.2.trans phase)))
          · exact counted_of_settled settled (.inr (.inr rfl))
      | pushed phase _ _ _ _ _ _ _ _ _ move =>
          have settled := counted.settled (.inr (.inr phase))
          rw [← move.counts_eq] at settled
          exact counted_of_settled settled (.inr (.inr (move.length_contexts.2.2.2.trans phase)))
  | takenApart phase here =>
      have settled := counted.settled_takeOver phase
      rw [← counts_split _ (state.i - 1)] at settled
      rw [counted.again phase here]
      exact counted_of_settled settled (.inl rfl)
  | refused phase =>
      exact counted_of_settled (settled_clear (counted.settled_takeOver phase) state.i) (.inl rfl)
  | beginPull phase =>
      have settled := counted.settled (.inl phase)
      exact counted_of_settled settled (.inr (.inl rfl))
  | noPull phase =>
      have settled := counted.settled (.inl phase)
      exact counted_of_settled settled (.inr (.inr rfl))
  | pulledApart phase =>
      have settled := counted.settled (.inr (.inl phase))
      rw [← counts_split _ (state.i + 1)] at settled
      split
      · exact counted_of_settled settled (.inr (.inl phase))
      · exact counted_of_settled settled (.inr (.inr rfl))
  | endPull phase =>
      have settled := counted.settled (.inr (.inl phase))
      exact counted_of_settled settled (.inr (.inr rfl))
  | pushedApart phase =>
      have settled := counted.settled (.inr (.inr phase))
      rw [← counts_split _ state.i] at settled
      exact counted_of_settled settled (.inr (.inr phase))
  | pushedOver phase => exact counted_pushedOver (counted.settled (.inr (.inr phase)))
  | endPush phase => exact counted_advance (counted.settled (.inr (.inr phase)))

structure Placed (targetScore : Int) (state : Adjusting) : Prop where
  inside : state.phase ≠ .visit → state.i < state.contexts.length
  further : state.phase = .pulling → state.i + 1 < state.contexts.length
  ready : state.phase = .visit → ∀ kv, state.tree.kvList[state.i]? = some kv →
    0 < kv.overweighedTagCnt → 0 < state.i → ∃ previous mvEle,
      state.tree.kvList[state.i - 1]? = some previous ∧
        previous.domainNodeList.getLast? = some mvEle
  held : ∀ mvEle, state.phase = .takeOver mvEle → 0 < state.i ∧
    ∃ previous, state.tree.kvList[state.i - 1]? = some previous ∧
      previous.domainNodeList.getLast? = some mvEle
  low : state.phase = .pulling → ∀ context, state.contexts[state.i]? = some context →
    context.score ≤ standardScore targetScore

theorem Placed.lt_length (placed : Placed targetScore state) {phase : Phase}
    (here : state.phase = phase) (other : phase ≠ .visit) : state.i < state.contexts.length :=
  placed.inside (here ▸ other)

theorem placed_idle (phase : state.phase = .pull ∨ state.phase = .push)
    (inside : state.i < state.contexts.length) : Placed targetScore state where
  inside _ := inside
  further pulling := by rcases phase with phase | phase <;> cases phase.symm.trans pulling
  ready visit := by rcases phase with phase | phase <;> cases phase.symm.trans visit
  held mvEle taken := by rcases phase with phase | phase <;> cases phase.symm.trans taken
  low pulling := by rcases phase with phase | phase <;> cases phase.symm.trans pulling

theorem placed_pulling (phase : state.phase = .pulling)
    (further : state.i + 1 < state.contexts.length)
    (low : ∀ context, state.contexts[state.i]? = some context →
      context.score ≤ standardScore targetScore) : Placed targetScore state where
  inside _ := (Nat.lt_succ_self _).trans further
  further _ := further
  ready visit := by cases phase.symm.trans visit
  held mvEle taken := by cases phase.symm.trans taken
  low _ := low

theorem placed_visit (phase : state.phase = .visit)
    (ready : ∀ kv, state.tree.kvList[state.i]? = some kv → 0 < kv.overweighedTagCnt →
      0 < state.i → ∃ previous mvEle, state.tree.kvList[state.i - 1]? = some previous ∧
        previous.domainNodeList.getLast? = some mvEle) : Placed targetScore state where
  inside other := absurd phase other
  further pulling := by cases phase.symm.trans pulling
  ready _ := ready
  held mvEle taken := by cases phase.symm.trans taken
  low pulling := by cases phase.symm.trans pulling

theorem lt_length_of_getElem? {Item : Type} {list : List Item} {place : Nat} {item : Item}
    (found : list[place]? = some item) : place < list.length :=
  (List.getElem?_eq_some_iff.mp found).1

theorem Turn.placed (turn : Turn targetScore state next) (counted : state.Counted)
    (aligned : state.contexts.length = state.tree.kvList.length)
    (placed : Placed targetScore state) : Placed targetScore next := by
  cases turn with
  | @overweighed kv previous mvEle phase here _ later before last =>
      refine ⟨fun _ => aligned.symm ▸ lt_length_of_getElem? here, by rintro ⟨⟩, by rintro ⟨⟩, ?_,
        by rintro ⟨⟩⟩
      rintro _ ⟨⟩
      exact ⟨later, previous, before, last⟩
  | visited phase here light =>
      exact placed_idle (.inl rfl) (aligned.symm ▸ lt_length_of_getElem? here)
  | @transferred _ moved _ transfer =>
      cases transfer with
      | taken phase here _ _ _ move =>
          obtain ⟨length, -, index, -⟩ := move.length_contexts
          have bound : moved.i < moved.contexts.length := by
            rw [length, index]
            exact placed.lt_length phase Phase.noConfusion
          split
          · exact placed_idle (.inl rfl) bound
          · rw [counted.again phase here]
            exact placed_idle (.inl rfl) bound
      | pulled phase here _ books _ _ score _ move =>
          obtain ⟨length, -, index, same⟩ := move.length_contexts
          have further := placed.further phase
          rw [← length, ← index] at further
          split
          next small =>
            refine placed_pulling (same.trans phase) further fun context after => ?_
            rw [index] at after
            rw [move.score_eq here books score after]
            exact small
          next => exact placed_idle (.inr rfl) ((Nat.lt_succ_self _).trans further)
      | pushed phase _ _ _ _ _ _ _ _ _ move =>
          obtain ⟨length, -, index, same⟩ := move.length_contexts
          refine placed_idle (.inr (same.trans phase)) ?_
          rw [length, index]
          exact placed.lt_length phase Phase.noConfusion
  | takenApart phase here =>
      rw [counted.again phase here]
      exact placed_idle (.inl rfl) (placed.lt_length phase Phase.noConfusion)
  | refused phase => exact placed_idle (.inl rfl) (placed.lt_length phase Phase.noConfusion)
  | beginPull phase books nextBooks low =>
      refine placed_pulling rfl (lt_length_of_getElem? nextBooks) fun context here => ?_
      obtain rfl := Option.some.inj (books.symm.trans here)
      exact low
  | noPull phase => exact placed_idle (.inr rfl) (placed.lt_length phase Phase.noConfusion)
  | pulledApart phase _ _ books =>
      rw [if_pos (placed.low phase _ books)]
      exact placed_pulling phase (placed.further phase) (placed.low phase)
  | endPull phase => exact placed_idle (.inr rfl) (placed.lt_length phase Phase.noConfusion)
  | pushedApart phase => exact placed_idle (.inr phase) (placed.lt_length phase Phase.noConfusion)
  | @pushedOver kv context moveEle node phase here _ _ last =>
      refine placed_visit rfl fun _ _ _ _ => ⟨kv, moveEle, ?_, last⟩
      change (state.tree.kvList.modify (state.i + 1) _)[state.i + 1 - 1]? = some kv
      rw [Nat.add_sub_cancel, List.getElem?_modify, here]
      simp
  | endPush phase =>
      refine placed_visit rfl fun kv here positive => absurd positive (not_lt.mpr ?_)
      refine counted.settled (.inr (.inr phase)) _ ?_
      exact List.mem_map_of_mem (List.mem_of_getElem? here)

/-- What holds between the turns. -/
structure Running (targetScore : Int) (state : Adjusting) : Prop where
  aligned : state.contexts.length = state.tree.kvList.length
  counted : state.Counted
  placed : Placed targetScore state

theorem Turn.running (turn : Turn targetScore state next) (running : Running targetScore state) :
    Running targetScore next where
  aligned := by
    have lengths := congrArg List.length turn.sums.1
    rw [List.length_map, List.length_map] at lengths
    rw [turn.sums.2, running.aligned, lengths]
  counted := turn.counted running.counted
  placed := turn.placed running.counted running.aligned running.placed

end Adjusting

def PrefixTree.Uncounted (tree : PrefixTree) : Prop :=
  ∀ kv ∈ tree.kvList, kv.overweighedTagCnt ≤ 0

theorem PrefixTree.Uncounted.running {tree : PrefixTree} (uncounted : tree.Uncounted)
    (targetScore : Int) {contexts : List AdjustContext}
    (calculated : tree.calculateAdjustContext = some contexts) :
    Adjusting.Running targetScore ⟨tree, contexts, 0, .visit, []⟩ where
  aligned := PrefixTree.length_calculateAdjustContext calculated
  counted place count found := by
    obtain ⟨kv, member, rfl⟩ := List.mem_map.mp (List.mem_of_getElem? found)
    simpa [Phase.allowance] using uncounted kv member
  placed := Adjusting.placed_visit rfl fun kv here positive =>
    absurd positive (not_lt.mpr (uncounted kv (List.mem_of_getElem? here)))

/-- The loop has passed the last KV, so that none may be counted any more. -/
theorem Adjusting.Running.uncounted {targetScore : Int} {final : Adjusting}
    (running : Running targetScore final) (done : final.Done) : final.tree.Uncounted := by
  intro kv member
  obtain ⟨phase, passed⟩ := done
  obtain ⟨place, found⟩ := List.mem_iff_getElem?.mp member
  have inside := lt_length_of_getElem? found
  have bound := running.counted place kv.overweighedTagCnt
    (by rw [counts, List.getElem?_map, found]; rfl)
  have aligned := running.aligned
  have before : place ≠ final.i := by omega
  simpa [phase, Phase.allowance, before] using bound

theorem PrefixTree.Uncounted.adjust {tree after : PrefixTree} {turns : Nat} {targetScore : Int}
    {moves : List Move} (uncounted : tree.Uncounted)
    (adjusted : tree.adjust turns targetScore = some (after, moves)) : after.Uncounted := by
  simp only [PrefixTree.adjust, Option.bind_eq_some_iff, Option.map_eq_some_iff] at adjusted
  obtain ⟨contexts, calculated, final, ended, result⟩ := adjusted
  obtain ⟨rfl, rfl⟩ := Prod.mk.inj result
  obtain ⟨running, done⟩ := Adjusting.finish_invariant
    (fun _ _ running turn => turn.running running) ended (uncounted.running targetScore calculated)
  exact running.uncounted done

end Ctgfs.Placement
