import Ctgfs.Placement.DomainPartition
import Ctgfs.Placement.FilePlacement
import Ctgfs.Placement.Master

/-!
# The moves of `Adjust`

`Adjust` changes the placement of the files and returns the moves that are to bring the files
there.  The thread of the master sorts them by the ids of the KVs and issues them in batches.
A file that goes on from KV to KV has several moves, and they are issued in the right order
when the ids ascend in the list of the KVs.
-/

namespace Ctgfs.Placement

open Foundation

section Model

/-- The loop of the adjust thread: the numbers that are collected for the next call of `Move`,
the ids for that call, the calls made so far, and the table `inum_to_register_id_`. -/
structure Issuing where
  pipLine : List UInt64
  opAddr : Int × Int
  issued : List (List UInt64 × Int × Int)
  inumToRegisterId : Key → Int

def Issuing.next (state : Issuing) (move : Move) : Issuing :=
  let table := Function.update state.inumToRegisterId move.1.toUInt32 move.2.2
  if move.2 = state.opAddr then
    { state with pipLine := state.pipLine ++ [move.1], inumToRegisterId := table }
  else
    { pipLine := [move.1]
      opAddr := move.2
      issued := state.issued ++ [(state.pipLine, state.opAddr)]
      inumToRegisterId := Function.update table move.1.toUInt32 move.2.2 }

/-- The calls of `Move` when the loop ends here. -/
def Issuing.calls (state : Issuing) : List (List UInt64 × Int × Int) :=
  state.issued ++ [(state.pipLine, state.opAddr)]

/-- What the adjust thread does with the sorted moves: the calls of `Move` that it makes, and
the table that it leaves. -/
def issue (table : Key → Int) : List Move → List (List UInt64 × Int × Int) × (Key → Int)
  | [] => ([], table)
  | first :: rest =>
      let last := rest.foldl Issuing.next
        ⟨[first.1], first.2, [], Function.update table first.1.toUInt32 first.2.2⟩
      (last.calls, last.inumToRegisterId)

def singleMoves (calls : List (List UInt64 × Int × Int)) : List Move :=
  calls.flatMap fun call => call.1.map fun ino => (ino, call.2)

end Model

section Issue

variable (state : Issuing)

theorem singleMoves_next (move : Move) :
    singleMoves (state.next move).calls = singleMoves state.calls ++ [move] := by
  rw [Issuing.next]
  split
  next same => simp [Issuing.calls, singleMoves, ← same]
  next => simp [Issuing.calls, singleMoves]

theorem inumToRegisterId_next (move : Move) :
    (state.next move).inumToRegisterId =
      Function.update state.inumToRegisterId move.1.toUInt32 move.2.2 := by
  rw [Issuing.next]
  split
  · rfl
  · exact Function.update_idem _ _ _

theorem singleMoves_foldl (moves : List Move) :
    singleMoves (moves.foldl Issuing.next state).calls = singleMoves state.calls ++ moves := by
  induction moves generalizing state with
  | nil => exact (List.append_nil _).symm
  | cons move moves ih =>
      rw [List.foldl_cons, ih, singleMoves_next, List.append_assoc,
        List.singleton_append]

theorem inumToRegisterId_foldl (moves : List Move) :
    (moves.foldl Issuing.next state).inumToRegisterId =
      tabulate UInt64.toUInt32 state.inumToRegisterId moves := by
  induction moves generalizing state with
  | nil => rfl
  | cons move moves ih =>
      rw [List.foldl_cons, ih, inumToRegisterId_next]
      rfl

theorem singleMoves_issue (table : Key → Int) (moves : List Move) :
    singleMoves (issue table moves).1 = moves := by
  cases moves with
  | nil => rfl
  | cons first rest => exact singleMoves_foldl _ rest

theorem table_issue (table : Key → Int) (moves : List Move) :
    (issue table moves).2 = tabulate UInt64.toUInt32 table moves := by
  cases moves with
  | nil => rfl
  | cons first rest => exact inumToRegisterId_foldl _ rest

end Issue

variable {place : Nat} {sink : Int}

section Journeys

variable {ids : List Int} {frontier : Nat} {frozen : Nat → Prop} {steps : List (Int × Int)}
  {old owner : Int}

inductive Journey (ids : List Int) (first : Nat) : List (Int × Int) → Nat → Prop where
  | rest : Journey ids first [] first
  | onward {place : Nat} {steps : List (Int × Int)} {source sink : Int} :
      Journey ids first steps place → ids[place]? = some source → ids[place + 1]? = some sink →
      Journey ids first (steps ++ [(source, sink)]) (place + 1)

/-- What `Adjust` has done to a file: it has gone onward and not beyond the frontier, or it has
been pulled back once by a KV that does not give it away again. -/
inductive Tracked (ids : List Int) (frontier : Nat) (frozen : Nat → Prop)
    (steps : List (Int × Int)) (old owner : Int) : Prop where
  | ahead {first place : Nat} : Journey ids first steps place → ids[first]? = some old →
      ids[place]? = some owner → (steps ≠ [] → place ≤ frontier) →
      Tracked ids frontier frozen steps old owner
  | back {place : Nat} : steps = [(old, owner)] → ids[place + 1]? = some old →
      ids[place]? = some owner → frozen place → Tracked ids frontier frozen steps old owner

theorem Journey.path {first : Nat} (journey : Journey ids first steps place)
    (start : ids[first]? = some old) (stop : ids[place]? = some owner) : Path old steps owner := by
  induction journey generalizing owner with
  | rest =>
      obtain rfl := Option.some.inj (start.symm.trans stop)
      exact .rest
  | onward journey source sink ih =>
      obtain rfl := Option.some.inj (sink.symm.trans stop)
      exact (ih source).onward

theorem Journey.ascending (order : ids.Pairwise (· < ·)) {first : Nat}
    (journey : Journey ids first steps place) :
    steps.Pairwise PairLE ∧ ∀ step ∈ steps, ∃ earlier < place, ids[earlier]? = some step.1 := by
  induction journey with
  | rest => exact ⟨List.Pairwise.nil, fun step member => absurd member List.not_mem_nil⟩
  | @onward place steps source sink journey here there ih =>
      obtain ⟨ordered, sources⟩ := ih
      constructor
      · refine List.pairwise_append.mpr ⟨ordered, List.pairwise_singleton _ _, ?_⟩
        intro step member last listed
        obtain rfl := List.mem_singleton.mp listed
        obtain ⟨earlier, before, came⟩ := sources step member
        obtain ⟨inside, source⟩ := List.getElem?_eq_some_iff.mp came
        obtain ⟨inside', source'⟩ := List.getElem?_eq_some_iff.mp here
        have less := List.pairwise_iff_getElem.mp order earlier place inside inside' before
        rw [source, source'] at less
        exact .inl less
      · intro step member
        rcases List.mem_append.mp member with earlier | last
        · obtain ⟨place', before, came⟩ := sources step earlier
          exact ⟨place', before.trans (Nat.lt_succ_self _), came⟩
        · obtain rfl := List.mem_singleton.mp last
          exact ⟨place, Nat.lt_succ_self _, here⟩

namespace Tracked

section

variable (tracked : Tracked ids frontier frozen steps old owner)

include tracked

theorem path : Path old steps owner := by
  cases tracked with
  | ahead journey start stop => exact journey.path start stop
  | back only =>
      rw [only]
      exact Path.onward .rest

theorem ascending (order : ids.Pairwise (· < ·)) : steps.Pairwise PairLE := by
  cases tracked with
  | ahead journey => exact (journey.ascending order).1
  | back only =>
      rw [only]
      exact List.pairwise_singleton _ _

theorem mono {further : Nat} {frozen' : Nat → Prop} (grown : frontier ≤ further)
    (kept : ∀ place, frozen place → frozen' place) :
    Tracked ids further frozen' steps old owner := by
  cases tracked with
  | ahead journey start stop bound =>
      exact .ahead journey start stop fun moved => (bound moved).trans grown
  | back only start stop still => exact .back only start stop (kept _ still)

theorem onward (distinct : ids.Nodup) (here : ids[place]? = some owner)
    (there : ids[place + 1]? = some sink) (free : ¬ frozen place) {further : Nat}
    (reached : place + 1 ≤ further) (frozen' : Nat → Prop) :
    Tracked ids further frozen' (steps ++ [(owner, sink)]) old sink := by
  have unique : ∀ {other}, ids[other]? = some owner → other = place := by
    intro other found
    have inside := (List.getElem?_eq_some_iff.mp found).1
    exact (List.getElem?_inj inside distinct).mp (found.trans here.symm)
  cases tracked with
  | ahead journey start stop =>
      obtain rfl := unique stop
      exact .ahead (journey.onward stop there) start there fun _ => reached
  | back only start stop still => exact absurd (unique stop ▸ still) free

theorem pulled (distinct : ids.Nodup) (here : ids[place + 1]? = some owner)
    (there : ids[place]? = some sink) (free : ¬ frozen (place + 1)) (beyond : frontier < place + 1)
    (further : Nat) {frozen' : Nat → Prop} (still : frozen' place) :
    Tracked ids further frozen' (steps ++ [(owner, sink)]) old sink := by
  have unique : ∀ {other}, ids[other]? = some owner → other = place + 1 := by
    intro other found
    have inside := (List.getElem?_eq_some_iff.mp found).1
    exact (List.getElem?_inj inside distinct).mp (found.trans here.symm)
  cases tracked with
  | ahead journey start stop bound =>
      obtain rfl := unique stop
      cases journey with
      | rest =>
          obtain rfl := Option.some.inj (start.symm.trans stop)
          exact .back rfl start there still
      | onward =>
          have := bound (by simp)
          omega
  | back only start stop old => exact absurd (unique stop ▸ old) free

end

end Tracked

end Journeys

namespace Adjusting

variable {targetScore : Int} {state next : Adjusting}

def frontier (state : Adjusting) : Nat :=
  if state.phase = .push then state.i + 1 else state.i

inductive Frozen (targetScore : Int) (state : Adjusting) (place : Nat) : Prop where
  | passed : place + 1 < state.i → Frozen targetScore state place
  | previous : place + 1 = state.i → (∀ mvEle, state.phase ≠ .takeOver mvEle) →
      (state.phase = .visit → ∀ kv, state.tree.kvList[state.i]? = some kv →
        kv.overweighedTagCnt ≤ 0) → Frozen targetScore state place
  | current : place = state.i → state.phase = .pulling ∨ state.phase = .push →
      (∀ context, state.contexts[state.i]? = some context → context.score ≤ targetScore) →
      Frozen targetScore state place

theorem Frozen.le (frozen : Frozen targetScore state place) : place ≤ state.i := by
  cases frozen with
  | passed before => omega
  | previous before => omega
  | current here => exact here.le

theorem not_frozen_takeOver {mvEle : Address} (phase : state.phase = .takeOver mvEle)
    (later : 0 < state.i) : ¬ Frozen targetScore state (state.i - 1) := by
  intro frozen
  cases frozen with
  | passed before => omega
  | previous _ other => exact other mvEle phase
  | current here => omega

variable {context : AdjustContext}

section

variable (frozen : Frozen targetScore state place)

include frozen

theorem Frozen.low (here : place = state.i) (books : state.contexts[state.i]? = some context) :
    context.score ≤ targetScore := by
  cases frozen with
  | passed before => omega
  | previous before => omega
  | current _ _ low => exact low context books

theorem Frozen.ne_of_high (books : state.contexts[state.i]? = some context)
    (high : targetScore < context.score) : place ≠ state.i := by
  intro here
  exact absurd high (not_lt.mpr (frozen.low here books))

theorem Frozen.ne_of_phase (notPulling : state.phase ≠ .pulling) (notPush : state.phase ≠ .push) :
    place ≠ state.i := by
  intro here
  cases frozen with
  | passed before => omega
  | previous before => omega
  | current _ phase => exact phase.elim notPulling notPush

theorem Frozen.stay (other : place ≠ state.i) (same : next.i = state.i) (calm : next.phase.Calm) :
    Frozen targetScore next place := by
  have notVisit : next.phase ≠ .visit := by
    rcases calm with phase | phase | phase <;> rw [phase] <;> exact Phase.noConfusion
  have notTakeOver : ∀ mvEle, next.phase ≠ .takeOver mvEle := by
    intro mvEle
    rcases calm with phase | phase | phase <;> rw [phase] <;> exact Phase.noConfusion
  cases frozen with
  | passed before => exact .passed (same ▸ before)
  | previous before =>
      exact .previous (same ▸ before) notTakeOver fun visit => absurd visit notVisit
  | current here => exact absurd here other

end

variable {node : TreeNode} {src : Nat}

theorem frozen_pulled (phase : state.phase = .pulling) {kv : KVInfo} {curScore : Int}
    (here : state.tree.kvList[state.i]? = some kv) (books : state.contexts[state.i]? = some context)
    (score : calculateScore (context.curMemory + node.info.sz) kv.sumMemory = some curScore)
    (fits : curScore ≤ targetScore) {moved : Adjusting}
    (move : Moved state src state.i node false moved) :
    Frozen targetScore (if curScore ≤ standardScore targetScore then moved
      else { moved with phase := .push }) state.i := by
  obtain ⟨-, -, index, samePhase⟩ := move.length_contexts
  have low : ∀ current, moved.contexts[moved.i]? = some current →
      current.score ≤ targetScore := by
    intro current after
    rw [index] at after
    exact (move.score_eq here books score after).le.trans fits
  split
  · exact .current index.symm (.inl (samePhase.trans phase)) low
  · exact .current index.symm (.inr rfl) low

theorem Frozen.turn (frozen : Frozen targetScore state place)
    (balanced : Balanced targetScore state) (turn : Turn targetScore state next) :
    Frozen targetScore next place := by
  cases turn with
  | overweighed phase here counted =>
      cases frozen with
      | passed before => exact .passed before
      | previous _ _ light => exact absurd counted (not_lt.mpr (light phase _ here))
      | current _ other => rcases other with other | other <;> cases phase.symm.trans other
  | visited phase =>
      exact frozen.stay (frozen.ne_of_phase (by simp [phase]) (by simp [phase])) rfl (.inl rfl)
  | transferred transfer =>
      cases transfer with
      | taken phase here _ _ _ move =>
          have other := frozen.ne_of_phase (by simp [phase]) (by simp [phase])
          split
          · exact frozen.stay other move.length_contexts.2.2.1 (.inl rfl)
          · rw [balanced.counted.again phase here]
            exact frozen.stay other move.length_contexts.2.2.1 (.inl rfl)
      | pulled phase here _ books _ _ score fits move =>
          by_cases current : place = state.i
          · exact current ▸ frozen_pulled phase here books score fits move
          · split
            · exact frozen.stay current move.length_contexts.2.2.1
                (.inr (.inl (move.length_contexts.2.2.2.trans phase)))
            · exact frozen.stay current move.length_contexts.2.2.1 (.inr (.inr rfl))
      | pushed phase _ books high _ _ _ _ _ _ move =>
          exact frozen.stay (frozen.ne_of_high books high) move.length_contexts.2.2.1
            (.inr (.inr (move.length_contexts.2.2.2.trans phase)))
  | takenApart phase here =>
      rw [balanced.counted.again phase here]
      exact frozen.stay (frozen.ne_of_phase (by simp [phase]) (by simp [phase])) rfl (.inl rfl)
  | refused phase =>
      exact frozen.stay (frozen.ne_of_phase (by simp [phase]) (by simp [phase])) rfl (.inl rfl)
  | beginPull phase =>
      exact frozen.stay (frozen.ne_of_phase (by simp [phase]) (by simp [phase])) rfl
        (.inr (.inl rfl))
  | noPull phase =>
      exact frozen.stay (frozen.ne_of_phase (by simp [phase]) (by simp [phase])) rfl
        (.inr (.inr rfl))
  | pulledApart phase _ _ books =>
      rw [if_pos (balanced.placed.low phase _ books)]
      by_cases here : place = state.i
      · exact .current here (.inl phase) fun _ => frozen.low here
      · exact frozen.stay here rfl (.inr (.inl phase))
  | endPull phase =>
      by_cases here : place = state.i
      · exact .current here (.inr rfl) fun _ => frozen.low here
      · exact frozen.stay here rfl (.inr (.inr rfl))
  | pushedApart phase _ books high =>
      exact frozen.stay (frozen.ne_of_high books high) rfl (.inr (.inr phase))
  | pushedOver phase _ books high =>
      have other := frozen.ne_of_high books high
      have before := frozen.le
      exact .passed (by simp only [advance, setTagCnt, changeKV]; omega)
  | endPush phase =>
      by_cases here : place = state.i
      · refine .previous (congrArg (· + 1) here) (fun mvEle => Phase.noConfusion) ?_
        intro _ kv found
        exact balanced.counted.settled (.inr (.inr phase)) _
          (List.mem_map_of_mem (List.mem_of_getElem? found))
      · have before := frozen.le
        exact .passed (by simp only [advance]; omega)

section Effects

def ids (state : Adjusting) : List Int := state.tree.kvList.map KVInfo.id

theorem ids_of_kv {kv : KVInfo} (here : state.tree.kvList[place]? = some kv) :
    state.ids[place]? = some kv.id := by
  rw [ids, List.getElem?_map, here]
  rfl

inductive Effect (targetScore : Int) (state next : Adjusting) : Prop where
  | quiet (root : next.tree.root = state.tree.root) (ops : next.opRes = state.opRes)
  | apart {node : TreeNode} (inside : node ∈ state.tree.root.nodes)
      (real : node.info.domainId ≠ noDomain)
      (root : next.tree.root = state.tree.root.retag (PrefixTree.pushedDown node))
      (ops : next.opRes = state.opRes)
  | onward {place : Nat} {node : TreeNode} {sink : Int}
      (here : state.ids[place]? = some node.info.domainId)
      (there : state.ids[place + 1]? = some sink) (inside : node ∈ state.tree.root.nodes)
      (free : ¬ Frozen targetScore state place) (reached : place + 1 ≤ next.frontier)
      (root : next.tree.root = state.tree.root.retag (assigned node.info.address sink))
      (ops : next.opRes = state.opRes ++ doMove node (node.info.domainId, sink))
  | back {place : Nat} {node : TreeNode} {sink : Int}
      (here : state.ids[place + 1]? = some node.info.domainId)
      (there : state.ids[place]? = some sink) (inside : node ∈ state.tree.root.nodes)
      (free : ¬ Frozen targetScore state (place + 1)) (beyond : state.frontier < place + 1)
      (still : Frozen targetScore next place)
      (root : next.tree.root = state.tree.root.retag (assigned node.info.address sink))
      (ops : next.opRes = state.opRes ++ doMove node (node.info.domainId, sink))

theorem Moved.files {dst : Nat} {forward : Bool} (moved : Moved state src dst node forward next)
    (owner : ∀ source, state.tree.kvList[src]? = some source → node.info.domainId = source.id) :
    ∃ sink, state.ids[src]? = some node.info.domainId ∧ state.ids[dst]? = some sink ∧
      next.tree.root = state.tree.root.retag (assigned node.info.address sink) ∧
      next.opRes = state.opRes ++ doMove node (node.info.domainId, sink) := by
  cases moved with
  | @mk source sink _ _ _ _ sourceAt sinkAt =>
      rw [owner source sourceAt]
      exact ⟨sink.id, ids_of_kv sourceAt, ids_of_kv sinkAt, rfl, rfl⟩

theorem frontier_of_ne (other : state.phase ≠ .push) : state.frontier = state.i := if_neg other

theorem Balanced.effect (balanced : Balanced targetScore state)
    (turn : Turn targetScore state next) : Effect targetScore state next := by
  have part := balanced.part
  cases turn with
  | transferred transfer =>
      cases transfer with
      | taken phase here _ found _ move =>
          obtain ⟨later, -⟩ := balanced.placed.held _ phase
          obtain ⟨previous, before, -, -, inside, owner⟩ := balanced.takeOver phase found
          obtain ⟨sink, fromHere, there, root, ops⟩ := move.files fun source same => by
            rw [owner, Option.some.inj (before.symm.trans same)]
          rw [ids, map_setTagCnt (fun _ _ _ => rfl)] at fromHere there
          have successor : state.i = state.i - 1 + 1 := by omega
          refine .onward fromHere (successor ▸ there) inside (not_frozen_takeOver phase later)
            ?_ ?_ ?_
          · rw [← successor, frontier_of_ne]
            · split <;> exact move.length_contexts.2.2.1.ge
            · split
              · exact Phase.noConfusion
              · rw [balanced.counted.again phase here]
                exact Phase.noConfusion
          · split <;> exact root
          · split <;> exact ops
      | pulled phase here there books first found score fits move =>
          obtain ⟨inside, -, owner⟩ := part.find_listed (List.mem_of_getElem? there)
            (List.mem_of_head? first) found
          obtain ⟨sink, fromThere, sinkAt, root, ops⟩ := move.files fun source same => by
            rw [owner, Option.some.inj (there.symm.trans same)]
          refine .back fromThere sinkAt inside (fun frozen => ?_) ?_
            (frozen_pulled phase here books score fits move) ?_ ?_
          · have := frozen.le
            omega
          · rw [frontier_of_ne (by simp [phase])]
            exact Nat.lt_succ_self _
          · split <;> exact root
          · split <;> exact ops
      | pushed phase here books high last there _ found _ _ move =>
          obtain ⟨inside, -, owner⟩ := part.find_listed (List.mem_of_getElem? here)
            (List.mem_of_getLast? last) found
          obtain ⟨sink, fromHere, sinkAt, root, ops⟩ := move.files fun source same => by
            rw [owner, Option.some.inj (here.symm.trans same)]
          refine .onward fromHere sinkAt inside (fun frozen => frozen.ne_of_high books high rfl) ?_
            root ops
          rw [frontier, if_pos (move.length_contexts.2.2.2.trans phase), move.length_contexts.2.2.1]
  | takenApart phase here found isDir =>
      obtain ⟨previous, before, -, -, inside, owner⟩ := balanced.takeOver phase found
      have real : _ ≠ noDomain := owner ▸ (partitioned_setTagCnt part _ _).indexed.ne_noDomain
        (List.mem_of_getElem? before)
      exact .apart inside real (PrefixTree.root_splitFileNode _ _ real) rfl
  | pulledApart phase _ there _ first found _ _ isDir =>
      obtain ⟨inside, -, owner⟩ := part.find_listed (List.mem_of_getElem? there)
        (List.mem_of_head? first) found
      have real : _ ≠ noDomain := owner ▸ part.indexed.ne_noDomain (List.mem_of_getElem? there)
      refine .apart inside real ?_ ?_
      · split <;> exact PrefixTree.root_splitFileNode _ _ real
      · split <;> rfl
  | pushedApart phase here _ _ last found isDir =>
      obtain ⟨inside, -, owner⟩ := part.find_listed (List.mem_of_getElem? here)
        (List.mem_of_getLast? last) found
      have real : _ ≠ noDomain := owner ▸ part.indexed.ne_noDomain (List.mem_of_getElem? here)
      exact .apart inside real (PrefixTree.root_splitFileNode _ _ real) rfl
  | _ => exact .quiet rfl rfl

theorem Turn.ids_eq (turn : Turn targetScore state next) : next.ids = state.ids :=
  turn.map_eq fun _ _ _ => rfl

theorem frontier_le (turn : Turn targetScore state next) : state.frontier ≤ next.frontier := by
  have before : state.i ≤ next.i → state.phase ≠ .push → state.frontier ≤ next.frontier := by
    intro later other
    rw [frontier_of_ne other, frontier]
    split <;> omega
  have pushing : state.phase = .push → state.i + 1 ≤ next.frontier →
      state.frontier ≤ next.frontier := by
    intro phase reached
    rwa [frontier, if_pos phase]
  cases turn with
  | transferred transfer =>
      cases transfer with
      | taken phase _ _ _ _ move =>
          refine before ?_ (by simp [phase])
          split <;> exact move.length_contexts.2.2.1.ge
      | pulled phase _ _ _ _ _ _ _ move =>
          refine before ?_ (by simp [phase])
          split <;> exact move.length_contexts.2.2.1.ge
      | pushed phase _ _ _ _ _ _ _ _ _ move =>
          refine pushing phase ?_
          rw [frontier, if_pos (move.length_contexts.2.2.2.trans phase), move.length_contexts.2.2.1]
  | pulledApart phase =>
      refine before ?_ (by simp [phase])
      split <;> exact le_refl _
  | pushedApart phase => exact pushing phase (if_pos phase).ge
  | pushedOver phase => exact pushing phase (le_refl _)
  | endPush phase => exact pushing phase (le_refl _)
  | overweighed phase => exact before (le_refl _) (by simp [phase])
  | visited phase => exact before (le_refl _) (by simp [phase])
  | takenApart phase => exact before (le_refl _) (by simp [phase])
  | refused phase => exact before (le_refl _) (by simp [phase])
  | beginPull phase => exact before (le_refl _) (by simp [phase])
  | noPull phase => exact before (le_refl _) (by simp [phase])
  | endPull phase => exact before (le_refl _) (by simp [phase])

end Effects

section Follow

variable {tree : PrefixTree}

structure Followed (targetScore : Int) (tree : PrefixTree) (state : Adjusting) : Prop where
  ids : state.ids = tree.kvList.map KVInfo.id
  numbers : (state.tree.root.files.map fun file => file.info.ino) =
    tree.root.files.map fun file => file.info.ino
  moved : ∀ move ∈ state.opRes, move.1 ∈ tree.root.files.map fun file => file.info.ino
  tracked : ∀ ino ∈ tree.root.files.map (fun file => file.info.ino),
    Tracked state.ids state.frontier (Frozen targetScore state) (stepsOf ino state.opRes)
      (tree.root.placement ino) (state.tree.root.placement ino)

namespace Followed

section

variable (followed : Followed targetScore tree state)

include followed

theorem numbered (numbered : tree.root.Numbered) : state.tree.root.Numbered := by
  rw [numbered_iff, followed.numbers]
  exact (numbered_iff _).mp numbered

theorem exists_file {ino : UInt64} (member : ino ∈ tree.root.files.map fun file => file.info.ino) :
    ∃ file ∈ state.tree.root.files, file.info.ino = ino := by
  rw [← followed.numbers] at member
  exact List.mem_map.mp member

theorem retag {domain : Address → Int → Int} (sameIds : next.ids = state.ids)
    (root : next.tree.root = state.tree.root.retag domain)
    (moved : ∀ move ∈ next.opRes, move.1 ∈ tree.root.files.map fun file => file.info.ino)
    (tracked : ∀ file ∈ state.tree.root.files,
      Tracked state.ids state.frontier (Frozen targetScore state)
        (stepsOf file.info.ino state.opRes) (tree.root.placement file.info.ino)
        (state.tree.root.placement file.info.ino) →
      Tracked state.ids next.frontier (Frozen targetScore next)
        (stepsOf file.info.ino next.opRes) (tree.root.placement file.info.ino)
        ((state.tree.root.retag domain).placement file.info.ino)) :
    Followed targetScore tree next := by
  refine ⟨sameIds.trans followed.ids, ?_, moved, fun ino member => ?_⟩
  · rw [root, numbers_retag, followed.numbers]
  · obtain ⟨file, listed, rfl⟩ := followed.exists_file member
    rw [root, sameIds]
    exact tracked file listed (followed.tracked _ member)

theorem assign (numbered : tree.root.Numbered) (part : Partitioned state.tree)
    (after : Partitioned next.tree) {dst : Nat} (here : state.ids[src]? = some node.info.domainId)
    (there : state.ids[dst]? = some sink) (inside : node ∈ state.tree.root.nodes)
    (sameIds : next.ids = state.ids)
    (root : next.tree.root = state.tree.root.retag (assigned node.info.address sink))
    (ops : next.opRes = state.opRes ++ doMove node (node.info.domainId, sink))
    (still : ∀ {steps old owner},
      Tracked state.ids state.frontier (Frozen targetScore state) steps old owner →
      Tracked state.ids next.frontier (Frozen targetScore next) steps old owner)
    (along : ∀ {steps old},
      Tracked state.ids state.frontier (Frozen targetScore state) steps old node.info.domainId →
      Tracked state.ids next.frontier (Frozen targetScore next)
        (steps ++ [(node.info.domainId, sink)]) old sink) : Followed targetScore tree next := by
  have real : ∀ {place : Nat} {id : Int}, state.ids[place]? = some id → id ≠ noDomain := by
    rintro _ id found rfl
    exact part.indexed.real (List.mem_of_getElem? found)
  refine followed.retag sameIds root (fun move member => ?_) fun file listed tracked => ?_
  · rw [ops] at member
    rcases List.mem_append.mp member with earlier | new
    · exact followed.moved move earlier
    · rw [← followed.numbers]
      obtain ⟨file, below, rfl⟩ := List.mem_map.mp new
      exact List.mem_map_of_mem (((TreeNode.nodes_sublist inside).filter _).subset below)
  rw [ops, stepsOf_append]
  rcases placement_assigned part.distinct (followed.numbered numbered) part.covered inside
    (real here) (real there) (root ▸ after.covered) listed (node.info.domainId, sink) with
    ⟨step, old, new⟩ | ⟨nothing, same⟩
  · rw [step, new]
    rw [old] at tracked
    exact along tracked
  · rw [nothing, same, List.append_nil]
    exact still tracked

theorem turn (numbered : tree.root.Numbered) (balanced : Balanced targetScore state)
    (turn : Turn targetScore state next) (after : Partitioned next.tree) :
    Followed targetScore tree next := by
  have part := balanced.part
  have sameIds := turn.ids_eq
  have distinct : state.ids.Nodup := part.indexed.ids
  have still : ∀ {steps old owner},
      Tracked state.ids state.frontier (Frozen targetScore state) steps old owner →
      Tracked state.ids next.frontier (Frozen targetScore next) steps old owner :=
    fun tracked => tracked.mono (frontier_le turn) fun place frozen => frozen.turn balanced turn
  cases balanced.effect turn with
  | quiet root ops =>
      refine ⟨sameIds.trans followed.ids, by rw [root, followed.numbers], ops ▸ followed.moved,
        fun ino member => ?_⟩
      rw [root, ops, sameIds]
      exact still (followed.tracked ino member)
  | apart inside real root ops =>
      refine followed.retag sameIds root (ops ▸ followed.moved) fun file listed tracked => ?_
      rw [ops, placement_pushedDown part.distinct (followed.numbered numbered) part.covered inside
        real (root ▸ after.covered) listed]
      exact still tracked
  | onward here there inside free reached root ops =>
      exact followed.assign numbered part after here there inside sameIds root ops still
        fun tracked => tracked.onward distinct here there free reached _
  | back here there inside free beyond frozen root ops =>
      exact followed.assign numbered part after here there inside sameIds root ops still
        fun tracked => tracked.pulled distinct here there free beyond _ frozen

end

end Followed

end Follow

end Adjusting

section Arrival

variable {tree after : PrefixTree} {turns : Nat} {targetScore : Int} {moves sorted : List Move}

/-- What has been done with a file when the moves have been issued: it is where the new tree
places it, and the table says so if the file was moved; otherwise the table is as before. -/
structure Arrives (old new : TreeNode) (table : Key → Int) (moves : List Move) (ino : UInt64) :
    Prop where
  placed : execute old.placement (singleMoves (issue table moves).1) ino = new.placement ino
  written : ino ∈ moves.map Prod.fst → (issue table moves).2 ino.toUInt32 = new.placement ino
  kept : ino ∉ moves.map Prod.fst → (issue table moves).2 ino.toUInt32 = table ino.toUInt32 ∧
    new.placement ino = old.placement ino

/-- The KVs are listed in the order of their ids, and the numbers of the files can be told apart. -/
structure PrefixTree.Arranged (tree : PrefixTree) : Prop where
  ascending : (tree.kvList.map KVInfo.id).Pairwise (· < ·)
  numbered : tree.root.Numbered

theorem Partitioned.placement_mem (part : Partitioned tree) (numbered : tree.root.Numbered)
    {file : TreeNode} (listed : file ∈ tree.root.files) :
    tree.root.placement file.info.ino ∈ tree.kvList.map KVInfo.id := by
  obtain ⟨up, line, isFile⟩ := line_of_file listed
  have owner : tree.root.placement file.info.ino = _ :=
    placement_of_line part.distinct numbered line isFile
  have one := (part.covered _ line).file _ rfl isFile
  obtain ⟨mark, on, tagged⟩ := List.countP_pos_iff.mp (one ▸ Nat.zero_lt_one)
  rw [owner, ownerOf_of_tagged one.le on tagged]
  obtain ⟨above, here⟩ := (TreeNode.ancestry part.distinct).line_of_mem line on
  exact (part.indexed.known _ _ here).resolve_left (of_decide_eq_true tagged)

theorem Adjusting.Followed.start (part : Partitioned tree) (numbered : tree.root.Numbered)
    (contexts : List AdjustContext) :
    Followed targetScore tree ⟨tree, contexts, 0, .visit, []⟩ := by
  refine ⟨rfl, rfl, fun move member => absurd member List.not_mem_nil, fun ino member => ?_⟩
  obtain ⟨file, listed, rfl⟩ := List.mem_map.mp member
  obtain ⟨place, here⟩ := List.mem_iff_getElem?.mp (part.placement_mem numbered listed)
  exact .ahead .rest here here fun moved => absurd rfl moved

theorem Settled.followed (settled : Settled tree) (numbered : tree.root.Numbered)
    (adjusted : tree.adjust turns targetScore = some (after, moves)) :
    ∃ final : Adjusting, Adjusting.Followed targetScore tree final ∧ final.tree = after ∧
      final.opRes.reverse = moves := by
  simp only [PrefixTree.adjust, Option.bind_eq_some_iff, Option.map_eq_some_iff] at adjusted
  obtain ⟨contexts, calculated, final, ended, result⟩ := adjusted
  obtain ⟨root, ops⟩ := Prod.mk.inj result
  let Inv (state : Adjusting) : Prop :=
    (state.Balanced targetScore ∧ Adjusting.Followed targetScore tree state) ∨
      state.Stuck targetScore
  have preserved : ∀ state next, Inv state → Adjusting.Turn targetScore state next → Inv next := by
    rintro state next (⟨balanced, followed⟩ | stuck) turn
    · refine (balanced.turn turn).imp_left fun after => ⟨after, ?_⟩
      exact followed.turn numbered balanced turn after.part
    · exact .inr (stuck.turn turn)
  have start : Inv ⟨tree, contexts, 0, .visit, []⟩ :=
    .inl ⟨⟨settled.uncounted.running targetScore calculated, settled.part⟩,
      .start settled.part numbered contexts⟩
  obtain ⟨⟨-, followed⟩ | stuck, phase, -⟩ := Adjusting.finish_invariant preserved ended start
  · exact ⟨final, followed, root, ops⟩
  · cases phase.symm.trans stuck.phase

theorem Settled.arrives (settled : Settled tree) (arranged : tree.Arranged)
    (adjusted : tree.adjust turns targetScore = some (after, moves))
    (sort : SortedFrom moves sorted) (table : Key → Int) {ino : UInt64}
    (file : ino ∈ tree.root.files.map fun file => file.info.ino) :
    Arrives tree.root after.root table sorted ino := by
  obtain ⟨final, followed, rfl, rfl⟩ := settled.followed arranged.numbered adjusted
  have perm : sorted.Perm final.opRes := sort.perm.trans (List.reverse_perm _)
  have tracked := followed.tracked ino file
  rw [followed.ids] at tracked
  have steps : stepsOf ino sorted = stepsOf ino final.opRes :=
    SortedFrom.stepsOf_eq ⟨perm, sort.ordered⟩ (tracked.ascending arranged.ascending)
  have path := tracked.path
  rw [← steps] at path
  have own : ∀ move ∈ sorted, move.1.toUInt32 = ino.toUInt32 → move.1 = ino := by
    intro move member same
    have listed := followed.moved move (perm.mem_iff.mp member)
    exact List.inj_on_of_nodup_map ((numbered_iff _).mp arranged.numbered) listed file same
  have entry := tabulate_apply table own
  refine ⟨?_, fun moved => ?_, fun unmoved => ?_⟩
  · rw [singleMoves_issue, execute_apply, path.follow]
  · rw [table_issue, entry]
    have nonempty : stepsOf ino sorted ≠ [] := fun nothing => stepsOf_eq_nil_iff.mp nothing moved
    obtain ⟨last, found⟩ := Option.isSome_iff_exists.mp (List.getLast?_isSome.mpr nonempty)
    rw [found]
    exact path.getLast found
  · have nothing := stepsOf_eq_nil_iff.mpr unmoved
    rw [table_issue, entry, nothing]
    rw [nothing] at path
    exact ⟨rfl, path.follow.symm⟩

end Arrival

/-- In a run of orderly calls, the moves of an `Adjust` bring every file to its new place when
they are issued in their sorted order, provided that the KVs are listed in the order of their
ids. -/
theorem adjust_moves_arrive {calls : List TreeCall} {tree after : PrefixTree} {turns : Nat}
    {targetScore : Int} {moves sorted : List Move}
    (run : Run (Guarded (StepOf PrefixTree.call) PrefixTree.Orderly) .initial calls tree)
    (arranged : tree.Arranged)
    (adjusted : tree.adjust turns targetScore = some (after, moves))
    (sort : SortedFrom moves sorted) (table : Key → Int) :
    (after.root.files.map fun file => file.info.ino) =
        (tree.root.files.map fun file => file.info.ino) ∧
      ∀ file ∈ tree.root.files, Arrives tree.root after.root table sorted file.info.ino := by
  have settled := settled_of_run run
  constructor
  · obtain ⟨final, followed, rfl, -⟩ := settled.followed arranged.numbered adjusted
    exact followed.numbers
  · intro file listed
    exact settled.arrives arranged adjusted sort table (List.mem_map_of_mem listed)

section Onward

def threeKVs (first second third : Int) : PrefixTree :=
  ⟨.dir ⟨0, [], 0, 5, first⟩ [.file ⟨1, [97], 1, 5, noDomain⟩],
    [⟨first, 10, 0, [0]⟩, ⟨second, 10, 0, []⟩, ⟨third, 100, 0, []⟩], [], 2⟩

def threeKVCalls (first second third : Int) : List TreeCall :=
  [.registNewKV 0 first 10, .registNewKV 0 second 10, .registNewKV 0 third 100,
    .create [97] 1 false 5]

theorem run_threeKVs {first second third : Int} (distinct : [first, second, third].Nodup)
    (real : noDomain ∉ [first, second, third]) :
    Run (Guarded (StepOf PrefixTree.call) PrefixTree.Orderly) .initial
      (threeKVCalls first second third) (threeKVs first second third) := by
  simp only [List.nodup_cons, List.mem_cons, List.not_mem_nil, not_or, or_false] at distinct real
  obtain ⟨⟨notSecond, notThird⟩, other, -⟩ := distinct
  obtain ⟨realFirst, realSecond, realThird⟩ := real
  have one : Run (Guarded (StepOf PrefixTree.call) PrefixTree.Orderly) .initial
      [.registNewKV 0 first 10]
      ⟨.dir ⟨0, [], 0, 0, first⟩ [], [⟨first, 10, 0, [0]⟩], [], 1⟩ :=
    Run.refl.tail ⟨⟨List.not_mem_nil, Ne.symm realFirst⟩, rfl⟩
  have two : Run (Guarded (StepOf PrefixTree.call) PrefixTree.Orderly) .initial
      [.registNewKV 0 first 10, .registNewKV 0 second 10]
      ⟨.dir ⟨0, [], 0, 0, first⟩ [], [⟨first, 10, 0, [0]⟩, ⟨second, 10, 0, []⟩], [], 1⟩ :=
    one.tail ⟨⟨by simpa using Ne.symm notSecond, Ne.symm realSecond⟩, rfl⟩
  have three : Run (Guarded (StepOf PrefixTree.call) PrefixTree.Orderly) .initial
      [.registNewKV 0 first 10, .registNewKV 0 second 10, .registNewKV 0 third 100]
      ⟨.dir ⟨0, [], 0, 0, first⟩ [], (threeKVs first second third).kvList, [], 1⟩ :=
    two.tail ⟨⟨by simpa using ⟨Ne.symm notThird, Ne.symm other⟩, Ne.symm realThird⟩, rfl⟩
  refine three.tail ⟨fun _ => ⟨_, List.mem_cons_self, Ne.symm realFirst⟩, ?_⟩
  have inserted := @TreeNode.doInsert_plain 1 1 false 5 ⟨0, [], 0, 0, first⟩ [] [97] noDomain 1
    (by decide) (by simp)
  rw [if_pos rfl] at inserted
  simp only [StepOf, PrefixTree.call, PrefixTree.create, List.length_singleton, inserted, if_true,
    if_neg (Ne.symm realFirst)]
  rfl

/-- A file that goes on from the first to the third KV. -/
theorem adjust_moves_arrive_onward :
    ∃ after, (threeKVs 1 2 3).adjust 20 40 = some (after, [(1, 2, 3), (1, 1, 2)]) ∧
      Run (Guarded (StepOf PrefixTree.call) PrefixTree.Orderly) .initial
        (threeKVCalls 1 2 3) (threeKVs 1 2 3) ∧
      Arrives (threeKVs 1 2 3).root after.root (fun _ => 1) [(1, 1, 2), (1, 2, 3)] 1 := by
  have run := @run_threeKVs 1 2 3 (by decide) (by decide)
  have moves : ((threeKVs 1 2 3).adjust 20 40).map Prod.snd = some [(1, 2, 3), (1, 1, 2)] := by
    decide +kernel
  obtain ⟨⟨after, _⟩, adjusted, rfl⟩ := Option.map_eq_some_iff.mp moves
  have sort : SortedFrom [(1, 2, 3), (1, 1, 2)] [((1 : UInt64), (1 : Int), (2 : Int)), (1, 2, 3)] :=
    ⟨List.Perm.swap _ _ _, by decide⟩
  obtain ⟨-, arrive⟩ := adjust_moves_arrive run ⟨by decide, by decide⟩ adjusted sort fun _ => 1
  exact ⟨after, adjusted, run, arrive _ (List.mem_singleton_self _)⟩

/-- When the ids descend, the second move of the file is issued first and has no effect. -/
theorem sorted_moves_strand_file :
    ∃ after, (threeKVs 3 2 1).adjust 20 40 = some (after, [(1, 2, 1), (1, 3, 2)]) ∧
      Run (Guarded (StepOf PrefixTree.call) PrefixTree.Orderly) .initial
        (threeKVCalls 3 2 1) (threeKVs 3 2 1) ∧
      SortedFrom [(1, 2, 1), (1, 3, 2)] [((1 : UInt64), (2 : Int), (1 : Int)), (1, 3, 2)] ∧
      ¬ Arrives (threeKVs 3 2 1).root after.root (fun _ => 3) [(1, 2, 1), (1, 3, 2)] 1 := by
  have result : ((threeKVs 3 2 1).adjust 20 40).map
      (fun result => (result.2, result.1.root.placement 1)) =
        some ([(1, 2, 1), (1, 3, 2)], 1) := by
    decide +kernel
  obtain ⟨⟨after, _⟩, adjusted, same⟩ := Option.map_eq_some_iff.mp result
  obtain ⟨rfl, placed⟩ := Prod.mk.inj same
  refine ⟨after, adjusted, run_threeKVs (by decide) (by decide), ⟨List.Perm.refl _, by decide⟩, ?_⟩
  intro arrives
  have stranded := arrives.placed
  rw [placed] at stranded
  exact absurd stranded (by decide)

end Onward

end Ctgfs.Placement
