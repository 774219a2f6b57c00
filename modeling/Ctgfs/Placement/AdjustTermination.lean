import Ctgfs.Placement.AdjustRuns
import Mathlib.Data.Prod.Lex
import Mathlib.Logic.Relation
import Mathlib.Order.WellFounded

/-!
# When `Adjust` comes to an end

Every loop takes nodes off the end of a list, or puts the children of a directory in its
place.  So the part of the tree that a list still covers gets smaller, except where the pull
loop splits the directory at the front and takes the last node off the list.
-/

namespace Ctgfs.Placement

open Foundation

variable {node : TreeNode} {kv : KVInfo}

namespace Adjusting

variable {targetScore : Int} {state next : Adjusting}

def Reaches (targetScore : Int) : Adjusting → Adjusting → Prop :=
  Relation.ReflTransGen fun state next => ¬ state.Done ∧ state.step targetScore = some next

def Smooth (targetScore : Int) (state : Adjusting) : Prop :=
  state.phase = .pulling → ∀ kv next context, state.tree.kvList[state.i]? = some kv →
    state.tree.kvList[state.i + 1]? = some next → state.contexts[state.i]? = some context →
    ∃ mvEle rest, next.domainNodeList = mvEle :: rest ∧
      (rest ≠ [] → ∀ node score, state.tree.find mvEle = some node → node.isDir = true →
        calculateScore (context.curMemory + node.info.sz) kv.sumMemory = some score →
        score ≤ targetScore)

theorem Smooth.alone (smooth : state.Smooth targetScore) (phase : state.phase = .pulling)
    {next : KVInfo} {context : AdjustContext} {mvEle : Address} {rest : List Address} {score : Int}
    (here : state.tree.kvList[state.i]? = some kv)
    (there : state.tree.kvList[state.i + 1]? = some next)
    (books : state.contexts[state.i]? = some context) (list : next.domainNodeList = mvEle :: rest)
    (found : state.tree.find mvEle = some node)
    (calculated : calculateScore (context.curMemory + node.info.sz) kv.sumMemory = some score)
    (large : targetScore < score) (isDir : node.isDir = true) : rest = [] := by
  by_contra more
  obtain ⟨first, others, shape, fits⟩ := smooth phase kv next context here there books
  obtain ⟨rfl, rfl⟩ := List.cons.inj (list.symm.trans shape)
  exact absurd (fits more node score found isDir calculated) (not_le.mpr large)

theorem Working.reaches {start : Adjusting} (working : Working targetScore start)
    (reached : Reaches targetScore start state) : Working targetScore state := by
  induction reached with
  | refl => exact working
  | tail _ taken ih => exact (turn_of_step taken.2).working ih

section Progress

theorem exists_move (funded : state.tree.Funded)
    (aligned : state.contexts.length = state.tree.kvList.length) {src dst : Nat}
    (source : src < state.contexts.length) (sink : dst < state.contexts.length) (node : TreeNode)
    (forward : Bool) : ∃ moved, state.move src dst node forward = some moved := by
  have sourceKV := List.getElem?_eq_getElem (aligned ▸ source)
  have sinkKV := List.getElem?_eq_getElem (aligned ▸ sink)
  obtain ⟨less, lessScore⟩ := exists_calculateScore
    (state.contexts[src].curMemory - node.info.sz) (funded _ (List.mem_of_getElem? sourceKV))
  obtain ⟨more, moreScore⟩ := exists_calculateScore
    (state.contexts[dst].curMemory + node.info.sz) (funded _ (List.mem_of_getElem? sinkKV))
  rw [move, sourceKV, sinkKV, List.getElem?_eq_getElem source, List.getElem?_eq_getElem sink]
  simp only [Option.bind_some, lessScore, moreScore, Option.map_some]
  exact ⟨_, rfl⟩

section

variable (working : Working targetScore state)

include working

theorem Working.exists_kv {place : Nat} (inside : place < state.contexts.length) :
    ∃ kv context, state.tree.kvList[place]? = some kv ∧ state.contexts[place]? = some context :=
  ⟨_, _, List.getElem?_eq_getElem (working.aligned ▸ inside), List.getElem?_eq_getElem inside⟩

theorem Working.visit (phase : state.phase = .visit) (more : ¬ state.Done) :
    ∃ next, state.visit = some next := by
  have inside : state.i < state.contexts.length := by
    rw [← not_le]
    exact fun passed => more ⟨phase, passed⟩
  obtain ⟨kv, _, here, -⟩ := working.exists_kv inside
  rw [Adjusting.visit, here, Option.bind_some]
  split
  next heavy =>
    obtain ⟨previous, mvEle, before, last⟩ := working.placed.ready phase kv here heavy.1 heavy.2
    rw [before, Option.bind_some, last]
    exact ⟨_, rfl⟩
  next => exact ⟨_, rfl⟩

theorem Working.takeOver {mvEle : Address} (phase : state.phase = .takeOver mvEle) :
    ∃ next, state.takeOver mvEle = some next := by
  have inside : state.i < state.contexts.length :=
    working.placed.lt_length phase Phase.noConfusion
  obtain ⟨later, previous, before, last⟩ := working.placed.held mvEle phase
  obtain ⟨node, found⟩ := working.sound.find_listed (List.mem_of_getElem? before)
    (List.mem_of_getLast? last)
  obtain ⟨kv, context, here, books⟩ := working.exists_kv inside
  obtain ⟨moved, move⟩ : ∃ moved,
      (state.setTagCnt state.i (· - 1)).move (state.i - 1) state.i node true = some moved :=
    exists_move (working.funded.congr (map_setTagCnt (fun _ _ _ => rfl) _ _ _))
      (by simpa [setTagCnt, changeKV] using working.aligned)
      (lt_of_le_of_lt (Nat.sub_le _ _) inside) inside node true
  rw [Adjusting.takeOver, here, Option.bind_some, books, Option.bind_some, found, Option.bind_some]
  simp only [move, Option.bind_some]
  split
  · have length := (moved_of_move move).length_contexts.1
    have bound : state.i < moved.contexts.length := length ▸ inside
    rw [List.getElem?_eq_getElem (lt_of_le_of_lt (Nat.sub_le _ _) bound), Option.bind_some,
      List.getElem?_eq_getElem bound]
    exact ⟨_, rfl⟩
  · split
    · exact ⟨_, rfl⟩
    · exact ⟨_, rfl⟩

theorem Working.pull (phase : state.phase = .pull) :
    ∃ next, state.pull targetScore = some next := by
  have inside : state.i < state.contexts.length :=
    working.placed.lt_length phase Phase.noConfusion
  rw [Adjusting.pull, List.getElem?_eq_getElem inside]
  exact ⟨_, rfl⟩

theorem Working.pulling (phase : state.phase = .pulling) (smooth : state.Smooth targetScore) :
    ∃ next, state.pulling targetScore = some next := by
  have further := working.placed.further phase
  obtain ⟨kv, context, here, books⟩ := working.exists_kv ((Nat.lt_succ_self _).trans further)
  obtain ⟨next, nextContext, there, nextBooks⟩ := working.exists_kv further
  obtain ⟨mvEle, rest, list, -⟩ := smooth phase kv next context here there books
  obtain ⟨node, found⟩ := working.sound.find_listed (List.mem_of_getElem? there)
    (list ▸ List.mem_cons_self)
  obtain ⟨curScore, score⟩ := exists_calculateScore (context.curMemory + node.info.sz)
    (working.funded kv (List.mem_of_getElem? here))
  obtain ⟨nxtScore, nextScore⟩ := exists_calculateScore (nextContext.curMemory - node.info.sz)
    (working.funded next (List.mem_of_getElem? there))
  obtain ⟨moved, move⟩ := exists_move working.funded working.aligned further
    ((Nat.lt_succ_self _).trans further) node false
  rw [Adjusting.pulling, here, there, books, nextBooks]
  simp only [Option.bind_some, list, List.head?_cons, found, score, nextScore, move,
    Option.map_some]
  split
  · exact ⟨_, rfl⟩
  · split
    · exact ⟨_, rfl⟩
    · exact ⟨_, rfl⟩

theorem Working.push (phase : state.phase = .push) :
    ∃ next, state.push targetScore = some next := by
  have inside : state.i < state.contexts.length :=
    working.placed.lt_length phase Phase.noConfusion
  obtain ⟨kv, context, here, books⟩ := working.exists_kv inside
  rw [Adjusting.push, here, Option.bind_some, books, Option.bind_some]
  split
  next =>
    split
    next moveEle next last there =>
      have further : state.i + 1 < state.contexts.length :=
        working.aligned ▸ lt_length_of_getElem? there
      obtain ⟨node, found⟩ := working.sound.find_listed (List.mem_of_getElem? here)
        (List.mem_of_getLast? last)
      obtain ⟨score, after⟩ := exists_calculateScore
        (node.info.sz + state.contexts[state.i + 1].curMemory)
        (working.funded next (List.mem_of_getElem? there))
      obtain ⟨moved, move⟩ := exists_move working.funded working.aligned inside further node true
      rw [List.getElem?_eq_getElem further]
      simp only [Option.bind_some, found, after, move]
      split
      · exact ⟨_, rfl⟩
      · split
        · exact ⟨_, rfl⟩
        · exact ⟨_, rfl⟩
    next => exact ⟨_, rfl⟩
  next => exact ⟨_, rfl⟩

theorem Working.step (smooth : state.Smooth targetScore) (more : ¬ state.Done) :
    ∃ next, state.step targetScore = some next := by
  rw [Adjusting.step]
  cases phase : state.phase with
  | visit => exact working.visit phase more
  | takeOver mvEle => exact working.takeOver phase
  | pull => exact working.pull phase
  | pulling => exact working.pulling phase smooth
  | push => exact working.push phase

end

end Progress

def rank : Phase → Nat
  | .visit => 4
  | .takeOver _ => 3
  | .pull => 2
  | .pulling => 1
  | .push => 0

end Adjusting

def TreeNode.weight (node : TreeNode) : Nat := node.nodes.length

theorem TreeNode.weight_retag (domain : Address → Int → Int) (node : TreeNode) :
    (node.retag domain).weight = node.weight := by
  rw [weight, nodes_retag, List.length_map, weight]

theorem TreeNode.weight_eq (node : TreeNode) :
    node.weight = (node.getList.map weight).sum + 1 := by
  rw [weight, nodes_eq, List.length_cons, List.length_flatMap]
  rfl

namespace Adjusting

variable {targetScore : Int} {state next : Adjusting}

def weightOf (state : Adjusting) (place : Nat) : Nat :=
  (state.tree.kvList[place]?).elim 0 fun kv =>
    state.tree.amountOf TreeNode.weight kv.domainNodeList

def covered (state : Adjusting) : Nat :=
  match state.phase with
  | .visit | .takeOver _ | .pull => 0
  | .pulling => state.weightOf (state.i + 1)
  | .push => state.weightOf state.i

def remaining (state : Adjusting) : Nat ×ₗ Nat ×ₗ Nat :=
  toLex (state.contexts.length - state.i, toLex (rank state.phase, state.covered))

theorem covered_pulling (phase : state.phase = .pulling) :
    state.covered = state.weightOf (state.i + 1) := by
  rw [covered, phase]

theorem covered_push (phase : state.phase = .push) : state.covered = state.weightOf state.i := by
  rw [covered, phase]

theorem remaining_of_rank {old new : Phase} (before : state.phase = old) (after : next.phase = new)
    (lower : rank new < rank old) (index : next.i = state.i)
    (length : next.contexts.length = state.contexts.length) : next.remaining < state.remaining := by
  rw [remaining, remaining, index, length, before, after, Prod.Lex.toLex_lt_toLex,
    Prod.Lex.toLex_lt_toLex]
  exact .inr ⟨rfl, .inl lower⟩

theorem remaining_of_covered (index : next.i = state.i)
    (length : next.contexts.length = state.contexts.length) (phase : next.phase = state.phase)
    (less : next.covered < state.covered) : next.remaining < state.remaining := by
  rw [remaining, remaining, index, length, phase, Prod.Lex.toLex_lt_toLex,
    Prod.Lex.toLex_lt_toLex]
  exact .inr ⟨rfl, .inr ⟨rfl, less⟩⟩

theorem remaining_of_advance (length : next.contexts.length = state.contexts.length)
    (index : next.i = state.i + 1) (inside : state.i < state.contexts.length) :
    next.remaining < state.remaining := by
  rw [remaining, remaining, index, length, Prod.Lex.toLex_lt_toLex]
  exact .inl (show state.contexts.length - (state.i + 1) < state.contexts.length - state.i by omega)

theorem Moved.weightOf_lt {src dst : Nat} {forward : Bool}
    (moved : Moved state src dst node forward next) (apart : src ≠ dst)
    (here : state.tree.kvList[src]? = some kv) {address : Address}
    (found : state.tree.find address = some node)
    (last : endOf forward kv.domainNodeList = some address) :
    next.weightOf src < state.weightOf src := by
  obtain ⟨domain, retagged⟩ := moved.retagged
  rw [weightOf, weightOf, here, moved.source_eq apart here, Option.elim_some, Option.elim_some,
    retagged.amountOf TreeNode.weight_retag, amountOf_endOf TreeNode.weight state.tree last,
    amountAt_eq found, TreeNode.weight_eq]
  exact Nat.lt_add_of_pos_left (Nat.succ_pos _)

theorem weightOf_split_lt (sound : Sound state.tree) {place : Nat}
    (here : state.tree.kvList[place]? = some kv) {address : Address}
    (found : state.tree.find address = some node)
    (last : kv.domainNodeList.getLast? = some address) :
    (state.split place node).weightOf place < state.weightOf place := by
  have shape := sound.amountOf_split TreeNode.weight found last
  have own := node.weight_eq
  rw [weightOf, weightOf, here, split_eq here, Option.elim_some, Option.elim_some]
  change (state.tree.splitFileNode place node).amountOf _ _ < _
  rw [(retaggedBy_splitFileNode state.tree place node).amountOf TreeNode.weight_retag]
  dsimp only
  omega

theorem Turn.remaining_lt (turn : Turn targetScore state next)
    (working : Working targetScore state) (smooth : state.Smooth targetScore) :
    next.remaining < state.remaining := by
  cases turn with
  | overweighed phase => exact remaining_of_rank phase rfl (by simp [rank]) rfl rfl
  | visited phase => exact remaining_of_rank phase rfl (by simp [rank]) rfl rfl
  | transferred transfer =>
      cases transfer with
      | taken phase here _ _ _ move =>
          obtain ⟨length, -, index, -⟩ := move.length_contexts
          rw [working.counted.again phase here]
          split
          · exact remaining_of_rank phase rfl (by simp [rank]) index length
          · exact remaining_of_rank phase rfl (by simp [rank]) index length
      | pulled phase here there books first found score fits move =>
          obtain ⟨length, -, index, same⟩ := move.length_contexts
          split
          · refine remaining_of_covered index length same ?_
            rw [covered_pulling (same.trans phase), covered_pulling phase, index]
            exact move.weightOf_lt (Nat.succ_ne_self _) there found first
          · exact remaining_of_rank phase rfl (by simp [rank]) index length
      | pushed phase here _ _ last there _ found _ _ move =>
          obtain ⟨length, -, index, same⟩ := move.length_contexts
          refine remaining_of_covered index length same ?_
          rw [covered_push (same.trans phase), covered_push phase, index]
          exact move.weightOf_lt (Nat.succ_ne_self _).symm here found last
  | takenApart phase here =>
      rw [working.counted.again phase here]
      exact remaining_of_rank phase rfl (by simp [rank]) rfl rfl
  | refused phase => exact remaining_of_rank phase rfl (by simp [rank]) rfl rfl
  | beginPull phase => exact remaining_of_rank phase rfl (by simp [rank]) rfl rfl
  | noPull phase => exact remaining_of_rank phase rfl (by simp [rank]) rfl rfl
  | pulledApart phase here there books first found score large isDir =>
      obtain ⟨rest, list⟩ := List.head?_eq_some_iff.mp first
      obtain rfl := smooth.alone phase here there books list found score large isDir
      rw [if_pos (working.placed.low phase _ books)]
      refine remaining_of_covered rfl rfl rfl ?_
      rw [covered_pulling phase, covered_pulling (show (state.split _ _).phase = _ from phase)]
      exact weightOf_split_lt working.sound there found (by rw [list]; rfl)
  | endPull phase => exact remaining_of_rank phase rfl (by simp [rank]) rfl rfl
  | pushedApart phase here _ _ last found =>
      refine remaining_of_covered rfl rfl rfl ?_
      rw [covered_push phase, covered_push (show (state.split _ _).phase = _ from phase)]
      exact weightOf_split_lt working.sound here found last
  | pushedOver phase =>
      exact remaining_of_advance rfl rfl (working.placed.lt_length phase Phase.noConfusion)
  | endPush phase =>
      exact remaining_of_advance rfl rfl (working.placed.lt_length phase Phase.noConfusion)

theorem Working.finish (working : Working targetScore state)
    (smooth : ∀ later, Reaches targetScore state later → later.Smooth targetScore) :
    ∃ turns final, state.finish targetScore turns = some final := by
  induction measure : state.remaining using WellFoundedLT.induction generalizing state with
  | ind _ ih =>
      by_cases done : state.Done
      · exact ⟨1, state, if_pos done⟩
      · obtain ⟨next, taken⟩ := working.step (smooth state .refl) done
        have turn := turn_of_step taken
        obtain ⟨turns, final, ended⟩ := ih next.remaining
          (measure ▸ turn.remaining_lt working (smooth state .refl)) (turn.working working)
          (fun later reached => smooth later (.head ⟨done, taken⟩ reached)) rfl
        refine ⟨turns + 1, final, ?_⟩
        rw [Adjusting.finish, if_neg done, taken, Option.bind_some, ended]

theorem finish_of_reaches {start final : Adjusting} {turns : Nat}
    (reached : Reaches targetScore start state)
    (ended : start.finish targetScore turns = some final) :
    ∃ fewer, state.finish targetScore fewer = some final := by
  induction reached with
  | refl => exact ⟨turns, ended⟩
  | tail _ taken ih =>
      obtain ⟨turns, ended⟩ := ih
      cases turns with
      | zero => cases ended
      | succ turns =>
          rw [Adjusting.finish, if_neg taken.1, taken.2, Option.bind_some] at ended
          exact ⟨turns, ended⟩

theorem Turn.smooth_or_stuck (turn : Turn targetScore state next)
    (placed : Placed targetScore state) : state.Smooth targetScore ∨ Stuck targetScore next := by
  refine or_iff_not_imp_right.mpr fun noStuck phase kv following context here there books => ?_
  cases turn with
  | transferred transfer =>
      cases transfer with
      | taken other => cases phase.symm.trans other
      | pushed other => cases phase.symm.trans other
      | @pulled _ _ _ mvEle _ _ _ _ here' there' books' first found score fits =>
          obtain rfl := Option.some.inj (here.symm.trans here')
          obtain rfl := Option.some.inj (there.symm.trans there')
          obtain rfl := Option.some.inj (books.symm.trans books')
          obtain ⟨rest, list⟩ := List.head?_eq_some_iff.mp first
          refine ⟨mvEle, rest, list, fun _ other score' found' _ calculated => ?_⟩
          obtain rfl := Option.some.inj (found.symm.trans found')
          obtain rfl := Option.some.inj (score.symm.trans calculated)
          exact fits
  | @pulledApart kv' next' context' mvEle node curScore _ here' there' books' first found score
      large isDir =>
      obtain rfl := Option.some.inj (here.symm.trans here')
      obtain rfl := Option.some.inj (there.symm.trans there')
      obtain rfl := Option.some.inj (books.symm.trans books')
      obtain ⟨rest, list⟩ := List.head?_eq_some_iff.mp first
      refine ⟨mvEle, rest, list, fun others => absurd ?_ noStuck⟩
      -- another node is taken off the list, and the directory stays at the front
      rw [if_pos (placed.low phase _ books)]
      refine stuck_split phase (placed.low phase) here there books list found ?_ isDir (.inl others)
      intro other calculated
      obtain rfl := Option.some.inj (score.symm.trans calculated)
      exact large
  | @endPull kv' next' context' mvEle node curScore _ here' there' books' first found _ _ file =>
      obtain rfl := Option.some.inj (there.symm.trans there')
      obtain ⟨rest, list⟩ := List.head?_eq_some_iff.mp first
      refine ⟨mvEle, rest, list, fun _ other _ found' isDir _ => ?_⟩
      obtain rfl := Option.some.inj (found.symm.trans found')
      exact absurd (file.symm.trans isDir) Bool.false_ne_true
  | _ other => cases phase.symm.trans other

theorem Working.smooth_of_finish (working : Working targetScore state) {turns : Nat}
    {final : Adjusting} (ended : state.finish targetScore turns = some final) :
    state.Smooth targetScore := by
  cases turns with
  | zero => cases ended
  | succ turns =>
      rw [Adjusting.finish] at ended
      split at ended
      next done =>
        intro phase
        cases phase.symm.trans done.1
      next =>
        obtain ⟨next, taken, ended⟩ := Option.bind_eq_some_iff.mp ended
        obtain smooth | stuck := (turn_of_step taken).smooth_or_stuck working.placed
        · exact smooth
        · obtain ⟨stuck, done⟩ :=
            finish_invariant (fun _ _ stuck turn => Stuck.turn stuck turn) ended stuck
          cases stuck.phase.symm.trans done.1

end Adjusting

/-- `Adjust` comes to an end if and only if all states that its loops go through are smooth. -/
theorem adjust_terminates {tree : PrefixTree} {calls : List TreeCall}
    (run : Run (Guarded (StepOf PrefixTree.call) fun _ call => call.Funded) .initial calls tree)
    (targetScore : Int) :
    (∃ turns result, tree.adjust turns targetScore = some result) ↔
      ∀ contexts, tree.calculateAdjustContext = some contexts →
        ∀ state, Adjusting.Reaches targetScore ⟨tree, contexts, 0, .visit, []⟩ state →
          state.Smooth targetScore := by
  have prepared := prepared_of_run run
  constructor
  · rintro ⟨turns, result, adjusted⟩ contexts calculated state reached
    rw [PrefixTree.adjust, calculated, Option.bind_some, Option.map_eq_some_iff] at adjusted
    obtain ⟨final, ended, -⟩ := adjusted
    obtain ⟨fewer, ended⟩ := Adjusting.finish_of_reaches reached ended
    exact ((prepared.working targetScore calculated).reaches reached).smooth_of_finish ended
  · intro smooth
    obtain ⟨contexts, calculated⟩ := prepared.exists_contexts
    obtain ⟨turns, final, ended⟩ :=
      (prepared.working targetScore calculated).finish (smooth contexts calculated)
    refine ⟨turns, (final.tree, final.opRes.reverse), ?_⟩
    rw [PrefixTree.adjust, calculated, Option.bind_some, ended, Option.map_some]

/-- `Adjust` splits the root and gives its file to the second KV. -/
theorem adjust_terminates_pushing :
    ∃ tree contexts, Run (Guarded (StepOf PrefixTree.call) fun _ call => call.Funded) .initial
        [.registNewKV 0 1 10, .registNewKV 0 2 10, .create [97] 1 false 5] tree ∧
      tree.calculateAdjustContext = some contexts ∧
      (∃ result, tree.adjust 20 40 = some result) ∧
      ∀ state, Adjusting.Reaches 40 ⟨tree, contexts, 0, .visit, []⟩ state → state.Smooth 40 := by
  have run : Run (Guarded (StepOf PrefixTree.call) fun _ call => call.Funded) .initial
      [.registNewKV 0 1 10, .registNewKV 0 2 10, .create [97] 1 false 5] _ :=
    guarded_of_exec rfl (meets_of_forall (by simp [TreeCall.Funded]) _)
  refine ⟨_, _, run, rfl, ⟨_, rfl⟩, ?_⟩
  exact (adjust_terminates run 40).mp ⟨20, _, rfl⟩ _ rfl

/-- The first `Adjust` gives the root to the second KV.  The second one pulls it back: it splits
the root, and then the directory `a` at the front of the list, but takes `b` off the list. -/
theorem adjust_splits_for_ever :
    ∃ tree, Run (Guarded (StepOf PrefixTree.call) fun _ call => call.Funded) .initial
        [.registNewKV 0 1 10, .registNewKV 0 2 100, .create [97] 1 true 0,
          .create [97, 47, 120] 2 false 30, .create [98] 3 false 20, .adjust 20 60] tree ∧
      ∀ turns, tree.adjust turns 20 = none := by
  let tagged (domainId below : Int) : TreeNode := .dir ⟨0, [], 0, 50, domainId⟩
    [.dir ⟨1, [97], 1, 30, below⟩ [.file ⟨2, [120], 2, 30, noDomain⟩],
      .file ⟨3, [98], 3, 20, below⟩]
  let before : PrefixTree := ⟨tagged 2 noDomain, [⟨1, 10, 0, []⟩, ⟨2, 100, 0, [0]⟩], [], 4⟩
  let after : PrefixTree := ⟨tagged noDomain 2, [⟨1, 10, 0, []⟩, ⟨2, 100, 0, [1, 3]⟩], [], 4⟩
  let state (tree : PrefixTree) (phase : Phase) : Adjusting :=
    ⟨tree, [⟨0, 0⟩, ⟨50, 50⟩], 0, phase, []⟩
  have run : Run (Guarded (StepOf PrefixTree.call) fun _ call => call.Funded) .initial
      [.registNewKV 0 1 10, .registNewKV 0 2 100, .create [97] 1 true 0,
        .create [97, 47, 120] 2 false 30, .create [98] 3 false 20, .adjust 20 60] before :=
    guarded_of_exec rfl (meets_of_forall (by simp [TreeCall.Funded]) _)
  have reached : Adjusting.Reaches 20 (state before .visit) (state after .pulling) :=
    ((Relation.ReflTransGen.refl.tail (b := state before .visit) (c := state before .pull)
      ⟨by decide, rfl⟩).tail (c := state before .pulling) ⟨by decide, rfl⟩).tail ⟨by decide, rfl⟩
  refine ⟨before, run, fun turns => ?_⟩
  by_contra returned
  obtain ⟨result, adjusted⟩ := Option.ne_none_iff_exists'.mp returned
  have calculated : before.calculateAdjustContext = some [⟨0, 0⟩, ⟨50, 50⟩] := rfl
  rw [PrefixTree.adjust, calculated, Option.bind_some, Option.map_eq_some_iff] at adjusted
  obtain ⟨final, ended, -⟩ := adjusted
  obtain ⟨fewer, ended⟩ := Adjusting.finish_of_reaches reached ended
  have working := ((prepared_of_run run).working 20 calculated).reaches reached
  obtain ⟨mvEle, rest, list, fits⟩ := working.smooth_of_finish ended rfl _ _ _ rfl rfl rfl
  obtain ⟨rfl, rfl⟩ := List.cons.inj list
  have small : (300 : Int) ≤ 20 := fits (by decide) _ _ rfl rfl rfl
  exact absurd small (by decide)

end Ctgfs.Placement
