import Mathlib.Data.List.Forall2
import Ctgfs.Foundation.NewestMerge
import Ctgfs.Foundation.Runs
import Ctgfs.Storage.Iterator

/-!
# Merging iterators

`MultiIter` keeps the current log of each of its iterators, yields the first one in the
order of logs, and moves every iterator past the key that it has yielded.  It is
parametrised by the iterators as the source is.  Over sorted iterators it computes the
newest-wins merge.
-/

namespace Ctgfs.Storage

open Foundation

/-- The `lsn` that marks a log as invalid. -/
def invalidLsn : Nat := 18446744073709551615

namespace Log

/-- `operator<`. -/
def before (left right : Log) : Bool :=
  if left.key < right.key then true
  else if right.key < left.key then false
  else decide (right.lsn < left.lsn)

def isValid (log : Log) : Bool :=
  decide (log.lsn ≠ invalidLsn)

def reset (log : Log) : Log :=
  { log with lsn := invalidLsn }

def blank : Log := ⟨invalidLsn, 0, [], [], .put⟩

theorem before_iff (left right : Log) :
    left.before right = true ↔ Before Log.key Log.lsn left right := by
  rw [before, Before]
  split
  next less => simp [less]
  next notLess =>
    split
    next greater => simp [notLess, greater.ne']
    next notGreater =>
      have same : left.key = right.key := le_antisymm (not_lt.mp notGreater) (not_lt.mp notLess)
      simp [same]

end Log

/-- `iters_[i]` with `logs_[i]`. -/
abbrev Slot (σ : Type) := σ × Log

namespace MultiIter

variable {σ : Type} (iterator : Iterator σ)

def construct : List σ → Except Failure (List (Slot σ))
  | [] => .ok []
  | iter :: iters =>
      if iterator.hasNext iter then
        match iterator.next iter with
        | .ok (log, later) => do
            let slots ← construct iters
            return (later, log) :: slots
        | .error .status =>
            .ok ((iterator.failed iter, .blank) :: iters.map fun iter => (iter, .blank))
        | .error failure => .error failure
      else do
        let slots ← construct iters
        return (iter, Log.blank.reset) :: slots

def hasNext (slots : List (Slot σ)) : Bool :=
  slots.any fun slot => slot.2.isValid

/-- The body of the first loop of `Next`. -/
def choose (choosen : Option Log) (slot : Slot σ) : Option Log :=
  if slot.2.isValid then
    match choosen with
    | none => some slot.2
    | some log =>
        if slot.2.key = log.key then if slot.2.before log then some slot.2 else some log
        else if slot.2.key < log.key then some slot.2
        else some log
  else choosen

/-- The loop that moves one iterator past a key.  It goes on after an error, and the
status is that of the last `Next`. -/
def advance (key : Bytes) : Nat → Slot σ → Bool → Except Failure (Slot σ × Bool)
  | 0, _, _ => .error .fuel
  | fuel + 1, slot, ret =>
      if slot.2.isValid ∧ slot.2.key = key then
        if iterator.hasNext slot.1 then
          match iterator.next slot.1 with
          | .ok (log, later) => advance key fuel (later, log) true
          | .error .status => advance key fuel (iterator.failed slot.1, slot.2) false
          | .error failure => .error failure
        else advance key fuel (slot.1, slot.2.reset) ret
      else .ok (slot, ret)

/-- The second loop of `Next`, which ends after an iterator with an error.  The two tests
before the inner loop are those of that loop. -/
def advanceAll (key : Bytes) (fuel : Nat) : List (Slot σ) → Except Failure (List (Slot σ) × Bool)
  | [] => .ok ([], true)
  | slot :: slots => do
      let (moved, ret) ← advance iterator key fuel slot true
      if ret then
        let (others, ret) ← advanceAll key fuel slots
        return (moved :: others, ret)
      else return (moved :: slots, false)

/-- `MultiIter::Next`; there is no log when the status is not `OK`. -/
def next (fuel : Nat) (slots : List (Slot σ)) : Except Failure (Option Log × List (Slot σ)) :=
  match slots.foldl choose none with
  | none => .ok (none, slots)
  | some choosen => do
      let (moved, ret) ← advanceAll iterator choosen.key fuel slots
      return (if ret then some choosen else none, moved)

/-- `MultiIter` as an iterator. -/
def merged (fuel : Nat) : Iterator (List (Slot σ)) where
  hasNext := hasNext
  next slots := do
    let (yielded, moved) ← next iterator fuel slots
    match yielded with
    | none => .error .status
    | some log => return (log, moved)
  failed slots :=
    match next iterator fuel slots with
    | .ok (_, moved) => moved
    | .error _ => slots

end MultiIter

section Merge

variable {σ : Type} {iterator : Iterator σ}

def Slot.Shows (iterator : Iterator σ) (slot : Slot σ) : List Log → Prop
  | [] => slot.2.isValid = false
  | log :: logs => slot.2 = log ∧ log.isValid = true ∧ iterator.Yields slot.1 logs

def Slot.Settled (iterator : Iterator σ) (slot : Slot σ) : Prop :=
  slot.2.isValid = false → iterator.hasNext slot.1 = false

theorem Slot.settled_of_valid {slot : Slot σ} (good : slot.2.isValid = true) :
    slot.Settled iterator := by
  intro stale
  rw [good] at stale
  cases stale

theorem isValid_reset (log : Log) : log.reset.isValid = false := by
  simp [Log.reset, Log.isValid]

theorem construct_shows {iters : List σ} {lists : List (List Log)}
    (yields : List.Forall₂ iterator.Yields iters lists)
    (valid : ∀ list ∈ lists, ∀ log ∈ list, log.isValid = true) :
    ∃ slots, MultiIter.construct iterator iters = .ok slots ∧
      List.Forall₂ (Slot.Shows iterator) slots lists ∧
      ∀ slot ∈ slots, slot.Settled iterator := by
  induction yields with
  | nil => exact ⟨[], rfl, .nil, by rintro slot ⟨⟩⟩
  | @cons iter list iters lists first _ ih =>
      obtain ⟨slots, constructed, shows, settled⟩ := ih fun list member =>
        valid list (List.mem_cons_of_mem _ member)
      cases first with
      | nil empty =>
          refine ⟨(iter, Log.blank.reset) :: slots, ?_, .cons (isValid_reset _) shows,
            List.forall_mem_cons.mpr ⟨fun _ => empty, settled⟩⟩
          simp [MultiIter.construct, empty, constructed, bind, Except.bind, pure, Except.pure]
      | @cons _ log later logs more taken rest =>
          have good := valid _ List.mem_cons_self log List.mem_cons_self
          refine ⟨(later, log) :: slots, ?_, .cons ⟨rfl, good, rest⟩ shows,
            List.forall_mem_cons.mpr ⟨Slot.settled_of_valid good, settled⟩⟩
          simp [MultiIter.construct, more, taken, constructed, bind, Except.bind, pure, Except.pure]

theorem advance_shows (key : Bytes) (slot : Slot σ) {list : List Log}
    (shows : slot.Shows iterator list) (settled : slot.Settled iterator)
    (valid : ∀ log ∈ list, log.isValid = true) (fuel : Nat) (enough : list.length < fuel) :
    ∃ moved, MultiIter.advance iterator key fuel slot true = .ok (moved, true) ∧
      moved.Shows iterator (list.dropWhile fun log => decide (log.key = key)) ∧
      moved.Settled iterator := by
  induction list generalizing slot fuel with
  | nil =>
      obtain ⟨fuel, rfl⟩ := Nat.exists_eq_add_one_of_ne_zero (by omega : fuel ≠ 0)
      have stale : slot.2.isValid = false := shows
      exact ⟨slot, by simp [MultiIter.advance, stale], stale, settled⟩
  | cons log logs ih =>
      obtain ⟨fuel, rfl⟩ := Nat.exists_eq_add_one_of_ne_zero (by omega : fuel ≠ 0)
      obtain ⟨rfl, good, yields⟩ := shows
      rw [List.length_cons] at enough
      by_cases same : slot.2.key = key
      · rw [List.dropWhile_cons_of_pos (by simpa using same)]
        cases yields with
        | nil empty =>
            obtain ⟨fuel, rfl⟩ := Nat.exists_eq_add_one_of_ne_zero (by omega : fuel ≠ 0)
            refine ⟨(slot.1, slot.2.reset), ?_, isValid_reset _, fun _ => empty⟩
            simp [MultiIter.advance, good, same, empty, isValid_reset]
        | @cons _ following later logs more taken rest =>
            have goodRest := fun other member => valid other (List.mem_cons_of_mem _ member)
            have goodFirst := goodRest following List.mem_cons_self
            obtain ⟨moved, advanced, result⟩ := ih (later, following)
              ⟨rfl, goodFirst, rest⟩ (Slot.settled_of_valid goodFirst) goodRest fuel (by omega)
            refine ⟨moved, ?_, result⟩
            simp [MultiIter.advance, good, same, more, taken, advanced]
      · rw [List.dropWhile_cons_of_neg (by simpa using same)]
        exact ⟨slot, by simp [MultiIter.advance, same], ⟨rfl, good, yields⟩, settled⟩

theorem advanceAll_shows (key : Bytes) {slots : List (Slot σ)} {lists : List (List Log)}
    (shows : List.Forall₂ (Slot.Shows iterator) slots lists)
    (settled : ∀ slot ∈ slots, slot.Settled iterator)
    (valid : ∀ list ∈ lists, ∀ log ∈ list, log.isValid = true) {fuel : Nat}
    (enough : ∀ list ∈ lists, list.length < fuel) :
    ∃ moved, MultiIter.advanceAll iterator key fuel slots = .ok (moved, true) ∧
      List.Forall₂ (Slot.Shows iterator) moved
        (lists.map fun list => list.dropWhile fun log => decide (log.key = key)) ∧
      ∀ slot ∈ moved, slot.Settled iterator := by
  induction shows with
  | nil => exact ⟨[], rfl, .nil, by rintro slot ⟨⟩⟩
  | @cons slot list slots lists first _ ih =>
      obtain ⟨settledFirst, settledRest⟩ := List.forall_mem_cons.mp settled
      obtain ⟨moved, advanced, showsFirst, settledMoved⟩ := advance_shows key slot first
        settledFirst (valid list List.mem_cons_self) fuel (enough list List.mem_cons_self)
      obtain ⟨others, advancedRest, showsRest, settledOthers⟩ := ih settledRest
        (fun list member => valid list (List.mem_cons_of_mem _ member))
        (fun list member => enough list (List.mem_cons_of_mem _ member))
      refine ⟨moved :: others, ?_, .cons showsFirst showsRest,
        List.forall_mem_cons.mpr ⟨settledMoved, settledOthers⟩⟩
      simp [MultiIter.advanceAll, advanced, advancedRest, bind, Except.bind, pure, Except.pure]

theorem choose_eq_lesser {slot : Slot σ} (good : slot.2.isValid = true) (choosen : Option Log) :
    MultiIter.choose choosen slot = lesser Log.key Log.lsn choosen slot.2 := by
  cases choosen with
  | none => simp only [MultiIter.choose, good, if_true, lesser]
  | some log =>
      simp only [MultiIter.choose, good, if_true, lesser, Log.before_iff]
      by_cases same : slot.2.key = log.key
      · rw [if_pos same]
      · have less : Before Log.key Log.lsn slot.2 log ↔ slot.2.key < log.key := by
          simp [Before, same]
        simp only [same, if_false, less]

theorem foldl_choose {slots : List (Slot σ)} {lists : List (List Log)}
    (shows : List.Forall₂ (Slot.Shows iterator) slots lists) (choosen : Option Log) :
    slots.foldl MultiIter.choose choosen =
      (lists.filterMap List.head?).foldl (lesser Log.key Log.lsn) choosen := by
  induction shows generalizing choosen with
  | nil => rfl
  | @cons slot list slots lists first _ ih =>
      cases list with
      | nil =>
          have stale : slot.2.isValid = false := first
          have kept : MultiIter.choose choosen slot = choosen := by
            simp [MultiIter.choose, stale]
          rw [List.foldl_cons, kept]
          exact ih choosen
      | cons log logs =>
          obtain ⟨rfl, good, -⟩ := first
          rw [List.foldl_cons, choose_eq_lesser good]
          exact ih _

theorem hasNext_iff {slots : List (Slot σ)} {lists : List (List Log)}
    (shows : List.Forall₂ (Slot.Shows iterator) slots lists) :
    MultiIter.hasNext slots = true ↔ lists.flatten ≠ [] := by
  induction shows with
  | nil => simp [MultiIter.hasNext]
  | @cons slot list slots lists first _ ih =>
      rw [MultiIter.hasNext] at ih ⊢
      cases list with
      | nil =>
          have stale : slot.2.isValid = false := first
          rw [List.any_cons, stale, Bool.false_or]
          exact ih
      | cons log logs =>
          obtain ⟨rfl, good, -⟩ := first
          simp [good]

structure Mergeable (lists : List (List Log)) : Prop where
  sorted : ∀ list ∈ lists, list.Pairwise (Before Log.key Log.lsn)
  valid : ∀ list ∈ lists, ∀ log ∈ list, log.isValid = true

theorem Mergeable.choice {lists : List (List Log)} (mergeable : Mergeable lists)
    (some_ : lists.flatten ≠ []) :
    ∃ log, (lists.filterMap List.head?).foldl (lesser Log.key Log.lsn) none = some log ∧
      log ∈ lists.flatten ∧ ∀ other ∈ lists.flatten, ¬ Before Log.key Log.lsn other log := by
  cases heads : lists.filterMap List.head? with
  | nil =>
      exfalso
      apply some_
      rw [List.flatten_eq_nil_iff]
      intro list member
      rw [List.filterMap_eq_nil_iff] at heads
      exact List.head?_eq_none_iff.mp (heads list member)
  | cons head rest =>
      obtain ⟨log, chosen, member, least⟩ : ∃ log,
          rest.foldl (lesser Log.key Log.lsn) (some head) = some log ∧ log ∈ head :: rest ∧
            ∀ other ∈ head :: rest, ¬ Before Log.key Log.lsn other log := foldl_lesser head rest
      rw [← heads] at member least
      refine ⟨log, chosen, ?_, ?_⟩
      · obtain ⟨list, listed, first⟩ := List.mem_filterMap.mp member
        exact List.mem_flatten.mpr ⟨list, listed, List.mem_of_mem_head? first⟩
      · intro other inside
        obtain ⟨list, listed, inList⟩ := List.mem_flatten.mp inside
        have sorted := mergeable.sorted list listed
        cases list with
        | nil => cases inList
        | cons first others =>
            have notLess := least first (List.mem_filterMap.mpr ⟨_, listed, rfl⟩)
            rcases List.mem_cons.mp inList with rfl | later
            · exact notLess
            · intro smaller
              exact notLess (((List.pairwise_cons.mp sorted).1 other later).trans smaller)

theorem Mergeable.flatten_dropWhile {lists : List (List Log)} (mergeable : Mergeable lists)
    {chosen : Log} (least : ∀ other ∈ lists.flatten, ¬ Before Log.key Log.lsn other chosen) :
    (lists.map fun list => list.dropWhile fun log => decide (log.key = chosen.key)).flatten =
      lists.flatten.filter fun log => !decide (log.key = chosen.key) := by
  rw [List.filter_flatten]
  congr 1
  apply List.map_congr_left
  intro list listed
  refine dropWhile_key_eq_filter (mergeable.sorted list listed) ?_ fun _ => decide_eq_true_iff
  intro log member
  exact (not_before_iff.mp (least log (List.mem_flatten.mpr ⟨list, listed, member⟩))).1

theorem Mergeable.dropWhile {lists : List (List Log)} (mergeable : Mergeable lists)
    (drop : Log → Bool) : Mergeable (lists.map fun list => list.dropWhile drop) := by
  constructor
  · intro list member
    obtain ⟨whole, listed, rfl⟩ := List.mem_map.mp member
    exact (mergeable.sorted whole listed).sublist (List.dropWhile_sublist drop)
  · intro list member log inside
    obtain ⟨whole, listed, rfl⟩ := List.mem_map.mp member
    exact mergeable.valid whole listed log ((List.dropWhile_sublist drop).subset inside)

/-- A state of a `MultiIter`, with the logs that are left of every input. -/
structure Merging (iterator : Iterator σ) (fuel : Nat) (slots : List (Slot σ))
    (lists : List (List Log)) : Prop where
  mergeable : Mergeable lists
  shows : List.Forall₂ (Slot.Shows iterator) slots lists
  settled : ∀ slot ∈ slots, slot.Settled iterator
  enough : ∀ list ∈ lists, list.length < fuel

namespace Merging

variable {fuel : Nat} {slots : List (Slot σ)} {lists : List (List Log)}

theorem next (merging : Merging iterator fuel slots lists) (some_ : lists.flatten ≠ []) :
    ∃ log moved, (MultiIter.merged iterator fuel).next slots = .ok (log, moved) ∧
      log ∈ lists.flatten ∧
      (∀ other ∈ lists.flatten, ¬ Before Log.key Log.lsn other log) ∧
      Merging iterator fuel moved
        (lists.map fun list => list.dropWhile fun other => decide (other.key = log.key)) := by
  obtain ⟨log, chosen, member, least⟩ := merging.mergeable.choice some_
  rw [← foldl_choose merging.shows] at chosen
  obtain ⟨moved, advanced, shows, settled⟩ := advanceAll_shows log.key merging.shows
    merging.settled merging.mergeable.valid merging.enough
  refine ⟨log, moved, ?_, member, least, merging.mergeable.dropWhile _, shows, settled, ?_⟩
  · simp [MultiIter.merged, MultiIter.next, chosen, advanced, bind, Except.bind, pure,
      Except.pure]
  · intro list left
    obtain ⟨whole, listed, rfl⟩ := List.mem_map.mp left
    exact lt_of_le_of_lt (List.dropWhile_sublist _).length_le (merging.enough whole listed)

theorem yields (merging : Merging iterator fuel slots lists) :
    ∃ out, (MultiIter.merged iterator fuel).Yields slots out ∧
      Newest Log.key Log.lsn lists.flatten out := by
  -- the number of logs that are left decreases
  induction count : lists.flatten.length using Nat.strong_induction_on generalizing lists slots with
  | _ count ih =>
      subst count
      by_cases some_ : lists.flatten = []
      · have done : MultiIter.hasNext slots = false := by
          rw [← Bool.not_eq_true, hasNext_iff merging.shows, not_not]
          exact some_
        rw [some_]
        exact ⟨[], .nil done, Newest.nil⟩
      · obtain ⟨log, moved, taken, member, least, later⟩ := merging.next some_
        have dropped := merging.mergeable.flatten_dropWhile least
        have fewer : (lists.flatten.filter fun other => !decide (other.key = log.key)).length <
            lists.flatten.length := by
          rw [List.length_filter_lt_length_iff_exists]
          exact ⟨log, member, by simp⟩
        obtain ⟨out, rest, newest⟩ := ih _ fewer later (by rw [dropped])
        rw [dropped] at newest
        exact ⟨log :: out, .cons ((hasNext_iff merging.shows).mpr some_) taken rest,
          Newest.cons member least (fun _ => decide_eq_true_iff) newest⟩

theorem run {logs : List Log} {state : List (Slot σ)} (merging : Merging iterator fuel slots lists)
    (run : Run (MultiIter.merged iterator fuel).Takes slots logs state) :
    ∃ left, Merging iterator fuel state left := by
  refine run.invariant (fun state => ∃ left, Merging iterator fuel state left) ⟨lists, merging⟩ ?_
  rintro state log later ⟨left, merging⟩ ⟨more, taken⟩
  obtain ⟨chosen, moved, chosenTaken, -, -, merging⟩ :=
    merging.next ((hasNext_iff merging.shows).mp more)
  obtain ⟨rfl, rfl⟩ := Prod.mk.inj (Except.ok.inj (chosenTaken.symm.trans taken))
  exact ⟨_, merging⟩

end Merging

/-- An input of a `MultiIter` is at its end: its iterator is, and its last log was passed. -/
def Slot.Exhausted (iterator : Iterator σ) (slot : Slot σ) : Prop :=
  slot.2.isValid = false ∧ iterator.hasNext slot.1 = false

theorem hasNext_eq_false_iff {slots : List (Slot σ)}
    (settled : ∀ slot ∈ slots, slot.Settled iterator) :
    MultiIter.hasNext slots = false ↔ ∀ slot ∈ slots, slot.Exhausted iterator := by
  simp only [MultiIter.hasNext, List.any_eq_false, Bool.not_eq_true]
  constructor
  · intro stale slot member
    exact ⟨stale slot member, settled slot member (stale slot member)⟩
  · intro exhausted slot member
    exact (exhausted slot member).1

theorem next_of_hasNext_eq_false {slots : List (Slot σ)} (fuel : Nat)
    (done : MultiIter.hasNext slots = false) :
    (MultiIter.merged iterator fuel).next slots = .error .status := by
  have kept : slots.foldl MultiIter.choose none = none := by
    induction slots with
    | nil => rfl
    | cons slot slots ih =>
        rw [MultiIter.hasNext, List.any_cons, Bool.or_eq_false_iff] at done
        rw [List.foldl_cons, MultiIter.choose, done.1]
        exact ih done.2
  simp [MultiIter.merged, MultiIter.next, kept, bind, Except.bind]

/-- Over iterators that yield sorted logs, calling `Next` while `HasNext` is true yields the
newest log of every key in the order of the keys.  On the way `HasNext` is false exactly
when every input is at its end, and then `Next` returns an error. -/
theorem multiIter_newest_wins (iterator : Iterator σ) {iters : List σ} {lists : List (List Log)}
    (yields : List.Forall₂ iterator.Yields iters lists)
    (sorted : ∀ list ∈ lists, list.Pairwise fun first second => first.before second = true)
    (valid : ∀ list ∈ lists, ∀ log ∈ list, log.lsn ≠ invalidLsn)
    (fuel : Nat) (enough : ∀ list ∈ lists, list.length < fuel) :
    ∃ slots, MultiIter.construct iterator iters = .ok slots ∧
      (∃ out, (MultiIter.merged iterator fuel).Yields slots out ∧
        Newest Log.key Log.lsn lists.flatten out) ∧
      ∀ logs state, Run (MultiIter.merged iterator fuel).Takes slots logs state →
        (MultiIter.hasNext state = false ↔ ∀ slot ∈ state, slot.Exhausted iterator) ∧
        (MultiIter.hasNext state = false →
          (MultiIter.merged iterator fuel).next state = .error .status) := by
  have mergeable : Mergeable lists := by
    constructor
    · intro list member
      exact (sorted list member).imp fun ordered => (Log.before_iff _ _).mp ordered
    · intro list member log inside
      exact decide_eq_true (valid list member log inside)
  obtain ⟨slots, constructed, shows, settled⟩ := construct_shows yields mergeable.valid
  have merging : Merging iterator fuel slots lists := ⟨mergeable, shows, settled, enough⟩
  refine ⟨slots, constructed, merging.yields, ?_⟩
  intro logs state run
  obtain ⟨left, reached⟩ := merging.run run
  exact ⟨hasNext_eq_false_iff reached.settled, next_of_hasNext_eq_false fuel⟩

def threeVersions : List (List Log) :=
  [[Log.make 3 .put [⟨97, by decide⟩] [⟨1, by decide⟩], Log.make 1 .del [⟨97, by decide⟩] []],
    [Log.make 2 .put [⟨97, by decide⟩] [⟨3, by decide⟩]]]

theorem multiIter_newest_wins_versions :
    ∃ slots, MultiIter.construct Iterator.ofList threeVersions = .ok slots ∧
      ∃ out, (MultiIter.merged Iterator.ofList 3).Yields slots out ∧
        Newest Log.key Log.lsn threeVersions.flatten out := by
  obtain ⟨slots, constructed, merge, -⟩ := multiIter_newest_wins Iterator.ofList
    (List.forall₂_same.mpr fun logs _ => Iterator.yields_ofList logs)
    (by decide : ∀ list ∈ threeVersions, list.Pairwise fun first second =>
      first.before second = true)
    (by decide) 3 (by decide)
  exact ⟨slots, constructed, merge⟩

end Merge

end Ctgfs.Storage
