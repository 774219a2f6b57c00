import Ctgfs.Foundation.Signed
import Mathlib.Data.Int.Order.Basic
import Mathlib.Algebra.Order.Group.Int

/-!
# The deadlines of a call

`call1` waits for its reply with deadlines that `add_timespec` computes from the clock.  The
loop of `add_timespec` carries whole seconds from the nanoseconds, but it stops at a full
second: a sum of exactly `1000000000` nanoseconds is left as it is.  Every other sum is exact
and normalised.  The timeouts between two transmissions are whole seconds, so only the final
deadline of a call can be the exception.
-/

namespace Ctgfs.Rpc

open Foundation

structure Timespec where
  tvSec : Int
  tvNsec : Int
  deriving DecidableEq, Repr

namespace Timespec

def nanos (time : Timespec) : Int := time.tvSec * 1000000000 + time.tvNsec

/-- A time that `pthread_cond_timedwait` takes: less than a second of nanoseconds, and
seconds that are a `time_t`. -/
structure Normalised (time : Timespec) : Prop where
  low : 0 ≤ time.tvNsec
  high : time.tvNsec < 1000000000
  past : -9223372036854775808 ≤ time.tvSec
  future : time.tvSec < 9223372036854775808

instance (time : Timespec) : Decidable time.Normalised :=
  decidable_of_iff
    (0 ≤ time.tvNsec ∧ time.tvNsec < 1000000000 ∧
      -9223372036854775808 ≤ time.tvSec ∧ time.tvSec < 9223372036854775808)
    ⟨fun ⟨low, high, past, future⟩ => ⟨low, high, past, future⟩,
      fun ⟨low, high, past, future⟩ => ⟨low, high, past, future⟩⟩

end Timespec

def cmpTimespec (a b : Timespec) : Int :=
  if b.tvSec < a.tvSec then 1
  else if a.tvSec < b.tvSec then -1
  else if b.tvNsec < a.tvNsec then 1
  else if a.tvNsec < b.tvNsec then -1
  else 0

/-- The loop of `add_timespec`, for at most `fuel` iterations less one. -/
def carryLoop : Nat → Int → Int → Option Timespec
  | 0, _, _ => none
  | fuel + 1, tvSec, tvNsec =>
      if 1000000000 < tvNsec then do
        carryLoop fuel (← checkedLong (tvSec + 1)) (tvNsec - 1000000000)
      else some ⟨tvSec, tvNsec⟩

/-- `add_timespec`.  It is `none` when a sum overflows and when the `VERIFY` fails. -/
def addTimespec (a : Timespec) (b : Int) : Option Timespec := do
  let tvSec ← checkedLong (a.tvSec + b.tdiv 1000)
  let tvNsec ← checkedLong (a.tvNsec + b.tmod 1000 * 1000000)
  if tvNsec < 0 then none
  else carryLoop (tvNsec.toNat / 1000000000 + 1) tvSec tvNsec

/-- `rpcc::to_min`, in milliseconds. -/
def toMin : Int := 1000

def clampDeadline (nextdeadline finaldeadline : Timespec) : Timespec × Timespec :=
  if 0 < cmpTimespec nextdeadline finaldeadline then
    (finaldeadline, { finaldeadline with tvSec := 0 })
  else (nextdeadline, finaldeadline)

/-- The wait loop of `call1`: the deadline of each of its turns, where `readings` is what the
clock shows in the turns before the call is done.  The list ends where the loop does, or
where an operation is not defined. -/
def waitLoop (currTo : Int) (finaldeadline : Timespec) : List Timespec → List Timespec
  | [] => []
  | now :: readings =>
      if finaldeadline.tvSec = 0 then []
      else
        match addTimespec now currTo with
        | none => []
        | some nextdeadline =>
            (clampDeadline nextdeadline finaldeadline).1 ::
              match checkedInt (currTo * 2) with
              | none => []
              | some doubled =>
                  waitLoop doubled (clampDeadline nextdeadline finaldeadline).2 readings

/-- The deadlines of `call1` with the timeout `timeout`, from the reading `now` on. -/
def call1Deadlines (now : Timespec) (timeout : Int) (readings : List Timespec) :
    List Timespec :=
  match addTimespec now timeout with
  | none => []
  | some finaldeadline => waitLoop toMin finaldeadline readings

def AddsExactly (a : Timespec) (b : Int) : Prop :=
  ∃ r, addTimespec a b = some r ∧ r.nanos = a.nanos + b * 1000000 ∧ r.Normalised

/-- The nanoseconds do not add up to exactly one second, and the seconds of the sum are a
`time_t`. -/
def MissesFullSecond (a : Timespec) (b : Int) : Prop :=
  a.tvNsec + b % 1000 * 1000000 ≠ 1000000000 ∧
    a.nanos + b * 1000000 < 9223372036854775808 * 1000000000

instance (a : Timespec) (b : Int) : Decidable (MissesFullSecond a b) :=
  inferInstanceAs (Decidable (_ ∧ _))

/-! ## One addition -/

structure Carried (tvSec tvNsec : Int) (r : Timespec) : Prop where
  nanos : r.nanos = tvSec * 1000000000 + tvNsec
  low : 0 ≤ r.tvNsec
  high : r.tvNsec ≤ 1000000000
  le : r.tvNsec ≤ tvNsec
  past : -9223372036854775808 ≤ r.tvSec
  future : r.tvSec < 9223372036854775808

theorem carryLoop_carried {fuel : Nat} {tvSec tvNsec : Int} {r : Timespec} (low : 0 ≤ tvNsec)
    (past : -9223372036854775808 ≤ tvSec) (future : tvSec < 9223372036854775808)
    (result : carryLoop fuel tvSec tvNsec = some r) : Carried tvSec tvNsec r := by
  induction fuel generalizing tvSec tvNsec with
  | zero => cases result
  | succ fuel ih =>
      rw [carryLoop] at result
      split at result
      next full =>
        obtain ⟨next, sum, result⟩ := Option.bind_eq_some_iff.mp result
        obtain ⟨rfl, below, above⟩ := checked_eq_some_iff.mp sum
        have carried := ih (by omega) below above result
        have nanos := carried.nanos
        have le := carried.le
        exact { carried with nanos := by omega, le := by omega }
      next rest =>
        cases result
        exact ⟨rfl, low, Int.not_lt.mp rest, Int.le_refl _, past, future⟩

theorem carryLoop_ends {fuel : Nat} {tvSec tvNsec : Int} (low : 0 ≤ tvNsec)
    (enough : tvNsec < (fuel : Int) * 1000000000) (past : -9223372036854775808 ≤ tvSec)
    (room : tvSec * 1000000000 + tvNsec < 9223372036854775808 * 1000000000) :
    ∃ r, carryLoop fuel tvSec tvNsec = some r := by
  induction fuel generalizing tvSec tvNsec with
  | zero => omega
  | succ fuel ih =>
      rw [carryLoop]
      split
      next full =>
        have sum : checkedLong (tvSec + 1) = some (tvSec + 1) :=
          checked_of_bounds (by omega) (by omega)
        rw [sum]
        exact ih (by omega) (by push_cast at enough; omega) (by omega) (by omega)
      next => exact ⟨_, rfl⟩

section

variable {a r : Timespec} {b : Int} (normal : a.Normalised) (low : 0 ≤ b) (high : b < 2147483648)

include normal low high

theorem addTimespec_eq (room : a.tvSec + b / 1000 < 9223372036854775808) :
    addTimespec a b =
      carryLoop ((a.tvNsec + b % 1000 * 1000000).toNat / 1000000000 + 1)
        (a.tvSec + b / 1000) (a.tvNsec + b % 1000 * 1000000) := by
  obtain ⟨lowNsec, highNsec, past, future⟩ := normal
  have seconds : checkedLong (a.tvSec + b / 1000) = some (a.tvSec + b / 1000) :=
    checked_of_bounds (by omega) room
  have nanoseconds : checkedLong (a.tvNsec + b % 1000 * 1000000) =
      some (a.tvNsec + b % 1000 * 1000000) := checked_of_bounds (by omega) (by omega)
  have valid : ¬ a.tvNsec + b % 1000 * 1000000 < 0 := by omega
  rw [addTimespec, Int.tdiv_eq_ediv_of_nonneg low, Int.tmod_eq_emod_of_nonneg low, seconds,
    nanoseconds]
  simp only [Option.bind_eq_bind, Option.bind_some, valid, if_false]

theorem addTimespec_carried (result : addTimespec a b = some r) :
    Carried (a.tvSec + b / 1000) (a.tvNsec + b % 1000 * 1000000) r := by
  have past := normal.past
  have nonneg := normal.low
  by_cases room : a.tvSec + b / 1000 < 9223372036854775808
  · rw [addTimespec_eq normal low high room] at result
    exact carryLoop_carried (by omega) (by omega) room result
  · have overflow : checkedLong (a.tvSec + b / 1000) = none :=
      checked_of_overflow (Int.not_lt.mp room)
    rw [addTimespec, Int.tdiv_eq_ediv_of_nonneg low, overflow] at result
    cases result

theorem normalised_of_misses (result : addTimespec a b = some r)
    (misses : a.tvNsec + b % 1000 * 1000000 ≠ 1000000000) : r.Normalised := by
  have carried := addTimespec_carried normal low high result
  refine ⟨carried.low, ?_, carried.past, carried.future⟩
  have nanos : r.tvSec * 1000000000 + r.tvNsec = _ := carried.nanos
  have le := carried.le
  have upper := carried.high
  have first := normal.high
  omega

theorem misses_of_normalised (result : addTimespec a b = some r) (normalised : r.Normalised) :
    MissesFullSecond a b := by
  have carried := addTimespec_carried normal low high result
  have nanos : r.tvSec * 1000000000 + r.tvNsec = _ := carried.nanos
  have below := normalised.high
  have future := normalised.future
  have parts : a.nanos = a.tvSec * 1000000000 + a.tvNsec := rfl
  refine ⟨?_, by omega⟩
  intro full
  -- the loop does not run, and leaves the full second
  have room : a.tvSec + b / 1000 < 9223372036854775808 := by
    have nonneg := normalised.low
    omega
  rw [addTimespec_eq normal low high room, full] at result
  cases result
  exact Int.lt_irrefl _ below

theorem addsExactly_iff : AddsExactly a b ↔ MissesFullSecond a b := by
  constructor
  · rintro ⟨r, result, -, normalised⟩
    exact misses_of_normalised normal low high result normalised
  · intro misses
    have past := normal.past
    have nonneg := normal.low
    have parts : a.nanos = a.tvSec * 1000000000 + a.tvNsec := rfl
    have bound := misses.2
    obtain ⟨r, result⟩ : ∃ r, addTimespec a b = some r := by
      rw [addTimespec_eq normal low high (by omega)]
      exact carryLoop_ends (by omega) (by omega) (by omega) (by omega)
    have nanos := (addTimespec_carried normal low high result).nanos
    exact ⟨r, result, by omega, normalised_of_misses normal low high result misses.1⟩

end

/-! ## Comparison and the wait loop -/

theorem cmpTimespec_eq_sign {a b : Timespec} (first : a.Normalised) (second : b.Normalised) :
    cmpTimespec a b = (a.nanos - b.nanos).sign := by
  obtain ⟨lowFirst, highFirst, -, -⟩ := first
  obtain ⟨lowSecond, highSecond, -, -⟩ := second
  have partsFirst : a.nanos = a.tvSec * 1000000000 + a.tvNsec := rfl
  have partsSecond : b.nanos = b.tvSec * 1000000000 + b.tvNsec := rfl
  rcases Int.lt_trichotomy a.nanos b.nanos with before | same | after
  · rw [Int.sign_eq_neg_one_of_neg (by omega)]
    grind [cmpTimespec]
  · rw [show a.nanos - b.nanos = 0 by omega, Int.sign_zero]
    grind [cmpTimespec]
  · rw [Int.sign_eq_one_of_pos (by omega)]
    grind [cmpTimespec]

theorem waitLoop_used {currTo : Int} {finaldeadline : Timespec} {readings : List Timespec}
    (used : finaldeadline.tvSec = 0) : waitLoop currTo finaldeadline readings = [] := by
  cases readings with
  | nil => rfl
  | cons now readings => rw [waitLoop, if_pos used]

theorem mem_waitLoop {currTo : Int} {finaldeadline deadline : Timespec}
    {readings : List Timespec} (clock : ∀ now ∈ readings, now.Normalised)
    (whole : currTo % 1000 = 0) (low : 0 ≤ currTo) (high : currTo < 2147483648)
    (passed : deadline ∈ waitLoop currTo finaldeadline readings) :
    deadline.Normalised ∨ deadline = finaldeadline := by
  induction readings generalizing currTo finaldeadline with
  | nil => cases passed
  | cons now readings ih =>
      rw [waitLoop] at passed
      split at passed
      · cases passed
      next unused =>
      split at passed
      · cases passed
      next nextdeadline result =>
      have next : nextdeadline.Normalised := by
        apply normalised_of_misses (clock now List.mem_cons_self) low high result
        have first := (clock now List.mem_cons_self).high
        omega
      by_cases last : 0 < cmpTimespec nextdeadline finaldeadline
      · rw [clampDeadline, if_pos last] at passed
        rcases List.mem_cons.mp passed with rfl | later
        · exact Or.inr rfl
        · split at later
          · cases later
          · rw [waitLoop_used rfl] at later
            cases later
      · rw [clampDeadline, if_neg last] at passed
        rcases List.mem_cons.mp passed with rfl | later
        · exact Or.inl next
        · split at later
          · cases later
          next doubled double =>
            obtain ⟨rfl, -, small⟩ := checked_eq_some_iff.mp double
            exact ih (fun now member => clock now (List.mem_cons_of_mem _ member))
              (by omega) (by omega) small later

/-- For every normalised time and every timeout: the sum is exact and normalised unless the
nanoseconds add up to one full second; two such sums compare as the times they denote; and
a deadline of a call is valid unless it is the final one and is such a full second. -/
theorem deadlines_normalised_iff (a : Timespec) (b : Int) (normal : a.Normalised) (low : 0 ≤ b)
    (high : b < 2147483648) :
    (AddsExactly a b ↔ MissesFullSecond a b) ∧
      (∀ (a' : Timespec) (b' : Int) (r r' : Timespec), a'.Normalised → 0 ≤ b' →
        b' < 2147483648 → MissesFullSecond a b → MissesFullSecond a' b' →
        addTimespec a b = some r → addTimespec a' b' = some r' →
        cmpTimespec r r' = (r.nanos - r'.nanos).sign) ∧
      ∀ readings : List Timespec, (∀ now ∈ readings, now.Normalised) →
        ∀ deadline ∈ call1Deadlines a b readings,
          deadline.Normalised ↔ (addTimespec a b = some deadline → MissesFullSecond a b) := by
  refine ⟨addsExactly_iff normal low high, ?_, ?_⟩
  · intro a' b' r r' normal' low' high' misses misses' result result'
    exact cmpTimespec_eq_sign (normalised_of_misses normal low high result misses.1)
      (normalised_of_misses normal' low' high' result' misses'.1)
  · intro readings clock deadline passed
    constructor
    · intro normalised final
      exact misses_of_normalised normal low high final normalised
    · intro misses
      rw [call1Deadlines] at passed
      split at passed
      · cases passed
      next finaldeadline final =>
        rcases mem_waitLoop clock (by decide) (by decide) (by decide) passed with next | rfl
        · exact next
        · exact normalised_of_misses normal low high final (misses final).1

/-- A call that may take a second and a half, at a quarter past a second: two turns, and both
deadlines are valid. -/
theorem deadlines_normalised_iff_quarter :
    addTimespec ⟨7, 250000000⟩ 1500 = some ⟨8, 750000000⟩ ∧ AddsExactly ⟨7, 250000000⟩ 1500 ∧
      call1Deadlines ⟨7, 250000000⟩ 1500 [⟨7, 260000000⟩, ⟨8, 260000000⟩] =
        [⟨8, 260000000⟩, ⟨8, 750000000⟩] ∧
      ∀ deadline ∈ call1Deadlines ⟨7, 250000000⟩ 1500 [⟨7, 260000000⟩, ⟨8, 260000000⟩],
        deadline.Normalised := by
  have misses : MissesFullSecond ⟨7, 250000000⟩ 1500 := by decide
  have spec := deadlines_normalised_iff ⟨7, 250000000⟩ 1500 (by decide) (by decide) (by decide)
  refine ⟨by decide, spec.1.mpr misses, by decide, ?_⟩
  intro deadline passed
  exact (spec.2.2 _ (by decide) deadline passed).mpr fun _ => misses

/-- Half a second after half past a second: the deadline that `call1` passes has a full
second of nanoseconds, and compares as earlier than the same time in its normal form. -/
theorem full_second_not_normalised :
    Timespec.Normalised ⟨7, 500000000⟩ ∧ ¬ AddsExactly ⟨7, 500000000⟩ 500 ∧
      call1Deadlines ⟨7, 500000000⟩ 500 [⟨7, 500000001⟩] = [⟨7, 1000000000⟩] ∧
      cmpTimespec ⟨7, 1000000000⟩ ⟨8, 0⟩ = -1 ∧
      Timespec.nanos ⟨7, 1000000000⟩ = Timespec.nanos ⟨8, 0⟩ := by
  refine ⟨by decide, ?_, by decide, by decide, by decide⟩
  rintro ⟨r, result, -, normalised⟩
  have sum : addTimespec ⟨7, 500000000⟩ 500 = some ⟨7, 1000000000⟩ := by decide
  cases Option.some.inj (result.symm.trans sum)
  exact absurd normalised (by decide)

end Ctgfs.Rpc
