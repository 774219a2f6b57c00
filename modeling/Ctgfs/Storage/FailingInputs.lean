import Ctgfs.Storage.MultiIter
import Mathlib.Algebra.Order.BigOperators.Group.List

/-!
# Merging inputs that fail

The inner loop of `MultiIter::Next` does not look at the status of the input that it moves.  A
`Next` that fails leaves the log and the input as they are, so that the loop calls it again: for
ever when it fails for ever, and otherwise until a later call returns `OK` and hides the error.
Here every call of an input may fail or not, as a stream of its own says.
-/

namespace Ctgfs.Storage

open Foundation

/-- A finite iterator whose calls may fail: the logs that are left, which of the calls of `Next`
to come return an error, and whether one has, which the source does not keep. -/
structure Input where
  logs : List Log
  fails : Nat → Bool
  failed : Bool := false

namespace Input

def later (fails : Nat → Bool) : Nat → Bool := fun n => fails (n + 1)

/-- `Next` takes nothing when it fails, but the next call is another one. -/
def iterator : Iterator Input where
  hasNext input := !input.logs.isEmpty
  next input :=
    match input.logs with
    | [] => .error .status
    | log :: rest =>
        if input.fails 0 then .error .status
        else .ok (log, { input with logs := rest, fails := later input.fails })
  failed input := { input with fails := later input.fails, failed := true }

def At (key : Bytes) (log : Log) : Prop := log.isValid = true ∧ log.key = key

instance (key : Bytes) (log : Log) : Decidable (At key log) :=
  inferInstanceAs (Decidable (_ ∧ _))

def unfailed (slot : Slot Input) : Slot Input := ({ slot.1 with failed := false }, slot.2)

/-- `MultiIter::Next` returns, with an error if an input fails in this call. -/
def Reports (slots : List (Slot Input)) : Prop :=
  ∃ fuel result, MultiIter.next iterator fuel (slots.map unfailed) = .ok result ∧
    ((∃ slot ∈ result.2, slot.1.failed = true) → result.1 = none)

/-- The number of calls of `Next` that take an input past a key when none of them fails. -/
def callsPast (key : Bytes) : List Log → Nat
  | [] => 0
  | log :: rest => if At key log then callsPast key rest + 1 else 1

def PassesCleanly (key : Bytes) (slot : Slot Input) : Prop :=
  At key slot.2 → ∀ n < callsPast key slot.1.logs, slot.1.fails n = false

def NoneFails (slots : List (Slot Input)) : Prop :=
  ∀ choosen, slots.foldl MultiIter.choose none = some choosen →
    ∀ slot ∈ slots, PassesCleanly choosen.key slot

/-! ## One input -/

section Advance

variable {key : Bytes} {fuel : Nat} {ret ok failed : Bool} {logs : List Log} {log first : Log}
  {fails : Nat → Bool} {moved : Slot Input}

theorem advance_done {input : Input} (past : ¬ At key log) :
    MultiIter.advance iterator key (fuel + 1) (input, log) ret = .ok ((input, log), ret) :=
  if_neg past

theorem advance_end (here : At key log) :
    MultiIter.advance iterator key (fuel + 1) (⟨[], fails, failed⟩, log) ret =
      MultiIter.advance iterator key fuel (⟨[], fails, failed⟩, log.reset) ret :=
  if_pos here

theorem advance_fail (here : At key log) (fail : fails 0 = true) :
    MultiIter.advance iterator key (fuel + 1) (⟨first :: logs, fails, failed⟩, log) ret =
      MultiIter.advance iterator key fuel (⟨first :: logs, later fails, true⟩, log) false := by
  refine (if_pos here).trans ?_
  simp [iterator, fail]

theorem advance_take (here : At key log) (succeed : fails 0 = false) :
    MultiIter.advance iterator key (fuel + 1) (⟨first :: logs, fails, failed⟩, log) ret =
      MultiIter.advance iterator key fuel (⟨logs, later fails, failed⟩, first) true := by
  refine (if_pos here).trans ?_
  simp [iterator, succeed]

theorem not_at_reset (log : Log) : ¬ At key log.reset := by
  rintro ⟨valid, -⟩
  rw [isValid_reset] at valid
  cases valid

theorem advance_ok (again : ret = false → At key log ∧ logs ≠ [])
    (returned : MultiIter.advance iterator key fuel (⟨logs, fails, failed⟩, log) ret =
      .ok (moved, ok)) : ok = true := by
  induction fuel generalizing logs log fails ret failed with
  | zero => cases returned
  | succ fuel ih =>
      by_cases here : At key log
      · cases logs with
        | nil =>
            rw [advance_end here] at returned
            refine ih (fun error => ?_) returned
            exact absurd rfl (again error).2
        | cons first logs =>
            cases fail : fails 0 with
            | true =>
                rw [advance_fail here fail] at returned
                exact ih (fun _ => ⟨here, List.cons_ne_nil _ _⟩) returned
            | false =>
                rw [advance_take here fail] at returned
                refine ih (fun error => ?_) returned
                cases error
      · rw [advance_done here] at returned
        cases returned
        cases ok with
        | true => rfl
        | false => exact absurd (again rfl).1 here

theorem advance_started_ok {slot : Slot Input}
    (returned : MultiIter.advance iterator key fuel slot true = .ok (moved, ok)) : ok = true := by
  refine advance_ok (fun error => ?_) returned
  cases error

theorem passesCleanly_cons (here : At key log) :
    PassesCleanly key (⟨first :: logs, fails, failed⟩, log) ↔
      fails 0 = false ∧ PassesCleanly key (⟨logs, later fails, failed⟩, first) := by
  simp only [PassesCleanly, callsPast]
  constructor
  · intro clean
    refine ⟨clean here 0 (by split <;> omega), fun following n few => ?_⟩
    apply clean here (n + 1)
    rw [if_pos following]
    omega
  · rintro ⟨succeed, rest⟩ - n few
    cases n with
    | zero => exact succeed
    | succ n =>
        split at few
        next following => exact rest following n (by omega)
        next => omega

theorem passesCleanly_of_advance
    (returned : MultiIter.advance iterator key fuel (⟨logs, fails, failed⟩, log) ret =
      .ok (moved, ok)) (clean : moved.1.failed = false) :
    failed = false ∧ PassesCleanly key (⟨logs, fails, failed⟩, log) := by
  induction fuel generalizing logs log fails ret failed with
  | zero => cases returned
  | succ fuel ih =>
      by_cases here : At key log
      · cases logs with
        | nil =>
            rw [advance_end here] at returned
            refine ⟨(ih returned).1, fun _ n few => ?_⟩
            exact absurd few (Nat.not_lt_zero n)
        | cons first logs =>
            cases fail : fails 0 with
            | true =>
                rw [advance_fail here fail] at returned
                cases (ih returned).1
            | false =>
                rw [advance_take here fail] at returned
                obtain ⟨before, rest⟩ := ih returned
                exact ⟨before, (passesCleanly_cons here).mpr ⟨fail, rest⟩⟩
      · rw [advance_done here] at returned
        cases returned
        exact ⟨clean, fun at_ => absurd at_ here⟩

theorem advance_of_passesCleanly (clean : PassesCleanly key (⟨logs, fails, false⟩, log))
    (enough : logs.length + 1 < fuel) :
    ∃ moved ok, MultiIter.advance iterator key fuel (⟨logs, fails, false⟩, log) ret =
      .ok (moved, ok) ∧ moved.1.failed = false := by
  induction logs generalizing log fails ret fuel with
  | nil =>
      obtain ⟨fuel, rfl⟩ : ∃ left, fuel = left + 2 := ⟨fuel - 2, by simp at enough; omega⟩
      by_cases here : At key log
      · rw [advance_end here, advance_done (not_at_reset log)]
        exact ⟨_, _, rfl, rfl⟩
      · rw [advance_done here]
        exact ⟨_, _, rfl, rfl⟩
  | cons first logs ih =>
      rw [List.length_cons] at enough
      obtain ⟨fuel, rfl⟩ : ∃ left, fuel = left + 1 := ⟨fuel - 1, by omega⟩
      by_cases here : At key log
      · obtain ⟨succeed, rest⟩ := (passesCleanly_cons here).mp clean
        rw [advance_take here succeed]
        exact ih rest (by omega)
      · rw [advance_done here]
        exact ⟨_, _, rfl, rfl⟩

theorem advance_forever (here : At key log) (fail : ∀ n, fails n = true) :
    MultiIter.advance iterator key fuel (⟨first :: logs, fails, failed⟩, log) ret =
      .error .fuel := by
  induction fuel generalizing fails ret failed with
  | zero => rfl
  | succ fuel ih =>
      rw [advance_fail here (fail 0)]
      exact ih fun n => fail (n + 1)

end Advance

/-! ## All inputs -/

section Next

variable {key : Bytes} {fuel : Nat} {slots moved : List (Slot Input)} {ok : Bool}

theorem passesCleanly_of_advanceAll
    (returned : MultiIter.advanceAll iterator key fuel slots = .ok (moved, ok)) :
    ok = true ∧ ((∀ slot ∈ moved, slot.1.failed = false) →
      ∀ slot ∈ slots, PassesCleanly key slot) := by
  induction slots generalizing moved ok with
  | nil =>
      cases returned
      exact ⟨rfl, fun _ => by rintro slot ⟨⟩⟩
  | cons slot slots ih =>
      obtain ⟨⟨first, okFirst⟩, taken, returned⟩ := bind_eq_ok returned
      obtain rfl := advance_started_ok taken
      obtain ⟨⟨others, okRest⟩, rest, same⟩ := bind_eq_ok returned
      obtain ⟨rfl, cleanRest⟩ := ih rest
      cases same
      refine ⟨rfl, fun clean => ?_⟩
      obtain ⟨cleanFirst, cleanOthers⟩ := List.forall_mem_cons.mp clean
      exact List.forall_mem_cons.mpr
        ⟨(passesCleanly_of_advance taken cleanFirst).2, cleanRest cleanOthers⟩

theorem advanceAll_of_passesCleanly (clean : ∀ slot ∈ slots, PassesCleanly key slot)
    (enough : ∀ slot ∈ slots, slot.1.logs.length + 1 < fuel) :
    ∃ moved ok, MultiIter.advanceAll iterator key fuel (slots.map unfailed) = .ok (moved, ok) ∧
      ∀ slot ∈ moved, slot.1.failed = false := by
  induction slots with
  | nil => exact ⟨_, _, rfl, by rintro slot ⟨⟩⟩
  | cons slot slots ih =>
      obtain ⟨cleanFirst, cleanRest⟩ := List.forall_mem_cons.mp clean
      obtain ⟨enoughFirst, enoughRest⟩ := List.forall_mem_cons.mp enough
      obtain ⟨first, okFirst, taken, quiet⟩ : ∃ first ok,
          MultiIter.advance iterator key fuel (unfailed slot) true = .ok (first, ok) ∧
            first.1.failed = false := advance_of_passesCleanly cleanFirst enoughFirst
      obtain ⟨others, okRest, rest, quietRest⟩ := ih cleanRest enoughRest
      obtain rfl := advance_started_ok taken
      refine ⟨first :: others, okRest, ?_, List.forall_mem_cons.mpr ⟨quiet, quietRest⟩⟩
      rw [List.map_cons, MultiIter.advanceAll, taken]
      simp [bind, Except.bind, rest, pure, Except.pure]

theorem choose_unfailed (slots : List (Slot Input)) :
    (slots.map unfailed).foldl MultiIter.choose none = slots.foldl MultiIter.choose none :=
  List.foldl_map

/-- `MultiIter::Next` returns, with an error if an input has failed, exactly when no input
fails: an error of an input is never reported, and keeps the call for ever if it stays. -/
theorem reports_iff_noneFails (slots : List (Slot Input)) : Reports slots ↔ NoneFails slots := by
  constructor
  · rintro ⟨fuel, result, returned, reported⟩ choosen chose
    rw [MultiIter.next, choose_unfailed, chose] at returned
    obtain ⟨⟨moved, ok⟩, all, same⟩ := bind_eq_ok returned
    obtain ⟨rfl, clean⟩ := passesCleanly_of_advanceAll all
    cases same
    refine fun slot member => clean (fun other left => ?_) (unfailed slot)
      (List.mem_map_of_mem member)
    refine Bool.eq_false_iff.mpr fun failed => ?_
    cases reported ⟨other, left, failed⟩
  · intro clean
    cases chose : slots.foldl MultiIter.choose none with
    | none =>
        refine ⟨0, (none, slots.map unfailed), ?_, fun _ => rfl⟩
        rw [MultiIter.next, choose_unfailed, chose]
    | some choosen =>
        have enough : ∀ slot ∈ slots, slot.1.logs.length + 1 <
            (slots.map fun slot => slot.1.logs.length).sum + 2 := by
          intro slot member
          have one : slot.1.logs.length ≤ (slots.map fun slot => slot.1.logs.length).sum :=
            List.single_le_sum (by simp) _ (List.mem_map.mpr ⟨slot, member, rfl⟩)
          omega
        obtain ⟨moved, ok, all, quiet⟩ := advanceAll_of_passesCleanly (clean choosen chose) enough
        refine ⟨(slots.map fun slot => slot.1.logs.length).sum + 2,
          (if ok then some choosen else none, moved), ?_, ?_⟩
        · rw [MultiIter.next, choose_unfailed, chose]
          simp only [bind, Except.bind, all]
          rfl
        · rintro ⟨slot, left, failed⟩
          exact absurd ((quiet slot left).symm.trans failed) Bool.false_ne_true

/-- The slots after the constructor over one input with two logs. -/
def startOf (first second : Bytes) (fails : Nat → Bool) : Except Failure (List (Slot Input)) :=
  MultiIter.construct iterator [⟨[.make 1 .put first [], .make 2 .put second []], fails, false⟩]

/-- An input whose calls fail after the one of the constructor: `Next` never returns.  If only
the second call fails, `Next` returns `OK`. -/
theorem failing_input_not_reported :
    (∃ slots, startOf [97] [98] (fun n => decide (1 ≤ n)) = .ok slots ∧
      (∀ fuel, MultiIter.next iterator fuel slots = .error .fuel) ∧ ¬ Reports slots) ∧
    ∃ slots moved, startOf [97] [98] (fun n => decide (n = 1)) = .ok slots ∧
      MultiIter.next iterator 5 slots = .ok (some (.make 1 .put [97] []), moved) ∧
      ∃ slot ∈ moved, slot.1.failed = true := by
  let slot : Slot Input :=
    (⟨[.make 2 .put [98] []], later fun n => decide (1 ≤ n), false⟩, .make 1 .put [97] [])
  have forever : ∀ fuel, MultiIter.next iterator fuel [slot] = .error .fuel := by
    intro fuel
    have stays : MultiIter.advance iterator [97] fuel slot true = .error .fuel :=
      advance_forever ⟨rfl, rfl⟩ fun n => by simp [later]
    change Except.bind (Except.bind (MultiIter.advance iterator [97] fuel slot true) _) _ = _
    rw [stays]
    rfl
  refine ⟨⟨[slot], rfl, forever, ?_⟩, _, _, rfl, rfl, _, List.mem_cons_self, rfl⟩
  rintro ⟨fuel, result, returned, -⟩
  cases (forever fuel).symm.trans returned

end Next

end Input

end Ctgfs.Storage
