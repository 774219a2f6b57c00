import Mathlib.Logic.Function.Basic

/-!
# Two maps that are inverse to each other

A map and the map back, kept side by side: each entry of one is the entry of the other the
other way round.  Assigning a pair keeps this exactly when the second component was free,
provided that the first one was.
-/

namespace Ctgfs.Foundation

universe u v

variable {Key : Type u} {Value : Type v}

/-- Each entry of one map is an entry of the other one the other way round. -/
def InverseMaps (forward : Key → Option Value) (backward : Value → Option Key) : Prop :=
  ∀ key value, forward key = some value ↔ backward value = some key

namespace InverseMaps

theorem empty : InverseMaps (fun _ : Key => (none : Option Value)) fun _ => none := by
  intro key value
  constructor
  · intro entry
    cases entry
  · intro entry
    cases entry

variable [DecidableEq Key] [DecidableEq Value] {forward : Key → Option Value}
  {backward : Value → Option Key} {key : Key} {value : Value}

theorem assign (inverse : InverseMaps forward backward) (freeKey : forward key = none)
    (freeValue : backward value = none) :
    InverseMaps (Function.update forward key (some value))
      (Function.update backward value (some key)) := by
  intro other text
  have noKey : backward text ≠ some key := by
    rw [ne_eq, ← inverse, freeKey]
    exact (Option.some_ne_none _).symm
  have noValue : forward other ≠ some value := by
    rw [ne_eq, inverse, freeValue]
    exact (Option.some_ne_none _).symm
  have others := inverse other text
  simp only [Function.update_apply]
  grind

theorem erase (inverse : InverseMaps forward backward) (found : forward key = some value) :
    InverseMaps (Function.update forward key none) (Function.update backward value none) := by
  intro other text
  have noKey : text ≠ value → backward text ≠ some key := by
    intro apart same
    rw [← inverse, found, Option.some.injEq] at same
    exact apart same.symm
  have noValue : other ≠ key → forward other ≠ some value := by
    intro apart same
    rw [inverse, (inverse key value).mp found, Option.some.injEq] at same
    exact apart same.symm
  have others := inverse other text
  simp only [Function.update_apply]
  grind

theorem not_assign_of_taken {other : Key} (inverse : InverseMaps forward backward)
    (freeKey : forward key = none) (taken : backward value = some other) :
    ¬ InverseMaps (Function.update forward key (some value))
      (Function.update backward value (some key)) := by
  intro assigned
  have held : forward other = some value := (inverse other value).mpr taken
  have apart : other ≠ key := by
    rintro rfl
    rw [freeKey] at held
    cases held
  have stays : Function.update forward key (some value) other = some value := by
    rw [Function.update_of_ne apart, held]
  have moved := (assigned other value).mp stays
  rw [Function.update_self, Option.some.injEq] at moved
  exact apart moved.symm

end InverseMaps

end Ctgfs.Foundation
