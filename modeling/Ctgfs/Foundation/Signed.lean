import Mathlib.Order.Basic
import Mathlib.Data.Int.Basic

/-!
# Signed arithmetic

An operation on a signed type has a result only when the type holds it; what happens on an
overflow is not defined.  A type holds the numbers from `-bound` up to `bound - 1`.
-/

namespace Ctgfs.Foundation

/-- The result of a signed operation, or `none` when it overflows. -/
def checked (bound n : Int) : Option Int :=
  if -bound ≤ n ∧ n < bound then some n else none

def checkedInt : Int → Option Int := checked 2147483648

def checkedLong : Int → Option Int := checked 9223372036854775808

theorem checked_eq_some_iff {bound n m : Int} :
    checked bound n = some m ↔ n = m ∧ -bound ≤ n ∧ n < bound := by
  simp only [checked, Option.ite_none_right_eq_some, Option.some.injEq]
  exact and_comm

theorem checked_of_bounds {bound n : Int} (low : -bound ≤ n) (high : n < bound) :
    checked bound n = some n := if_pos ⟨low, high⟩

theorem checked_of_overflow {bound n : Int} (high : bound ≤ n) : checked bound n = none :=
  if_neg fun inside => absurd inside.2 (Int.not_lt.mpr high)

end Ctgfs.Foundation
