import Mathlib.Data.List.Basic

/-!
# Condition variables

A thread that waits on a condition variable sleeps until it is woken, by a signal or for no
reason, and goes on when it has the mutex again.  A signal that finds nobody asleep is lost.
Threads are told apart by what they do when they go on.
-/

namespace Ctgfs.Foundation

/-- The threads that are asleep, and those that have been woken and have not gone on. -/
structure Condition (Waiter : Type) where
  asleep : List Waiter := []
  woken : List Waiter := []

namespace Condition

variable {Waiter : Type} {condition next : Condition Waiter} {waiter : Waiter}
  {chosen : Option Waiter} {again : Bool} {available : Nat}

/-- `pthread_cond_wait`, up to the sleep. -/
def wait (condition : Condition Waiter) (waiter : Waiter) : Condition Waiter :=
  { condition with asleep := waiter :: condition.asleep }

def waiters (condition : Condition Waiter) : List Waiter :=
  condition.asleep ++ condition.woken

/-- As long as threads sleep, there are as many on their way as there is for them to take. -/
def Alert (condition : Condition Waiter) (available : Nat) : Prop :=
  condition.asleep ≠ [] → available ≤ condition.woken.length

theorem Alert.mono {fewer : Nat} (alert : condition.Alert available) (less : fewer ≤ available) :
    condition.Alert fewer :=
  fun sleeps => Nat.le_trans less (alert sleeps)

/-- No wake-up is lost: where nobody is on the way, the sleepers have nothing to take. -/
theorem Alert.eq_zero (alert : condition.Alert available) (sleeps : condition.asleep ≠ [])
    (nobody : condition.woken = []) : available = 0 := by
  have few := alert sleeps
  rw [nobody] at few
  exact Nat.le_zero.mp few

variable [DecidableEq Waiter]

def wake (condition : Condition Waiter) (waiter : Waiter) : Option (Condition Waiter) :=
  if waiter ∈ condition.asleep then
    some ⟨condition.asleep.erase waiter, waiter :: condition.woken⟩
  else none

/-- `pthread_cond_signal`: one thread is woken if any is asleep. -/
def signal (condition : Condition Waiter) (chosen : Option Waiter) :
    Option (Condition Waiter) :=
  chosen.elim (if condition.asleep.isEmpty then some condition else none) condition.wake

/-- A thread comes to test its condition, for the first time or after it was woken. -/
def enter (condition : Condition Waiter) (waiter : Waiter) (again : Bool) :
    Option (Condition Waiter) :=
  if again then
    if waiter ∈ condition.woken then
      some { condition with woken := condition.woken.erase waiter }
    else none
  else some condition

theorem wake_cases (woken : condition.wake waiter = some next) :
    waiter ∈ condition.asleep ∧
      next = ⟨condition.asleep.erase waiter, waiter :: condition.woken⟩ := by
  obtain ⟨asleep, same⟩ := Option.ite_none_right_eq_some.mp woken
  exact ⟨asleep, (Option.some.inj same).symm⟩

theorem signal_cases (signalled : condition.signal chosen = some next) :
    condition.asleep = [] ∧ next = condition ∨
      ∃ waiter, condition.wake waiter = some next := by
  cases chosen with
  | some waiter => exact .inr ⟨waiter, signalled⟩
  | none =>
      obtain ⟨nobody, same⟩ := Option.ite_none_right_eq_some.mp signalled
      exact .inl ⟨List.isEmpty_iff.mp nobody, (Option.some.inj same).symm⟩

theorem enter_again (entered : condition.enter waiter true = some next) :
    waiter ∈ condition.woken ∧
      next = { condition with woken := condition.woken.erase waiter } := by
  obtain ⟨woken, same⟩ := Option.ite_none_right_eq_some.mp entered
  exact ⟨woken, (Option.some.inj same).symm⟩

theorem exists_signal (condition : Condition Waiter) :
    ∃ chosen next, condition.signal chosen = some next := by
  cases asleep : condition.asleep with
  | nil => exact ⟨none, condition, by simp [signal, asleep]⟩
  | cons waiter rest => exact ⟨some waiter, _, if_pos (by simp [asleep])⟩

theorem wake_waiters (woken : condition.wake waiter = some next) :
    next.waiters.Perm condition.waiters := by
  obtain ⟨asleep, rfl⟩ := wake_cases woken
  exact List.perm_middle.trans ((List.perm_cons_erase asleep).symm.append_right _)

theorem signal_waiters (signalled : condition.signal chosen = some next) :
    next.waiters.Perm condition.waiters := by
  rcases signal_cases signalled with ⟨-, rfl⟩ | ⟨waiter, woken⟩
  · exact .refl _
  · exact wake_waiters woken

theorem enter_waiters (entered : condition.enter waiter true = some next) :
    condition.waiters.Perm (waiter :: next.waiters) := by
  obtain ⟨woken, rfl⟩ := enter_again entered
  exact ((List.perm_cons_erase woken).append_left _).trans List.perm_middle

theorem Alert.wake (alert : condition.Alert available)
    (woken : condition.wake waiter = some next) : next.Alert (available + 1) := by
  obtain ⟨asleep, rfl⟩ := wake_cases woken
  intro _
  exact Nat.succ_le_succ (alert (List.ne_nil_of_mem asleep))

/-- One more is available, and it is signalled. -/
theorem Alert.signal (alert : condition.Alert available)
    (signalled : condition.signal chosen = some next) : next.Alert (available + 1) := by
  rcases signal_cases signalled with ⟨nobody, rfl⟩ | ⟨waiter, woken⟩
  · exact fun sleeps => absurd nobody sleeps
  · exact alert.wake woken

/-- A thread takes one, if there is one; it need not be among those on their way. -/
theorem Alert.enter (alert : condition.Alert available)
    (entered : condition.enter waiter again = some next) :
    next.asleep = condition.asleep ∧ next.Alert (available - 1) := by
  cases again with
  | false =>
      cases entered
      exact ⟨rfl, alert.mono (Nat.sub_le _ _)⟩
  | true =>
      obtain ⟨woken, rfl⟩ := enter_again entered
      refine ⟨rfl, fun sleeps => ?_⟩
      rw [List.length_erase_of_mem woken]
      exact Nat.sub_le_sub_right (alert sleeps) 1

end Condition

end Ctgfs.Foundation
