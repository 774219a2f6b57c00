import Mathlib.Data.Multiset.AddSub

/-!
# Traces of lock calls

The calls that an operation makes on a lock client, among others.  A trace is replayed to
find the locks that are held after it, each as often as it was acquired; a lock that is not held
cannot be released.
-/

namespace Ctgfs.Foundation

universe u v

inductive LockEvent (Lock : Type u) (Other : Type v) where
  | acquire (lock : Lock) (granted : Bool)
  | release (lock : Lock)
  | other (call : Other)
  deriving DecidableEq, Repr

variable {Lock : Type u} {Other : Type v} [DecidableEq Lock]

def LockEvent.apply (held : Multiset Lock) : LockEvent Lock Other → Option (Multiset Lock)
  | .acquire lock true => some (lock ::ₘ held)
  | .acquire _ false => some held
  | .release lock => if lock ∈ held then some (held.erase lock) else none
  | .other _ => some held

def replay (held : Multiset Lock) (trace : List (LockEvent Lock Other)) :
    Option (Multiset Lock) :=
  trace.foldlM LockEvent.apply held

/-- Every lock that is acquired is released once, and only while it is held. -/
def LockBalanced (trace : List (LockEvent Lock Other)) : Prop :=
  replay 0 trace = some 0

instance (trace : List (LockEvent Lock Other)) : Decidable (LockBalanced trace) :=
  inferInstanceAs (Decidable (replay 0 trace = some 0))

variable {held rest : Multiset Lock} {trace : List (LockEvent Lock Other)}

@[simp]
theorem replay_nil : replay held ([] : List (LockEvent Lock Other)) = some held :=
  rfl

@[simp]
theorem replay_cons (event : LockEvent Lock Other) :
    replay held (event :: trace) = (event.apply held).bind fun held => replay held trace :=
  rfl

theorem replay_append (later : List (LockEvent Lock Other)) :
    replay held (trace ++ later) = (replay held trace).bind fun held => replay held later :=
  List.foldlM_append

theorem replay_concat (event : LockEvent Lock Other) :
    replay held (trace ++ [event]) = (replay held trace).bind event.apply := by
  rw [replay_append]
  congr 1
  funext held
  rw [replay_cons]
  exact Option.bind_fun_some _

theorem replay_releases {locks : List Lock} :
    replay held (locks.map fun lock => (.release lock : LockEvent Lock Other)) = some rest ↔
      held = ↑locks + rest := by
  induction locks generalizing held with
  | nil => simp
  | cons lock locks ih =>
      rw [List.map_cons, replay_cons, LockEvent.apply, ← Multiset.cons_coe, Multiset.cons_add]
      split
      next taken =>
        rw [Option.bind_some, ih]
        constructor
        · intro remaining
          rw [← remaining, Multiset.cons_erase taken]
        · intro all
          rw [all, Multiset.erase_cons_head]
      next free =>
        constructor
        · exact fun impossible => absurd impossible (by simp)
        · intro all
          exact absurd (all ▸ Multiset.mem_cons_self _ _) free

section Programs

variable {Lock Other α β : Type} [DecidableEq Lock] {held middle : Multiset Lock}
  {trace : List (LockEvent Lock Other)}

/-- A program that leaves a trace, and gives `none` when it never returns. -/
abbrev Traced (Lock Other α : Type) := OptionT (StateM (List (LockEvent Lock Other))) α

/-- The locks that are held when a program returns. -/
def Leaves (held : Multiset Lock) (program : Traced Lock Other α)
    (trace : List (LockEvent Lock Other)) : Prop :=
  ∀ result after, program.run trace = (some result, after) → replay 0 after = some held

theorem leaves_pure (here : replay 0 trace = some held) (result : α) :
    Leaves held (pure result : Traced Lock Other α) trace := by
  intro _ after returned
  obtain rfl : trace = after := congrArg Prod.snd returned
  exact here

variable {body : α → Traced Lock Other β}

theorem Leaves.bind {program : Traced Lock Other α} (first : Leaves middle program trace)
    (next : ∀ result after, replay 0 after = some middle → Leaves held (body result) after) :
    Leaves held (program >>= body) trace := by
  intro last after returned
  have sequence : (program >>= body).run trace =
      (match (program.run trace).1 with
        | some result => (body result).run
        | none => pure none) (program.run trace).2 := rfl
  rw [sequence] at returned
  cases ran : program.run trace with
  | mk result between =>
      rw [ran] at returned
      cases result with
      | none =>
          have nothing : none = some last := congrArg Prod.fst returned
          exact absurd nothing (by simp)
      | some result => exact next result between (first result between ran) last after returned

theorem leaves_call {call : StateM (List (LockEvent Lock Other)) α}
    (next : Leaves held (body (call trace).1) (call trace).2) :
    Leaves held (liftM call >>= body) trace :=
  next

theorem leaves_compute {value : Option α}
    (next : ∀ result, value = some result → Leaves held (body result) trace) :
    Leaves held (OptionT.mk (pure value) >>= body) trace := by
  cases value with
  | none =>
      intro last after returned
      have nothing : none = some last := congrArg Prod.fst returned
      exact absurd nothing (by simp)
  | some result => exact next result rfl

end Programs

end Ctgfs.Foundation
