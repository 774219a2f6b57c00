import Ctgfs.Storage.Log

/-!
# Iterators

The interface that the iterators over tables share.  `Yields` says what an iterator gives
when it is called until `HasNext` is false.
-/

namespace Ctgfs.Storage

/-- The virtual functions of `Iterator`, on the states of some iterators, with the state that a
`Next` leaves when it returns an error. -/
structure Iterator (σ : Type) where
  hasNext : σ → Bool
  next : σ → Except Failure (Log × σ)
  failed : σ → σ := id

namespace Iterator

variable {σ : Type} (iterator : Iterator σ)

/-- Call `Next` while `HasNext` is true. -/
def drain : Nat → σ → Except Failure (List Log)
  | 0, _ => .error .fuel
  | fuel + 1, iter =>
      if iterator.hasNext iter then do
        let (log, later) ← iterator.next iter
        let rest ← drain fuel later
        return log :: rest
      else return []

inductive Yields : σ → List Log → Prop where
  | nil {iter} : iterator.hasNext iter = false → Yields iter []
  | cons {iter log later logs} : iterator.hasNext iter = true →
      iterator.next iter = .ok (log, later) → Yields later logs → Yields iter (log :: logs)

/-- A call of `Next` where `HasNext` is true. -/
def Takes (iter : σ) (log : Log) (later : σ) : Prop :=
  iterator.hasNext iter = true ∧ iterator.next iter = .ok (log, later)

variable {iterator}

theorem Yields.drain_eq {iter : σ} {logs : List Log} (yields : iterator.Yields iter logs)
    (fuel : Nat) (enough : logs.length < fuel) : iterator.drain fuel iter = .ok logs := by
  induction yields generalizing fuel with
  | nil done =>
      obtain ⟨fuel, rfl⟩ := Nat.exists_eq_add_one_of_ne_zero (by omega : fuel ≠ 0)
      rw [drain, done]
      rfl
  | cons more taken _ ih =>
      obtain ⟨fuel, rfl⟩ := Nat.exists_eq_add_one_of_ne_zero (by omega : fuel ≠ 0)
      rw [List.length_cons] at enough
      have later := ih fuel (by omega)
      rw [drain, more, if_pos rfl, taken]
      simp only [bind, Except.bind, later]
      rfl

def ofList : Iterator (List Log) where
  hasNext logs := !logs.isEmpty
  next
    | [] => .error .status
    | log :: logs => .ok (log, logs)

theorem yields_ofList (logs : List Log) : ofList.Yields logs logs := by
  induction logs with
  | nil => exact .nil rfl
  | cons log logs ih => exact .cons rfl rfl ih

end Iterator

end Ctgfs.Storage
