import Mathlib.Data.List.Basic
import Mathlib.Logic.Function.Basic

/-!
# Maps of pointers to objects

A map from keys to objects that live on a heap.  Who has found an object under its key may
keep the pointer and use the object later, when the map has changed.  Objects are never
freed, and no object is found under two keys.
-/

namespace Ctgfs.Foundation

universe u v

/-- The address of an object, the number of objects that were made before it. -/
abbrev Address := Nat

structure PointerMap (Key : Type u) (Value : Type v) where
  map : Key → Option Address
  heap : List Value
  allocated : ∀ key address, map key = some address → address < heap.length
  separate : ∀ first second address, map first = some address → map second = some address →
    first = second

namespace PointerMap

variable {Key : Type u} {Value : Type v}

def empty : PointerMap Key Value where
  map _ := none
  heap := []
  allocated := by
    intro key address found
    cases found
  separate := by
    intro first second address found
    cases found

def read (pointers : PointerMap Key Value) (address : Address) : Option Value :=
  pointers.heap[address]?

def find (pointers : PointerMap Key Value) (key : Key) : Option Value :=
  (pointers.map key).bind pointers.read

def lookup (pointers : PointerMap Key Value) (key : Key) : Option (Address × Value) :=
  (pointers.map key).bind fun address => (pointers.read address).map (address, ·)

def modify (pointers : PointerMap Key Value) (address : Address) (change : Value → Value) :
    PointerMap Key Value where
  map := pointers.map
  heap := pointers.heap.modify address change
  allocated := by
    intro key address found
    rw [List.length_modify]
    exact pointers.allocated key address found
  separate := pointers.separate

theorem find_eq_none_iff {pointers : PointerMap Key Value} {key : Key} :
    pointers.find key = none ↔ pointers.map key = none := by
  cases found : pointers.map key with
  | none => simp [find, found]
  | some address =>
      have inside := pointers.allocated key address found
      simp [find, read, found, inside]

theorem find_of_map {pointers : PointerMap Key Value} {key : Key} {address : Address}
    (found : pointers.map key = some address) : pointers.find key = pointers.read address := by
  rw [find, found, Option.bind_some]

theorem lookup_of_find_none {pointers : PointerMap Key Value} {key : Key}
    (absent : pointers.find key = none) : pointers.lookup key = none := by
  rw [lookup, find_eq_none_iff.mp absent, Option.bind_none]

theorem map_of_lookup {pointers : PointerMap Key Value} {key : Key} {address : Address}
    {value : Value} (hit : pointers.lookup key = some (address, value)) :
    pointers.map key = some address ∧ pointers.find key = some value := by
  obtain ⟨other, mapped, found⟩ := Option.bind_eq_some_iff.mp hit
  obtain ⟨object, here, same⟩ := Option.map_eq_some_iff.mp found
  cases same
  exact ⟨mapped, (find_of_map mapped).trans here⟩

theorem lookup_of_find_some {pointers : PointerMap Key Value} {key : Key} {value : Value}
    (present : pointers.find key = some value) :
    ∃ address, pointers.map key = some address ∧ pointers.lookup key = some (address, value) := by
  obtain ⟨address, mapped, object⟩ := Option.bind_eq_some_iff.mp present
  refine ⟨address, mapped, ?_⟩
  rw [lookup, mapped, Option.bind_some, object, Option.map_some]

theorem find_modify_of_ne {pointers : PointerMap Key Value} {key : Key} {address : Address}
    (apart : pointers.map key ≠ some address) (change : Value → Value) :
    (pointers.modify address change).find key = pointers.find key := by
  cases mapped : pointers.map key with
  | none => simp [find, modify, mapped]
  | some elsewhere =>
      have different : address ≠ elsewhere := by
        rintro rfl
        exact apart mapped
      simp [find, read, modify, mapped, different]

variable [DecidableEq Key]

/-- Make an object and insert it under a key, unless there is one already.  Its address is
the length of the heap before. -/
def insert (pointers : PointerMap Key Value) (key : Key) (value : Value) :
    PointerMap Key Value where
  map := fun other =>
    if other = key ∧ pointers.map key = none then some pointers.heap.length else pointers.map other
  heap := pointers.heap ++ [value]
  allocated := by
    intro other address found
    rw [List.length_append, List.length_singleton]
    split at found
    · cases found
      exact Nat.lt_succ_self _
    · exact Nat.lt_succ_of_lt (pointers.allocated other address found)
  separate := by
    intro first second address foundFirst foundSecond
    split at foundFirst
    next isFirst =>
      split at foundSecond
      next isSecond => exact isFirst.1.trans isSecond.1.symm
      next notSecond =>
        cases foundFirst
        exact absurd (pointers.allocated second _ foundSecond) (Nat.lt_irrefl _)
    next notFirst =>
      split at foundSecond
      next isSecond =>
        cases foundSecond
        exact absurd (pointers.allocated first _ foundFirst) (Nat.lt_irrefl _)
      next notSecond => exact pointers.separate first second address foundFirst foundSecond

def erase (pointers : PointerMap Key Value) (key : Key) : PointerMap Key Value where
  map := Function.update pointers.map key none
  heap := pointers.heap
  allocated := by
    intro other address found
    rw [Function.update_apply] at found
    split at found
    · cases found
    · exact pointers.allocated other address found
  separate := by
    intro first second address foundFirst foundSecond
    rw [Function.update_apply] at foundFirst foundSecond
    split at foundFirst
    · cases foundFirst
    split at foundSecond
    · cases foundSecond
    exact pointers.separate first second address foundFirst foundSecond

variable {pointers : PointerMap Key Value} {key : Key} {address : Address}

theorem find_modify (found : pointers.map key = some address) (change : Value → Value) :
    (pointers.modify address change).find =
      Function.update pointers.find key ((pointers.find key).map change) := by
  funext other
  by_cases same : other = key
  · subst same
    simp [find, read, modify, found]
  · rw [Function.update_of_ne same]
    cases others : pointers.map other with
    | none => simp [find, modify, others]
    | some elsewhere =>
        have apart : address ≠ elsewhere := by
          rintro rfl
          exact same (pointers.separate other key address others found)
        simp [find, read, modify, others, apart]

theorem insert_of_ne (pointers : PointerMap Key Value) {key other : Key} (apart : other ≠ key)
    (value : Value) :
    (pointers.insert key value).map other = pointers.map other ∧
      (pointers.insert key value).find other = pointers.find other := by
  have same : (pointers.insert key value).map other = pointers.map other := by
    simp [insert, apart]
  refine ⟨same, ?_⟩
  cases mapped : pointers.map other with
  | none => simp [find, same, mapped]
  | some address =>
      have inside := pointers.allocated other address mapped
      rw [find, same, find, mapped, Option.bind_some, Option.bind_some]
      exact List.getElem?_append_left inside

theorem find_insert (absent : pointers.find key = none) (value : Value) :
    (pointers.insert key value).find = Function.update pointers.find key (some value) := by
  have free := find_eq_none_iff.mp absent
  funext other
  by_cases same : other = key
  · subst same
    simp [find, read, insert, free]
  · rw [Function.update_of_ne same]
    cases others : pointers.map other with
    | none => simp [find, insert, others, same]
    | some elsewhere =>
        have inside := pointers.allocated other elsewhere others
        simp [find, read, insert, others, same, List.getElem?_append_left inside]

theorem map_insert (absent : pointers.find key = none) (value : Value) :
    (pointers.insert key value).map key = some pointers.heap.length := by
  simp [insert, find_eq_none_iff.mp absent]

theorem find_erase (pointers : PointerMap Key Value) (key : Key) :
    (pointers.erase key).find = Function.update pointers.find key none := by
  funext other
  by_cases same : other = key
  · subst same
    simp [find, erase]
  · rw [Function.update_of_ne same, find, erase]
    simp only [Function.update_of_ne same]
    rfl

end PointerMap

end Ctgfs.Foundation
