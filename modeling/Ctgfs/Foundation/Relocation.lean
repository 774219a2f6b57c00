import Mathlib.Data.List.Induction
import Mathlib.Data.List.Sort
import Mathlib.Logic.Function.Basic
import Mathlib.Order.Lattice

/-!
# Moving items between places

A list of moves takes items from place to place; a move has an effect only when the item is
where it is taken from.  What becomes of an item depends on its own moves alone.  When these
lead from one place to another and their sources ascend, the moves may be sorted by source and
target without a difference.
-/

namespace Ctgfs.Foundation

universe u v w

variable {Item : Type u} {Place : Type v} [DecidableEq Item]

section Execution

variable [DecidableEq Place]

/-- Move an item, if it is where it is taken from. -/
def relocate (places : Item → Place) (move : Item × Place × Place) : Item → Place :=
  if places move.1 = move.2.1 then Function.update places move.1 move.2.2 else places

def execute (places : Item → Place) (moves : List (Item × Place × Place)) : Item → Place :=
  moves.foldl relocate places

def follow (place : Place) (steps : List (Place × Place)) : Place :=
  steps.foldl (fun place step => if place = step.1 then step.2 else place) place

end Execution

def stepsOf (item : Item) (moves : List (Item × Place × Place)) : List (Place × Place) :=
  (moves.filter fun move => decide (move.1 = item)).map Prod.snd

theorem stepsOf_append (item : Item) (first second : List (Item × Place × Place)) :
    stepsOf item (first ++ second) = stepsOf item first ++ stepsOf item second := by
  rw [stepsOf, List.filter_append, List.map_append]
  rfl

theorem stepsOf_cons_self (item : Item) (step : Place × Place)
    (moves : List (Item × Place × Place)) :
    stepsOf item ((item, step) :: moves) = step :: stepsOf item moves := by
  rw [stepsOf, List.filter_cons_of_pos (by simp)]
  rfl

variable {item : Item}

theorem stepsOf_cons_of_ne {other : Item} (different : other ≠ item) (step : Place × Place)
    (moves : List (Item × Place × Place)) :
    stepsOf item ((other, step) :: moves) = stepsOf item moves := by
  rw [stepsOf, List.filter_cons_of_neg (by simpa using different)]
  rfl

variable {moves : List (Item × Place × Place)}

theorem stepsOf_eq_nil_iff : stepsOf item moves = [] ↔ item ∉ moves.map Prod.fst := by
  rw [stepsOf, List.map_eq_nil_iff, List.filter_eq_nil_iff]
  simp only [decide_eq_true_eq, List.mem_map, not_exists, not_and]

theorem stepsOf_map {items : List Item} (nodup : items.Nodup) (item : Item)
    (step : Place × Place) :
    stepsOf item (items.map fun other => (other, step)) = if item ∈ items then [step] else [] := by
  induction items with
  | nil => rfl
  | cons first rest ih =>
      obtain ⟨fresh, nodup⟩ := List.nodup_cons.mp nodup
      have later := ih nodup
      rw [List.map_cons]
      by_cases same : first = item
      · subst same
        rw [stepsOf_cons_self, later, if_neg fresh, if_pos List.mem_cons_self]
      · rw [stepsOf_cons_of_ne same, later]
        simp only [List.mem_cons, Ne.symm same, false_or]

theorem execute_apply [DecidableEq Place] (places : Item → Place)
    (moves : List (Item × Place × Place)) (item : Item) :
    execute places moves item = follow (places item) (stepsOf item moves) := by
  induction moves generalizing places with
  | nil => rfl
  | cons move moves ih =>
      obtain ⟨other, step⟩ := move
      have later := ih (relocate places (other, step))
      change execute (relocate places (other, step)) moves item = _
      rw [later]
      by_cases same : other = item
      · subst same
        rw [stepsOf_cons_self, relocate]
        change _ = follow (if places other = step.1 then step.2 else places other) _
        split
        · rw [Function.update_self]
        · rfl
      · rw [stepsOf_cons_of_ne same, relocate]
        split
        · rw [Function.update_of_ne fun equal => same equal.symm]
        · rfl

section Paths

/-- Steps that lead from one place to another. -/
inductive Path (start : Place) : List (Place × Place) → Place → Prop where
  | rest : Path start [] start
  | onward {place next : Place} {steps : List (Place × Place)} :
      Path start steps place → Path start (steps ++ [(place, next)]) next

variable {start stop : Place} {steps : List (Place × Place)}

theorem Path.follow [DecidableEq Place] (path : Path start steps stop) :
    follow start steps = stop := by
  induction path with
  | rest => rfl
  | onward path ih =>
      rw [Foundation.follow, List.foldl_concat]
      exact if_pos ih

theorem Path.getLast (path : Path start steps stop) {step : Place × Place}
    (last : steps.getLast? = some step) : step.2 = stop := by
  cases path with
  | rest => cases last
  | onward path =>
      rw [List.getLast?_concat] at last
      obtain rfl := Option.some.inj last
      rfl

end Paths

section Tables

variable {Key : Type w} [DecidableEq Key]

/-- A table that is told the target of every move. -/
def tabulate (key : Item → Key) (table : Key → Place) (moves : List (Item × Place × Place)) :
    Key → Place :=
  moves.foldl (fun table move => Function.update table (key move.1) move.2.2) table

theorem tabulate_apply {key : Item → Key} (table : Key → Place)
    (own : ∀ move ∈ moves, key move.1 = key item → move.1 = item) :
    tabulate key table moves (key item) =
      ((stepsOf item moves).getLast?.map Prod.snd).getD (table (key item)) := by
  induction moves using List.reverseRecOn with
  | nil => rfl
  | append_singleton moves move ih =>
      obtain ⟨other, step⟩ := move
      have earlier := ih fun move member =>
        own move (List.mem_append_left _ member)
      rw [tabulate, List.foldl_concat, stepsOf_append]
      by_cases same : other = item
      · subst same
        rw [Function.update_self, stepsOf_cons_self]
        simp [stepsOf]
      · have different : key item ≠ key other := fun equal =>
          same (own (other, step) (List.mem_append_right _ List.mem_cons_self) equal.symm)
        have nothing : stepsOf item ([] : List (Item × Place × Place)) = [] := rfl
        rw [Function.update_of_ne different, stepsOf_cons_of_ne same, nothing, List.append_nil]
        exact earlier

end Tables

section Sorting

variable [LinearOrder Place]

def PairLE (first second : Place × Place) : Prop :=
  first.1 < second.1 ∨ first.1 = second.1 ∧ first.2 ≤ second.2

instance (first second : Place × Place) : Decidable (PairLE first second) :=
  inferInstanceAs (Decidable (first.1 < second.1 ∨ first.1 = second.1 ∧ first.2 ≤ second.2))

theorem PairLE.antisymm {first second : Place × Place} (le : PairLE first second)
    (ge : PairLE second first) : first = second := by
  rcases le with lt | ⟨same, le⟩
  · rcases ge with gt | ⟨same, -⟩
    · exact absurd (lt.trans gt) (lt_irrefl _)
    · exact absurd lt (same ▸ lt_irrefl _)
  · rcases ge with gt | ⟨-, ge⟩
    · exact absurd gt (same ▸ lt_irrefl _)
    · exact Prod.ext same (le_antisymm le ge)

/-- The moves in an order that sorting them by their places may give. -/
structure SortedFrom (moves sorted : List (Item × Place × Place)) : Prop where
  perm : sorted.Perm moves
  ordered : sorted.Pairwise fun first second => PairLE first.2 second.2

omit [LinearOrder Place] in
theorem stepsOf_perm {other : List (Item × Place × Place)} (perm : other.Perm moves) (item : Item) :
    (stepsOf item other).Perm (stepsOf item moves) :=
  (perm.filter _).map _

theorem SortedFrom.stepsOf_eq {sorted : List (Item × Place × Place)}
    (sort : SortedFrom moves sorted) (ascending : (stepsOf item moves).Pairwise PairLE) :
    stepsOf item sorted = stepsOf item moves := by
  have ordered : (stepsOf item sorted).Pairwise PairLE :=
    List.pairwise_map.mpr (sort.ordered.sublist List.filter_sublist)
  exact List.Perm.eq_of_pairwise (fun _ _ _ _ => PairLE.antisymm) ordered ascending
    (stepsOf_perm sort.perm item)

end Sorting

end Ctgfs.Foundation
