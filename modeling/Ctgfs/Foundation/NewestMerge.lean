import Mathlib.Data.List.Pairwise
import Mathlib.Data.List.Perm.Subperm
import Mathlib.Order.Lattice

/-!
# Newest-wins merging

Elements have a key and a rank.  A merge of some lists yields its elements in strictly
increasing key order, one for each key, and that one has the largest rank.  A merge is
built from the front: the least element by key, and by rank among equal keys, is yielded,
and all elements with its key are dropped.
-/

namespace Ctgfs.Foundation

universe u v w

variable {α : Type u} {κ : Type v} {ν : Type w} [LinearOrder κ] [LinearOrder ν]
  (key : α → κ) (rank : α → ν)

/-- Smaller keys come first, and larger ranks come first among equal keys. -/
def Before (first second : α) : Prop :=
  key first < key second ∨ key first = key second ∧ rank second < rank first

/-- `out` is the newest-wins merge of the elements of `all`. -/
structure Newest (all out : List α) : Prop where
  increasing : out.Pairwise fun first second => key first < key second
  newest : ∀ element ∈ out, element ∈ all ∧
    ∀ other ∈ all, key other = key element → rank other ≤ rank element
  complete : ∀ other ∈ all, ∃ element ∈ out, key element = key other

instance (first second : α) : Decidable (Before key rank first second) :=
  inferInstanceAs (Decidable
    (key first < key second ∨ key first = key second ∧ rank second < rank first))

/-- Keep the first one of an element that was chosen before and another one. -/
def lesser (chosen : Option α) (element : α) : Option α :=
  match chosen with
  | none => some element
  | some other => if Before key rank element other then some element else some other

variable {key rank} {second first : α}

theorem Before.key_le (before : Before key rank first second) : key first ≤ key second := by
  rcases before with less | ⟨same, -⟩
  · exact less.le
  · exact same.le

theorem Before.trans {third : α} (before : Before key rank first second)
    (later : Before key rank second third) : Before key rank first third := by
  rcases before with less | ⟨same, larger⟩
  · exact Or.inl (less.trans_le later.key_le)
  · rcases later with less | ⟨same', larger'⟩
    · exact Or.inl (same.trans_lt less)
    · exact Or.inr ⟨same.trans same', larger'.trans larger⟩

theorem not_before_iff :
    ¬ Before key rank first second ↔
      key second ≤ key first ∧ (key first = key second → rank first ≤ rank second) := by
  rw [Before, not_or, not_lt, not_and, not_lt]

theorem not_before_trans {third : α} (notBefore : ¬ Before key rank first second)
    (notBefore' : ¬ Before key rank second third) : ¬ Before key rank first third := by
  rw [not_before_iff] at notBefore notBefore' ⊢
  refine ⟨notBefore'.1.trans notBefore.1, fun same => ?_⟩
  have equal : key first = key second := le_antisymm (same.le.trans notBefore'.1) notBefore.1
  exact (notBefore.2 equal).trans (notBefore'.2 (equal.symm.trans same))

theorem Before.irrefl (element : α) : ¬ Before key rank element element := by
  rw [not_before_iff]
  exact ⟨le_refl _, fun _ => le_refl _⟩

theorem foldl_lesser (chosen : α) (list : List α) :
    ∃ least, list.foldl (lesser key rank) (some chosen) = some least ∧ least ∈ chosen :: list ∧
      ∀ element ∈ chosen :: list, ¬ Before key rank element least := by
  induction list generalizing chosen with
  | nil =>
      refine ⟨chosen, rfl, List.mem_cons_self, ?_⟩
      intro element member
      rw [List.mem_singleton.mp member]
      exact Before.irrefl chosen
  | cons head rest ih =>
      by_cases before : Before key rank head chosen
      · obtain ⟨least, chosen', member, bound⟩ := ih head
        refine ⟨least, ?_, List.mem_cons_of_mem _ member, ?_⟩
        · rw [List.foldl_cons, lesser, if_pos before]
          exact chosen'
        · intro element inside
          rcases List.mem_cons.mp inside with rfl | inside
          · exact fun smaller => bound head List.mem_cons_self (before.trans smaller)
          · exact bound element inside
      · obtain ⟨least, chosen', member, bound⟩ := ih chosen
        refine ⟨least, ?_, ?_, ?_⟩
        · rw [List.foldl_cons, lesser, if_neg before]
          exact chosen'
        · rcases List.mem_cons.mp member with rfl | member
          · exact List.mem_cons_self
          · exact List.mem_cons_of_mem _ (List.mem_cons_of_mem _ member)
        · intro element inside smaller
          rcases List.mem_cons.mp inside with rfl | inside
          · exact bound element List.mem_cons_self smaller
          · rcases List.mem_cons.mp inside with rfl | inside
            · exact not_before_trans before (bound chosen List.mem_cons_self) smaller
            · exact bound element (List.mem_cons_of_mem _ inside) smaller

theorem Newest.nil : Newest key rank [] [] :=
  ⟨List.Pairwise.nil, by simp, by simp⟩

variable {out all : List α}

theorem Newest.length_le (newest : Newest key rank all out) : out.length ≤ all.length := by
  have distinct : out.Nodup := newest.increasing.imp fun less same => less.ne (congrArg key same)
  exact (distinct.subperm fun element yielded => (newest.newest element yielded).1).length_le

theorem Newest.congr {other : List α} (same : ∀ element, element ∈ all ↔ element ∈ other)
    (newest : Newest key rank all out) : Newest key rank other out := by
  refine ⟨newest.increasing, ?_, ?_⟩
  · intro element yielded
    obtain ⟨inside, largest⟩ := newest.newest element yielded
    exact ⟨(same element).mp inside, fun other inside => largest other ((same other).mpr inside)⟩
  · intro element inside
    exact newest.complete element ((same element).mpr inside)

/-- The least element is the first one of the merge, and the merge of the elements with
other keys is the rest. -/
theorem Newest.cons {chosen : α} {same : α → Bool} (member : chosen ∈ all)
    (least : ∀ other ∈ all, ¬ Before key rank other chosen)
    (decides : ∀ other, same other = true ↔ key other = key chosen)
    (rest : Newest key rank (all.filter fun other => !same other) out) :
    Newest key rank all (chosen :: out) := by
  have others : ∀ other, other ∈ all.filter (fun other => !same other) ↔
      other ∈ all ∧ key other ≠ key chosen := by
    intro other
    rw [List.mem_filter, Bool.not_eq_true', ← Bool.not_eq_true, decides]
  refine ⟨?_, ?_, ?_⟩
  · refine List.pairwise_cons.mpr ⟨?_, rest.increasing⟩
    intro other yielded
    obtain ⟨inside, different⟩ := (others other).mp (rest.newest other yielded).1
    exact lt_of_le_of_ne (not_before_iff.mp (least other inside)).1 (Ne.symm different)
  · intro element yielded
    rcases List.mem_cons.mp yielded with rfl | later
    · exact ⟨member, fun other inside same => (not_before_iff.mp (least other inside)).2 same⟩
    · obtain ⟨inside, largest⟩ := rest.newest element later
      obtain ⟨inside, different⟩ := (others element).mp inside
      refine ⟨inside, fun other otherInside same => largest other ?_ same⟩
      exact (others other).mpr ⟨otherInside, same.trans_ne different⟩
  · intro other inside
    by_cases equal : key other = key chosen
    · exact ⟨chosen, List.mem_cons_self, equal.symm⟩
    · obtain ⟨element, yielded, found⟩ := rest.complete other ((others other).mpr ⟨inside, equal⟩)
      exact ⟨element, List.mem_cons_of_mem _ yielded, found⟩

theorem dropWhile_key_eq_filter {list : List α} {least : κ} {same : α → Bool}
    (sorted : list.Pairwise (Before key rank)) (bound : ∀ element ∈ list, least ≤ key element)
    (decides : ∀ element, same element = true ↔ key element = least) :
    list.dropWhile same = list.filter (fun element => !same element) := by
  induction list with
  | nil => rfl
  | cons element rest ih =>
      obtain ⟨first, sortedRest⟩ := List.pairwise_cons.mp sorted
      have boundRest : ∀ other ∈ rest, least ≤ key other := fun other member =>
        bound other (List.mem_cons_of_mem _ member)
      by_cases equal : same element = true
      · rw [List.dropWhile_cons_of_pos equal, List.filter_cons_of_neg (by simpa using equal)]
        exact ih sortedRest boundRest
      · have above : least < key element :=
          lt_of_le_of_ne (bound element List.mem_cons_self) fun same =>
            equal ((decides element).mpr same.symm)
        rw [List.dropWhile_cons_of_neg equal, eq_comm, List.filter_eq_self]
        intro other member
        rw [Bool.not_eq_true', ← Bool.not_eq_true, decides]
        rcases List.mem_cons.mp member with rfl | later
        · exact above.ne'
        · exact (above.trans_le (first other later).key_le).ne'

end Ctgfs.Foundation
