import Ctgfs.Foundation.Signed
import Mathlib.Algebra.Group.Nat.Defs
import Mathlib.Data.List.Basic
import Mathlib.Order.Nat

/-!
# The search for a version

`search_version` is a binary search with both bounds inclusive and the best position
so far in a variable of its own.  On a sorted vector it finds the last entry that is
not beyond the key.  On any vector it stays between its bounds, and a vector in which
it finds every entry is sorted.  With fewer than `2 ^ 30` entries the arithmetic of `int`
makes no difference.
-/

namespace Ctgfs.Mvcc

open Foundation

abbrev Version := Int × Nat

/-- The loop of `search_version`.  It is `none` when an invalid position is read or
when there are more iterations than `fuel`. -/
def searchLoop (vec : List Version) (key : Int) : Nat → Int → Int → Int → Option Int
  | 0, _, _, _ => none
  | fuel + 1, ret, lb, ub =>
      if lb ≤ ub then
        -- the sum is not negative, so this is the division of the source
        let mid := (lb + ub) / 2
        if mid < 0 then none
        else
          match vec[mid.toNat]? with
          | none => none
          | some version =>
              if version.1 ≤ key then searchLoop vec key fuel mid (mid + 1) ub
              else searchLoop vec key fuel ret lb (mid - 1)
      else some ret

/-- `func::search_version`.  The bounds are `int`s; they stay below `2 ^ 30` for every
vector of fewer than `2 ^ 30` entries. -/
def searchVersion (vec : List Version) (key : Int) : Option Int :=
  searchLoop vec key (vec.length + 1) (-1) 0 (vec.length - 1)

def timeAt (vec : List Version) (position : Int) : Int :=
  (vec[position.toNat]?.map Prod.fst).getD 0

variable {vec : List Version} {key ret lb ub : Int} {fuel : Nat}

theorem searchLoop_succ (nonempty : lb ≤ ub) (lower : 0 ≤ lb) (upper : ub < vec.length) :
    searchLoop vec key (fuel + 1) ret lb ub =
      if timeAt vec ((lb + ub) / 2) ≤ key then
        searchLoop vec key fuel ((lb + ub) / 2) ((lb + ub) / 2 + 1) ub
      else searchLoop vec key fuel ret lb ((lb + ub) / 2 - 1) := by
  have inside : ((lb + ub) / 2).toNat < vec.length := by omega
  have valid : ¬ (lb + ub) / 2 < 0 := by omega
  simp only [searchLoop, nonempty, if_true, valid, if_false, List.getElem?_eq_getElem inside,
    timeAt, Option.map_some, Option.getD_some]

theorem searchLoop_empty (empty : ub < lb) :
    searchLoop vec key (fuel + 1) ret lb ub = some ret := by
  have done : ¬ lb ≤ ub := by omega
  simp only [searchLoop, done, if_false]

theorem searchLoop_inside {r : Int} (lower : 0 ≤ lb) (upper : ub < vec.length)
    (found : searchLoop vec key fuel ret lb ub = some r) : r = ret ∨ lb ≤ r ∧ r ≤ ub := by
  induction fuel generalizing ret lb ub with
  | zero => cases found
  | succ fuel ih =>
      by_cases nonempty : lb ≤ ub
      · rw [searchLoop_succ nonempty lower upper] at found
        split at found
        · have inside := ih (by omega) upper found
          omega
        · have inside := ih lower (by omega) found
          omega
      · rw [searchLoop_empty (by omega), Option.some.injEq] at found
        exact Or.inl found.symm

theorem searchLoop_sorted (key ret lb ub : Int) (lower : 0 ≤ lb) (upper : ub < vec.length)
    (enough : ub + 1 < lb + fuel) (positive : 0 < fuel)
    (sorted : ∀ i j, lb ≤ i → i < j → j ≤ ub → timeAt vec i ≤ timeAt vec j) :
    ∃ r, searchLoop vec key fuel ret lb ub = some r ∧
      (r = ret ∨ lb ≤ r ∧ r ≤ ub ∧ timeAt vec r ≤ key) ∧
      ∀ i, lb ≤ i → i ≤ ub → timeAt vec i ≤ key → i ≤ r := by
  induction fuel generalizing ret lb ub with
  | zero => omega
  | succ fuel ih =>
      by_cases nonempty : lb ≤ ub
      · rw [searchLoop_succ nonempty lower upper]
        generalize middle : (lb + ub) / 2 = mid
        split
        next reached =>
          obtain ⟨r, found, inside, last⟩ := ih mid (mid + 1) ub
            (by omega) upper (by omega) (by omega)
            fun i j low order high => sorted i j (by omega) order high
          refine ⟨r, found, ?_, ?_⟩
          · rcases inside with rfl | inside
            · exact Or.inr ⟨by omega, by omega, reached⟩
            · exact Or.inr ⟨by omega, inside.2⟩
          · intro i low high small
            by_cases beyond : mid < i
            · exact last i (by omega) high small
            · omega
        next beyond =>
          obtain ⟨r, found, inside, last⟩ := ih ret lb (mid - 1)
            lower (by omega) (by omega) (by omega)
            fun i j low order high => sorted i j low order (by omega)
          refine ⟨r, found, by omega, ?_⟩
          intro i low high small
          apply last i low _ small
          by_contra outside
          -- an entry after the middle is not below it
          have : timeAt vec mid ≤ timeAt vec i := by
            rcases Int.lt_or_eq_of_le (show mid ≤ i by omega) with order | rfl
            · exact sorted mid i (by omega) order high
            · exact Int.le_refl _
          omega
      · exact ⟨ret, searchLoop_empty (by omega), Or.inl rfl, by omega⟩

/-- A range in which the search finds every entry by its own timestamp is sorted: an
entry on the wrong side of the middle sends the search to the other side. -/
theorem sorted_of_searchLoop (ret lb ub : Int) (lower : 0 ≤ lb) (upper : ub < vec.length)
    (enough : ub + 1 < lb + fuel) (positive : 0 < fuel) (outside : ret < lb)
    (self : ∀ j, lb ≤ j → j ≤ ub → searchLoop vec (timeAt vec j) fuel ret lb ub = some j)
    {i j : Int} (low : lb ≤ i) (order : i < j) (high : j ≤ ub) : timeAt vec i ≤ timeAt vec j := by
  induction fuel generalizing ret lb ub with
  | zero => omega
  | succ fuel ih =>
      have nonempty : lb ≤ ub := by omega
      generalize middle : (lb + ub) / 2 = mid
      have above : ∀ k, mid ≤ k → k ≤ ub → timeAt vec mid ≤ timeAt vec k := by
        intro k afterMiddle inRange
        by_contra beyond
        have found := self k (by omega) inRange
        rw [searchLoop_succ nonempty lower upper, middle, if_neg beyond] at found
        have inside := searchLoop_inside lower (by omega) found
        omega
      have below : ∀ k, lb ≤ k → k < mid → timeAt vec k < timeAt vec mid := by
        intro k inRange beforeMiddle
        by_contra reached
        have found := self k inRange (by omega)
        rw [searchLoop_succ nonempty lower upper, middle, if_pos (by omega)] at found
        have inside := searchLoop_inside (by omega) upper found
        omega
      by_cases left : j < mid
      · refine ih ret lb (mid - 1) lower (by omega) (by omega)
          (by omega) outside ?_ low (by omega)
        intro k inRange beforeMiddle
        have found := self k inRange (by omega)
        have smaller := below k inRange (by omega)
        rwa [searchLoop_succ nonempty lower upper, middle, if_neg (by omega)] at found
      · by_cases right : mid < i
        · refine ih mid (mid + 1) ub (by omega) upper (by omega)
            (by omega) (by omega) ?_ (by omega) high
          intro k afterMiddle inRange
          have found := self k (by omega) inRange
          have larger := above k (by omega) inRange
          rwa [searchLoop_succ nonempty lower upper, middle, if_pos larger] at found
        · have first : timeAt vec i ≤ timeAt vec mid := by
            rcases Int.lt_or_eq_of_le (show i ≤ mid by omega) with before | rfl
            · exact Int.le_of_lt (below i low before)
            · exact Int.le_refl _
          exact Int.le_trans first (above j (by omega) high)

theorem timeAt_getElem {i : Nat} (inside : i < vec.length) : timeAt vec i = vec[i].1 := by
  simp [timeAt, inside]

theorem timeAt_mono (sorted : vec.Pairwise fun first second => first.1 ≤ second.1) {i j : Int}
    (low : 0 ≤ i) (order : i < j) (high : j ≤ vec.length - 1) : timeAt vec i ≤ timeAt vec j := by
  lift i to Nat using low
  lift j to Nat using by omega
  rw [timeAt_getElem (by omega), timeAt_getElem (by omega)]
  exact List.pairwise_iff_getElem.mp sorted i j (by omega) (by omega) (by omega)

theorem searchVersion_sorted (sorted : vec.Pairwise fun first second => first.1 ≤ second.1)
    (key : Int) :
    ∃ r, searchVersion vec key = some r ∧
      (r = -1 ∨ 0 ≤ r ∧ r ≤ vec.length - 1 ∧ timeAt vec r ≤ key) ∧
      ∀ i : Int, 0 ≤ i → i ≤ vec.length - 1 → timeAt vec i ≤ key → i ≤ r :=
  searchLoop_sorted key (-1) 0 (vec.length - 1) (by omega) (by omega) (by omega) (by omega)
    fun _ _ => timeAt_mono sorted

theorem sorted_of_searchVersion
    (self : ∀ j, 0 ≤ j → j ≤ (vec.length : Int) - 1 → searchVersion vec (timeAt vec j) = some j) :
    vec.Pairwise fun first second => first.1 ≤ second.1 := by
  rw [List.pairwise_iff_getElem]
  intro i j insideFirst insideSecond order
  rw [← timeAt_getElem insideFirst, ← timeAt_getElem insideSecond]
  exact sorted_of_searchLoop (-1) 0 (vec.length - 1) (by omega) (by omega) (by omega) (by omega)
    (by omega) self (by omega) (by omega) (by omega)

/-! ## The search on `int`s -/

/-- The loop of `search_version` with the arithmetic of `int`.  It is also `none` when a
sum or a difference overflows. -/
def intSearchLoop (vec : List Version) (key : Int) : Nat → Int → Int → Int → Option Int
  | 0, _, _, _ => none
  | fuel + 1, ret, lb, ub =>
      if lb ≤ ub then do
        let mid := (← checkedInt (lb + ub)).tdiv 2
        if mid < 0 then none
        else
          let version ← vec[mid.toNat]?
          if version.1 ≤ key then intSearchLoop vec key fuel mid (← checkedInt (mid + 1)) ub
          else intSearchLoop vec key fuel ret lb (← checkedInt (mid - 1))
      else some ret

/-- `func::search_version` as it runs: the size of the vector less one is converted to an
`int`, and the rest is arithmetic of `int`. -/
def intSearchVersion (vec : List Version) (key : Int) : Option Int :=
  intSearchLoop vec key (vec.length + 1) (-1) 0 (((vec.length : Int) - 1).bmod 4294967296)

theorem intSearchLoop_eq (short : vec.length < 2 ^ 30) (lower : 0 ≤ lb)
    (upper : ub < vec.length) :
    intSearchLoop vec key fuel ret lb ub = searchLoop vec key fuel ret lb ub := by
  induction fuel generalizing ret lb ub with
  | zero => rfl
  | succ fuel ih =>
      by_cases nonempty : lb ≤ ub
      · have inside : ((lb + ub) / 2).toNat < vec.length := by omega
        have valid : ¬ (lb + ub) / 2 < 0 := by omega
        have sum : checkedInt (lb + ub) = some (lb + ub) :=
          checked_of_bounds (by omega) (by omega)
        have after : checkedInt ((lb + ub) / 2 + 1) = some ((lb + ub) / 2 + 1) :=
          checked_of_bounds (by omega) (by omega)
        have before : checkedInt ((lb + ub) / 2 - 1) = some ((lb + ub) / 2 - 1) :=
          checked_of_bounds (by omega) (by omega)
        have half : (lb + ub).tdiv 2 = (lb + ub) / 2 := Int.tdiv_eq_ediv_of_nonneg (by omega)
        rw [searchLoop_succ nonempty lower upper, intSearchLoop, if_pos nonempty, sum]
        simp only [Option.bind_eq_bind, Option.bind_some, half, valid, if_false, after, before,
          List.getElem?_eq_getElem inside, timeAt, Option.map_some, Option.getD_some]
        split
        · exact ih (by omega) upper
        · exact ih lower (by omega)
      · rw [searchLoop_empty (by omega), intSearchLoop, if_neg nonempty]

theorem intSearchVersion_eq (short : vec.length < 2 ^ 30) (key : Int) :
    intSearchVersion vec key = searchVersion vec key := by
  have size : ((vec.length : Int) - 1).bmod 4294967296 = vec.length - 1 :=
    Int.bmod_eq_of_le (by omega) (by omega)
  rw [intSearchVersion, size, searchVersion]
  exact intSearchLoop_eq short (Int.le_refl 0) (by omega)

/-- On every sorted vector of fewer than `2 ^ 30` entries `search_version` ends, reads only
positions of the vector, and returns the last of them that is not beyond the key, or `-1`
when every version is. -/
theorem intSearchVersion_last (vec : List Version) (key : Int) (short : vec.length < 2 ^ 30)
    (sorted : vec.Pairwise fun first second => first.1 ≤ second.1) :
    ∃ r, intSearchVersion vec key = some r ∧
      (r = -1 ∧ (∀ version ∈ vec, key < version.1) ∨
        ∃ last : Fin vec.length, r = last ∧ vec[last].1 ≤ key ∧
          ∀ position : Fin vec.length, vec[position].1 ≤ key → position ≤ last) := by
  obtain ⟨r, found, inside, last⟩ := searchVersion_sorted sorted key
  refine ⟨r, (intSearchVersion_eq short key).trans found, ?_⟩
  rcases inside with rfl | ⟨low, high, reached⟩
  · refine Or.inl ⟨rfl, ?_⟩
    intro version member
    obtain ⟨i, bound, rfl⟩ := List.getElem_of_mem member
    by_contra small
    have position := last i (by omega) (by omega)
      (by rw [timeAt_getElem bound]; exact Int.not_lt.mp small)
    omega
  · lift r to Nat using low
    have bound : r < vec.length := by omega
    refine Or.inr ⟨⟨r, bound⟩, rfl, ?_, ?_⟩
    · rwa [timeAt_getElem bound] at reached
    · intro position small
      have position := last position (by omega) (by omega)
        (by rw [timeAt_getElem position.isLt]; exact small)
      exact Int.ofNat_le.mp position

/-- Two equal timestamps: the search gives the second. -/
theorem intSearchVersion_last_equal :
    ∃ r, intSearchVersion [(1, 0), (3, 1), (3, 2), (7, 3)] 6 = some r ∧ r = 2 := by
  obtain ⟨r, found, rest⟩ := intSearchVersion_last [(1, 0), (3, 1), (3, 2), (7, 3)] 6
    (by decide) (by decide)
  refine ⟨r, found, ?_⟩
  have evaluated : intSearchVersion [(1, 0), (3, 1), (3, 2), (7, 3)] 6 = some 2 := by decide
  exact Option.some.inj (found.symm.trans evaluated)

end Ctgfs.Mvcc
