import Ctgfs.Foundation.LittleEndian

/-!
# The in-memory key-value store

`MockKV` is a `std::map` from strings to strings.  The map is the list of its entries
in iteration order, which is strictly increasing in the key.
-/

namespace Ctgfs.Kv

open Foundation

abbrev Entry := Bytes × Bytes

def underscore : Byte := ⟨95, by decide⟩

/-- `kvs_[key] = value`, on the entries in order. -/
def assign (key value : Bytes) : List Entry → List Entry
  | [] => [(key, value)]
  | entry :: rest =>
      if key < entry.1 then (key, value) :: entry :: rest
      else if key = entry.1 then (key, value) :: rest
      else entry :: assign key value rest

variable {entries : List Entry} {key : Bytes}

theorem assign_perm (value : Bytes) (fresh : ∀ entry ∈ entries, entry.1 ≠ key) :
    (assign key value entries).Perm ((key, value) :: entries) := by
  induction entries with
  | nil => exact List.Perm.refl _
  | cons entry rest ih =>
      have different : key ≠ entry.1 := (fresh entry List.mem_cons_self).symm
      rw [assign, if_neg different]
      split
      · exact List.Perm.refl _
      · have smaller := ih fun other member =>
          fresh other (List.mem_cons_of_mem _ member)
        exact (smaller.cons entry).trans (List.Perm.swap _ _ _)

theorem mem_assign {value : Bytes} {entry : Entry} (member : entry ∈ assign key value entries) :
    entry = (key, value) ∨ entry ∈ entries := by
  induction entries with
  | nil => exact Or.inl (List.mem_singleton.mp member)
  | cons head rest ih =>
      rw [assign] at member
      split at member
      · simpa using member
      split at member
      · rcases List.mem_cons.mp member with new | old
        · exact Or.inl new
        · exact Or.inr (List.mem_cons_of_mem _ old)
      · rcases List.mem_cons.mp member with rfl | deeper
        · exact Or.inr List.mem_cons_self
        · exact (ih deeper).imp_right (List.mem_cons_of_mem _)

theorem assign_sorted (sorted : entries.Pairwise fun first second => first.1 < second.1)
    (key value : Bytes) :
    (assign key value entries).Pairwise fun first second => first.1 < second.1 := by
  induction entries with
  | nil => exact List.pairwise_singleton _ _
  | cons head rest ih =>
      obtain ⟨least, sortedRest⟩ := List.pairwise_cons.mp sorted
      rw [assign]
      split
      next before =>
        refine List.pairwise_cons.mpr ⟨?_, sorted⟩
        intro entry member
        rcases List.mem_cons.mp member with rfl | deeper
        · exact before
        · exact lt_trans before (least entry deeper)
      next notBefore =>
        split
        next same =>
          refine List.pairwise_cons.mpr ⟨?_, sortedRest⟩
          intro entry member
          rw [same]
          exact least entry member
        next different =>
          refine List.pairwise_cons.mpr ⟨?_, ih sortedRest⟩
          intro entry member
          rcases mem_assign member with rfl | old
          · exact lt_of_le_of_ne (not_lt.mp notBefore) (Ne.symm different)
          · exact least entry old

structure MockKv where
  kvs : List Entry
  sorted : kvs.Pairwise fun first second => first.1 < second.1

namespace MockKv

def empty : MockKv := ⟨[], List.Pairwise.nil⟩

/-- `MockKV::Put`, which always returns `true`. -/
def put (kv : MockKv) (key value : Bytes) : MockKv :=
  ⟨assign key value kv.kvs, assign_sorted kv.sorted key value⟩

/-- The entries that `MockKV::Query` copies: the key, an underscore and at least one
more character. -/
def queryMatches (key : Bytes) (entry : Entry) : Bool :=
  decide (key.length + 1 < entry.1.length) && (decide (key = entry.1.take key.length) &&
    decide (entry.1[key.length]? = some underscore))

/-- `MockKV::Query` into an empty map. -/
def query (kv : MockKv) (key : Bytes) : List Entry :=
  kv.kvs.filter (queryMatches key)

end MockKv

def VersionOf (key name : Bytes) : Prop :=
  ∃ rest, rest ≠ [] ∧ name = key ++ underscore :: rest

theorem MockKv.queryMatches_iff (key : Bytes) (entry : Entry) :
    queryMatches key entry = true ↔ VersionOf key entry.1 := by
  rw [queryMatches, Bool.and_eq_true, Bool.and_eq_true, decide_eq_true_iff, decide_eq_true_iff,
    decide_eq_true_iff]
  constructor
  · rintro ⟨long, start, separator⟩
    obtain ⟨inside, byte⟩ := List.getElem?_eq_some_iff.mp separator
    refine ⟨entry.1.drop (key.length + 1), ?_, ?_⟩
    · intro empty
      have := congrArg List.length empty
      rw [List.length_drop, List.length_nil] at this
      omega
    · have rest := List.drop_eq_getElem_cons inside
      rw [byte] at rest
      rw [← rest]
      conv_lhs => rw [← List.take_append_drop key.length entry.1, ← start]
  · rintro ⟨rest, nonempty, name⟩
    have positive := List.length_pos_iff.mpr nonempty
    rw [name]
    refine ⟨?_, ?_, ?_⟩
    · rw [List.length_append, List.length_cons]
      omega
    · rw [List.take_left]
    · simp

theorem assign_ne_nil (key value : Bytes) (entries : List Entry) :
    assign key value entries ≠ [] := by
  cases entries with
  | nil => exact List.cons_ne_nil _ _
  | cons head rest =>
      rw [assign]
      split
      · exact List.cons_ne_nil _ _
      split
      · exact List.cons_ne_nil _ _
      · exact List.cons_ne_nil _ _

theorem assign_of_before (value : Bytes) (before : ∀ entry ∈ entries, key < entry.1) :
    assign key value entries = (key, value) :: entries := by
  cases entries with
  | nil => rfl
  | cons head rest => rw [assign, if_pos (before head List.mem_cons_self)]

theorem filter_assign {passes : Entry → Bool} (value : Bytes)
    (sorted : entries.Pairwise fun first second => first.1 < second.1)
    (named : ∀ other : Entry, other.1 = key → passes other = passes (key, value)) :
    (assign key value entries).filter passes =
      if passes (key, value) then assign key value (entries.filter passes)
      else entries.filter passes := by
  induction entries with
  | nil => simp [assign, List.filter_cons]
  | cons head rest ih =>
      obtain ⟨first, sortedRest⟩ := List.pairwise_cons.mp sorted
      rw [assign]
      split
      next before =>
        have front : assign key value ((head :: rest).filter passes) =
            (key, value) :: (head :: rest).filter passes := by
          apply assign_of_before
          intro entry member
          rcases List.mem_cons.mp (List.mem_filter.mp member).1 with rfl | later
          · exact before
          · exact before.trans (first entry later)
        rw [front, List.filter_cons]
      next notBefore =>
        split
        next same =>
          rw [List.filter_cons, List.filter_cons, named head same.symm]
          split
          · rw [assign, if_neg notBefore, if_pos same]
          · rfl
        next different =>
          rw [List.filter_cons, List.filter_cons, ih sortedRest]
          split
          · split
            · rw [assign, if_neg notBefore, if_neg different]
            · rfl
          · rfl

namespace MockKv

theorem query_put (kv : MockKv) (name value key : Bytes) :
    (kv.put name value).query key =
      if queryMatches key (name, value) then assign name value (kv.query key)
      else kv.query key := by
  refine filter_assign value kv.sorted ?_
  rintro ⟨_, other⟩ rfl
  rfl

theorem query_put_of_not (kv : MockKv) {name : Bytes} (value : Bytes)
    (hidden : ¬ VersionOf key name) : (kv.put name value).query key = kv.query key := by
  rw [query_put, if_neg]
  rwa [queryMatches_iff]

theorem query_put_ne_nil (kv : MockKv) {name : Bytes} (value : Bytes)
    (version : VersionOf key name) : (kv.put name value).query key ≠ [] := by
  rw [query_put, if_pos ((queryMatches_iff key (name, value)).mpr version)]
  exact assign_ne_nil _ _ _

end MockKv

end Ctgfs.Kv
