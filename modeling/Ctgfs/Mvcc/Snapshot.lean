import Ctgfs.Mvcc.History

/-!
# Snapshot reads

`Select` searches the timestamps in the order of their memory images, which puts the
least significant byte first, and tells a deletion by a second underscore, which may
also be a byte of a timestamp.  The snapshot reads of every history with given
timestamps are right exactly when the images are in numeric order and hold no
underscore.
-/

namespace Ctgfs.Mvcc

open Foundation Kv

structure Latest (calls : List Call) (ts : Int) (call : Call) : Prop where
  member : call ∈ calls
  reached : call.ts ≤ ts
  last : ∀ other ∈ calls, other.ts ≤ ts → other.ts ≤ call.ts

def Snapshot (rawKey : Bytes) (calls : List Call) : Prop :=
  ∀ (ts : Int) (out : Bytes), 0 ≤ ts → ts < 2147483648 →
    ∃ result value, select (replay rawKey calls) rawKey out ts = some (result, value) ∧
      (result = true → ∃ t, Latest calls ts (.insert value t)) ∧
      (result = false ↔ (∀ call ∈ calls, ts < call.ts) ∨ ∃ t, Latest calls ts (.delete t))

/-- A byte of an `int`, counted from the least significant one. -/
def byteAt (t : Int) (i : Nat) : Nat :=
  (t % 4294967296).toNat / 256 ^ i % 256

def Clean (t : Int) : Prop :=
  ∀ i < 4, byteAt t i ≠ 95

def Aligned (t t' : Int) : Prop :=
  ∃ i < 4, (∀ j < i, byteAt t j = byteAt t' j) ∧ byteAt t i < byteAt t' i

instance (t : Int) : Decidable (Clean t) :=
  inferInstanceAs (Decidable (∀ i < 4, byteAt t i ≠ 95))

instance (t t' : Int) : Decidable (Aligned t t') :=
  inferInstanceAs (Decidable
    (∃ i < 4, (∀ j < i, byteAt t j = byteAt t' j) ∧ byteAt t i < byteAt t' i))

theorem clean_iff (t : Int) : Clean t ↔ underscore ∉ tsToStr t := by
  rw [tsToStr, mem_littleEndian_iff]
  simp only [not_exists, not_and]
  rfl

theorem aligned_iff (t t' : Int) : Aligned t t' ↔ tsToStr t < tsToStr t' := by
  rw [tsToStr, tsToStr, littleEndian_lt_iff]
  rfl

section Latest

variable {calls : List Call} {ts : Int} {call other : Call}

theorem Latest.unique (distinct : (calls.map Call.ts).Nodup) (latest : Latest calls ts call)
    (latest' : Latest calls ts other) : call = other := by
  apply List.inj_on_of_nodup_map distinct latest.member latest'.member
  have first := latest.last other latest'.member latest'.reached
  have second := latest'.last call latest.member latest.reached
  omega

theorem Latest.self (member : call ∈ calls) : Latest calls call.ts call :=
  ⟨member, le_refl _, fun _ _ reached => reached⟩

end Latest

section Clean

theorem marks_of_clean {call : Call} (clean : Clean call.ts) :
    call.marks = 1 + call.flag.count underscore := by
  rw [clean_iff, ← List.count_eq_zero] at clean
  rw [Call.marks, clean]

theorem marks_insert {value : Bytes} {ts : Int} (clean : Clean ts) :
    (Call.insert value ts).marks = 1 :=
  marks_of_clean clean

theorem marks_delete {ts : Int} (clean : Clean ts) : (Call.delete ts).marks = 2 :=
  marks_of_clean clean

theorem marks_le_two {call : Call} (clean : Clean call.ts) : call.marks ≤ 2 := by
  cases call with
  | insert _ _ => exact (marks_insert clean).trans_le (by decide)
  | delete _ => exact (marks_delete clean).le

end Clean

section Sufficient

variable {rawKey : Bytes} {calls ordered : List Call}

theorem versions_sorted (sorted : ordered.Pairwise fun call other => call.ts ≤ other.ts) :
    (versions ordered).Pairwise fun first second => first.1 ≤ second.1 := by
  rw [List.pairwise_iff_getElem] at sorted ⊢
  intro i j insideFirst insideSecond order
  simp only [versions, List.length_mapIdx, List.getElem_mapIdx] at insideFirst insideSecond ⊢
  exact sorted i j insideFirst insideSecond order

theorem timeAt_versions {i : Nat} {call : Call} (found : ordered[i]? = some call) :
    timeAt (versions ordered) i = call.ts := by
  simp [timeAt, getElem?_versions, found]

@[simp]
theorem length_versions (ordered : List Call) : (versions ordered).length = ordered.length := by
  simp [versions]

theorem searchVersion_latest (sorted : ordered.Pairwise fun call other => call.ts ≤ other.ts)
    (ts : Int) :
    (searchVersion (versions ordered) ts = some (-1) ∧ ∀ call ∈ ordered, ts < call.ts) ∨
    ∃ (i : Nat) (call : Call), searchVersion (versions ordered) ts = some (i : Int) ∧
      ordered[i]? = some call ∧ Latest ordered ts call := by
  obtain ⟨r, found, position, last⟩ := searchVersion_sorted (versions_sorted sorted) ts
  rw [length_versions] at position last
  rcases position with rfl | ⟨lower, upper, reached⟩
  · refine Or.inl ⟨found, ?_⟩
    intro call member
    obtain ⟨i, inside, rfl⟩ := List.mem_iff_getElem.mp member
    by_contra small
    have time := timeAt_versions (List.getElem?_eq_getElem inside)
    have := last i (by omega) (by omega) (by omega)
    omega
  · lift r to Nat using lower
    have inside : r < ordered.length := by omega
    have time := timeAt_versions (List.getElem?_eq_getElem inside)
    refine Or.inr ⟨r, ordered[r], found, List.getElem?_eq_getElem inside,
      List.getElem_mem inside, by omega, ?_⟩
    intro other member small
    obtain ⟨i, otherInside, rfl⟩ := List.mem_iff_getElem.mp member
    have otherTime := timeAt_versions (List.getElem?_eq_getElem otherInside)
    have before := last i (by omega) (by omega) (by omega)
    rcases Int.lt_or_eq_of_le before with less | same
    · exact List.pairwise_iff_getElem.mp sorted i r otherInside inside (by omega)
    · obtain rfl : i = r := by omega
      exact Int.le_refl _

theorem Latest.perm {ts : Int} {call : Call} (perm : ordered.Perm calls)
    (latest : Latest ordered ts call) : Latest calls ts call :=
  ⟨perm.mem_iff.mp latest.member, latest.reached,
    fun other member => latest.last other (perm.mem_iff.mpr member)⟩

theorem sorted_of_aligned
    (images : ordered.Pairwise fun call other => tsToStr call.ts < tsToStr other.ts)
    (aligned : ∀ call ∈ ordered, ∀ other ∈ ordered, call.ts < other.ts →
      Aligned call.ts other.ts) :
    ordered.Pairwise fun call other => call.ts ≤ other.ts := by
  refine images.imp_of_mem ?_
  intro call other callMember otherMember before
  by_contra order
  have after := (aligned_iff _ _).mp (aligned other otherMember call callMember (by omega))
  exact lt_asymm before after

theorem snapshot_of_aligned (noSeparator : underscore ∉ rawKey) (history : History calls)
    (clean : ∀ call ∈ calls, Clean call.ts)
    (aligned : ∀ call ∈ calls, ∀ other ∈ calls, call.ts < other.ts → Aligned call.ts other.ts) :
    Snapshot rawKey calls := by
  intro ts out _ _
  by_cases started : calls = []
  · subst started
    exact ⟨false, out, rfl, by simp, by simp⟩
  obtain ⟨ordered, perm, images, selected⟩ := select_replay noSeparator history started
  have readable : ¬ ∃ call ∈ calls, 2 < call.marks := by
    rintro ⟨call, member, broken⟩
    exact absurd (marks_le_two (clean call member)) (not_le.mpr broken)
  have sorted := sorted_of_aligned images fun call callMember other otherMember =>
    aligned call (perm.mem_iff.mp callMember) other (perm.mem_iff.mp otherMember)
  rw [selected, if_neg readable]
  rcases searchVersion_latest sorted ts with ⟨found, beyond⟩ | ⟨i, call, found, stored, latest⟩
  · refine ⟨false, [], by simp [answer, found], by simp, ?_⟩
    exact iff_of_true rfl (Or.inl fun call member => beyond call (perm.mem_iff.mpr member))
  · replace latest := latest.perm perm
    cases call with
    | insert value t =>
        have single : (Call.insert value t).marks = 1 := marks_insert (clean _ latest.member)
        refine ⟨true, value, ?_, fun _ => ⟨t, latest⟩, ?_⟩
        · simp [answer, found, stored, single, Call.value]
        · refine iff_of_false (by simp) ?_
          rintro (beyond | ⟨t', deleted⟩)
          · exact absurd (beyond _ latest.member) (not_lt.mpr latest.reached)
          · cases latest.unique history.distinct deleted
    | delete t =>
        have double : (Call.delete t).marks = 2 := marks_delete (clean _ latest.member)
        refine ⟨false, [], ?_, by simp, iff_of_true rfl (Or.inr ⟨t, latest⟩)⟩
        simp [answer, found, stored, double]

end Sufficient

section Necessary

def stamped (times : List Int) : List Call :=
  times.map fun t => .insert (tsToStr t) t

theorem map_ts_stamped (times : List Int) : (stamped times).map Call.ts = times := by
  rw [stamped, List.map_map]
  exact List.map_id _

variable {times : List Int}

theorem stamped_history (distinct : times.Nodup) (int : ∀ t ∈ times, 0 ≤ t ∧ t < 2147483648) :
    History (stamped times) := by
  refine ⟨by rwa [map_ts_stamped], ?_, ?_⟩
  · intro call member
    obtain ⟨t, timeMember, rfl⟩ := List.mem_map.mp member
    exact int t timeMember
  · intro call head
    obtain ⟨t, -, rfl⟩ := List.mem_map.mp (List.mem_of_mem_head? head)
    rfl

theorem select_stamped {rawKey : Bytes} {t : Int} (history : History (stamped times))
    (snapshot : Snapshot rawKey (stamped times)) (member : t ∈ times) :
    select (replay rawKey (stamped times)) rawKey [] t = some (true, tsToStr t) := by
  have inserted : Call.insert (tsToStr t) t ∈ stamped times :=
    List.mem_map_of_mem (f := fun t => Call.insert (tsToStr t) t) member
  have latest := Latest.self inserted
  obtain ⟨lower, upper⟩ := history.int _ inserted
  obtain ⟨result, value, selected, shown, hidden⟩ := snapshot t [] lower upper
  cases result with
  | false =>
      rcases hidden.mp rfl with beyond | ⟨t', deleted⟩
      · exact absurd (beyond _ inserted) (lt_irrefl _)
      · cases latest.unique history.distinct deleted
  | true =>
      obtain ⟨t', other⟩ := shown rfl
      cases latest.unique history.distinct other
      exact selected

/-- An answer with the value of a version comes from that version when all values are
the images of their timestamps, and the version was not taken for a deletion. -/
theorem answer_stamped {ordered : List Call} (distinct : (ordered.map Call.ts).Nodup)
    (int : ∀ call ∈ ordered, 0 ≤ call.ts ∧ call.ts < 2147483648)
    (images : ∀ call ∈ ordered, call.value = tsToStr call.ts) {j : Nat} {call : Call}
    (listed : ordered[j]? = some call)
    (selected : answer ordered call.ts = some (true, tsToStr call.ts)) :
    searchVersion (versions ordered) call.ts = some (j : Int) ∧ call.marks ≠ 2 := by
  rw [answer, Option.bind_eq_some_iff] at selected
  obtain ⟨idx, found, selected⟩ := selected
  split at selected
  next negative => cases selected
  next position =>
    rw [Option.map_eq_some_iff] at selected
    obtain ⟨other, stored, result⟩ := selected
    have member := List.mem_of_getElem? stored
    have callMember := List.mem_of_getElem? listed
    split at result
    next marked => cases result
    next unmarked =>
      rw [images other member, Prod.mk.injEq] at result
      have time : other.ts = call.ts :=
        tsToStr_injective (int other member) (int call callMember) result.2
      obtain rfl : other = call := List.inj_on_of_nodup_map distinct member callMember time
      obtain ⟨inside, -⟩ := List.getElem?_eq_some_iff.mp stored
      have same : idx.toNat = j :=
        (List.getElem?_inj inside (List.Nodup.of_map _ distinct)).mp (stored.trans listed.symm)
      refine ⟨?_, unmarked⟩
      rw [found, ← same, Int.toNat_of_nonneg (by omega)]

theorem found_of_snapshot {rawKey : Bytes} (noSeparator : underscore ∉ rawKey)
    (history : History (stamped times)) (snapshot : Snapshot rawKey (stamped times))
    (started : times ≠ []) :
    ∃ ordered : List Call, ordered.Perm (stamped times) ∧
      ordered.Pairwise (fun call other => tsToStr call.ts < tsToStr other.ts) ∧
      ∀ (j : Nat) (call : Call), ordered[j]? = some call →
        searchVersion (versions ordered) call.ts = some (j : Int) ∧ call.marks < 2 := by
  obtain ⟨ordered, perm, images, selected⟩ := select_replay noSeparator history (by simpa [stamped])
  refine ⟨ordered, perm, images, ?_⟩
  intro j call listed
  have inserted : ∀ other ∈ ordered, ∃ t ∈ times, Call.insert (tsToStr t) t = other :=
    fun other member => List.mem_map.mp (perm.mem_iff.mp member)
  have member := List.mem_of_getElem? listed
  have result : select (replay rawKey (stamped times)) rawKey [] call.ts =
      some (true, tsToStr call.ts) := by
    obtain ⟨t, timeMember, rfl⟩ := inserted call member
    exact select_stamped history snapshot timeMember
  rw [selected] at result
  split at result
  next broken => cases result
  next readable =>
    have stamps : ∀ other ∈ ordered, other.value = tsToStr other.ts := by
      intro other otherMember
      obtain ⟨t, -, rfl⟩ := inserted other otherMember
      rfl
    obtain ⟨found, unmarked⟩ := answer_stamped ((perm.map _).nodup_iff.mpr history.distinct)
      (fun other otherMember => history.int other (perm.mem_iff.mp otherMember)) stamps listed
      result
    have few : ¬ 2 < call.marks := fun many => readable ⟨call, perm.mem_iff.mp member, many⟩
    exact ⟨found, by omega⟩

theorem aligned_of_snapshot {rawKey : Bytes} (noSeparator : underscore ∉ rawKey)
    (history : History (stamped times)) (snapshot : Snapshot rawKey (stamped times)) :
    (∀ t ∈ times, Clean t) ∧ ∀ t ∈ times, ∀ t' ∈ times, t < t' → Aligned t t' := by
  by_cases started : times = []
  · subst started
    simp
  obtain ⟨ordered, perm, images, found⟩ := found_of_snapshot noSeparator history snapshot started
  have listed : ∀ t ∈ times, Call.insert (tsToStr t) t ∈ ordered := fun t member =>
    perm.mem_iff.mpr (List.mem_map_of_mem (f := fun t => Call.insert (tsToStr t) t) member)
  constructor
  · intro t member
    obtain ⟨j, stored⟩ := List.mem_iff_getElem?.mp (listed t member)
    have few := (found j _ stored).2
    rw [clean_iff, ← List.count_eq_zero]
    simp only [Call.marks, Call.ts] at few
    omega
  · have sorted : (versions ordered).Pairwise fun first second => first.1 ≤ second.1 := by
      apply sorted_of_searchVersion
      intro j lower upper
      lift j to Nat using lower
      rw [length_versions] at upper
      have stored : ordered[j]? = some _ := List.getElem?_eq_getElem (by omega)
      rw [timeAt_versions stored]
      exact (found j _ stored).1
    intro t member t' member' order
    obtain ⟨i, stored⟩ := List.mem_iff_getElem?.mp (listed t member)
    obtain ⟨j, stored'⟩ := List.mem_iff_getElem?.mp (listed t' member')
    obtain ⟨inside, first⟩ := List.getElem?_eq_some_iff.mp stored
    obtain ⟨inside', second⟩ := List.getElem?_eq_some_iff.mp stored'
    have before : i < j := by
      by_contra notBefore
      have smaller : timeAt (versions ordered) j ≤ timeAt (versions ordered) i := by
        rcases Nat.lt_or_eq_of_le (not_lt.mp notBefore) with after | rfl
        · exact timeAt_mono sorted (by omega) (by omega) (by rw [length_versions]; omega)
        · exact Int.le_refl _
      rw [timeAt_versions stored, timeAt_versions stored'] at smaller
      exact absurd order (not_lt.mpr smaller)
    have smallerImage := List.pairwise_iff_getElem.mp images i j inside inside' before
    rw [first, second] at smallerImage
    exact (aligned_iff t t').mpr smallerImage

end Necessary

/-- The snapshot reads of all histories with given timestamps, whatever the calls
insert or delete, are right exactly when no byte of a timestamp is an underscore and
the timestamps are ordered as their images are. -/
theorem snapshot_reads {rawKey : Bytes} (noSeparator : underscore ∉ rawKey) {times : List Int}
    (distinct : times.Nodup) (int : ∀ t ∈ times, 0 ≤ t ∧ t < 2147483648) :
    (∀ calls : List Call, calls.map Call.ts = times → History calls → Snapshot rawKey calls) ↔
      (∀ t ∈ times, Clean t) ∧ ∀ t ∈ times, ∀ t' ∈ times, t < t' → Aligned t t' := by
  constructor
  · intro right
    have history := stamped_history distinct int
    exact aligned_of_snapshot noSeparator history (right _ (map_ts_stamped times) history)
  · rintro ⟨clean, aligned⟩ calls rfl history
    apply snapshot_of_aligned noSeparator history
    · intro call member
      exact clean _ (List.mem_map_of_mem member)
    · intro call member other otherMember
      exact aligned _ (List.mem_map_of_mem member) _ (List.mem_map_of_mem otherMember)

/-- Versions at `1`, `2` and `258`, the second of them a deletion. -/
theorem snapshot_reads_deleted :
    Snapshot [97] [.insert [118] 258, .delete 2, .insert [119] 1] := by
  have distinct : [(258 : Int), 2, 1].Nodup := by decide
  exact (snapshot_reads (by decide) distinct (by decide)).mpr (by decide) _ rfl
    ⟨distinct, by decide, by decide⟩

/-- The version at `1` cannot be read when there is one at `256`: the image of `256`
comes first, so the search goes to its left and finds nothing. -/
theorem snapshot_misordered :
    History [.insert [118] 1, .insert [119] 256] ∧
      ¬ Snapshot [97] [.insert [118] 1, .insert [119] 256] := by
  refine ⟨⟨by decide, by decide, by decide⟩, ?_⟩
  intro right
  obtain ⟨result, value, selected, -, hidden⟩ := right 1 [] (by decide) (by decide)
  have missed : select (replay [97] [.insert [118] 1, .insert [119] 256]) [97] [] 1 =
      some (false, []) := by decide +kernel
  rw [missed, Option.some.injEq, Prod.mk.injEq] at selected
  rcases hidden.mp selected.1.symm with beyond | ⟨t, latest⟩
  · exact absurd (beyond _ List.mem_cons_self) (by decide)
  · cases latest.member with
    | tail _ later => cases later with
      | tail _ none => cases none

end Ctgfs.Mvcc
