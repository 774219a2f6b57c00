import Ctgfs.Mvcc.SimpleMvcc
import Mathlib.Data.List.Permutation

/-!
# Histories of one key

The calls on one key leave one entry each in the store, so the store is a permutation
of the history in the order of the entry keys.  `select_replay` says what `Select`
computes from that permutation, for every history.
-/

namespace Ctgfs.Mvcc

open Foundation Kv

inductive Call where
  | insert (value : Bytes) (ts : Int)
  | delete (ts : Int)
  deriving DecidableEq, Repr

namespace Call

def ts : Call → Int
  | .insert _ ts | .delete ts => ts

def value : Call → Bytes
  | .insert value _ => value
  | .delete _ => []

def flag : Call → Bytes
  | .insert _ _ => []
  | .delete _ => deleteFlag

def entry (rawKey : Bytes) (call : Call) : Entry :=
  (rawKey ++ [underscore] ++ tsToStr call.ts ++ call.flag, call.value)

def marks (call : Call) : Nat :=
  1 + (tsToStr call.ts).count underscore + call.flag.count underscore

def run (kv : MockKv) (rawKey : Bytes) : Call → Bool × MockKv
  | .insert value ts => Mvcc.insert kv rawKey value ts
  | .delete ts => Mvcc.delete kv rawKey ts

end Call

def replay (rawKey : Bytes) (calls : List Call) : MockKv :=
  calls.foldl (fun kv call => (call.run kv rawKey).2) MockKv.empty

/-- The calls of a history are made with different `int`s that are not negative, and
the first one is an `Insert`. -/
structure History (calls : List Call) : Prop where
  distinct : (calls.map Call.ts).Nodup
  int : ∀ call ∈ calls, 0 ≤ call.ts ∧ call.ts < 2147483648
  first : ∀ call ∈ calls.head?, call.flag = []

section Timestamps

@[simp]
theorem length_tsToStr (t : Int) : (tsToStr t).length = 4 :=
  length_littleEndian _ _

theorem strToTs_tsToStr {t : Int} (int : 0 ≤ t ∧ t < 2147483648) : strToTs (tsToStr t) = t := by
  have fits : (t % 4294967296).toNat < 256 ^ 4 := by omega
  rw [strToTs, List.take_of_length_le (length_tsToStr t).le, tsToStr, ofLittleEndian_of_lt fits]
  split
  · omega
  · omega

theorem tsToStr_injective {t t' : Int} (int : 0 ≤ t ∧ t < 2147483648)
    (int' : 0 ≤ t' ∧ t' < 2147483648) (same : tsToStr t = tsToStr t') : t = t' := by
  rw [← strToTs_tsToStr int, same, strToTs_tsToStr int']

end Timestamps

section Entries

variable {rawKey : Bytes} {call other : Call}

theorem queryMatches_entry (rawKey : Bytes) (call : Call) :
    MockKv.queryMatches rawKey (call.entry rawKey) = true := by
  simp [MockKv.queryMatches, Call.entry]

theorem count_entry (noSeparator : underscore ∉ rawKey) :
    (call.entry rawKey).1.count underscore = call.marks := by
  simp only [Call.entry, Call.marks, List.count_append, List.count_eq_zero_of_not_mem noSeparator,
    List.count_singleton_self, Nat.zero_add]

theorem entry_lt_entry_iff (different : tsToStr call.ts ≠ tsToStr other.ts) :
    (call.entry rawKey).1 < (other.entry rawKey).1 ↔ tsToStr call.ts < tsToStr other.ts := by
  simp only [Call.entry, List.append_assoc]
  rw [append_lt_append_left_iff, append_lt_append_left_iff,
    append_lt_append_iff (by simp) different]

theorem tsToStr_eq_of_entry_eq (same : (call.entry rawKey).1 = (other.entry rawKey).1) :
    tsToStr call.ts = tsToStr other.ts := by
  simp only [Call.entry, List.append_assoc, List.append_cancel_left_eq] at same
  exact (List.append_inj same (by simp)).1

theorem afterFirst_entry (noSeparator : underscore ∉ rawKey) :
    afterFirst (call.entry rawKey).1 = tsToStr call.ts ++ call.flag := by
  have skip : ∀ byte ∈ rawKey, decide (byte ≠ underscore) = true := by
    intro byte member
    exact decide_eq_true fun same => noSeparator (same ▸ member)
  simp only [afterFirst, Call.entry, List.append_assoc]
  rw [List.dropWhile_append_of_pos skip]
  simp

theorem afterLast_entry (clean : underscore ∉ tsToStr call.ts) (plain : call.flag = []) :
    afterLast (call.entry rawKey).1 = tsToStr call.ts := by
  have keep : ∀ byte ∈ (tsToStr call.ts).reverse, decide (byte ≠ underscore) = true := by
    intro byte member
    exact decide_eq_true fun same => clean (same ▸ List.mem_reverse.mp member)
  simp only [afterLast, Call.entry, plain, List.append_nil, List.reverse_append]
  rw [List.takeWhile_append_of_pos keep]
  simp

end Entries

section Scanning

def Scan.add (scan : Scan) (call : Call) : Scan where
  dataTimestamp := scan.dataTimestamp ++ [(call.ts, scan.cnt)]
  dataValue := scan.dataValue ++ [call.value]
  dataDel := if call.marks = 2 then call.ts :: scan.dataDel else scan.dataDel
  cnt := scan.cnt + 1

/-- The scan of the versions of a key without underscores reads every timestamp as it
was written.  A version counts as deleted when a second underscore follows the key,
and the scan gives up when there is a third one. -/
theorem scanEntry_entry {rawKey : Bytes} {call : Call} (noSeparator : underscore ∉ rawKey)
    (int : 0 ≤ call.ts ∧ call.ts < 2147483648) (scan : Scan) :
    scanEntry scan (call.entry rawKey) =
      if 2 < call.marks then none else some (scan.add call) := by
  have positive : call.marks ≠ 0 := by
    simp only [Call.marks]
    omega
  simp only [scanEntry, count_entry noSeparator, positive, false_or]
  split
  · rfl
  split
  next single =>
    have clean : underscore ∉ tsToStr call.ts := by
      rw [← List.count_eq_zero]
      simp only [Call.marks] at single
      omega
    have plain : call.flag = [] := by
      cases call with
      | insert _ _ => rfl
      | delete _ =>
          simp only [Call.marks, Call.flag, deleteFlag, List.count_cons_self] at single
          omega
    rw [afterLast_entry clean plain, strToTs_tsToStr int]
    simp [Scan.add, single, Call.entry]
  next several =>
    have double : call.marks = 2 := by omega
    rw [afterFirst_entry noSeparator, List.take_left' (length_tsToStr _), strToTs_tsToStr int]
    simp [Scan.add, double, Call.entry]

theorem foldlM_scanEntry {rawKey : Bytes} {calls : List Call} (noSeparator : underscore ∉ rawKey)
    (int : ∀ call ∈ calls, 0 ≤ call.ts ∧ call.ts < 2147483648) (scan : Scan) :
    (calls.map (Call.entry rawKey)).foldlM scanEntry scan =
      if ∃ call ∈ calls, 2 < call.marks then none else some (calls.foldl Scan.add scan) := by
  induction calls generalizing scan with
  | nil => simp
  | cons call rest ih =>
      rw [List.map_cons, List.foldlM_cons,
        scanEntry_entry noSeparator (int call List.mem_cons_self)]
      by_cases broken : 2 < call.marks
      · simp [broken]
      · rw [if_neg broken]
        simp only [Option.bind_eq_bind, Option.bind_some, List.mem_cons, exists_eq_or_imp, broken,
          false_or, List.foldl_cons]
        exact ih (fun other member => int other (List.mem_cons_of_mem _ member)) _

variable (calls : List Call)

/-- The vector that `Select` searches. -/
def versions : List Version :=
  calls.mapIdx fun i call => (call.ts, i)

theorem getElem?_versions (i : Nat) :
    (versions calls)[i]? = calls[i]?.map fun call => (call.ts, i) := by
  rw [versions, List.getElem?_mapIdx]

theorem foldl_add :
    calls.foldl Scan.add {} =
      { dataTimestamp := versions calls
        dataValue := calls.map Call.value
        dataDel := ((calls.filter (·.marks = 2)).map Call.ts).reverse
        cnt := calls.length } := by
  induction calls using List.reverseRecOn with
  | nil => rfl
  | append_singleton calls call ih =>
      rw [List.foldl_append, ih]
      by_cases double : call.marks = 2
      · simp [Scan.add, versions, double, List.filter_append, List.mapIdx_append]
      · simp [Scan.add, versions, double, List.filter_append, List.mapIdx_append]

/-- What `Select` returns for the version that it finds in a scan of `calls`. -/
def answer (ts : Int) : Option (Bool × Bytes) :=
  (searchVersion (versions calls) ts).bind fun idx =>
    if idx < 0 then some (false, [])
    else calls[idx.toNat]?.map fun call =>
      if call.marks = 2 then (false, []) else (true, call.value)

theorem mem_deleted_iff {calls : List Call} (distinct : (calls.map Call.ts).Nodup) {call : Call}
    (member : call ∈ calls) :
    call.ts ∈ ((calls.filter (·.marks = 2)).map Call.ts).reverse ↔ call.marks = 2 := by
  simp only [List.mem_reverse, List.mem_map, List.mem_filter, decide_eq_true_eq]
  constructor
  · rintro ⟨other, ⟨otherMember, double⟩, same⟩
    rwa [← List.inj_on_of_nodup_map distinct otherMember member same]
  · intro double
    exact ⟨call, ⟨member, double⟩, rfl⟩

theorem pick_foldl_add {calls : List Call} (distinct : (calls.map Call.ts).Nodup) (ts : Int) :
    pick (calls.foldl Scan.add {}) ts = answer calls ts := by
  rw [foldl_add, pick, answer]
  congr 1
  funext idx
  simp only [getElem?_versions, Option.bind_map]
  split
  · rfl
  cases found : calls[idx.toNat]? with
  | none => rfl
  | some call =>
      have member := mem_deleted_iff distinct (List.mem_of_getElem? found)
      simp only [Option.bind_some, Option.map_some, Function.comp_apply, member, List.getElem?_map,
        found]
      split
      · rfl
      · rfl

end Scanning

section Replay

variable {rawKey : Bytes} {calls : List Call}

theorem History.dropLast {call : Call} (history : History (calls ++ [call])) : History calls := by
  refine ⟨?_, ?_, ?_⟩
  · have distinct := history.distinct
    rw [List.map_append] at distinct
    exact distinct.of_append_left
  · intro other member
    exact history.int other (List.mem_append_left _ member)
  · intro first head
    apply history.first
    cases calls with
    | nil => cases head
    | cons _ _ => exact head

theorem query_eq_kvs {kv : MockKv} (perm : kv.kvs.Perm (calls.map (Call.entry rawKey))) :
    kv.query rawKey = kv.kvs := by
  apply List.filter_eq_self.mpr
  intro entry member
  obtain ⟨call, -, rfl⟩ := List.mem_map.mp (perm.mem_iff.mp member)
  exact queryMatches_entry rawKey call

theorem run_kvs {kv : MockKv} {call : Call} (perm : kv.kvs.Perm (calls.map (Call.entry rawKey)))
    (started : calls = [] → call.flag = []) :
    (call.run kv rawKey).2.kvs = assign (call.entry rawKey).1 call.value kv.kvs := by
  cases call with
  | insert value ts =>
      simp [Call.run, Mvcc.insert, MockKv.put, Call.entry, Call.flag, Call.value, Call.ts]
  | delete ts =>
      have stored : kv.query rawKey ≠ [] := by
        rw [query_eq_kvs perm]
        rintro nothing
        rw [nothing, List.nil_perm, List.map_eq_nil_iff] at perm
        cases started perm
      simp only [Call.run, Mvcc.delete, stored, if_false, MockKv.put, Call.entry, Call.flag,
        Call.value, Call.ts]

theorem replay_perm (history : History calls) :
    (replay rawKey calls).kvs.Perm (calls.map (Call.entry rawKey)) := by
  induction calls using List.reverseRecOn with
  | nil => exact List.Perm.refl _
  | append_singleton calls call ih =>
      have before := ih history.dropLast
      have started : calls = [] → call.flag = [] := by
        rintro rfl
        exact history.first call rfl
      have fresh : ∀ entry ∈ (replay rawKey calls).kvs, entry.1 ≠ (call.entry rawKey).1 := by
        intro entry member same
        obtain ⟨other, otherMember, rfl⟩ := List.mem_map.mp (before.mem_iff.mp member)
        have equal : other.ts = call.ts :=
          tsToStr_injective (history.int other (List.mem_append_left _ otherMember))
            (history.int call (by simp)) (tsToStr_eq_of_entry_eq same)
        have distinct := history.distinct
        rw [List.map_append, List.nodup_append] at distinct
        exact distinct.2.2 _ (List.mem_map_of_mem otherMember) call.ts (by simp) equal
      have step : (replay rawKey (calls ++ [call])).kvs =
          assign (call.entry rawKey).1 call.value (replay rawKey calls).kvs := by
        rw [← run_kvs before started, replay, replay, List.foldl_append]
        rfl
      rw [step, List.map_append]
      apply (assign_perm _ fresh).trans
      exact (before.cons _).trans (List.perm_append_singleton _ _).symm

/-- What `Select` computes after a history: it searches the calls in the order of
their timestamps' images. -/
theorem select_replay (noSeparator : underscore ∉ rawKey) (history : History calls)
    (started : calls ≠ []) :
    ∃ ordered : List Call, ordered.Perm calls ∧
      ordered.Pairwise (fun call other => tsToStr call.ts < tsToStr other.ts) ∧
      ∀ out ts, select (replay rawKey calls) rawKey out ts =
        if ∃ call ∈ calls, 2 < call.marks then some (false, out) else answer ordered ts := by
  have stored : (replay rawKey calls).kvs.Perm (calls.map (Call.entry rawKey)) :=
    replay_perm history
  have permutation := List.mem_permutations.mpr stored
  rw [← List.map_permutations] at permutation
  obtain ⟨ordered, member, kvs⟩ := List.mem_map.mp permutation
  have perm : ordered.Perm calls := List.mem_permutations.mp member
  have int : ∀ call ∈ ordered, 0 ≤ call.ts ∧ call.ts < 2147483648 :=
    fun call inside => history.int call (perm.mem_iff.mp inside)
  have distinct : (ordered.map Call.ts).Nodup := (perm.map _).nodup_iff.mpr history.distinct
  refine ⟨ordered, perm, ?_, ?_⟩
  · have sorted := (replay rawKey calls).sorted
    rw [← kvs, List.pairwise_map] at sorted
    refine (sorted.and (List.pairwise_map.mp distinct)).imp_of_mem ?_
    rintro call other callMember otherMember ⟨before, different⟩
    refine (entry_lt_entry_iff ?_).mp before
    intro same
    exact different (tsToStr_injective (int call callMember) (int other otherMember) same)
  · intro out ts
    have nonempty : ordered.map (Call.entry rawKey) ≠ [] := by
      rw [Ne, List.map_eq_nil_iff]
      rintro rfl
      exact started perm.nil_eq.symm
    simp only [select, query_eq_kvs stored, ← kvs, nonempty, if_false,
      foldlM_scanEntry noSeparator int, perm.mem_iff]
    by_cases broken : ∃ call ∈ calls, 2 < call.marks
    · simp only [broken, if_true]
    · simp only [broken, if_false, pick_foldl_add distinct]

end Replay

end Ctgfs.Mvcc
