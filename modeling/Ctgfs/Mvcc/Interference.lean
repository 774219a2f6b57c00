import Ctgfs.Mvcc.History

/-!
# Interference between keys

The versions of all keys lie in one store, and a query finds again whatever starts with its
key and an underscore.  A call for one key is seen by another key when the name that it
writes has this form.  A deletion writes only when its query finds something, so a call may
also be seen through the deletions of further keys.
-/

namespace Ctgfs.Mvcc

open Foundation Kv

section Calls

/-- A call of `SimpleMVCC`, with what the output argument of `Select` holds before. -/
inductive StoreCall where
  | insert (rawKey value : Bytes) (ts : Int)
  | delete (rawKey : Bytes) (ts : Int)
  | select (rawKey value : Bytes) (ts : Int)
  deriving DecidableEq, Repr

def IsInt (ts : Int) : Prop :=
  -2147483648 ≤ ts ∧ ts < 2147483648

namespace StoreCall

def ts : StoreCall → Int
  | insert _ _ ts | delete _ ts | select _ _ ts => ts

/-- What a call returns, with the output argument of `Select`, and the store after it. -/
def run (kv : MockKv) : StoreCall → Option (Bool × Bytes) × MockKv
  | insert rawKey value ts => (some ((Mvcc.insert kv rawKey value ts).1, []),
      (Mvcc.insert kv rawKey value ts).2)
  | delete rawKey ts => (some ((Mvcc.delete kv rawKey ts).1, []), (Mvcc.delete kv rawKey ts).2)
  | select rawKey value ts => (Mvcc.select kv rawKey value ts, kv)

def writes (key : Bytes) : StoreCall → Bool
  | insert rawKey _ _ | delete rawKey _ => decide (rawKey = key)
  | select _ _ _ => false

def observes (key : Bytes) : StoreCall → Bool
  | insert _ _ _ => false
  | delete rawKey _ | select rawKey _ _ => decide (rawKey = key)

end StoreCall

def after (kv : MockKv) (calls : List StoreCall) : MockKv :=
  calls.foldl (fun kv call => (call.run kv).2) kv

/-- What the `Select`s and `Delete`s for a key give, in their order. -/
def observations (key : Bytes) : MockKv → List StoreCall → List (Option (Bool × Bytes))
  | _, [] => []
  | kv, call :: calls =>
      let later := observations key (call.run kv).2 calls
      if call.observes key then (call.run kv).1 :: later else later

def without (key : Bytes) (calls : List StoreCall) : List StoreCall :=
  calls.filter fun call => !call.writes key

theorem observations_append (key : Bytes) (kv : MockKv) (first second : List StoreCall) :
    observations key kv (first ++ second) =
      observations key kv first ++ observations key (after kv first) second := by
  induction first generalizing kv with
  | nil => rfl
  | cons call calls ih =>
      have later := ih (call.run kv).2
      simp only [List.cons_append, observations, later]
      split
      · rfl
      · rfl

end Calls

section Names

variable {source key middle : Bytes} {ts : Int}

def versionName (rawKey : Bytes) (ts : Int) : Bytes :=
  rawKey ++ [underscore] ++ tsToStr ts

def deletionName (rawKey : Bytes) (ts : Int) : Bytes :=
  versionName rawKey ts ++ deleteFlag

/-- A key in reach of the calls for the source: the source or what precedes one of its
underscores, followed by underscores with at most four bytes behind each. -/
inductive Reaches (source : Bytes) : Bytes → Prop where
  | self : Reaches source source
  | stem {stem rest : Bytes} : source = stem ++ underscore :: rest → Reaches source stem
  | part {key part : Bytes} : Reaches source key → part.length ≤ 4 →
      Reaches source (key ++ underscore :: part)

variable {rest : Bytes}

/-- Where the underscore after a key lies in a name that has an underscore after a second
key: it is this one, or it is before it, or behind it. -/
theorem separator_cases {first second tail : Bytes}
    (same : first ++ underscore :: rest = second ++ underscore :: tail) :
    first = second ∨ (∃ between, second = first ++ underscore :: between) ∨
      ∃ between, first = second ++ underscore :: between ∧
        tail = between ++ underscore :: rest := by
  rcases List.append_eq_append_iff.mp same with ⟨between, longer, rest⟩ | ⟨between, longer, rest⟩
  · cases between with
    | nil => exact .inl (by rw [longer, List.append_nil])
    | cons head between =>
        obtain ⟨rfl, -⟩ := List.cons.inj rest
        exact .inr (.inl ⟨between, longer⟩)
  · cases between with
    | nil => exact .inl (by rw [longer, List.append_nil])
    | cons head between =>
        obtain ⟨rfl, behind⟩ := List.cons.inj rest
        exact .inr (.inr ⟨between, longer, behind⟩)

theorem Reaches.before (reaches : Reaches source key) {start : Bytes}
    (cut : key = start ++ underscore :: rest) : Reaches source start := by
  induction reaches generalizing start rest with
  | self => exact .stem cut
  | @stem stem tail sourceEq =>
      have longer : source = start ++ underscore :: (rest ++ underscore :: tail) := by
        rw [sourceEq, cut, List.append_assoc, List.cons_append]
      exact .stem longer
  | @part key part reachesKey short ih =>
      rcases separator_cases cut.symm with rfl | ⟨between, shorter⟩ | ⟨between, rfl, behind⟩
      · exact reachesKey
      · exact ih shorter
      · refine .part reachesKey ?_
        have := congrArg List.length behind
        simp only [List.length_append, List.length_cons] at this
        omega

theorem Reaches.deletion (reaches : Reaches source middle)
    (version : VersionOf key (deletionName middle ts)) : Reaches source key := by
  obtain ⟨rest, nonempty, name⟩ := version
  have separated : key ++ underscore :: rest =
      middle ++ underscore :: (tsToStr ts ++ deleteFlag) := by
    rw [← name, deletionName, versionName]
    simp only [List.append_assoc, List.cons_append, List.nil_append]
  rcases separator_cases separated with rfl | ⟨between, longer⟩ | ⟨between, rfl, behind⟩
  · exact reaches
  · exact reaches.before longer
  · refine .part reaches ?_
    -- The underscore is followed by a byte, so it is not the last one of the name.
    have positive := List.length_pos_iff.mpr nonempty
    have lengths := congrArg List.length behind
    simp only [List.length_append, List.length_cons, length_tsToStr, deleteFlag,
      List.length_nil] at lengths
    omega

theorem versionOf_deletionName (version : VersionOf key (versionName source ts)) :
    VersionOf key (deletionName source ts) := by
  obtain ⟨rest, nonempty, name⟩ := version
  refine ⟨rest ++ deleteFlag, List.append_ne_nil_of_left_ne_nil nonempty _, ?_⟩
  rw [deletionName, name, List.append_assoc, List.cons_append]

theorem tsToStr_ne_nil (ts : Int) : tsToStr ts ≠ [] := by
  rw [← List.length_pos_iff, length_tsToStr]
  decide

theorem versionOf_versionName (source : Bytes) (ts : Int) :
    VersionOf source (versionName source ts) := by
  refine ⟨tsToStr ts, tsToStr_ne_nil ts, ?_⟩
  rw [versionName, List.append_assoc, List.singleton_append]

theorem versionOf_stem {stem : Bytes} (sourceEq : source = stem ++ underscore :: rest) (ts : Int) :
    VersionOf stem (versionName source ts) := by
  refine ⟨rest ++ underscore :: tsToStr ts, ?_, ?_⟩
  · exact List.append_ne_nil_of_right_ne_nil _ (List.cons_ne_nil _ _)
  · rw [sourceEq, versionName]
    simp only [List.append_assoc, List.cons_append, List.nil_append]

theorem exists_tsToStr {bytes : Bytes} (four : bytes.length = 4) :
    ∃ ts, IsInt ts ∧ tsToStr ts = bytes := by
  have bound := ofLittleEndian_lt bytes
  have image := littleEndian_ofLittleEndian bytes
  rw [four] at bound image
  have whole : bytes.take 4 = bytes := List.take_of_length_le four.le
  refine ⟨strToTs bytes, ?_, ?_⟩
  · rw [strToTs, whole, IsInt]
    split
    · omega
    · omega
  · rw [tsToStr, strToTs, whole]
    split
    · rw [show ((ofLittleEndian bytes : Int) % 4294967296).toNat = ofLittleEndian bytes by omega]
      exact image
    · rw [show ((ofLittleEndian bytes - 4294967296 : Int) % 4294967296).toNat =
        ofLittleEndian bytes by omega]
      exact image

theorem versionOf_part {part : Bytes} (key : Bytes) (short : part.length ≤ 4) :
    ∃ ts, IsInt ts ∧ VersionOf (key ++ underscore :: part) (deletionName key ts) := by
  -- The timestamp is filled up with underscores.
  have four : (part ++ List.replicate (4 - part.length) underscore).length = 4 := by
    rw [List.length_append, List.length_replicate]
    omega
  obtain ⟨ts, int, image⟩ := exists_tsToStr four
  refine ⟨ts, int, List.replicate (4 - part.length) underscore ++ deleteFlag.tail, ?_, ?_⟩
  · exact List.append_ne_nil_of_right_ne_nil _ (List.cons_ne_nil _ _)
  · have shift : List.replicate (4 - part.length) underscore ++ deleteFlag =
        underscore :: (List.replicate (4 - part.length) underscore ++ deleteFlag.tail) := by
      rw [← List.cons_append, ← List.replicate_succ, List.replicate_succ', List.append_assoc]
      rfl
    rw [deletionName, versionName, image, List.append_assoc, List.append_assoc, List.append_assoc,
      shift]
    simp only [List.append_assoc, List.cons_append, List.nil_append]

end Names

section Unseen

variable {source key : Bytes} {kv other : MockKv}

def Agree (source : Bytes) (kv other : MockKv) : Prop :=
  ∀ key, ¬ Reaches source key → kv.query key = other.query key

theorem delete_fst (same : kv.query key = other.query key) (ts : Int) :
    (delete kv key ts).1 = (delete other key ts).1 := by
  rw [delete, delete, same]
  split
  · rfl
  · rfl

theorem select_congr (same : kv.query key = other.query key) (value : Bytes) (ts : Int) :
    select kv key value ts = select other key value ts := by
  rw [select, select, same]

variable {call : StoreCall}

namespace Agree

section

variable (agree : Agree source kv other)

include agree

theorem symm : Agree source other kv := by
  intro key unreached
  exact (agree key unreached).symm

theorem put (name value : Bytes) : Agree source (kv.put name value) (other.put name value) := by
  intro key unreached
  rw [MockKv.query_put, MockKv.query_put, agree key unreached]

theorem put_deletion {middle : Bytes} (reaches : Reaches source middle) (ts : Int) (value : Bytes) :
    Agree source (kv.put (deletionName middle ts) value) other := by
  intro key unreached
  rw [kv.query_put_of_not value fun version => unreached (reaches.deletion version)]
  exact agree key unreached

theorem delete_left {middle : Bytes} (reaches : Reaches source middle) (ts : Int) :
    Agree source (delete kv middle ts).2 other := by
  rw [delete]
  split
  · exact agree
  · exact agree.put_deletion reaches ts []

theorem run_left (writes : call.writes source = true) : Agree source (call.run kv).2 other := by
  cases call with
  | insert rawKey value ts =>
      obtain rfl := of_decide_eq_true writes
      intro key unreached
      have hidden : ¬ VersionOf key (versionName rawKey ts) := fun version =>
        unreached (Reaches.self.deletion (versionOf_deletionName version))
      exact (kv.query_put_of_not value hidden).trans (agree key unreached)
  | delete rawKey ts =>
      obtain rfl := of_decide_eq_true writes
      exact agree.delete_left .self ts
  | select rawKey value ts => exact agree

theorem run (call : StoreCall) : Agree source (call.run kv).2 (call.run other).2 := by
  cases call with
  | insert rawKey value ts => exact agree.put _ value
  | delete rawKey ts =>
      by_cases reaches : Reaches source rawKey
      · exact ((agree.delete_left reaches ts).symm.delete_left reaches ts).symm
      · have same := agree rawKey reaches
        change Agree source (Mvcc.delete kv rawKey ts).2 (Mvcc.delete other rawKey ts).2
        rw [Mvcc.delete, Mvcc.delete, same]
        split
        · exact agree
        · exact agree.put _ []
  | select rawKey value ts => exact agree

theorem observe (unreached : ¬ Reaches source key) (observes : call.observes key = true) :
    (call.run kv).1 = (call.run other).1 := by
  have same := agree key unreached
  cases call with
  | insert rawKey value ts => exact absurd observes Bool.false_ne_true
  | delete rawKey ts =>
      obtain rfl := of_decide_eq_true observes
      exact congrArg (fun result => some (result, [])) (delete_fst same ts)
  | select rawKey value ts =>
      obtain rfl := of_decide_eq_true observes
      exact select_congr same value ts

end

end Agree

theorem observes_eq_false (different : key ≠ source) (writes : call.writes source = true) :
    call.observes key = false := by
  cases call with
  | insert rawKey value ts => rfl
  | delete rawKey ts =>
      obtain rfl := of_decide_eq_true writes
      exact decide_eq_false different.symm
  | select rawKey value ts => exact absurd writes Bool.false_ne_true

theorem Agree.observations (agree : Agree source kv other) (unreached : ¬ Reaches source key)
    (calls : List StoreCall) :
    observations key other (without source calls) = observations key kv calls := by
  have different : key ≠ source := by
    rintro rfl
    exact unreached .self
  induction calls generalizing kv other with
  | nil => rfl
  | cons call calls ih =>
      by_cases writes : call.writes source = true
      · have later := ih (agree.run_left writes)
        have skipped : without source (call :: calls) = without source calls := by
          simp only [without, List.filter_cons, writes, Bool.not_true, Bool.false_eq_true,
            if_false]
        simp only [skipped, later, Mvcc.observations, observes_eq_false different writes,
          Bool.false_eq_true, if_false]
      · have later := ih (agree.run call)
        have kept : without source (call :: calls) = call :: without source calls := by
          simp only [without, List.filter_cons, writes, Bool.not_false, if_true]
        simp only [kept, Mvcc.observations, later]
        split
        next observes => rw [agree.observe unreached observes]
        next => rfl

end Unseen

section Seen

variable {source key : Bytes}

structure Probe (source : Bytes) (calls : List StoreCall) : Prop where
  int : ∀ call ∈ calls, IsInt call.ts
  calls : ∀ call ∈ calls, call.writes source = true ∨ ∃ rawKey ts, call = .delete rawKey ts

theorem isInt_zero : IsInt 0 :=
  ⟨by decide, by decide⟩

namespace Probe

theorem delete {calls : List StoreCall} (probe : Probe source calls) {ts : Int} (int : IsInt ts)
    (rawKey : Bytes) : Probe source (calls ++ [.delete rawKey ts]) where
  int := by
    intro call member
    rcases List.mem_append.mp member with old | new
    · exact probe.int call old
    · rwa [List.mem_singleton.mp new]
  calls := by
    intro call member
    rcases List.mem_append.mp member with old | new
    · exact probe.calls call old
    · exact .inr ⟨rawKey, ts, List.mem_singleton.mp new⟩

theorem insert (source : Bytes) : Probe source [.insert source [] 0] where
  int := by
    intro call member
    rw [List.mem_singleton.mp member]
    exact isInt_zero
  calls := by
    intro call member
    rw [List.mem_singleton.mp member]
    exact .inl (decide_eq_true rfl)

theorem after_without {calls : List StoreCall} (probe : Probe source calls) :
    after .empty (without source calls) = .empty := by
  have deletions : ∀ call ∈ without source calls, ∃ rawKey ts, call = .delete rawKey ts := by
    intro call member
    obtain ⟨old, kept⟩ := List.mem_filter.mp member
    rcases probe.calls call old with writes | deletion
    · rw [writes] at kept
      exact absurd kept Bool.false_ne_true
    · exact deletion
  revert deletions
  generalize without source calls = kept
  intro deletions
  induction kept with
  | nil => rfl
  | cons call rest ih =>
      obtain ⟨rawKey, ts, rfl⟩ := deletions call List.mem_cons_self
      exact ih fun other member =>
        deletions other (List.mem_cons_of_mem _ member)

end Probe

theorem delete_eq {kv : MockKv} (found : kv.query key ≠ []) (ts : Int) :
    delete kv key ts = (true, kv.put (deletionName key ts) []) :=
  if_neg found

theorem Reaches.probe (reaches : Reaches source key) :
    ∃ calls, Probe source calls ∧ (after .empty calls).query key ≠ [] := by
  induction reaches with
  | self => exact ⟨_, .insert source, MockKv.query_put_ne_nil _ [] (versionOf_versionName source 0)⟩
  | stem sourceEq =>
      exact ⟨_, .insert source, MockKv.query_put_ne_nil _ [] (versionOf_stem sourceEq 0)⟩
  | @part key part reaches short ih =>
      obtain ⟨calls, probe, found⟩ := ih
      obtain ⟨ts, int, version⟩ := versionOf_part key short
      refine ⟨calls ++ [.delete key ts], probe.delete int key, ?_⟩
      have written : after .empty (calls ++ [.delete key ts]) =
          (after .empty calls).put (deletionName key ts) [] := by
        rw [after, List.foldl_append]
        exact congrArg Prod.snd (delete_eq found ts)
      rw [written]
      exact MockKv.query_put_ne_nil _ [] version

end Seen

theorem reaches_iff_of_plain {other key : Bytes} (plain : underscore ∉ key) :
    Reaches other key ↔ key = other ∨ key ++ [underscore] <+: other := by
  constructor
  · intro reaches
    cases reaches with
    | self => exact .inl rfl
    | @stem _ rest sourceEq =>
        refine .inr ⟨rest, ?_⟩
        rw [sourceEq, List.append_assoc, List.singleton_append]
    | part reaches short =>
        exact absurd (List.mem_append_right _ List.mem_cons_self) plain
  · rintro (rfl | ⟨rest, rfl⟩)
    · exact .self
    · exact .stem (List.append_cons key underscore rest).symm

/-- The calls for the second key matter neither to what the `Select`s for the first key give
nor to what its `Delete`s return. -/
def NonInterfering (key other : Bytes) : Prop :=
  ∀ calls : List StoreCall, (∀ call ∈ calls, IsInt call.ts) →
    observations key .empty (without other calls) = observations key .empty calls

/-- Calls for another key do not interfere exactly when the key is not in their reach. -/
theorem keys_do_not_interfere_iff {key other : Bytes} (different : key ≠ other) :
    NonInterfering key other ↔ ¬ Reaches other key := by
  constructor
  · intro nonInterfering reaches
    obtain ⟨calls, probe, found⟩ := reaches.probe
    have kept : without other (calls ++ [.delete key 0]) =
        without other calls ++ [.delete key 0] := by
      rw [without, List.filter_append]
      simp [without, StoreCall.writes, different]
    have same := nonInterfering _ (probe.delete isInt_zero key).int
    rw [kept, observations_append, observations_append, probe.after_without] at same
    -- The last observation is what the deletion for the key returns.
    have last := congrArg List.getLast? same
    have missed : (delete .empty key 0).1 = false := rfl
    simp [observations, StoreCall.observes, StoreCall.run, delete_eq found, missed] at last
  · intro unreached calls _
    exact Agree.observations (fun _ _ => rfl) unreached calls

theorem keys_do_not_interfere_iff_letters :
    NonInterfering [⟨97, by decide⟩] [⟨98, by decide⟩] := by
  refine (keys_do_not_interfere_iff (by decide)).mpr ?_
  rw [reaches_iff_of_plain (by decide)]
  decide

/-- The `Delete` for `"a"` finds a version of `"a_b"`. -/
theorem delete_sees_longer_key :
    ¬ NonInterfering [⟨97, by decide⟩] [⟨97, by decide⟩, underscore, ⟨98, by decide⟩] := by
  intro nonInterfering
  have same := nonInterfering [.insert [⟨97, by decide⟩, underscore, ⟨98, by decide⟩] [] 1,
    .delete [⟨97, by decide⟩] 1] (by simp [IsInt, StoreCall.ts])
  revert same
  decide

end Ctgfs.Mvcc
