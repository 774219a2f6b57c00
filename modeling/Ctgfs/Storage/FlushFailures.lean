import Ctgfs.Storage.Memtable

/-!
# Flushes that fail

Any `open` and any `write` of a flush may fail.  A failure of the first three calls is
reported, and `MinorFreeze` keeps the frozen set.  A failure of the write of the records is
only logged: the flush returns `OK`, and the set is given up for a table without records.
A set that was kept is given up as well, at the next freeze.
-/

namespace Ctgfs.Storage

open Foundation

namespace Memtable

/-- A `Memtable` after `Init`, with whatever its `SSTMgr` has found. -/
def opened (maxSize : Nat) (dir : SstDir) : Memtable :=
  ⟨0, maxSize, .empty, none, dir⟩

end Memtable

/-- A call of `Add`, with the calls of its flush and the status that it returns. -/
structure AddCall where
  log : Log
  calls : FileCalls
  ok : Bool
  deriving DecidableEq, Repr

namespace Memtable

variable (memtable : Memtable)

def AddsWith (call : AddCall) (next : Memtable) : Prop :=
  ∃ complete, memtable.addWith call.calls call.log = .ok ⟨call.ok, complete, next⟩

/-- A log is in the set, in the frozen set or in a table with some logs. -/
def HasBy (reads : SStable → List Log → Prop) (memtable : Memtable) (log : Log) : Prop :=
  log ∈ memtable.memMap.logs ∨ (∃ frozen ∈ memtable.iMemMap, log ∈ frozen.logs) ∨
    ∃ sst ∈ memtable.dir.mgr.ssts, ∃ logs, reads sst logs ∧ log ∈ logs

def Has : Log → Prop :=
  memtable.HasBy fun sst logs => ∀ junk, sst.logs junk memtable.dir.disk = .ok logs

def Stores : Log → Prop :=
  memtable.HasBy fun sst logs => sst.Holds memtable.dir.disk logs

def frozenTable : Option SStable :=
  memtable.memMap.logs.getLast?.map fun lastLog =>
    SstMgr.fill (fileName ((memtable.dir.mgr.id + 1) % wordLimit)) lastLog memtable.memMap.logs

/-- A freeze of this `Add` finds no set that is not flushed yet and no file with the name of
its table, and it writes the records when it has written the head. -/
def FreezesSafely (call : AddCall) : Prop :=
  memtable.maxSize < (memtable.insert call.log).dataSize →
    memtable.iMemMap = none ∧
      ∀ sst, (memtable.insert call.log).frozenTable = some sst →
        memtable.dir.disk sst.filename = none ∧ sst.DataFollows call.calls

end Memtable

section Dropped

variable {added : List AddCall} {memtable next : Memtable} {log : Log} {call : AddCall}

theorem Memtable.Stores.has (stores : memtable.Stores log) : memtable.Has log := by
  obtain inMem | frozen | ⟨sst, listed, logs, holds, inside⟩ := stores
  · exact Or.inl inMem
  · exact Or.inr (Or.inl frozen)
  · exact Or.inr (Or.inr ⟨sst, listed, logs, holds.logs_eq, inside⟩)

structure Remembers (added : List AddCall) (memtable : Memtable) : Prop where
  room : memtable.dataSize ≤ memtable.maxSize
  known : ∀ log ∈ memtable.memMap.logs, log ∈ added.map AddCall.log
  stores : ∀ call ∈ added, memtable.Stores call.log

/-- The table that is filled has a head as `Init` makes it, and its bytes are those of a
file with the logs. -/
theorem SstMgr.built_fill {filename : Bytes} {lastLog : Log} {logs : List Log}
    (last : lastLog.Built) (built : ∀ log ∈ logs, log.Built) :
    (SstMgr.fill filename lastLog logs).head.Built ∧
      (SstMgr.fill filename lastLog logs).image =
        tableFile (SstMgr.fill filename lastLog logs).head logs := by
  obtain ⟨dataSize, fits, appended⟩ :=
    SStable.foldl_append (.init filename lastLog) built (show 0 < wordLimit by decide)
  rw [SstMgr.fill, appended]
  exact ⟨SStable.init_built filename last fits, rfl⟩

variable {calls : FileCalls}

theorem stores_minorFreezeWith {ok complete : Bool}
    (built : ∀ log ∈ memtable.memMap.logs, log.Built) (free : memtable.iMemMap = none)
    (safe : ∀ sst, memtable.frozenTable = some sst →
      memtable.dir.disk sst.filename = none ∧ sst.DataFollows calls)
    (frozen : memtable.minorFreezeWith calls = .ok ⟨ok, complete, next⟩)
    (stores : memtable.Stores log) : next.Stores log := by
  rw [Memtable.minorFreezeWith] at frozen
  rw [Memtable.frozenTable] at safe
  cases last : memtable.memMap.logs.getLast? with
  | none =>
      rw [last] at frozen
      cases frozen
  | some lastLog =>
      rw [last] at frozen safe
      obtain ⟨rfl, -, rfl⟩ := Written.mk.inj (Except.ok.inj frozen)
      obtain ⟨fresh, follows⟩ := safe _ rfl
      obtain ⟨head, image⟩ := SstMgr.built_fill (built lastLog (List.mem_of_getLast? last)) built
      have flushed := SStable.flushed calls head fresh
      -- the tables that there are do not lie in the new file
      have survives : ∀ file (sst : SStable) logs, sst.Holds memtable.dir.disk logs →
          sst.Holds (Function.update memtable.dir.disk (SstMgr.fill
            (fileName ((memtable.dir.mgr.id + 1) % wordLimit)) lastLog
              memtable.memMap.logs).filename file) logs := by
        intro file sst logs holds
        refine holds.update ?_ file
        intro same
        rw [← same, holds.stored] at fresh
        cases fresh
      rw [SstMgr.flushWith]
      revert flushed
      generalize SStable.flushWith calls memtable.dir.disk _ = result
      intro flushed
      obtain inMem | ⟨other, held, -⟩ | ⟨sst, listed, logs, holds, inside⟩ := stores
      · cases flushed with
        | failed file => exact Or.inr (Or.inl ⟨memtable.memMap, rfl, inMem⟩)
        | headOnly lost => exact absurd follows lost
        | complete small =>
            refine Or.inr (Or.inr ⟨_, List.mem_append_right _ (List.mem_singleton_self _),
              memtable.memMap.logs, ⟨head, built, ?_, ?_⟩, inMem⟩)
            · rw [← image]
              exact Function.update_self ..
            · rw [← image]
              exact small
      · rw [free] at held
        cases held
      · cases flushed with
        | failed file => exact Or.inr (Or.inr ⟨sst, listed, logs, survives _ _ _ holds, inside⟩)
        | headOnly lost => exact absurd follows lost
        | complete small =>
            exact Or.inr (Or.inr ⟨sst, List.mem_append_left _ listed, logs,
              survives _ _ _ holds, inside⟩)

theorem Memtable.minorFreezeWith_ok {written : Written Memtable}
    (frozen : memtable.minorFreezeWith calls = .ok written) :
    written.result.memMap = .empty ∧ written.result.dataSize = 0 := by
  rw [minorFreezeWith] at frozen
  split at frozen
  · cases frozen
  · obtain rfl := Except.ok.inj frozen
    exact ⟨rfl, rfl⟩

namespace Remembers

theorem addWith_returns (remembers : Remembers added memtable) (calls : FileCalls) (log : Log) :
    ∃ written, memtable.addWith calls log = .ok written := by
  rw [Memtable.addWith, if_neg (not_lt.mpr remembers.room)]
  split
  · exact Memtable.minorFreezeWith_returns calls (insertLog_ne_nil _ _)
  · exact ⟨_, rfl⟩

theorem insert (remembers : Remembers added memtable)
    (fresh : ∀ other ∈ added, other.log.lsn ≠ call.log.lsn) :
    (∀ log ∈ (memtable.insert call.log).memMap.logs, log ∈ (added ++ [call]).map AddCall.log) ∧
      ∀ other ∈ added ++ [call], (memtable.insert call.log).Stores other.log := by
  have new : ∀ other ∈ memtable.memMap.logs, other.lsn ≠ call.log.lsn := by
    intro other member
    obtain ⟨earlier, inside, rfl⟩ := List.mem_map.mp (remembers.known other member)
    exact fresh earlier inside
  have inserted : (memtable.insert call.log).memMap.logs.Perm (call.log :: memtable.memMap.logs) :=
    insertLog_perm new
  rw [List.map_append]
  constructor
  · intro log member
    rcases List.mem_cons.mp (inserted.mem_iff.mp member) with rfl | old
    · exact List.mem_append_right _ (List.mem_singleton_self _)
    · exact List.mem_append_left _ (remembers.known log old)
  · intro other member
    rcases List.mem_append.mp member with old | last
    · exact (remembers.stores other old).imp_left fun inMem =>
        inserted.mem_iff.mpr (List.mem_cons_of_mem _ inMem)
    · rw [List.mem_singleton.mp last]
      exact Or.inl (inserted.mem_iff.mpr List.mem_cons_self)

theorem add (remembers : Remembers added memtable)
    (built : ∀ other ∈ added ++ [call], other.log.Built)
    (fresh : ∀ other ∈ added, other.log.lsn ≠ call.log.lsn) (safe : memtable.FreezesSafely call)
    (ran : memtable.AddsWith call next) : Remembers (added ++ [call]) next := by
  obtain ⟨known, stores⟩ := remembers.insert fresh
  obtain ⟨complete, ran⟩ := ran
  rw [Memtable.addWith, if_neg (not_lt.mpr remembers.room)] at ran
  split at ran
  next full =>
    obtain ⟨free, table⟩ := safe full
    have logsBuilt : ∀ log ∈ (memtable.insert call.log).memMap.logs, log.Built := by
      intro log member
      obtain ⟨other, inside, rfl⟩ := List.mem_map.mp (known log member)
      exact built other inside
    obtain ⟨empty, zero⟩ := Memtable.minorFreezeWith_ok ran
    refine ⟨by rw [zero]; exact Nat.zero_le _, ?_, ?_⟩
    · rw [empty]
      rintro log ⟨⟩
    · intro other member
      exact stores_minorFreezeWith logsBuilt free table ran (stores other member)
  next space =>
    obtain ⟨-, -, rfl⟩ := Written.mk.inj (Except.ok.inj ran)
    exact ⟨not_lt.mp space, known, stores⟩

end Remembers

variable {maxSize : Nat}

theorem remembers_of_run {dir : SstDir}
    (run : Run (Guarded Memtable.AddsWith Memtable.FreezesSafely) (.opened maxSize dir) added
      memtable) (built : ∀ call ∈ added, call.log.Built)
    (distinct : (added.map fun call => call.log.lsn).Nodup) : Remembers added memtable := by
  refine run.history (fun added memtable => (∀ call ∈ added, call.log.Built) →
    (added.map fun call => call.log.lsn).Nodup → Remembers added memtable) ?_ ?_ built distinct
  · intro _ _
    refine ⟨Nat.zero_le _, ?_, ?_⟩
    · rintro log ⟨⟩
    · rintro call ⟨⟩
  · rintro added memtable call next ih ⟨safe, ran⟩ built distinct
    rw [List.map_append, List.nodup_append] at distinct
    have remembers := ih
      (fun other member => built other (List.mem_append_left _ member)) distinct.1
    refine remembers.add built ?_ safe ran
    intro other member
    exact distinct.2.2 _ (List.mem_map_of_mem member) _ (by simp)

/-- The counter is at most the number of calls, and files have the names of numbers up to it. -/
structure Numbered (bound : Nat) (memtable : Memtable) : Prop where
  few : memtable.dir.mgr.id ≤ bound
  only : ∀ file, sstPrefix <+: file → (memtable.dir.disk file).isSome →
    ∃ i < memtable.dir.mgr.id, file = fileName (i + 1)

theorem Memtable.minorFreezeWith_dir {written : Written Memtable}
    (frozen : memtable.minorFreezeWith calls = .ok written) :
    written.result.dir.mgr.id = (memtable.dir.mgr.id + 1) % wordLimit ∧
      ∃ contents, written.result.dir.disk = Function.update memtable.dir.disk
        (fileName ((memtable.dir.mgr.id + 1) % wordLimit)) contents := by
  rw [Memtable.minorFreezeWith] at frozen
  split at frozen
  · cases frozen
  next lastLog last =>
    obtain rfl := Except.ok.inj frozen
    obtain ⟨⟨contents, updated⟩, -⟩ := SStable.flushWith_spec calls memtable.dir.disk
      (SstMgr.fill (fileName ((memtable.dir.mgr.id + 1) % wordLimit)) lastLog memtable.memMap.logs)
    rw [SstMgr.filename_fill] at updated
    exact ⟨rfl, contents, updated⟩

theorem Memtable.AddsWith.dir (ran : memtable.AddsWith call next) :
    next.dir = memtable.dir ∨ next.dir.mgr.id = (memtable.dir.mgr.id + 1) % wordLimit ∧
      ∃ contents, next.dir.disk = Function.update memtable.dir.disk
        (fileName ((memtable.dir.mgr.id + 1) % wordLimit)) contents := by
  obtain ⟨complete, ran⟩ := ran
  rw [Memtable.addWith] at ran
  split at ran
  · exact .inr (Memtable.minorFreezeWith_dir ran)
  split at ran
  · have frozen := Memtable.minorFreezeWith_dir ran
    exact .inr frozen
  · obtain ⟨-, -, rfl⟩ := Written.mk.inj (Except.ok.inj ran)
    exact .inl rfl

theorem Numbered.add {bound : Nat} (numbered : Numbered bound memtable)
    (fits : bound + 1 < wordLimit) (ran : memtable.AddsWith call next) :
    Numbered (bound + 1) next := by
  obtain ⟨few, only⟩ := numbered
  rcases ran.dir with same | ⟨counted, contents, updated⟩
  · rw [← same] at few only
    exact ⟨Nat.le_succ_of_le few, only⟩
  rw [Nat.mod_eq_of_lt (by omega)] at counted updated
  refine ⟨counted ▸ Nat.succ_le_succ few, fun file start present => ?_⟩
  rw [counted]
  by_cases new : file = fileName (memtable.dir.mgr.id + 1)
  · exact ⟨memtable.dir.mgr.id, Nat.lt_succ_self _, new⟩
  · rw [updated, Function.update_of_ne new] at present
    obtain ⟨i, inside, name⟩ := only file start present
    exact ⟨i, Nat.lt_succ_of_lt inside, name⟩

theorem Numbered.newFile {bound : Nat} (numbered : Numbered bound memtable)
    (fits : bound + 1 < wordLimit) :
    memtable.dir.disk (fileName ((memtable.dir.mgr.id + 1) % wordLimit)) = none := by
  have few := numbered.few
  rw [Nat.mod_eq_of_lt (by omega)]
  by_contra present
  obtain ⟨i, inside, name⟩ :=
    numbered.only _ (sstPrefix_fileName _) (Option.isSome_iff_ne_none.mpr present)
  have same := fileName_injective (by omega) (by omega) name
  omega

theorem numbered_of_run {disk : Disk} (clean : ∀ file, sstPrefix <+: file → disk file = none)
    (run : Run Memtable.AddsWith (.new maxSize disk) added memtable)
    (fits : added.length + 1 < wordLimit) : Numbered added.length memtable := by
  refine run.history (fun added memtable => added.length + 1 < wordLimit →
    Numbered added.length memtable) ?_ ?_ fits
  · refine fun _ => ⟨Nat.le_refl _, fun file start present => ?_⟩
    have absent : (Memtable.new maxSize disk).dir.disk file = none := clean file start
    rw [absent] at present
    cases present
  · intro added memtable call next ih ran fits
    rw [List.length_append, List.length_singleton] at fits ⊢
    exact (ih (by omega)).add (by omega) ran

/-- In a directory without tables, the file of the next table is new in every state: this
part of `FreezesSafely` fails only after a restart. -/
theorem newFile_of_run {disk : Disk} (clean : ∀ file, sstPrefix <+: file → disk file = none)
    (run : Run Memtable.AddsWith (.new maxSize disk) added memtable)
    (fits : added.length + 1 < wordLimit) :
    memtable.dir.disk (fileName ((memtable.dir.mgr.id + 1) % wordLimit)) = none :=
  (numbered_of_run clean run fits).newFile fits

/-- In a directory without tables, no `Add` touches a file that is there, whatever file calls have
failed before: what a flush has written stays as it is. -/
theorem tables_never_overwritten {maxSize : Nat} {disk : Disk} {more : List AddCall}
    {last : Memtable} (clean : ∀ file, sstPrefix <+: file → disk file = none)
    (run : Run Memtable.AddsWith (.new maxSize disk) added memtable)
    (later : Run Memtable.AddsWith memtable more last)
    (fits : added.length + more.length + 1 < wordLimit) {file : Bytes}
    (present : memtable.dir.disk file ≠ none) :
    last.dir.disk file = memtable.dir.disk file := by
  have numbered := numbered_of_run clean run (by omega)
  refine (later.history (fun more last => added.length + more.length + 1 < wordLimit →
    Numbered (added.length + more.length) last ∧ last.dir.disk file = memtable.dir.disk file)
    ?_ ?_ fits).2
  · exact fun _ => ⟨numbered, rfl⟩
  · intro more state call next ih ran fits
    rw [List.length_append, List.length_singleton, ← Nat.add_assoc] at fits ⊢
    obtain ⟨numbered, kept⟩ := ih (by omega)
    refine ⟨numbered.add (by omega) ran, ?_⟩
    rcases ran.dir with same | ⟨-, contents, updated⟩
    · rw [same, kept]
    · have apart : file ≠ fileName ((state.dir.mgr.id + 1) % wordLimit) := by
        rintro rfl
        exact present (kept.symm.trans (numbered.newFile (by omega)))
      rw [updated, Function.update_of_ne apart, kept]

/-- The records of one table cannot be written, and the file of the next one cannot be opened. -/
theorem tables_never_overwritten_unopened :
    ∃ memtable last : Memtable, memtable.dir.mgr.id = 1 ∧ last.dir.mgr.id = 2 ∧
      last.dir.disk (fileName 1) = memtable.dir.disk (fileName 1) := by
  let full : Memtable := (Memtable.new 10 fun _ => none).insert (Log.make 1 .put [97] [98])
  let sst : SStable :=
    SstMgr.fill (fileName 1) (Log.make 1 .put [97] [98]) [Log.make 1 .put [97] [98]]
  let disk : Disk := Function.update (fun _ => none) (fileName 1)
    (some (frame sst.head.bytes.length sst.head.bytes))
  let after : Memtable :=
    { full with dataSize := 0, memMap := .empty, iMemMap := none, dir := ⟨disk, ⟨1, [sst]⟩⟩ }
  let last : Memtable :=
    { after with
      iMemMap := some (after.insert (Log.make 2 .del [97] [])).memMap
      dir := ⟨disk, ⟨2, [sst]⟩⟩ }
  have first : (Memtable.new 10 fun _ => none).AddsWith
      ⟨Log.make 1 .put [97] [98], ⟨true, true, true, false⟩, true⟩ after := ⟨false, rfl⟩
  have second : after.AddsWith
      ⟨Log.make 2 .del [97] [], ⟨false, true, true, true⟩, false⟩ last := ⟨false, rfl⟩
  have present : disk (fileName 1) ≠ none := by simp [disk]
  exact ⟨after, last, rfl, rfl, tables_never_overwritten (fun _ _ => rfl) (Run.refl.tail first)
    (Run.refl.tail second) (by decide) present⟩

/-- While every freeze is safe, each log that was added is in the set, in the frozen set or
readable from a table, whatever calls fail otherwise, and every further `Add` returns. -/
theorem no_log_dropped {maxSize : Nat} {dir : SstDir}
    (run : Run (Guarded Memtable.AddsWith Memtable.FreezesSafely) (.opened maxSize dir) added
      memtable)
    (built : ∀ call ∈ added, call.log.Built)
    (distinct : (added.map fun call => call.log.lsn).Nodup) :
    (∀ call ∈ added, memtable.Has call.log) ∧
      ∀ calls log, ∃ written, memtable.addWith calls log = .ok written := by
  have remembers := remembers_of_run run built distinct
  exact ⟨fun call member => (remembers.stores call member).has, remembers.addWith_returns⟩

/-- The set with two logs is frozen, and its file cannot be opened. -/
theorem no_log_dropped_unopened :
    ∃ memtable, Run Memtable.AddsWith (.opened 40 ⟨fun _ => none, .new⟩)
        [⟨Log.make 1 .put [97] [98], .all, true⟩,
          ⟨Log.make 2 .del [97] [], ⟨false, true, true, true⟩, false⟩] memtable ∧
      memtable.Has (Log.make 1 .put [97] [98]) ∧ memtable.Has (Log.make 2 .del [97] []) := by
  let start : Memtable := .opened 40 ⟨fun _ => none, .new⟩
  let one : Memtable := start.insert (Log.make 1 .put [97] [98])
  let full : Memtable := one.insert (Log.make 2 .del [97] [])
  let two : Memtable :=
    { full with
      dataSize := 0, memMap := .empty, iMemMap := some full.memMap
      dir := ⟨fun _ => none, ⟨1, []⟩⟩ }
  let closed : FileCalls := ⟨false, true, true, true⟩
  have first : Guarded Memtable.AddsWith Memtable.FreezesSafely start
      ⟨Log.make 1 .put [97] [98], .all, true⟩ one :=
    ⟨fun full => absurd full (by decide), true, rfl⟩
  have second : Guarded Memtable.AddsWith Memtable.FreezesSafely one
      ⟨Log.make 2 .del [97] [], closed, false⟩ two := by
    refine ⟨fun _ => ⟨rfl, fun sst _ => ⟨rfl, ?_⟩⟩, false, rfl⟩
    intro opened
    cases opened
  have built : ∀ call ∈ [(⟨Log.make 1 .put [97] [98], .all, true⟩ : AddCall),
      ⟨Log.make 2 .del [97] [], closed, false⟩], call.log.Built := by
    simp only [List.mem_cons, List.not_mem_nil, or_false]
    rintro call (rfl | rfl)
    · exact Log.built_make _ (by decide) (by decide)
    · exact Log.built_make _ (by decide) (by decide)
  obtain ⟨has, -⟩ := no_log_dropped ((Run.refl.tail first).tail second) built (by decide)
  exact ⟨two, (Run.refl.tail first.2).tail second.2, has _ List.mem_cons_self,
    has _ (List.mem_cons_of_mem _ List.mem_cons_self)⟩

/-- A flush whose write of the records fails returns `OK`, and the log is in no place. -/
theorem failed_write_drops_log :
    ∃ memtable, Run Memtable.AddsWith (.new 10 fun _ => none)
        [⟨Log.make 1 .put [97] [98], ⟨true, true, true, false⟩, true⟩] memtable ∧
      ¬ memtable.Has (Log.make 1 .put [97] [98]) := by
  let full : Memtable := (Memtable.new 10 fun _ => none).insert (Log.make 1 .put [97] [98])
  let sst : SStable :=
    SstMgr.fill (fileName 1) (Log.make 1 .put [97] [98]) [Log.make 1 .put [97] [98]]
  let disk : Disk := Function.update (fun _ => none) (fileName 1)
    (some (frame sst.head.bytes.length sst.head.bytes))
  let after : Memtable :=
    { full with dataSize := 0, memMap := .empty, iMemMap := none, dir := ⟨disk, ⟨1, [sst]⟩⟩ }
  have fails : (Memtable.new 10 fun _ => none).AddsWith
      ⟨Log.make 1 .put [97] [98], ⟨true, true, true, false⟩, true⟩ after := ⟨false, rfl⟩
  refine ⟨after, Run.refl.tail fails, ?_⟩
  rintro (inMem | ⟨frozen, held, -⟩ | ⟨table, listed, logs, reads, inside⟩)
  · cases inMem
  · cases held
  · obtain rfl := List.mem_singleton.mp listed
    have empty : sst.logs (fun _ _ => nullByte) disk = .ok [] := rfl
    obtain rfl := Except.ok.inj (empty.symm.trans (reads fun _ _ => nullByte))
    cases inside

/-- A frozen set that could not be flushed is given up at the next freeze. -/
theorem next_freeze_drops_log :
    ∃ memtable, Run Memtable.AddsWith (.new 10 fun _ => none)
        [⟨Log.make 1 .put [97] [98], ⟨false, true, true, true⟩, false⟩,
          ⟨Log.make 2 .put [99] [100], ⟨false, true, true, true⟩, false⟩] memtable ∧
      ¬ memtable.Has (Log.make 1 .put [97] [98]) := by
  let start : Memtable := .new 10 fun _ => none
  let kept (log : Log) (id : Nat) : Memtable :=
    { start with iMemMap := some (MemMap.empty.insert log), dir := ⟨fun _ => none, ⟨id, []⟩⟩ }
  have first : start.AddsWith ⟨Log.make 1 .put [97] [98], ⟨false, true, true, true⟩, false⟩
      (kept (Log.make 1 .put [97] [98]) 1) := ⟨false, rfl⟩
  have second : (kept (Log.make 1 .put [97] [98]) 1).AddsWith
      ⟨Log.make 2 .put [99] [100], ⟨false, true, true, true⟩, false⟩
      (kept (Log.make 2 .put [99] [100]) 2) := ⟨false, rfl⟩
  refine ⟨_, (Run.refl.tail first).tail second, ?_⟩
  rintro (inMem | ⟨frozen, held, inside⟩ | ⟨table, listed, -⟩)
  · cases inMem
  · obtain rfl := Option.some.inj held
    exact absurd inside (by decide)
  · cases listed

end Dropped

end Ctgfs.Storage
