import Mathlib.Data.List.Perm.Basic
import Mathlib.Data.List.Nodup
import Ctgfs.Foundation.Runs
import Ctgfs.Storage.SStable

/-!
# The tables of a directory

`SSTMgr` names its files by a counter and finds them again, after a restart, by the
beginning of their names.  The counter is not restored: it starts from zero in every
incarnation, so a flush that follows a restart writes over the table that was flushed
first.
-/

namespace Ctgfs.Storage

open Foundation

section Names

def byteOf (character : Char) : Byte :=
  ⟨character.toNat % 256, Nat.mod_lt _ (by decide)⟩

def sstPrefix : Bytes :=
  ['C', 't', 'g', 'S', 'S', 'T'].map byteOf

def hexDigit (digit : Nat) : Byte :=
  byteOf (Nat.digitChar digit)

def hexReversed : Nat → Nat → Bytes
  | 0, _ => []
  | fuel + 1, number =>
      if number < 16 then [hexDigit number]
      else hexDigit (number % 16) :: hexReversed fuel (number / 16)

/-- The name that `nextFileName` makes of the counter, with the format `".0x%lx"`. -/
def fileName (id : Nat) : Bytes :=
  sstPrefix ++ ['.', '0', 'x'].map byteOf ++ (hexReversed 16 id).reverse

theorem hexDigit_injective :
    ∀ first < 16, ∀ second < 16, hexDigit first = hexDigit second → first = second := by
  decide

theorem hexReversed_ne_nil {fuel : Nat} (positive : fuel ≠ 0) (number : Nat) :
    hexReversed fuel number ≠ [] := by
  cases fuel with
  | zero => exact absurd rfl positive
  | succ fuel =>
      rw [hexReversed]
      split
      · exact List.cons_ne_nil _ _
      · exact List.cons_ne_nil _ _

theorem hexReversed_injective (fuel : Nat) {first second : Nat} (firstFits : first < 16 ^ fuel)
    (secondFits : second < 16 ^ fuel)
    (same : hexReversed fuel first = hexReversed fuel second) : first = second := by
  induction fuel generalizing first second with
  | zero => omega
  | succ fuel ih =>
      rw [hexReversed, hexReversed] at same
      rw [Nat.pow_succ'] at firstFits secondFits
      have deeper : ∀ number : Nat, number < 16 * 16 ^ fuel → ¬ number < 16 →
          hexReversed fuel (number / 16) ≠ [] := by
        intro number fits large
        apply hexReversed_ne_nil
        rintro rfl
        omega
      split at same
      next firstSmall =>
        split at same
        next secondSmall =>
          exact hexDigit_injective _ firstSmall _ secondSmall (List.cons.inj same).1
        next secondLarge =>
          exact absurd (List.cons.inj same).2.symm (deeper second secondFits secondLarge)
      next firstLarge =>
        split at same
        next secondSmall =>
          exact absurd (List.cons.inj same).2 (deeper first firstFits firstLarge)
        next secondLarge =>
          obtain ⟨digit, rest⟩ := List.cons.inj same
          have low := hexDigit_injective _ (Nat.mod_lt _ (by decide)) _ (Nat.mod_lt _ (by decide))
            digit
          have high := ih (by omega) (by omega) rest
          omega

theorem fileName_injective {first second : Nat} (firstFits : first < wordLimit)
    (secondFits : second < wordLimit) (same : fileName first = fileName second) :
    first = second := by
  apply hexReversed_injective 16 firstFits secondFits
  exact List.reverse_injective (List.append_cancel_left same)

theorem sstPrefix_fileName (id : Nat) : sstPrefix <+: fileName id := by
  rw [fileName, List.append_assoc]
  exact List.prefix_append _ _

end Names

structure SstMgr where
  id : Nat
  ssts : List SStable
  deriving DecidableEq, Repr

namespace SstMgr

def new : SstMgr := ⟨0, []⟩

/-- `SSTMgr::Recover`, with what uninitialised memory holds when a file is read. -/
def recover (junk : Bytes → Nat → Byte) (disk : Disk) : List Bytes → Except Failure (List SStable)
  | [] => .ok []
  | file :: files => do
      let sst ← SStable.recover (junk file) disk file
      let ssts ← recover junk disk files
      return sst :: ssts

/-- `SSTMgr::Init` of a new manager, with the files that the directory lists.  The counter
is set to zero whatever was recovered. -/
def init (junk : Bytes → Nat → Byte) (disk : Disk) (files : List Bytes) :
    Except Failure SstMgr := do
  let ssts ← recover junk disk files
  return { id := 0, ssts }

/-- The table that `SSTFlusher::Flush` fills from the iterator before it writes it. -/
def fill (filename : Bytes) (lastLog : Log) (logs : List Log) : SStable :=
  logs.foldl SStable.append (.init filename lastLog)

theorem filename_fill (filename : Bytes) (lastLog : Log) (logs : List Log) :
    (fill filename lastLog logs).filename = filename := by
  have unchanged : ∀ sst : SStable, (logs.foldl SStable.append sst).filename = sst.filename := by
    induction logs with
    | nil => exact fun _ => rfl
    | cons log rest ih =>
        intro sst
        rw [List.foldl_cons, ih, SStable.append]
  exact unchanged _

/-- `SSTMgr::Flush` of the logs that the iterator yields, with file calls that may fail.  The
counter moves on in any case. -/
def flushWith (calls : FileCalls) (mgr : SstMgr) (disk : Disk) (logs : List Log) (lastLog : Log) :
    Written (SstMgr × Disk) :=
  let id := (mgr.id + 1) % wordLimit
  let sst := fill (fileName id) lastLog logs
  let flushed := sst.flushWith calls disk
  ⟨flushed.ok, flushed.complete,
    ⟨id, if flushed.ok then mgr.ssts ++ [sst] else mgr.ssts⟩, flushed.result⟩

def flush (mgr : SstMgr) (disk : Disk) (logs : List Log) (lastLog : Log) :
    Except Failure (SstMgr × Disk) :=
  (mgr.flushWith .all disk logs lastLog).toExcept

end SstMgr

structure SstDir where
  disk : Disk
  mgr : SstMgr

inductive SstEvent where
  /-- `Flush` with what its iterator yields. -/
  | flush (logs : List Log) (lastLog : Log)
  /-- `Stop`, then a new `SSTMgr` and `Init`, with the listing of the directory. -/
  | restart (files : List Bytes) (junk : Bytes → Nat → Byte)

/-- What `getFilesFromDir_` can return: the regular files whose names start with
`SST_PREFIX`, each once and in any order. -/
structure Listing (disk : Disk) (files : List Bytes) : Prop where
  once : files.Nodup
  mem_iff : ∀ file, file ∈ files ↔ (disk file).isSome ∧ sstPrefix <+: file

inductive SstStep : SstDir → SstEvent → SstDir → Prop where
  | flush {dir mgr disk} (logs : List Log) (lastLog : Log) :
      dir.mgr.flush dir.disk logs lastLog = .ok (mgr, disk) →
      SstStep dir (.flush logs lastLog) ⟨disk, mgr⟩
  | restart {dir mgr} (files : List Bytes) (junk : Bytes → Nat → Byte) :
      Listing dir.disk files → SstMgr.init junk dir.disk files = .ok mgr →
      SstStep dir (.restart files junk) ⟨dir.disk, mgr⟩

/-- A manager after its first `Init` in a directory without tables. -/
structure SstDir.Fresh (dir : SstDir) : Prop where
  mgr : dir.mgr = .new
  disk : ∀ file, sstPrefix <+: file → dir.disk file = none

def flushes (events : List SstEvent) : List (List Log) :=
  events.filterMap fun
    | .flush logs _ => some logs
    | .restart _ _ => none

def SstEvent.Built : SstEvent → Prop
  | .flush logs lastLog => lastLog.Built ∧ ∀ log ∈ logs, log.Built
  | .restart _ _ => True

def Unrepeated (events : List SstEvent) : Prop :=
  ∀ before files junk after, events = before ++ .restart files junk :: after →
    flushes before ≠ [] → flushes after = []

/-- The tables are those of the flushes, each in the file of its number, and there are no
other files of tables. -/
structure Kept (done : List (List Log)) (dir : SstDir) : Prop where
  names : (dir.mgr.ssts.map SStable.filename).Perm
    ((List.range done.length).map fun i => fileName (i + 1))
  holds : ∀ sst ∈ dir.mgr.ssts, ∀ i logs, done[i]? = some logs →
    sst.filename = fileName (i + 1) → sst.Holds dir.disk logs
  only : ∀ file, sstPrefix <+: file → (dir.disk file).isSome →
    ∃ i < done.length, file = fileName (i + 1)

variable {files : List Bytes} {logs : List Log} {lastLog : Log}

section Kept

variable {done : List (List Log)} {dir : SstDir}

theorem Kept.exists_table (kept : Kept done dir) {i : Nat} (flushed : done[i]? = some logs) :
    ∃ sst ∈ dir.mgr.ssts, sst.filename = fileName (i + 1) ∧ sst.Holds dir.disk logs := by
  obtain ⟨inside, -⟩ := List.getElem?_eq_some_iff.mp flushed
  have member : fileName (i + 1) ∈ dir.mgr.ssts.map SStable.filename :=
    kept.names.mem_iff.mpr (List.mem_map.mpr ⟨i, List.mem_range.mpr inside, rfl⟩)
  obtain ⟨sst, listed, name⟩ := List.mem_map.mp member
  exact ⟨sst, listed, name, kept.holds sst listed i logs flushed name⟩

theorem Kept.length_ssts (kept : Kept done dir) : dir.mgr.ssts.length = done.length := by
  have length := kept.names.length_eq
  simpa using length

theorem Kept.fresh (kept : Kept done dir) (few : done.length + 1 < wordLimit) :
    dir.disk (fileName (done.length + 1)) = none := by
  by_contra exists_
  obtain ⟨i, inside, same⟩ :=
    kept.only _ (sstPrefix_fileName _) (Option.isSome_iff_ne_none.mpr exists_)
  have := fileName_injective few (by omega) same
  omega

theorem Kept.exists_file (kept : Kept done dir) {i : Nat} (inside : i < done.length) :
    dir.disk (fileName (i + 1)) ≠ none := by
  obtain ⟨sst, -, name, holds⟩ := kept.exists_table (List.getElem?_eq_getElem inside)
  rw [← name, holds.stored]
  exact Option.some_ne_none _

theorem SstMgr.flush_ok {mgr after : SstMgr} {disk later : Disk}
    (flushed : mgr.flush disk logs lastLog = .ok (after, later)) :
    (fill (fileName ((mgr.id + 1) % wordLimit)) lastLog logs).flush disk = .ok later ∧
      after = ⟨(mgr.id + 1) % wordLimit,
        mgr.ssts ++ [fill (fileName ((mgr.id + 1) % wordLimit)) lastLog logs]⟩ := by
  rw [flush, Written.toExcept_eq_ok] at flushed
  obtain ⟨complete, same⟩ := flushed
  obtain ⟨rfl, rfl⟩ := Prod.mk.inj same
  refine ⟨Written.toExcept_eq_ok.mpr ⟨complete, rfl⟩, ?_⟩
  simp only [(SStable.flushWith_spec _ _ _).2 complete, if_true]

theorem Kept.flush {mgr : SstMgr} {disk : Disk} (kept : Kept done dir)
    (counter : dir.mgr.id = done.length) (few : done.length + 1 < wordLimit)
    (built : (SstEvent.flush logs lastLog).Built)
    (flushed : dir.mgr.flush dir.disk logs lastLog = .ok (mgr, disk)) :
    mgr.id = (done ++ [logs]).length ∧ Kept (done ++ [logs]) ⟨disk, mgr⟩ := by
  obtain ⟨last, logsBuilt⟩ := built
  obtain ⟨written, rfl⟩ := SstMgr.flush_ok flushed
  rw [counter, Nat.mod_eq_of_lt few] at written ⊢
  obtain ⟨name, holds, file, rfl⟩ :=
    SStable.flush_new last logsBuilt (kept.fresh few) written
  have numbered : ∀ sst ∈ dir.mgr.ssts, ∃ k < done.length, sst.filename = fileName (k + 1) := by
    intro sst member
    obtain ⟨k, inside, same⟩ :=
      List.mem_map.mp (kept.names.mem_iff.mp (List.mem_map_of_mem member))
    exact ⟨k, List.mem_range.mp inside, same.symm⟩
  refine ⟨by simp, ?_, ?_, ?_⟩
  · rw [List.map_append, List.length_append, List.length_singleton, List.range_succ,
      List.map_append]
    refine kept.names.append ?_
    rw [List.map_singleton, List.map_singleton]
    exact List.Perm.of_eq (by rw [SstMgr.fill, name])
  · intro sst member i recorded listed same
    have few' : i < done.length + 1 := by
      obtain ⟨inside, -⟩ := List.getElem?_eq_some_iff.mp listed
      simpa using inside
    rcases List.mem_append.mp member with old | new
    · obtain ⟨k, inside, number⟩ := numbered sst old
      have position := fileName_injective (by omega) (by omega) (same.symm.trans number)
      obtain rfl : i = k := by omega
      rw [List.getElem?_append_left inside] at listed
      apply (kept.holds sst old i recorded listed same).update
      rw [number]
      intro clash
      have := fileName_injective (by omega) few clash
      omega
    · obtain rfl := List.mem_singleton.mp new
      have position := fileName_injective (by omega) few (same.symm.trans name)
      obtain rfl : i = done.length := by omega
      rw [List.getElem?_concat_length, Option.some.injEq] at listed
      rw [← listed]
      exact holds
  · intro other start present
    by_cases new : other = fileName (done.length + 1)
    · exact ⟨done.length, by simp, new⟩
    · simp only [Function.update_of_ne new] at present
      obtain ⟨i, inside, same⟩ := kept.only other start present
      exact ⟨i, by rw [List.length_append]; omega, same⟩

theorem SstMgr.recover_eq {junk : Bytes → Nat → Byte} {disk : Disk} {Good : SStable → Prop}
    (each : ∀ file ∈ files, ∃ sst, SStable.recover (junk file) disk file = .ok sst ∧
      sst.filename = file ∧ Good sst) :
    ∃ ssts, recover junk disk files = .ok ssts ∧ ssts.map SStable.filename = files ∧
      ∀ sst ∈ ssts, Good sst := by
  induction files with
  | nil => exact ⟨[], rfl, rfl, by simp⟩
  | cons file files ih =>
      obtain ⟨sst, first, name, good⟩ := each file List.mem_cons_self
      obtain ⟨ssts, rest, names, allGood⟩ :=
        ih fun other member => each other (List.mem_cons_of_mem _ member)
      refine ⟨sst :: ssts, ?_, by rw [List.map_cons, name, names], ?_⟩
      · rw [recover, first, rest]
        rfl
      · intro other member
        rcases List.mem_cons.mp member with rfl | later
        · exact good
        · exact allGood other later

theorem Kept.listing (kept : Kept done dir) (few : done.length < wordLimit)
    (listing : Listing dir.disk files) :
    files.Perm ((List.range done.length).map fun i => fileName (i + 1)) := by
  have distinct : ((List.range done.length).map fun i => fileName (i + 1)).Nodup := by
    refine List.Nodup.map_on ?_ List.nodup_range
    intro i inside j inside' same
    rw [List.mem_range] at inside inside'
    have := fileName_injective (by omega) (by omega) same
    omega
  rw [List.perm_ext_iff_of_nodup listing.once distinct]
  intro file
  rw [listing.mem_iff]
  constructor
  · rintro ⟨present, start⟩
    obtain ⟨i, inside, rfl⟩ := kept.only file start present
    exact List.mem_map.mpr ⟨i, List.mem_range.mpr inside, rfl⟩
  · intro member
    obtain ⟨i, inside, rfl⟩ := List.mem_map.mp member
    exact ⟨Option.isSome_iff_ne_none.mpr (kept.exists_file (List.mem_range.mp inside)),
      sstPrefix_fileName _⟩

theorem Kept.restart (kept : Kept done dir) (few : done.length < wordLimit)
    (listing : Listing dir.disk files) (junk : Bytes → Nat → Byte) :
    ∃ ssts, SstMgr.init junk dir.disk files = .ok ⟨0, ssts⟩ ∧ Kept done ⟨dir.disk, ⟨0, ssts⟩⟩ := by
  have names := kept.listing few listing
  have each : ∀ file ∈ files, ∃ sst, SStable.recover (junk file) dir.disk file = .ok sst ∧
      sst.filename = file ∧ ∀ i logs, done[i]? = some logs → sst.filename = fileName (i + 1) →
        sst.Holds dir.disk logs := by
    intro file member
    obtain ⟨i, inside, rfl⟩ := List.mem_map.mp (names.mem_iff.mp member)
    obtain ⟨sst, listed, name, holds⟩ :=
      kept.exists_table (List.getElem?_eq_getElem (List.mem_range.mp inside))
    refine ⟨{ sst with buf := [] }, ?_, name, ?_⟩
    · rw [← name, holds.recover_eq]
    · intro j logs flushed number
      obtain ⟨head, built, stored, small⟩ := kept.holds sst listed j logs flushed number
      exact ⟨head, built, stored, small⟩
  obtain ⟨ssts, recovered, same, holds⟩ := SstMgr.recover_eq each
  refine ⟨ssts, by rw [SstMgr.init, recovered]; rfl, ?_, holds, kept.only⟩
  rw [same]
  exact names

end Kept

variable {events : List SstEvent}

section Events

theorem flushes_append (first second : List SstEvent) :
    flushes (first ++ second) = flushes first ++ flushes second :=
  List.filterMap_append ..

def Reloaded (events : List SstEvent) : Prop :=
  ∃ before files junk after, events = before ++ .restart files junk :: after ∧ flushes before ≠ []

theorem Unrepeated.dropLast {event : SstEvent} (unrepeated : Unrepeated (events ++ [event])) :
    Unrepeated events := by
  rintro before files junk after rfl flushed
  have none := unrepeated before files junk (after ++ [event]) (by simp) flushed
  rw [flushes_append, List.append_eq_nil_iff] at none
  exact none.1

theorem Unrepeated.restart (unrepeated : Unrepeated events) (files : List Bytes)
    (junk : Bytes → Nat → Byte) : Unrepeated (events ++ [.restart files junk]) := by
  intro before files' junk' after position flushed
  rcases List.eq_nil_or_concat after with rfl | ⟨rest, last, rfl⟩
  · rfl
  · rw [List.concat_eq_append, ← List.cons_append, ← List.append_assoc] at position
    obtain ⟨shape, same⟩ := List.append_inj' position rfl
    cases same
    rw [List.concat_eq_append, flushes_append, unrepeated before files' junk' rest shape flushed]
    rfl

theorem restart_of_concat_flush {before after : List SstEvent} {junk : Bytes → Nat → Byte}
    (position : events ++ [.flush logs lastLog] = before ++ .restart files junk :: after) :
    ∃ rest, events = before ++ .restart files junk :: rest := by
  rcases List.eq_nil_or_concat after with rfl | ⟨rest, last, rfl⟩
  · cases (List.append_inj' position rfl).2
  · rw [List.concat_eq_append, ← List.cons_append, ← List.append_assoc] at position
    exact ⟨rest, (List.append_inj' position rfl).1⟩

theorem unrepeated_flush_iff (logs : List Log) (lastLog : Log) :
    Unrepeated (events ++ [.flush logs lastLog]) ↔ ¬ Reloaded events := by
  constructor
  · rintro longer ⟨before, files, junk, after, rfl, flushed⟩
    have none := longer before files junk (after ++ [.flush logs lastLog]) (by simp) flushed
    rw [flushes_append, List.append_eq_nil_iff] at none
    cases none.2
  · intro never before files junk after position flushed
    obtain ⟨rest, shape⟩ := restart_of_concat_flush position
    exact absurd ⟨before, files, junk, rest, shape, flushed⟩ never

theorem not_reloaded_flush (never : ¬ Reloaded events) (logs : List Log) (lastLog : Log) :
    ¬ Reloaded (events ++ [.flush logs lastLog]) := by
  rintro ⟨before, files, junk, after, position, flushed⟩
  obtain ⟨rest, shape⟩ := restart_of_concat_flush position
  exact never ⟨before, files, junk, rest, shape, flushed⟩

end Events

structure Tracked (events : List SstEvent) (dir : SstDir) : Prop where
  kept : Kept (flushes events) dir
  reset : Reloaded events → dir.mgr.id = 0
  counter : ¬ Reloaded events → dir.mgr.id = (flushes events).length

theorem Tracked.step {dir next : SstDir} {event : SstEvent} (tracked : Tracked events dir)
    (step : SstStep dir event next) (built : event.Built)
    (few : (flushes (events ++ [event])).length < wordLimit)
    (unrepeated : Unrepeated (events ++ [event])) : Tracked (events ++ [event]) next := by
  rw [flushes_append, List.length_append] at few
  cases step with
  | flush logs lastLog flushed =>
      have never := (unrepeated_flush_iff logs lastLog).mp unrepeated
      obtain ⟨counter, kept⟩ := tracked.kept.flush (tracked.counter never) few built flushed
      have still := not_reloaded_flush never logs lastLog
      exact ⟨by rw [flushes_append]; exact kept, fun reloaded => absurd reloaded still,
        fun _ => by rw [flushes_append]; exact counter⟩
  | restart files junk listing started =>
      obtain ⟨ssts, same, kept⟩ := tracked.kept.restart few listing junk
      obtain rfl := Except.ok.inj (started.symm.trans same)
      refine ⟨by rw [flushes_append]; simpa [flushes] using kept, fun _ => rfl, ?_⟩
      intro never
      have none : flushes events = [] := by
        by_contra flushed
        exact never ⟨events, files, junk, [], rfl, flushed⟩
      rw [flushes_append, none]
      rfl

theorem tracked_of_run {start dir : SstDir} (fresh : start.Fresh)
    (run : Run SstStep start events dir) (built : ∀ event ∈ events, event.Built)
    (few : (flushes events).length < wordLimit) (unrepeated : Unrepeated events) :
    Tracked events dir := by
  refine run.history (fun events dir => (∀ event ∈ events, event.Built) →
    (flushes events).length < wordLimit → Unrepeated events → Tracked events dir) ?_ ?_ built few
      unrepeated
  · intro _ _ _
    refine ⟨⟨?_, ?_, ?_⟩, fun _ => by rw [fresh.mgr]; rfl, fun _ => by rw [fresh.mgr]; rfl⟩
    · rw [fresh.mgr]
      exact List.Perm.refl _
    · rw [fresh.mgr]
      rintro sst ⟨⟩
    · intro file start present
      rw [fresh.disk file start] at present
      cases present
  · intro events dir event next ih step built few unrepeated
    have before : (flushes events).length < wordLimit := by
      rw [flushes_append, List.length_append] at few
      omega
    have tracked := ih
      (fun other member => built other (List.mem_append_left _ member)) before unrepeated.dropLast
    exact tracked.step step (built event (by simp)) few unrepeated

/-- In a run without a flush after a restart that follows a flush, every flush of every
incarnation has a table that yields its logs, and there are no more tables than flushes.
The next flush writes to a new file exactly when it does not follow such a restart. -/
theorem flushed_ssts_survive {start dir : SstDir} {events : List SstEvent} (fresh : start.Fresh)
    (run : Run SstStep start events dir) (built : ∀ event ∈ events, event.Built)
    (few : (flushes events).length + 1 < wordLimit) (unrepeated : Unrepeated events) :
    (∀ logs ∈ flushes events, ∃ sst ∈ dir.mgr.ssts, ∀ junk, sst.logs junk dir.disk = .ok logs) ∧
    dir.mgr.ssts.length = (flushes events).length ∧
    (∀ files junk, Listing dir.disk files → ∃ next, SstStep dir (.restart files junk) next) ∧
    ∀ logs lastLog, dir.disk (fileName ((dir.mgr.id + 1) % wordLimit)) = none ↔
      Unrepeated (events ++ [.flush logs lastLog]) := by
  have tracked := tracked_of_run fresh run built (by omega) unrepeated
  refine ⟨?_, tracked.kept.length_ssts, ?_, ?_⟩
  · intro logs flushed
    obtain ⟨i, position⟩ := List.mem_iff_getElem?.mp flushed
    obtain ⟨sst, listed, -, holds⟩ := tracked.kept.exists_table position
    exact ⟨sst, listed, holds.logs_eq⟩
  · intro files junk listing
    obtain ⟨ssts, started, -⟩ := tracked.kept.restart (by omega) listing junk
    exact ⟨_, .restart files junk listing started⟩
  · intro logs lastLog
    rw [unrepeated_flush_iff]
    constructor
    · intro new reloaded
      have some_ : 0 < (flushes events).length := by
        obtain ⟨before, files, junk, after, rfl, flushed⟩ := reloaded
        rw [flushes_append, List.length_append]
        exact Nat.add_pos_left (List.length_pos_iff.mpr flushed) _
      rw [tracked.reset reloaded] at new
      exact tracked.kept.exists_file some_ new
    · intro never
      rw [tracked.counter never, Nat.mod_eq_of_lt few]
      exact tracked.kept.fresh few

section Examples

def SstDir.empty : SstDir := ⟨fun _ => none, .new⟩

theorem SstDir.fresh_empty : SstDir.empty.Fresh :=
  ⟨rfl, fun _ _ => rfl⟩

def SstDir.single (log : Log) : SstDir where
  disk := Function.update (fun _ => none) (fileName 1)
    (some (tableFile (SstMgr.fill (fileName 1) log [log]).head [log]))
  mgr := ⟨1, [SstMgr.fill (fileName 1) log [log]]⟩

theorem SstDir.listing_single (log : Log) : Listing (SstDir.single log).disk [fileName 1] := by
  refine ⟨List.nodup_singleton _, ?_⟩
  intro file
  rw [List.mem_singleton]
  constructor
  · rintro rfl
    exact ⟨by simp [single], sstPrefix_fileName 1⟩
  · rintro ⟨present, -⟩
    by_contra other
    simp [single, other] at present

set_option maxRecDepth 20000 in
theorem SstDir.step_single :
    SstStep .empty (.flush [.make 1 .put [97] [98]] (.make 1 .put [97] [98]))
      (.single (.make 1 .put [97] [98])) :=
  .flush _ _ rfl

def SstDir.overwritten (first second : Log) : SstDir where
  disk := Function.update (SstDir.single first).disk (fileName 1)
    (some (tableFile (SstMgr.fill (fileName 1) second [second]).head [second]))
  mgr := ⟨1, [{ SstMgr.fill (fileName 1) first [first] with buf := [] },
    SstMgr.fill (fileName 1) second [second]]⟩

set_option maxRecDepth 20000 in
theorem SstDir.step_restarted :
    SstStep (.single (.make 1 .put [97] [98])) (.restart [fileName 1] fun _ _ => 0)
      ⟨(SstDir.single (.make 1 .put [97] [98])).disk,
        ⟨0, [{ SstMgr.fill (fileName 1) (.make 1 .put [97] [98]) [.make 1 .put [97] [98]] with
          buf := [] }]⟩⟩ :=
  .restart _ _ (listing_single _) rfl

set_option maxRecDepth 20000 in
theorem SstDir.step_overwritten :
    SstStep
      ⟨(SstDir.single (.make 1 .put [97] [98])).disk,
        ⟨0, [{ SstMgr.fill (fileName 1) (.make 1 .put [97] [98]) [.make 1 .put [97] [98]] with
          buf := [] }]⟩⟩
      (.flush [.make 2 .put [99] [100]] (.make 2 .put [99] [100]))
      (.overwritten (.make 1 .put [97] [98]) (.make 2 .put [99] [100])) :=
  .flush _ _ rfl

set_option maxRecDepth 20000 in
theorem SstDir.logs_overwritten :
    ∀ sst ∈ (SstDir.overwritten (.make 1 .put [97] [98]) (.make 2 .put [99] [100])).mgr.ssts,
      sst.logs (fun _ _ => 0)
        (SstDir.overwritten (.make 1 .put [97] [98]) (.make 2 .put [99] [100])).disk =
          .ok [.make 2 .put [99] [100]] := by
  intro sst member
  rcases List.mem_cons.mp member with rfl | member
  · rfl
  · obtain rfl := List.mem_singleton.mp member
    rfl

end Examples

/-- A table is flushed and found again by the next incarnation. -/
theorem flushed_ssts_survive_restart :
    ∃ dir, Run SstStep .empty [.flush [.make 1 .put [97] [98]] (.make 1 .put [97] [98]),
        .restart [fileName 1] fun _ _ => 0] dir ∧
      ∃ sst ∈ dir.mgr.ssts, ∀ junk, sst.logs junk dir.disk = .ok [.make 1 .put [97] [98]] := by
  have log : (Log.make 1 .put [97] [98]).Built := Log.built_make _ (by decide) (by decide)
  have built : SstEvent.Built (.flush [.make 1 .put [97] [98]] (.make 1 .put [97] [98])) :=
    ⟨log, by simpa using log⟩
  have flushed := Run.refl.tail SstDir.step_single
  have once : Unrepeated ([] ++ [.flush [.make 1 .put [97] [98]] (.make 1 .put [97] [98])]) :=
    (unrepeated_flush_iff _ _).mpr (by rintro ⟨before, _, _, _, position, -⟩; simp at position)
  obtain ⟨-, -, restarts, -⟩ := flushed_ssts_survive SstDir.fresh_empty flushed
    (by simpa using built) (by decide) once
  obtain ⟨dir, restarted⟩ := restarts _ (fun _ _ => 0) (SstDir.listing_single _)
  have run := flushed.tail restarted
  obtain ⟨kept, -⟩ := flushed_ssts_survive SstDir.fresh_empty run
    (by simpa [SstEvent.Built] using built) (by decide) (once.restart _ _)
  exact ⟨dir, run, kept _ (by simp [flushes])⟩

/-- A table that is flushed after a restart is written over the one that was flushed before
it: no table yields the first log any more. -/
theorem flushed_sst_overwritten :
    ∃ dir, Run SstStep .empty [.flush [.make 1 .put [97] [98]] (.make 1 .put [97] [98]),
        .restart [fileName 1] fun _ _ => 0,
        .flush [.make 2 .put [99] [100]] (.make 2 .put [99] [100])] dir ∧
      ¬ ∃ sst ∈ dir.mgr.ssts, ∀ junk, sst.logs junk dir.disk = .ok [.make 1 .put [97] [98]] := by
  refine ⟨_, ((Run.refl.tail SstDir.step_single).tail SstDir.step_restarted).tail
    SstDir.step_overwritten, ?_⟩
  rintro ⟨sst, member, yields⟩
  have lost := (SstDir.logs_overwritten sst member).symm.trans (yields fun _ _ => 0)
  exact absurd (Except.ok.inj lost) (by decide)

end Ctgfs.Storage
