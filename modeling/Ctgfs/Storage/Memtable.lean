import Ctgfs.Storage.MultiIter
import Ctgfs.Storage.SstMgr

/-!
# The memtable

`Memtable` collects logs in a set and flushes the set as a table when its size passes a
limit.  Every log that was added is in the set or in one table, and a `MultiIter` over all
of them yields the newest log of every key.
-/

namespace Ctgfs.Storage

open Foundation

/-- `insert` into a `std::set<Log>`, on its logs in order.  A log that is equivalent to one
of them is not inserted. -/
def insertLog (log : Log) : List Log → List Log
  | [] => [log]
  | head :: rest =>
      if log.before head then log :: head :: rest
      else if head.before log then head :: insertLog log rest
      else head :: rest

section Set

variable {log : Log} {logs : List Log}

theorem mem_insertLog {other : Log} (member : other ∈ insertLog log logs) :
    other = log ∨ other ∈ logs := by
  induction logs with
  | nil => exact Or.inl (List.mem_singleton.mp member)
  | cons head rest ih =>
      rw [insertLog] at member
      split at member
      · exact List.mem_cons.mp member
      split at member
      · rcases List.mem_cons.mp member with rfl | deeper
        · exact Or.inr List.mem_cons_self
        · exact (ih deeper).imp_right (List.mem_cons_of_mem _)
      · exact Or.inr member

theorem insertLog_sorted (sorted : logs.Pairwise (Before Log.key Log.lsn)) (log : Log) :
    (insertLog log logs).Pairwise (Before Log.key Log.lsn) := by
  induction logs with
  | nil => exact List.pairwise_singleton _ _
  | cons head rest ih =>
      obtain ⟨first, sortedRest⟩ := List.pairwise_cons.mp sorted
      rw [insertLog]
      split
      next before =>
        rw [Log.before_iff] at before
        refine List.pairwise_cons.mpr ⟨?_, sorted⟩
        intro other member
        rcases List.mem_cons.mp member with rfl | later
        · exact before
        · exact before.trans (first other later)
      next notBefore =>
        split
        next after =>
          refine List.pairwise_cons.mpr ⟨?_, ih sortedRest⟩
          intro other member
          rcases mem_insertLog member with rfl | old
          · exact (Log.before_iff _ _).mp after
          · exact first other old
        next equivalent => exact sorted

theorem insertLog_perm (fresh : ∀ other ∈ logs, other.lsn ≠ log.lsn) :
    (insertLog log logs).Perm (log :: logs) := by
  induction logs with
  | nil => exact List.Perm.refl _
  | cons head rest ih =>
      have different := fresh head List.mem_cons_self
      rw [insertLog]
      split
      next before => exact List.Perm.refl _
      next notBefore =>
        have after : head.before log = true := by
          rw [Log.before_iff, not_before_iff] at notBefore
          rw [Log.before_iff, Before]
          rcases lt_or_eq_of_le notBefore.1 with less | same
          · exact Or.inl less
          · exact Or.inr ⟨same, lt_of_le_of_ne (notBefore.2 same.symm) different.symm⟩
        rw [if_pos after]
        have smaller := ih fun other member =>
          fresh other (List.mem_cons_of_mem _ member)
        exact (smaller.cons head).trans (List.Perm.swap _ _ _)

end Set

structure MemMap where
  logs : List Log
  sorted : logs.Pairwise (Before Log.key Log.lsn)

namespace MemMap

def empty : MemMap := ⟨[], List.Pairwise.nil⟩

def insert (memMap : MemMap) (log : Log) : MemMap :=
  ⟨insertLog log memMap.logs, insertLog_sorted memMap.sorted log⟩

end MemMap

/-- `Memtable`, with the directory of its `SSTMgr`. -/
structure Memtable where
  dataSize : Nat
  maxSize : Nat
  memMap : MemMap
  iMemMap : Option MemMap
  dir : SstDir

namespace Memtable

/-- A new `Memtable` after `Init` in a directory without tables. -/
def new (maxSize : Nat) (disk : Disk) : Memtable :=
  ⟨0, maxSize, .empty, none, ⟨disk, .new⟩⟩

/-- `Memtable::MinorFreeze` with file calls that may fail.  What `i_mem_map_` held is given up.
The last log of an empty set is not there to be read. -/
def minorFreezeWith (calls : FileCalls) (memtable : Memtable) :
    Except Failure (Written Memtable) :=
  match memtable.memMap.logs.getLast? with
  | none => .error .invalidRead
  | some lastLog =>
      let flushed := memtable.dir.mgr.flushWith calls memtable.dir.disk memtable.memMap.logs lastLog
      .ok ⟨flushed.ok, flushed.complete,
        { memtable with
          dataSize := 0
          memMap := .empty
          iMemMap := if flushed.ok then none else some memtable.memMap
          dir := ⟨flushed.result.2, flushed.result.1⟩ }⟩

def insert (memtable : Memtable) (log : Log) : Memtable :=
  { memtable with
    memMap := memtable.memMap.insert log
    dataSize := (memtable.dataSize + log.size) % wordLimit }

/-- `Memtable::Add` with file calls that may fail.  When the size is beyond the limit already, the
log is not inserted. -/
def addWith (calls : FileCalls) (memtable : Memtable) (log : Log) :
    Except Failure (Written Memtable) :=
  if memtable.maxSize < memtable.dataSize then memtable.minorFreezeWith calls
  else if memtable.maxSize < (memtable.insert log).dataSize then
    (memtable.insert log).minorFreezeWith calls
  else .ok ⟨true, true, memtable.insert log⟩

def minorFreeze (memtable : Memtable) : Except Failure Memtable := do
  let frozen ← memtable.minorFreezeWith .all
  frozen.toExcept

def add (memtable : Memtable) (log : Log) : Except Failure Memtable := do
  let added ← memtable.addWith .all log
  added.toExcept

end Memtable

/-- The states of the two kinds of iterators: a `MemIterator` is what is left of the set. -/
inductive TableIter where
  | mem (rest : List Log)
  | sst (iter : SstIterator)

/-- `MemIterator` and `SSTIterator` as `Iterator`s. -/
def TableIter.iterator (junk : SstIterator → Nat → Byte) (disk : Disk) : Iterator TableIter where
  hasNext
    | .mem rest => !rest.isEmpty
    | .sst iter => iter.hasNext
  next
    | .mem [] => .error .status
    | .mem (log :: rest) => .ok (log, .mem rest)
    | .sst iter => do
        let (log, later) ← iter.next (junk iter) disk
        return (log, .sst later)

def createIterators (disk : Disk) : List SStable → Except Failure (List TableIter)
  | [] => .ok []
  | sst :: ssts => do
      let iter ← sst.createIterator disk
      let iters ← createIterators disk ssts
      return .sst iter :: iters

def Memtable.contents (memtable : Memtable) (junk : SstIterator → Nat → Byte) (fuel : Nat) :
    Except Failure (List Log) := do
  let iters ← createIterators memtable.dir.disk memtable.dir.mgr.ssts
  let slots ← MultiIter.construct (TableIter.iterator junk memtable.dir.disk)
    (.mem memtable.memMap.logs :: iters)
  (MultiIter.merged (TableIter.iterator junk memtable.dir.disk) fuel).drain fuel slots

section Invariant

/-- The tables hold what was frozen, in order, and together with the set they hold exactly
what was added. -/
structure Placed (added : List Log) (memtable : Memtable) (done : List (List Log)) : Prop where
  kept : Kept done memtable.dir
  counter : memtable.dir.mgr.id = done.length
  inOrder : memtable.dir.mgr.ssts.map SStable.filename =
    (List.range done.length).map fun i => fileName (i + 1)
  sorted : ∀ logs ∈ done, logs.Pairwise (Before Log.key Log.lsn)
  nonempty : ∀ logs ∈ done, logs ≠ []
  perm : (memtable.memMap.logs ++ done.flatten).Perm added

variable {added : List Log} {memtable next : Memtable} {done : List (List Log)} {log : Log}

theorem length_le_flatten (nonempty : ∀ logs ∈ done, logs ≠ []) :
    done.length ≤ done.flatten.length := by
  induction done with
  | nil => exact Nat.zero_le _
  | cons logs rest ih =>
      have first := List.length_pos_iff.mpr (nonempty logs List.mem_cons_self)
      have later := ih fun other member =>
        nonempty other (List.mem_cons_of_mem _ member)
      rw [List.flatten_cons, List.length_append, List.length_cons]
      omega

theorem Placed.length_done (placed : Placed added memtable done) : done.length ≤ added.length := by
  have few := length_le_flatten placed.nonempty
  have total := placed.perm.length_eq
  rw [List.length_append] at total
  omega

theorem Memtable.minorFreeze_ok (frozen : memtable.minorFreeze = .ok next) :
    ∃ lastLog mgr disk, memtable.memMap.logs.getLast? = some lastLog ∧
      memtable.dir.mgr.flush memtable.dir.disk memtable.memMap.logs lastLog = .ok (mgr, disk) ∧
      next = { memtable with
        dataSize := 0, memMap := .empty, iMemMap := none, dir := ⟨disk, mgr⟩ } := by
  obtain ⟨written, ran, done⟩ := bind_eq_ok frozen
  obtain ⟨complete, rfl⟩ := Written.toExcept_eq_ok.mp done
  rw [minorFreezeWith] at ran
  split at ran
  next => cases ran
  next lastLog last =>
    obtain rfl := Except.ok.inj ran
    refine ⟨lastLog, _, _, last, Written.toExcept_eq_ok.mpr ⟨complete, rfl⟩, ?_⟩
    have ok := (SStable.flushWith_spec _ _ _).2 complete
    simp only [SstMgr.flushWith, ok, if_true]

theorem Memtable.minorFreeze_of_flush {lastLog : Log} {result : SstMgr × Disk}
    (last : memtable.memMap.logs.getLast? = some lastLog)
    (flushed : memtable.dir.mgr.flush memtable.dir.disk memtable.memMap.logs lastLog =
      .ok result) : ∃ next, memtable.minorFreeze = .ok next := by
  obtain ⟨complete, -⟩ := Written.toExcept_eq_ok.mp flushed
  rw [minorFreeze, minorFreezeWith, last]
  exact ⟨_, Written.toExcept_eq_ok.mpr ⟨complete, rfl⟩⟩

theorem Memtable.add_eq (memtable : Memtable) (log : Log) :
    memtable.add log =
      if memtable.maxSize < memtable.dataSize then memtable.minorFreeze
      else if memtable.maxSize < (memtable.insert log).dataSize then
        (memtable.insert log).minorFreeze
      else .ok (memtable.insert log) := by
  rw [add, addWith]
  split
  · rfl
  split
  · rfl
  · rfl

theorem Placed.minorFreeze (placed : Placed added memtable done)
    (built : ∀ log ∈ added, log.Built) (few : done.length + 1 < wordLimit)
    (frozen : memtable.minorFreeze = .ok next) :
    Placed added next (done ++ [memtable.memMap.logs]) ∧ next.dataSize = 0 := by
  obtain ⟨lastLog, mgr, disk, last, flushed, rfl⟩ := Memtable.minorFreeze_ok frozen
  have inside : lastLog ∈ memtable.memMap.logs := List.mem_of_getLast? last
  have logsBuilt : ∀ log ∈ memtable.memMap.logs, log.Built := fun log member =>
    built log (placed.perm.mem_iff.mp (List.mem_append_left _ member))
  obtain ⟨counter, kept⟩ := placed.kept.flush placed.counter few
    ⟨logsBuilt lastLog inside, logsBuilt⟩ flushed
  refine ⟨⟨kept, counter, ?_, ?_, ?_, ?_⟩, rfl⟩
  · obtain ⟨-, same⟩ := SstMgr.flush_ok flushed
    rw [placed.counter, Nat.mod_eq_of_lt few] at same
    simp only [same, List.map_append, List.length_append, List.length_singleton,
      List.range_succ, List.map_singleton, SstMgr.filename_fill]
    rw [placed.inOrder]
  · intro logs member
    rcases List.mem_append.mp member with old | new
    · exact placed.sorted logs old
    · rw [List.mem_singleton.mp new]
      exact memtable.memMap.sorted
  · intro logs member
    rcases List.mem_append.mp member with old | new
    · exact placed.nonempty logs old
    · rw [List.mem_singleton.mp new]
      exact List.ne_nil_of_mem inside
  · rw [List.flatten_append, List.flatten_singleton]
    have swapped : (done.flatten ++ memtable.memMap.logs).Perm _ := List.perm_append_comm
    exact swapped.trans placed.perm

theorem Placed.insert (placed : Placed added memtable done)
    (fresh : ∀ other ∈ added, other.lsn ≠ log.lsn) :
    Placed (added ++ [log]) (memtable.insert log) done := by
  have inserted : (insertLog log memtable.memMap.logs).Perm (log :: memtable.memMap.logs) :=
    insertLog_perm fun other member =>
      fresh other (placed.perm.mem_iff.mp (List.mem_append_left _ member))
  refine ⟨placed.kept, placed.counter, placed.inOrder, placed.sorted, placed.nonempty, ?_⟩
  exact ((inserted.append_right _).trans (placed.perm.cons log)).trans
    (List.perm_append_singleton _ _).symm

theorem Placed.add (placed : Placed added memtable done)
    (room : memtable.dataSize ≤ memtable.maxSize) (built : ∀ other ∈ added ++ [log], other.Built)
    (fresh : ∀ other ∈ added, other.lsn ≠ log.lsn) (few : added.length + 1 < wordLimit)
    (ran : memtable.add log = .ok next) :
    ∃ done, Placed (added ++ [log]) next done ∧ next.dataSize ≤ next.maxSize := by
  have inserted := placed.insert fresh
  rw [Memtable.add_eq, if_neg (not_lt.mpr room)] at ran
  split at ran
  next full =>
    have length := placed.length_done
    obtain ⟨frozen, empty⟩ := inserted.minorFreeze built (by omega) ran
    exact ⟨_, frozen, by rw [empty]; exact Nat.zero_le _⟩
  next space =>
    cases ran
    exact ⟨done, inserted, not_lt.mp space⟩

theorem insertLog_ne_nil (log : Log) (logs : List Log) : insertLog log logs ≠ [] := by
  cases logs with
  | nil => exact List.cons_ne_nil _ _
  | cons head rest =>
      rw [insertLog]
      split
      · exact List.cons_ne_nil _ _
      split
      · exact List.cons_ne_nil _ _
      · exact List.cons_ne_nil _ _

theorem Memtable.minorFreezeWith_returns (calls : FileCalls)
    (nonempty : memtable.memMap.logs ≠ []) :
    ∃ written, memtable.minorFreezeWith calls = .ok written := by
  rw [minorFreezeWith, List.getLast?_eq_some_getLast nonempty]
  exact ⟨_, rfl⟩

theorem Memtable.add_error (room : memtable.dataSize ≤ memtable.maxSize) {failure : Failure}
    (failed : memtable.add log = .error failure) : failure = .status := by
  rw [Memtable.add_eq, if_neg (not_lt.mpr room)] at failed
  split at failed
  next full =>
    rcases bind_eq_error failed with frozen | ⟨written, -, lost⟩
    · obtain ⟨written, ran⟩ := Memtable.minorFreezeWith_returns .all
        (show (memtable.insert log).memMap.logs ≠ [] from insertLog_ne_nil _ _)
      cases ran.symm.trans frozen
    · exact Written.toExcept_error lost
  next space => cases failed

theorem Placed.minorFreeze_room (placed : Placed added memtable done)
    (built : ∀ log ∈ added, log.Built) (few : done.length + 1 < wordLimit)
    (nonempty : memtable.memMap.logs ≠ []) (fits : 2 * Log.extent added + 2 * 8 < arrayLimit) :
    ∃ next, memtable.minorFreeze = .ok next := by
  have total := Log.extent_perm placed.perm
  rw [Log.extent_append] at total
  have last := List.getLast?_eq_some_getLast nonempty
  have fresh := placed.kept.fresh few
  rw [← placed.counter] at fresh few
  rw [← Nat.mod_eq_of_lt few] at fresh
  obtain ⟨after, flushed⟩ := SStable.flush_room (List.getLast_mem nonempty)
    (fun log member => built log (placed.perm.mem_iff.mp (List.mem_append_left _ member))) fresh
    (by omega)
  obtain ⟨complete, -⟩ := Written.toExcept_eq_ok.mp flushed
  exact Memtable.minorFreeze_of_flush last (Written.toExcept_eq_ok.mpr ⟨complete, rfl⟩)

theorem Placed.add_room (placed : Placed added memtable done)
    (room : memtable.dataSize ≤ memtable.maxSize) (built : ∀ other ∈ added ++ [log], other.Built)
    (fresh : ∀ other ∈ added, other.lsn ≠ log.lsn) (few : added.length + 1 < wordLimit)
    (fits : 2 * Log.extent (added ++ [log]) + 2 * 8 < arrayLimit) :
    ∃ next, memtable.add log = .ok next := by
  rw [Memtable.add_eq, if_neg (not_lt.mpr room)]
  split
  next full =>
    have length := placed.length_done
    exact (placed.insert fresh).minorFreeze_room built (by omega) (insertLog_ne_nil _ _) fits
  next space => exact ⟨_, rfl⟩

end Invariant

section Contents

variable {junk : SstIterator → Nat → Byte} {disk : Disk}

theorem yields_mem (logs : List Log) : (TableIter.iterator junk disk).Yields (.mem logs) logs := by
  induction logs with
  | nil => exact .nil rfl
  | cons log rest ih => exact .cons rfl rfl ih

theorem yields_sst {iter : SstIterator} {logs : List Log}
    (yields : (SstIterator.iterator junk disk).Yields iter logs) :
    (TableIter.iterator junk disk).Yields (.sst iter) logs := by
  induction yields with
  | nil done => exact .nil done
  | @cons iter log later logs more taken _ ih =>
      have read : iter.next (junk iter) disk = .ok (log, later) := taken
      refine .cons more ?_ ih
      simp only [TableIter.iterator, read]
      rfl

theorem createIterators_yields (junk : SstIterator → Nat → Byte) {ssts : List SStable}
    {tables : List (List Log)}
    (holds : List.Forall₂ (fun sst logs => sst.Holds disk logs) ssts tables) :
    ∃ iters, createIterators disk ssts = .ok iters ∧
      List.Forall₂ (TableIter.iterator junk disk).Yields iters tables := by
  induction holds with
  | nil => exact ⟨[], rfl, .nil⟩
  | cons first _ ih =>
      obtain ⟨iter, created, -, yields⟩ := first.yields junk
      obtain ⟨iters, createdRest, yieldsRest⟩ := ih
      refine ⟨.sst iter :: iters, ?_, .cons (yields_sst yields) yieldsRest⟩
      rw [createIterators, created, createdRest]
      rfl

variable {added : List Log} {memtable : Memtable} {done : List (List Log)}

theorem Placed.tables (placed : Placed added memtable done) :
    List.Forall₂ (fun sst logs => sst.Holds memtable.dir.disk logs) memtable.dir.mgr.ssts done := by
  have length := placed.kept.length_ssts
  rw [List.forall₂_iff_get]
  refine ⟨length, ?_⟩
  intro i inside inside'
  apply placed.kept.holds _ (List.get_mem _ _) i
  · simp
  · have name : (memtable.dir.mgr.ssts.map SStable.filename)[i]? = some (fileName (i + 1)) := by
      rw [placed.inOrder]
      simp [inside']
    simpa [inside] using name

theorem Placed.contents (placed : Placed added memtable done)
    (valid : ∀ log ∈ added, log.lsn < invalidLsn) (junk : SstIterator → Nat → Byte) {fuel : Nat}
    (enough : added.length < fuel) :
    ∃ out, memtable.contents junk fuel = .ok out ∧ Newest Log.key Log.lsn added out := by
  have flat : (memtable.memMap.logs :: done).flatten.Perm added := placed.perm
  have mergeable : Mergeable (memtable.memMap.logs :: done) := by
    constructor
    · intro list member
      rcases List.mem_cons.mp member with rfl | table
      · exact memtable.memMap.sorted
      · exact placed.sorted list table
    · intro list member log inside
      have below := valid log (flat.mem_iff.mp (List.mem_flatten.mpr ⟨list, member, inside⟩))
      exact decide_eq_true below.ne
  have short : ∀ list ∈ memtable.memMap.logs :: done, list.length < fuel := by
    intro list member
    have part := (List.sublist_flatten_of_mem member).length_le
    have total := flat.length_eq
    omega
  obtain ⟨iters, created, yields⟩ := createIterators_yields junk placed.tables
  obtain ⟨slots, constructed, shows, settled⟩ :=
    construct_shows (.cons (yields_mem memtable.memMap.logs) yields) mergeable.valid
  obtain ⟨out, merged, newest⟩ := Merging.yields ⟨mergeable, shows, settled, short⟩
  have few := newest.length_le
  have total := flat.length_eq
  refine ⟨out, ?_, newest.congr fun log => flat.mem_iff⟩
  rw [Memtable.contents, created]
  simp only [bind, Except.bind, constructed]
  exact merged.drain_eq fuel (by omega)

end Contents

theorem length_lt_wordLimit {added : List Log} (distinct : (added.map Log.lsn).Nodup)
    (valid : ∀ log ∈ added, log.lsn < invalidLsn) : added.length < wordLimit := by
  have subset : added.map Log.lsn ⊆ List.range invalidLsn := by
    intro lsn member
    obtain ⟨log, inside, rfl⟩ := List.mem_map.mp member
    exact List.mem_range.mpr (valid log inside)
  have few := (distinct.subperm subset).length_le
  rw [List.length_map, List.length_range] at few
  exact lt_of_le_of_lt few (by decide)

theorem forall_mem_concat {P : Log → Prop} {added : List Log} {log : Log}
    (all : ∀ other ∈ added, P other) (last : P log) : ∀ other ∈ added ++ [log], P other := by
  intro other member
  rcases List.mem_append.mp member with old | new
  · exact all other old
  · rw [List.mem_singleton.mp new]
    exact last

def Memtable.Adds (memtable : Memtable) (log : Log) (next : Memtable) : Prop :=
  memtable.add log = .ok next

theorem placed_of_run {maxSize : Nat} {disk : Disk} {added : List Log} {memtable : Memtable}
    (clean : ∀ file, sstPrefix <+: file → disk file = none)
    (run : Run Memtable.Adds (.new maxSize disk) added memtable)
    (built : ∀ log ∈ added, log.Built) (distinct : (added.map Log.lsn).Nodup)
    (valid : ∀ log ∈ added, log.lsn < invalidLsn) :
    ∃ done, Placed added memtable done ∧ memtable.dataSize ≤ memtable.maxSize := by
  refine run.history (fun added memtable => (∀ log ∈ added, log.Built) →
    (added.map Log.lsn).Nodup → (∀ log ∈ added, log.lsn < invalidLsn) →
      ∃ done, Placed added memtable done ∧ memtable.dataSize ≤ memtable.maxSize) ?_ ?_ built
        distinct valid
  · intro _ _ _
    refine ⟨[], ⟨⟨?_, ?_, ?_⟩, rfl, rfl, ?_, ?_, ?_⟩, Nat.zero_le _⟩
    · exact List.Perm.refl _
    · rintro sst ⟨⟩
    · intro file start present
      have absent : (Memtable.new maxSize disk).dir.disk file = none := clean file start
      rw [absent] at present
      cases present
    · rintro logs ⟨⟩
    · rintro logs ⟨⟩
    · exact List.Perm.refl _
  · intro added memtable log next ih ran built distinct valid
    have few := length_lt_wordLimit distinct valid
    rw [List.length_append, List.length_singleton] at few
    rw [List.map_append, List.nodup_append] at distinct
    obtain ⟨done, placed, room⟩ := ih
      (fun other member => built other (List.mem_append_left _ member)) distinct.1
      (fun other member => valid other (List.mem_append_left _ member))
    refine placed.add room built ?_ few ran
    intro other member
    exact distinct.2.2 _ (List.mem_map_of_mem member) _ (by simp)

/-- Every log that was added is in the set or in one table, and the `MultiIter` over the set
and all tables yields exactly the newest log of every key, in the order of the keys.  `Add`
fails only when a file operation of its `Flush` does, and it returns `OK` for every next log
while the logs are not too large for a file. -/
theorem no_write_lost {maxSize : Nat} {disk : Disk} {added : List Log} {memtable : Memtable}
    (clean : ∀ file, sstPrefix <+: file → disk file = none)
    (run : Run Memtable.Adds (.new maxSize disk) added memtable)
    (built : ∀ log ∈ added, log.Built) (distinct : (added.map Log.lsn).Nodup)
    (valid : ∀ log ∈ added, log.lsn < invalidLsn) :
    (∃ tables : List (List Log),
      List.Forall₂ (fun sst logs => ∀ junk, sst.logs junk memtable.dir.disk = .ok logs)
        memtable.dir.mgr.ssts tables ∧
      (memtable.memMap.logs ++ tables.flatten).Perm added) ∧
    (∀ junk fuel, added.length < fuel → ∃ out, memtable.contents junk fuel = .ok out ∧
      Newest Log.key Log.lsn added out) ∧
    (∀ log failure, memtable.add log = .error failure → failure = .status) ∧
    ∀ log : Log, log.Built → log.lsn < invalidLsn → log.lsn ∉ added.map Log.lsn →
      2 * Log.extent (added ++ [log]) + 2 * 8 < arrayLimit →
      ∃ next, memtable.add log = .ok next := by
  obtain ⟨done, placed, room⟩ := placed_of_run clean run built distinct valid
  refine ⟨⟨done, placed.tables.imp fun sst logs holds => holds.logs_eq, placed.perm⟩, ?_, ?_, ?_⟩
  · intro junk fuel enough
    exact placed.contents valid junk enough
  · intro log failure failed
    exact Memtable.add_error room failed
  · intro log logBuilt logValid fresh fits
    have distinctNext : ((added ++ [log]).map Log.lsn).Nodup := by
      rw [List.map_append, List.map_singleton, ← List.concat_eq_append]
      exact (List.nodup_concat _ _).mpr ⟨fresh, distinct⟩
    have few := length_lt_wordLimit distinctNext (forall_mem_concat valid logValid)
    rw [List.length_append, List.length_singleton] at few
    refine placed.add_room room (forall_mem_concat built logBuilt) ?_ few fits
    intro other member same
    exact fresh (same ▸ List.mem_map_of_mem member)

/-- The second log of a key does not fit into the set, so both are frozen, and the merge over
their table yields one of them. -/
theorem no_write_lost_frozen :
    ∃ memtable, Run Memtable.Adds (.new 40 fun _ => none)
        [.make 1 .put [97] [98], .make 2 .del [97] []] memtable ∧
      ∃ out, memtable.contents (fun _ _ => nullByte) 3 = .ok out ∧
        Newest Log.key Log.lsn [.make 1 .put [97] [98], .make 2 .del [97] []] out := by
  have firstBuilt : (Log.make 1 .put [97] [98]).Built := Log.built_make _ (by decide) (by decide)
  have secondBuilt : (Log.make 2 .del [97] []).Built := Log.built_make _ (by decide) (by decide)
  have clean : ∀ file, sstPrefix <+: file → (fun _ => none : Disk) file = none := fun _ _ => rfl
  have runNone : Run Memtable.Adds (.new 40 fun _ => none) [] (.new 40 fun _ => none) := .refl
  obtain ⟨-, -, -, grows⟩ := no_write_lost clean runNone (by simp) (by simp) (by simp)
  obtain ⟨one, addedFirst⟩ := grows _ firstBuilt (by decide) (by simp) (by decide)
  have runOne : Run Memtable.Adds (.new 40 fun _ => none) [.make 1 .put [97] [98]] one :=
    runNone.tail addedFirst
  obtain ⟨-, -, -, growsOne⟩ := no_write_lost clean runOne (by simpa using firstBuilt)
    (by simp) (by decide)
  obtain ⟨two, addedSecond⟩ := growsOne _ secondBuilt (by decide) (by decide) (by decide)
  have runTwo := runOne.tail addedSecond
  obtain ⟨-, merged, -⟩ := no_write_lost clean runTwo
    (forall_mem_concat (by simpa using firstBuilt) secondBuilt) (by decide) (by decide)
  exact ⟨two, runTwo, merged _ 3 (by decide)⟩

end Ctgfs.Storage
