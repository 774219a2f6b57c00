import Ctgfs.Foundation.Runs
import Ctgfs.Storage.Log

/-!
# The write-ahead log of the memtable

`Wal` appends the records of its logs to one file and keeps in a second file, `CURRENT`,
the offset from which `Init` replays them.  Neither file is written by a recovery, so a
log is replayed by every `Init` until `CURRENT` has moved past it.
-/

namespace Ctgfs.Storage

open Foundation

/-- `Wal` with the two files of its directory. -/
structure Wal where
  /-- `log.ctgfs`. -/
  log : Option Bytes
  /-- `CURRENT`. -/
  current : Option Bytes
  /-- `Init` has run, so that the names of the files are set. -/
  init_ : Bool
  /-- The position of the open descriptor. -/
  dlog : Option Nat
  /-- The calls of `func_` in the last `Init`. -/
  replayed : List Log
  deriving DecidableEq

namespace Wal

def initial : Wal := ⟨none, none, false, none, []⟩

def start (wal : Wal) : Wal :=
  { wal with log := some [], current := some (littleEndian 8 0), init_ := true, dlog := some 0,
             replayed := [] }

/-- `Wal::Recover`.  The descriptor for the next records is put at the end of the file. -/
def recover (wal : Wal) (junk : Nat → Nat → Byte) (file current : Bytes) : Except Failure Wal :=
  let offset := ofLittleEndian (readAt current 0 8)
  -- `lseek` takes a signed offset
  if arrayLimit ≤ offset then .error .status
  else do
    let logs ← Log.readLoop junk file (file.length + 1) offset offset
    return { wal with init_ := true, dlog := some file.length, replayed := logs }

def init (wal : Wal) (junk : Nat → Nat → Byte) : Except Failure Wal :=
  match wal.log, wal.current with
  | some file, some current => wal.recover junk file current
  | _, _ => .ok wal.start

/-- `Wal::LogToDisk`.  The write fails without an open file and beyond the largest offset. -/
def logToDisk (wal : Wal) (log : Log) : Option Wal :=
  match wal.log, wal.dlog with
  | some file, some position =>
      if position + log.record.length < arrayLimit then
        some { wal with
          log := some (writeAt file position log.record)
          dlog := some (position + log.record.length) }
      else none
  | _, _ => none

def getDiskLogSize (wal : Wal) : Nat :=
  (wal.log.getD []).length

/-- `Wal::LogCurrent` with an offset; without one it takes the size of the log. -/
def logCurrent (wal : Wal) (offset : Nat) : Option Wal :=
  if wal.init_ then some { wal with current := some (littleEndian 8 offset) } else none

def stop (wal : Wal) : Wal :=
  if wal.init_ then { wal with dlog := none } else wal

end Wal

inductive WalEvent where
  | init (junk : Nat → Nat → Byte)
  | logToDisk (log : Log)
  | logCurrentAt (offset : Nat)
  | logCurrent
  | stop

/-- One call on the `Wal`; `none` when a file operation or the recovery fails. -/
def Wal.step (wal : Wal) : WalEvent → Option Wal
  | .init junk => (wal.init junk).toOption
  | .logToDisk log => wal.logToDisk log
  | .logCurrentAt offset => wal.logCurrent offset
  | .logCurrent => wal.logCurrent wal.getDiskLogSize
  | .stop => some wal.stop

section Ledger

/-- What the calls on a `Wal` are for: the logs of all incarnations and the last value
of `LogCurrent`. -/
structure Ledger where
  logs : List Log := []
  current : Nat := 0

def Ledger.note (ledger : Ledger) : WalEvent → Ledger
  | .logToDisk log => { ledger with logs := ledger.logs ++ [log] }
  | .logCurrentAt offset => { ledger with current := offset }
  | .logCurrent => { ledger with current := Log.extent ledger.logs }
  | .init _ | .stop => ledger

def logsFrom (current : Nat) : Nat → List Log → List Log
  | _, [] => []
  | offset, log :: rest =>
      if current ≤ offset then log :: logsFrom current (offset + log.record.length) rest
      else logsFrom current (offset + log.record.length) rest

/-- The logs that the next `Init` has to replay. -/
def Ledger.pending (ledger : Ledger) : List Log :=
  logsFrom ledger.current 0 ledger.logs

/-- Logs are built by their constructor, and `LogCurrent` is given a boundary between two
records of the log at that time. -/
def Permitted (ledger : Ledger) : WalEvent → Prop
  | .logToDisk log => log.Built
  | .logCurrentAt offset => ∃ n ≤ ledger.logs.length, offset = Log.extent (ledger.logs.take n)
  | .init _ | .logCurrent | .stop => True

def Legal : Ledger → List WalEvent → Prop
  | _, [] => True
  | ledger, event :: rest => Permitted ledger event ∧ Legal (ledger.note event) rest

def ledgerOf (events : List WalEvent) : Ledger :=
  events.foldl Ledger.note {}

theorem legal_concat {ledger : Ledger} {events : List WalEvent} {event : WalEvent}
    (legal : Legal ledger (events ++ [event])) :
    Legal ledger events ∧ Permitted (events.foldl Ledger.note ledger) event := by
  induction events generalizing ledger with
  | nil => exact ⟨trivial, legal.1⟩
  | cons first rest ih =>
      obtain ⟨restLegal, permitted⟩ := ih legal.2
      exact ⟨⟨legal.1, restLegal⟩, permitted⟩

theorem ledgerOf_concat (events : List WalEvent) (event : WalEvent) :
    ledgerOf (events ++ [event]) = (ledgerOf events).note event := by
  rw [ledgerOf, List.foldl_append]
  rfl

theorem extent_take_le (logs : List Log) (n : Nat) :
    Log.extent (logs.take n) ≤ Log.extent logs := by
  have whole := Log.extent_append (logs.take n) (logs.drop n)
  rw [List.take_append_drop] at whole
  omega

theorem logsFrom_all {current start : Nat} (reached : current ≤ start) (logs : List Log) :
    logsFrom current start logs = logs := by
  induction logs generalizing start with
  | nil => rfl
  | cons log rest ih =>
      rw [logsFrom, if_pos reached, ih (by omega)]

theorem logsFrom_boundary {logs : List Log} (start : Nat)
    (nonempty : ∀ log ∈ logs, 0 < log.record.length) (n : Nat) :
    logsFrom (start + Log.extent (logs.take n)) start logs = logs.drop n := by
  induction logs generalizing start n with
  | nil => simp [logsFrom]
  | cons log rest ih =>
      cases n with
      | zero => exact logsFrom_all (by simp [Log.extent]) _
      | succ n =>
          have positive := nonempty log List.mem_cons_self
          have skipped : ¬ start + Log.extent ((log :: rest).take (n + 1)) ≤ start := by
            rw [List.take_succ_cons, Log.extent_cons]
            omega
          rw [logsFrom, if_neg skipped, List.take_succ_cons, Log.extent_cons, ← Nat.add_assoc,
            List.drop_succ_cons]
          exact ih _
            (fun other member => nonempty other (List.mem_cons_of_mem _ member)) n

end Ledger

section Recovery

structure Sound (ledger : Ledger) (wal : Wal) : Prop where
  built : ∀ log ∈ ledger.logs, log.Built
  boundary : ∃ n ≤ ledger.logs.length, ledger.current = Log.extent (ledger.logs.take n)
  small : Log.extent ledger.logs < arrayLimit
  files : wal.log = none ∧ wal.init_ = false ∧ ledger.logs = [] ∧ ledger.current = 0 ∨
    wal.log = some (ledger.logs.flatMap Log.record) ∧
      wal.current = some (littleEndian 8 ledger.current)
  position : ∀ position ∈ wal.dlog, position = Log.extent ledger.logs

variable {ledger : Ledger} {wal next : Wal}

section

variable (sound : Sound ledger wal)

include sound

theorem Sound.current_small : ledger.current < arrayLimit := by
  obtain ⟨n, -, current⟩ := sound.boundary
  rw [current]
  exact lt_of_le_of_lt (extent_take_le _ n) sound.small

theorem Sound.getDiskLogSize : wal.getDiskLogSize = Log.extent ledger.logs := by
  rcases sound.files with ⟨log, -, none, -⟩ | ⟨log, -⟩
  · rw [Wal.getDiskLogSize, log, none]
    rfl
  · rw [Wal.getDiskLogSize, log]
    rfl

theorem Sound.pending :
    ∃ n ≤ ledger.logs.length, ledger.current = Log.extent (ledger.logs.take n) ∧
      ledger.pending = ledger.logs.drop n := by
  obtain ⟨n, inside, current⟩ := sound.boundary
  refine ⟨n, inside, current, ?_⟩
  have positive : ∀ log ∈ ledger.logs, 0 < log.record.length := by
    intro log member
    rw [Log.length_record (sound.built log member)]
    omega
  have from_ := logsFrom_boundary 0 positive n
  rwa [Nat.zero_add, ← current] at from_

theorem Sound.read_current :
    ofLittleEndian (readAt (littleEndian 8 ledger.current) 0 8) = ledger.current := by
  have fits : ledger.current < 256 ^ 8 := sound.current_small.trans arrayLimit_lt_wordLimit
  have whole := readAt_append [] (littleEndian 8 ledger.current) []
  rw [List.nil_append, List.append_nil, length_littleEndian] at whole
  rw [← List.length_nil, whole, ofLittleEndian_of_lt fits]

theorem Sound.recover (junk : Nat → Nat → Byte) :
    wal.recover junk (ledger.logs.flatMap Log.record) (littleEndian 8 ledger.current) =
      .ok { wal with init_ := true, dlog := some (Log.extent ledger.logs),
                     replayed := ledger.pending } := by
  obtain ⟨n, inside, current, pending⟩ := sound.pending
  have replayed : Log.readLoop junk (ledger.logs.flatMap Log.record)
      ((ledger.logs.flatMap Log.record).length + 1) ledger.current ledger.current =
        .ok ledger.pending := by
    have split : (ledger.logs.take n).flatMap Log.record ++
        (ledger.logs.drop n).flatMap Log.record = ledger.logs.flatMap Log.record := by
      rw [← List.flatMap_append, List.take_append_drop]
    have parts := Log.extent_append (ledger.logs.take n) (ledger.logs.drop n)
    rw [List.take_append_drop] at parts
    have built : ∀ log ∈ ledger.logs.drop n, log.Built := fun log member =>
      sound.built log (List.mem_of_mem_drop member)
    have loop := Log.readLoop_records junk built ((ledger.logs.take n).flatMap Log.record)
      (by rw [Log.length_records, ← parts]; exact sound.small)
      ((ledger.logs.flatMap Log.record).length + 1)
      (by have few := Log.length_le_extent built; rw [Log.length_records]; omega)
    rwa [split, Log.length_records (ledger.logs.take n), ← current, ← pending] at loop
  rw [Wal.recover, sound.read_current, if_neg (by have := sound.current_small; omega), replayed]
  rfl

theorem Sound.init (junk : Nat → Nat → Byte) :
    ∃ next, wal.step (.init junk) = some next ∧ next.replayed = ledger.pending ∧
      next.log = some (ledger.logs.flatMap Log.record) ∧
      next.current = some (littleEndian 8 ledger.current) ∧
      next.dlog = some (Log.extent ledger.logs) := by
  rcases sound.files with ⟨log, -, none, zero⟩ | ⟨log, current⟩
  · refine ⟨wal.start, ?_, ?_, ?_, ?_, ?_⟩
    · simp [Wal.step, Wal.init, log, Except.toOption]
    · rw [Ledger.pending, none]
      rfl
    · rw [none]
      rfl
    · rw [zero]
      rfl
    · rw [none]
      rfl
  · refine ⟨{ wal with init_ := true, dlog := some (Log.extent ledger.logs),
                       replayed := ledger.pending }, ?_, rfl, log, current, rfl⟩
    simp only [Wal.step, Wal.init, log, current, sound.recover junk, Except.toOption]

end

theorem Wal.readLoop_of_init {junk : Nat → Nat → Byte} {file current : Bytes}
    (stored : wal.log = some file) (marked : wal.current = some current)
    (taken : wal.step (.init junk) = some next) :
    Log.readLoop junk file (file.length + 1) (ofLittleEndian (readAt current 0 8))
      (ofLittleEndian (readAt current 0 8)) = .ok next.replayed := by
  rw [step, init, stored, marked] at taken
  simp only [recover] at taken
  split at taken
  · cases taken
  · cases looped : Log.readLoop junk file (file.length + 1) (ofLittleEndian (readAt current 0 8))
        (ofLittleEndian (readAt current 0 8)) with
    | error failure =>
        rw [looped] at taken
        cases taken
    | ok logs =>
        rw [looped] at taken
        cases taken
        rfl

theorem Wal.logToDisk_end {file : Bytes} {log : Log} (stored : wal.log = some file)
    (opened : wal.dlog = some file.length) (room : file.length + log.record.length < arrayLimit) :
    wal.logToDisk log = some { wal with log := some (file ++ log.record)
                                        dlog := some (file.length + log.record.length) } := by
  rw [logToDisk, stored, opened]
  simp only [writeAt_length]
  exact if_pos room

theorem Sound.logToDisk (sound : Sound ledger wal) {log : Log}
    (written : wal.logToDisk log = some next) :
    wal.log = some (ledger.logs.flatMap Log.record) ∧
      wal.current = some (littleEndian 8 ledger.current) ∧
      Log.extent (ledger.logs ++ [log]) < arrayLimit ∧
      next = { wal with log := some ((ledger.logs ++ [log]).flatMap Log.record)
                        dlog := some (Log.extent (ledger.logs ++ [log])) } := by
  have single : Log.extent [log] = log.record.length := by
    rw [Log.extent, List.flatMap_singleton]
  rcases sound.files with ⟨none, -⟩ | ⟨file, current⟩
  · rw [Wal.logToDisk, none] at written
    cases written
  · rw [Wal.logToDisk, file] at written
    cases opened : wal.dlog with
    | none =>
        rw [opened] at written
        cases written
    | some position =>
        obtain rfl := sound.position position opened
        simp only [opened] at written
        split at written
        next room =>
          refine ⟨file, current, ?_, ?_⟩
          · rw [Log.extent_append, single]
            exact room
          · rw [Option.some.injEq] at written
            rw [← written, ← Log.length_records ledger.logs, writeAt_length, Log.extent_append,
              single, List.flatMap_append, List.flatMap_singleton]
            rfl
        next full => cases written

theorem Sound.logCurrent (sound : Sound ledger wal) {offset : Nat}
    (boundary : ∃ n ≤ ledger.logs.length, offset = Log.extent (ledger.logs.take n))
    (written : wal.logCurrent offset = some next) :
    Sound { ledger with current := offset } next := by
  rw [Wal.logCurrent] at written
  rcases sound.files with ⟨-, fresh, -⟩ | ⟨file, -⟩
  · rw [fresh] at written
    cases written
  · split at written
    · cases written
      exact ⟨sound.built, boundary, sound.small, Or.inr ⟨file, rfl⟩, sound.position⟩
    · cases written

theorem Sound.step (sound : Sound ledger wal) {event : WalEvent}
    (permitted : Permitted ledger event) (taken : wal.step event = some next) :
    Sound (ledger.note event) next := by
  cases event with
  | init junk =>
      obtain ⟨other, same, -, log, current, dlog⟩ := sound.init junk
      obtain rfl : other = next := Option.some.inj (same.symm.trans taken)
      refine ⟨sound.built, sound.boundary, sound.small, Or.inr ⟨log, current⟩, ?_⟩
      intro position opened
      rw [dlog] at opened
      exact (Option.some.inj opened).symm
  | logToDisk log =>
      obtain ⟨-, current, small, rfl⟩ := sound.logToDisk taken
      refine ⟨?_, ?_, small, Or.inr ⟨rfl, current⟩, ?_⟩
      · intro other member
        rcases List.mem_append.mp member with old | new
        · exact sound.built other old
        · rw [List.mem_singleton.mp new]
          exact permitted
      · obtain ⟨n, inside, boundary⟩ := sound.boundary
        refine ⟨n, by simp [Ledger.note]; omega, ?_⟩
        simp only [Ledger.note, List.take_append_of_le_length inside]
        exact boundary
      · intro position opened
        exact (Option.some.inj opened).symm
  | logCurrentAt offset => exact sound.logCurrent permitted taken
  | logCurrent =>
      rw [Wal.step, sound.getDiskLogSize] at taken
      exact sound.logCurrent ⟨_, le_rfl, by rw [List.take_length]⟩ taken
  | stop =>
      cases taken
      refine ⟨sound.built, sound.boundary, sound.small, ?_, ?_⟩
      · rw [Wal.stop]
        split
        · exact sound.files
        · exact sound.files
      · rw [Wal.stop]
        split
        · rintro position ⟨⟩
        · exact sound.position

theorem sound_of_run {events : List WalEvent}
    (run : Run (StepOf Wal.step) Wal.initial events wal) (legal : Legal {} events) :
    Sound (ledgerOf events) wal := by
  refine run.history (fun events wal => Legal {} events → Sound (ledgerOf events) wal) ?_ ?_ legal
  · intro _
    refine ⟨?_, ⟨0, le_rfl, rfl⟩, by decide, Or.inl ⟨rfl, rfl, rfl, rfl⟩, ?_⟩
    · rintro log ⟨⟩
    · rintro position ⟨⟩
  · intro events wal event next ih taken legal
    obtain ⟨before, permitted⟩ := legal_concat legal
    rw [ledgerOf_concat]
    exact (ih before).step permitted taken

end Recovery

/-- In every run, `Init` succeeds and replays exactly the logs at or after the last value of
`LogCurrent`, whichever incarnation appended them; the log is always the sequence of all
records, and the next log is appended behind them. -/
theorem clean_recovery {events : List WalEvent} {wal : Wal}
    (run : Run (StepOf Wal.step) Wal.initial events wal) (legal : Legal {} events) :
    (∀ file ∈ wal.log, file = (ledgerOf events).logs.flatMap Log.record) ∧
    ∀ junk, ∃ next, wal.step (.init junk) = some next ∧
      next.replayed = (ledgerOf events).pending ∧
      next.log = some ((ledgerOf events).logs.flatMap Log.record) ∧
      ∀ log, Log.extent (ledgerOf events).logs + log.record.length < arrayLimit →
        ∃ later, next.step (.logToDisk log) = some later ∧
          later.log = some (((ledgerOf events).logs ++ [log]).flatMap Log.record) := by
  have sound := sound_of_run run legal
  constructor
  · intro file stored
    rcases sound.files with ⟨none, -⟩ | ⟨same, -⟩
    · rw [none] at stored
      cases stored
    · rw [same] at stored
      exact (Option.some.inj stored).symm
  · intro junk
    obtain ⟨next, taken, replayed, log, current, dlog⟩ := sound.init junk
    refine ⟨next, taken, replayed, log, ?_⟩
    intro added room
    refine ⟨_, Wal.logToDisk_end log dlog room, ?_⟩
    rw [List.flatMap_append, List.flatMap_singleton]

/-- Two logs are appended, `CURRENT` is moved between them, and the `Wal` is stopped: the
second one is replayed. -/
theorem clean_recovery_second :
    ∃ wal next, exec Wal.step Wal.initial
        [.init fun _ _ => 0, .logToDisk (.make 1 .put [97] [98]), .logToDisk (.make 2 .del [99] []),
          .logCurrentAt 38, .stop] = some wal ∧
      wal.step (.init fun _ _ => 0) = some next ∧ next.replayed = [.make 2 .del [99] []] := by
  have executed : exec Wal.step Wal.initial
      [.init fun _ _ => 0, .logToDisk (.make 1 .put [97] [98]), .logToDisk (.make 2 .del [99] []),
        .logCurrentAt 38, .stop] = some _ := rfl
  have legal : Legal {} [.init fun _ _ => 0, .logToDisk (.make 1 .put [97] [98]),
      .logToDisk (.make 2 .del [99] []), .logCurrentAt 38, .stop] :=
    ⟨trivial, Log.built_make _ (by decide) (by decide), Log.built_make _ (by decide) (by decide),
      ⟨1, by decide, by decide⟩, trivial, trivial⟩
  obtain ⟨next, taken, replayed, -⟩ :=
    (clean_recovery (run_of_exec executed) legal).2 fun _ _ => 0
  exact ⟨_, next, executed, taken, replayed⟩

end Ctgfs.Storage
