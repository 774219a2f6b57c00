import Ctgfs.Foundation.LittleEndian
import Mathlib.Data.List.Induction
import Mathlib.Data.List.TakeWhile

/-!
# The standalone write-ahead log

`Wal` keeps logs in memory, writes them out when it is synchronised or stopped, and reads
the file back into memory when it is initialised.  What was read back is not told apart
from what was appended, so it is written out a second time.
-/

namespace Ctgfs.WriteAhead

open Foundation

inductive WalType where
  | put
  | del
  | unknown
  deriving DecidableEq, Repr

def WalType.code : WalType → Nat
  | .put => 0
  | .del => 1
  | .unknown => 2

structure Log where
  type : WalType
  key : Bytes
  value : Bytes
  deriving DecidableEq, Repr

section Model

/-- `int_to_str`, of a number that is converted to `int` before. -/
def intToStr (number : Nat) : Bytes :=
  littleEndian 4 number

def field (text : Bytes) : Bytes :=
  intToStr text.length ++ text

/-- What `operator<<` writes. -/
def Log.record (log : Log) : Bytes :=
  intToStr log.type.code ++ field log.key ++ field log.value

def records (logs : List Log) : Bytes :=
  logs.flatMap Log.record

theorem records_append (first second : List Log) :
    records (first ++ second) = records first ++ records second :=
  List.flatMap_append

inductive Failure where
  /-- The language does not define what is done. -/
  | undefined
  /-- The bound of the loop of the model was too small. -/
  | fuel
  deriving DecidableEq, Repr

/-- `in.read`: the bytes read and those that are left.  It is `none` when the stream fails,
which it does when it has fewer bytes. -/
def readBytes (file : Bytes) (count : Nat) : Option (Bytes × Bytes) :=
  if file.length < count then none else some (file.take count, file.drop count)

/-- The `std::string` of a `char*`, which ends at the first null byte. -/
def cString (text : Bytes) : Bytes :=
  text.takeWhile (· ≠ nullByte)

variable (room : Nat)

/-- The part of `operator>>` that reads a string.  The block `a` is made by
`new char(res + 1)`, which is one character with this value and not an array: the language
gives it one byte, and an allocator may give it more.  Beyond the `room` bytes of the block
`a[res] = '\0'` is not defined, nor is it for a negative length. -/
def readField (file : Bytes) : Except Failure (Option (Bytes × Bytes)) :=
  match readBytes file 4 with
  | none => .ok none
  | some (image, rest) =>
      let res := ofLittleEndian image
      if 2147483648 ≤ res ∨ room ≤ res then .error .undefined
      else .ok ((readBytes rest res).map fun read => (cString read.1, read.2))

/-- The conversion of an `int` to `WalType`. -/
def typeOf : Nat → Except Failure WalType
  | 0 => .ok .put
  | 1 => .ok .del
  | 2 => .ok .unknown
  | _ => .error .undefined

/-- `operator>>`, and what is left of the stream; it is `none` when the stream has failed. -/
def readLog (file : Bytes) : Except Failure (Option (Log × Bytes)) :=
  match readBytes file 4 with
  | none => .ok none
  | some (image, afterType) => do
      let type ← typeOf (ofLittleEndian image)
      match ← readField room afterType with
      | none => return none
      | some (key, afterKey) =>
          match ← readField room afterKey with
          | none => return none
          | some (value, rest) => return some (⟨type, key, value⟩, rest)

/-- The loop of `Wal::Recover`. -/
def readLoop (room : Nat) : Nat → Bytes → Except Failure (List Log)
  | 0, _ => .error .fuel
  | fuel + 1, file => do
      match ← readLog room file with
      | none => return []
      | some (log, rest) =>
          let logs ← readLoop room fuel rest
          return log :: logs

def readLogs (file : Bytes) : Except Failure (List Log) :=
  readLoop room (file.length + 1) file

inductive Status where
  | ok
  | invalidArgument (message : String)
  | corruption (message : String)
  deriving DecidableEq, Repr

structure Stream where
  isOpen : Bool
  good : Bool
  deriving DecidableEq, Repr

namespace Stream

/-- `open` of a file that can be opened.  It fails when the stream has a file already. -/
def openFile (stream : Stream) : Stream :=
  if stream.isOpen then { stream with good := false } else ⟨true, true⟩

def close (stream : Stream) : Stream :=
  ⟨false, stream.good && stream.isOpen⟩

end Stream

/-- `Wal` with the file `log.ctgfs` of its directory.  The file is only ever written at its
end. -/
structure Wal where
  logFile : Option Bytes
  mlog : List Log
  dlog : Stream
  deriving DecidableEq

/-- A new `Wal` and an empty directory. -/
def Wal.initial : Wal := ⟨none, [], ⟨false, true⟩⟩

namespace Wal

variable (wal : Wal)

def start : Status × Wal :=
  (.ok, ⟨some [], [], wal.dlog.openFile⟩)

def recover (room : Nat) (file : Bytes) : Except Failure (Status × Wal) := do
  let logs ← readLogs room file
  let dlog := wal.dlog.openFile
  return (if dlog.isOpen then .ok else .corruption "open error", ⟨some file, logs, dlog⟩)

/-- `Wal::Init`, for a path of the directory. -/
def init (room : Nat) (path : Bytes) (wal : Wal) : Except Failure (Status × Wal) :=
  if path = [] then .ok (.invalidArgument "path size is 0", wal)
  else
    match wal.logFile with
    | some file => wal.recover room file
    | none => .ok wal.start

def logToDiskWithoutLock (log : Log) : Status × Wal :=
  if !wal.dlog.good then (.corruption "log_ is not good", wal)
  else if !wal.dlog.isOpen then (.corruption "log_ is not open", wal)
  else (.ok, { wal with logFile := some (wal.logFile.getD [] ++ log.record) })

def appendToMLog (log : Log) : Status × Wal :=
  (.ok, { wal with mlog := wal.mlog ++ [log] })

/-- The loop of `Wal::SyncToDLog`, which ends at the first status that is not `OK`. -/
def writeLogs (wal : Wal) : List Log → Status × Wal
  | [] => (.ok, wal)
  | log :: logs =>
      match wal.logToDiskWithoutLock log with
      | (.ok, wal) => wal.writeLogs logs
      | (status, wal) => (status, wal)

def syncToDLog : Status × Wal :=
  let (status, wal) := wal.writeLogs wal.mlog
  (status, { wal with mlog := [] })

/-- `Wal::Stop`, which does not look at what `SyncToDLog` returns. -/
def stop : Status × Wal :=
  let wal := wal.syncToDLog.2
  (.ok, { wal with dlog := wal.dlog.close })

end Wal

/-- A call between `Init` and `Stop`. -/
inductive WalCall where
  | append (log : Log)
  | sync
  deriving DecidableEq, Repr

def WalCall.run (wal : Wal) : WalCall → Wal
  | append log => (wal.appendToMLog log).2
  | sync => wal.syncToDLog.2

def appended (calls : List WalCall) : List Log :=
  calls.filterMap fun
    | .append log => some log
    | .sync => none

/-- An incarnation: `Init`, the calls and `Stop`. -/
def live (path : Bytes) (wal : Wal) (calls : List WalCall) : Except Failure Wal := do
  let (_, wal) ← wal.init room path
  return (calls.foldl WalCall.run wal).stop.2

def lives (path : Bytes) (history : List (List WalCall)) : Except Failure Wal :=
  history.foldlM (live room path) .initial

end Model

section Strings

variable {room : Nat} {text rest : Bytes}

/-- A string that can be written and read back: it fits into the block, its length is an
`int`, and it has no null byte. -/
structure Readable (room : Nat) (text : Bytes) : Prop where
  fits : text.length < room
  int : text.length < 2147483648
  noNull : nullByte ∉ text

theorem cString_eq_self_iff (text : Bytes) : cString text = text ↔ nullByte ∉ text := by
  rw [cString, List.takeWhile_eq_self_iff]
  constructor
  · intro all member
    exact absurd (all _ member) (by simp)
  · intro noNull byte member
    refine decide_eq_true ?_
    rintro rfl
    exact noNull member

theorem length_cString_le (text : Bytes) : (cString text).length ≤ text.length :=
  (List.takeWhile_prefix _).length_le

theorem readBytes_append (text rest : Bytes) :
    readBytes (text ++ rest) text.length = some (text, rest) := by
  rw [readBytes, if_neg, List.take_left, List.drop_left]
  rw [List.length_append]
  omega

theorem readBytes_intToStr (number : Nat) (rest : Bytes) :
    readBytes (intToStr number ++ rest) 4 = some (intToStr number, rest) := by
  have read := readBytes_append (intToStr number) rest
  rwa [intToStr, length_littleEndian] at read

theorem readField_field_append (room : Nat) (text rest : Bytes) :
    readField room (field text ++ rest) =
      if 2147483648 ≤ text.length % 4294967296 ∨ room ≤ text.length % 4294967296 then
        .error .undefined
      else .ok ((readBytes (text ++ rest) (text.length % 4294967296)).map
        fun read => (cString read.1, read.2)) := by
  rw [readField, field, List.append_assoc, readBytes_intToStr]
  simp only [intToStr, ofLittleEndian_littleEndian]
  norm_num

theorem Readable.readField (readable : Readable room text) (rest : Bytes) :
    readField room (field text ++ rest) = .ok (some (text, rest)) := by
  have length : text.length % 4294967296 = text.length := Nat.mod_eq_of_lt (by
    have := readable.int
    omega)
  have small : ¬ (2147483648 ≤ text.length ∨ room ≤ text.length) := by
    have := readable.int
    have := readable.fits
    omega
  rw [readField_field_append, length, if_neg small, readBytes_append, Option.map_some,
    (cString_eq_self_iff text).mpr readable.noNull]

theorem readable_of_readField {left : Bytes}
    (read : readField room (field text ++ rest) = .ok (some (text, left))) :
    Readable room text := by
  rw [readField_field_append] at read
  split at read
  · cases read
  next small =>
    rw [readBytes] at read
    split at read
    · cases read
    · have same : cString ((text ++ rest).take (text.length % 4294967296)) = text :=
        congrArg Prod.fst (Option.some.inj (Except.ok.inj read))
      -- What is read is not longer than the length that was written.
      have bound := length_cString_le ((text ++ rest).take (text.length % 4294967296))
      rw [same] at bound
      have taken := List.length_take_le (text.length % 4294967296) (text ++ rest)
      have wrapped := Nat.mod_le text.length 4294967296
      have length : text.length % 4294967296 = text.length := by omega
      rw [length, List.take_left] at same
      rw [length] at small
      exact ⟨by omega, by omega, (cString_eq_self_iff text).mp same⟩

end Strings

section Logs

variable {room : Nat} {log : Log} {logs : List Log} {file rest : Bytes}

structure Log.Readable (room : Nat) (log : Log) : Prop where
  key : WriteAhead.Readable room log.key
  value : WriteAhead.Readable room log.value

theorem typeOf_code (type : WalType) :
    typeOf (ofLittleEndian (intToStr type.code)) = .ok type := by
  cases type with
  | put => rfl
  | del => rfl
  | unknown => rfl

theorem readLog_cases (read : readLog room file = .ok (some (log, rest))) :
    ∃ image afterType afterKey, readBytes file 4 = some (image, afterType) ∧
      readField room afterType = .ok (some (log.key, afterKey)) ∧
      readField room afterKey = .ok (some (log.value, rest)) := by
  rw [readLog] at read
  cases typeRead : readBytes file 4 with
  | none => rw [typeRead] at read; cases read
  | some start =>
      obtain ⟨image, afterType⟩ := start
      rw [typeRead] at read
      simp only [bind, Except.bind] at read
      split at read
      · cases read
      split at read
      · cases read
      next keyRead =>
        split at read
        · cases read
        split at read
        · cases read
        next valueRead =>
          split at read
          · cases read
          · cases read
            exact ⟨image, afterType, _, rfl, keyRead, valueRead⟩

theorem Log.Readable.readLog (readable : log.Readable room) (rest : Bytes) :
    readLog room (log.record ++ rest) = .ok (some (log, rest)) := by
  rw [WriteAhead.readLog, Log.record, List.append_assoc, List.append_assoc, readBytes_intToStr]
  simp only [typeOf_code, readable.key.readField, readable.value.readField, bind, Except.bind]
  rfl

theorem readable_of_readLog {left : Bytes}
    (read : readLog room (log.record ++ rest) = .ok (some (log, left))) : log.Readable room := by
  obtain ⟨image, afterType, afterKey, typeRead, keyRead, valueRead⟩ := readLog_cases read
  rw [Log.record, List.append_assoc, List.append_assoc, readBytes_intToStr] at typeRead
  obtain ⟨-, rfl⟩ := Prod.mk.inj (Option.some.inj typeRead)
  have key := readable_of_readField keyRead
  rw [key.readField] at keyRead
  cases keyRead
  exact ⟨key, readable_of_readField valueRead⟩

theorem length_of_readBytes {count : Nat} {text : Bytes}
    (read : readBytes file count = some (text, rest)) : file.length = count + rest.length := by
  rw [readBytes] at read
  split at read
  · cases read
  · cases read
    rw [List.length_drop]
    omega

theorem length_of_readField {text : Bytes}
    (read : readField room file = .ok (some (text, rest))) : rest.length ≤ file.length := by
  rw [readField] at read
  split at read
  · cases read
  next image afterLength lengthRead =>
    have first := length_of_readBytes lengthRead
    dsimp only at read
    split at read
    · cases read
    · obtain ⟨⟨taken, left⟩, textRead, same⟩ := Option.map_eq_some_iff.mp (Except.ok.inj read)
      have second := length_of_readBytes textRead
      obtain rfl : left = rest := congrArg Prod.snd same
      omega

theorem length_of_readLog (read : readLog room file = .ok (some (log, rest))) :
    rest.length < file.length := by
  obtain ⟨image, afterType, afterKey, typeRead, keyRead, valueRead⟩ := readLog_cases read
  have := length_of_readBytes typeRead
  have := length_of_readField keyRead
  have := length_of_readField valueRead
  omega

theorem readLoop_eq (room : Nat) {file : Bytes} {fuel : Nat} (enough : file.length < fuel) :
    readLoop room fuel file = readLogs room file := by
  have loop : ∀ fuel other (file : Bytes), file.length < fuel → file.length < other →
      readLoop room fuel file = readLoop room other file := by
    intro fuel
    induction fuel with
    | zero =>
        intro other file enough
        exact absurd enough (Nat.not_lt_zero _)
    | succ fuel ih =>
        intro other file enough otherEnough
        obtain ⟨other, rfl⟩ := Nat.exists_eq_add_one_of_ne_zero (Nat.ne_zero_of_lt otherEnough)
        simp only [readLoop]
        cases read : readLog room file with
        | error failure => rfl
        | ok result =>
            cases result with
            | none => rfl
            | some result =>
                obtain ⟨log, rest⟩ := result
                have shorter := length_of_readLog read
                have same := ih other rest (by omega) (by omega)
                simp only [bind, Except.bind, same]
  exact loop fuel _ file enough (Nat.lt_succ_self _)

theorem readLogs_eq (room : Nat) (file : Bytes) :
    readLogs room file = (do
      match ← readLog room file with
      | none => return []
      | some (log, rest) =>
          let logs ← readLogs room rest
          return log :: logs) := by
  rw [readLogs, readLoop]
  cases read : readLog room file with
  | error failure => rfl
  | ok result =>
      cases result with
      | none => rfl
      | some result =>
          obtain ⟨log, rest⟩ := result
          simp only [bind, Except.bind, readLoop_eq room (length_of_readLog read)]

theorem readLogs_cons (read : readLogs room file = .ok (log :: logs)) :
    ∃ rest, readLog room file = .ok (some (log, rest)) ∧ readLogs room rest = .ok logs := by
  rw [readLogs_eq] at read
  simp only [bind, Except.bind] at read
  split at read
  · cases read
  next firstRead =>
    split at read
    · cases read
    next rest =>
      split at read
      · cases read
      next laterRead =>
        cases read
        exact ⟨rest, firstRead, laterRead⟩

theorem readLogs_records_append (readable : ∀ log ∈ logs, log.Readable room) (rest : Bytes) :
    readLogs room (records logs ++ rest) = (readLogs room rest).map (logs ++ ·) := by
  induction logs with
  | nil =>
      change readLogs room rest = _
      cases readLogs room rest with
      | error failure => rfl
      | ok read => rfl
  | cons log logs ih =>
      have first := (readable log List.mem_cons_self).readLog (records logs ++ rest)
      have later := ih fun other member =>
        readable other (List.mem_cons_of_mem _ member)
      have split : records (log :: logs) ++ rest = log.record ++ (records logs ++ rest) := by
        rw [records, List.flatMap_cons, List.append_assoc]
        rfl
      rw [split, readLogs_eq, first]
      simp only [bind, Except.bind, later]
      cases readLogs room rest with
      | error failure => rfl
      | ok read => rfl

@[simp]
theorem readLogs_nil (room : Nat) : readLogs room [] = .ok [] :=
  rfl

theorem readLogs_records_iff :
    readLogs room (records logs) = .ok logs ↔ ∀ log ∈ logs, log.Readable room := by
  constructor
  · intro read
    induction logs with
    | nil => exact fun _ member => absurd member List.not_mem_nil
    | cons log logs ih =>
        rw [records, List.flatMap_cons] at read
        obtain ⟨left, firstRead, laterRead⟩ := readLogs_cons read
        have first := readable_of_readLog firstRead
        rw [first.readLog] at firstRead
        cases firstRead
        exact List.forall_mem_cons.mpr ⟨first, ih laterRead⟩
  · intro readable
    have read := readLogs_records_append readable []
    rw [List.append_nil, readLogs_nil] at read
    rw [read]
    exact congrArg Except.ok (List.append_nil logs)

/-- What is in the file twice is not read as if it were there once.  Without the first copy
the second one would have to begin with the first again, and so on. -/
theorem readLogs_repeated_ne (readable : ∀ log ∈ logs, log.Readable room) (nonempty : logs ≠ [])
    (later : List Log) : readLogs room (records (logs ++ later)) ≠ .ok later := by
  induction length : later.length using Nat.strong_induction_on generalizing later with
  | _ count ih =>
      subst length
      intro read
      rw [records_append, readLogs_records_append readable] at read
      cases rest : readLogs room (records later) with
      | error failure => rw [rest] at read; cases read
      | ok read' =>
          rw [rest] at read
          have begins : logs ++ read' = later := Except.ok.inj read
          refine ih read'.length ?_ read' rfl (begins ▸ rest)
          have positive := List.length_pos_iff.mpr nonempty
          rw [← begins, List.length_append]
          omega

end Logs

section Lives

variable {room : Nat} {path : Bytes} {history : List (List WalCall)} {calls : List WalCall}

namespace Wal

def contents (wal : Wal) : Bytes := wal.logFile.getD []

theorem init_eq (given : path ≠ []) {wal : Wal} (closed : wal.dlog.isOpen = false) :
    wal.init room path = (readLogs room wal.contents).map fun logs =>
      (Status.ok, ⟨some wal.contents, logs, ⟨true, true⟩⟩) := by
  have opened : wal.dlog.openFile = ⟨true, true⟩ := by
    rw [Stream.openFile, closed]
    rfl
  rw [init, if_neg given, contents]
  cases wal.logFile with
  | none =>
      rw [start, opened]
      rfl
  | some file =>
      change recover wal room file = (readLogs room file).map _
      rw [recover, opened]
      cases readLogs room file with
      | error failure => rfl
      | ok logs => rfl

theorem writeLogs_eq (file : Bytes) (mlog logs : List Log) :
    writeLogs ⟨some file, mlog, ⟨true, true⟩⟩ logs =
      (.ok, ⟨some (file ++ records logs), mlog, ⟨true, true⟩⟩) := by
  induction logs generalizing file with
  | nil =>
      rw [writeLogs, records, List.flatMap_nil, List.append_nil]
  | cons log logs ih =>
      have later := ih (file ++ log.record)
      rw [List.append_assoc] at later
      exact later

theorem syncToDLog_eq (file : Bytes) (mlog : List Log) :
    syncToDLog ⟨some file, mlog, ⟨true, true⟩⟩ =
      (.ok, ⟨some (file ++ records mlog), [], ⟨true, true⟩⟩) := by
  rw [syncToDLog, writeLogs_eq]

theorem stop_run (file : Bytes) (mlog : List Log) (calls : List WalCall) :
    (calls.foldl WalCall.run ⟨some file, mlog, ⟨true, true⟩⟩).stop =
      (.ok, ⟨some (file ++ records (mlog ++ appended calls)), [], ⟨false, true⟩⟩) := by
  induction calls generalizing file mlog with
  | nil =>
      rw [List.foldl_nil, stop, syncToDLog_eq, appended, List.filterMap_nil, List.append_nil]
      rfl
  | cons call calls ih =>
      rw [List.foldl_cons]
      cases call with
      | append log =>
          have later := ih file (mlog ++ [log])
          rw [List.append_assoc, List.singleton_append] at later
          exact later
      | sync =>
          have later := ih (file ++ records mlog) []
          rw [List.append_assoc, List.nil_append] at later
          rw [WalCall.run, syncToDLog_eq, later, ← records_append]
          rfl

end Wal

theorem live_eq (given : path ≠ []) {wal : Wal} (closed : wal.dlog.isOpen = false)
    (calls : List WalCall) :
    live room path wal calls = (readLogs room wal.contents).map fun logs =>
      ⟨some (wal.contents ++ records (logs ++ appended calls)), [], ⟨false, true⟩⟩ := by
  rw [live, Wal.init_eq given closed]
  cases readLogs room wal.contents with
  | error failure => rfl
  | ok logs =>
      change Except.ok _ = Except.ok _
      rw [Wal.stop_run]

/-- Each incarnation but the last one appends nothing, and what the last one appends can be
read back. -/
structure Replayable (room : Nat) (history : List (List WalCall)) : Prop where
  once : ∀ calls ∈ history.dropLast, appended calls = []
  readable : ∀ log ∈ history.flatMap appended, log.Readable room

theorem Replayable.earlier {earlier : List (List WalCall)} (replayable : Replayable room history)
    (begins : earlier <+: history) : Replayable room earlier := by
  obtain ⟨rest, rfl⟩ := begins
  constructor
  · intro calls member
    refine replayable.once calls ?_
    cases rest with
    | nil => rwa [List.append_nil]
    | cons next rest =>
        rw [List.dropLast_append_of_ne_nil (List.cons_ne_nil _ _)]
        exact List.mem_append_left _ (List.dropLast_subset _ member)
  · intro log member
    refine replayable.readable log ?_
    rw [List.flatMap_append]
    exact List.mem_append_left _ member

theorem lives_concat (room : Nat) (path : Bytes) (history : List (List WalCall))
    (calls : List WalCall) :
    lives room path (history ++ [calls]) =
      lives room path history >>= fun wal => live room path wal calls := by
  rw [lives, List.foldlM_append]
  simp only [List.foldlM_cons, List.foldlM_nil, bind_pure]
  rfl

theorem Replayable.lives (replayable : Replayable room history) (given : path ≠ []) :
    ∃ wal, lives room path history = .ok wal ∧ wal.dlog.isOpen = false ∧
      wal.contents = records (history.flatMap appended) := by
  induction history using List.reverseRecOn with
  | nil => exact ⟨.initial, rfl, rfl, rfl⟩
  | append_singleton history calls ih =>
      have nothing : history.flatMap appended = [] := by
        rw [List.flatMap_eq_nil_iff]
        have once := replayable.once
        rwa [List.dropLast_concat] at once
      obtain ⟨wal, lived, closed, contents⟩ :=
        ih (replayable.earlier (List.prefix_append _ _))
      rw [nothing] at contents
      refine ⟨⟨some (records (appended calls)), [], ⟨false, true⟩⟩, ?_, rfl, ?_⟩
      · rw [lives_concat, lived]
        change live room path wal calls = _
        rw [live_eq given closed, contents]
        rfl
      · rw [List.flatMap_append, nothing, List.flatMap_singleton]
        rfl

/-- After each `Init` the logs in memory are those that all earlier incarnations have
appended, in order and each once. -/
def Reproduces (room : Nat) (path : Bytes) (history : List (List WalCall)) : Prop :=
  ∀ earlier, earlier <+: history → ∃ wal : Wal,
    (lives room path earlier >>= Wal.init room path) = .ok (.ok, wal) ∧
      wal.mlog = earlier.flatMap appended

theorem init_lives_iff (given : path ≠ []) {wal : Wal} (lived : lives room path history = .ok wal)
    (closed : wal.dlog.isOpen = false) {logs : List Log} :
    (∃ next : Wal, (lives room path history >>= Wal.init room path) = .ok (.ok, next) ∧
      next.mlog = logs) ↔ readLogs room wal.contents = .ok logs := by
  rw [lived]
  change (∃ next : Wal, wal.init room path = _ ∧ _) ↔ _
  rw [Wal.init_eq given closed]
  cases readLogs room wal.contents with
  | error failure =>
      constructor
      · rintro ⟨next, impossible, -⟩
        cases impossible
      · intro impossible
        cases impossible
  | ok read =>
      constructor
      · rintro ⟨next, same, rfl⟩
        cases same
        rfl
      · intro same
        cases same
        exact ⟨_, rfl, rfl⟩

theorem Replayable.concat (replayable : Replayable room history) (given : path ≠ [])
    (reproduced : ∃ next : Wal,
      (WriteAhead.lives room path (history ++ [calls]) >>= Wal.init room path) = .ok (.ok, next) ∧
        next.mlog = (history ++ [calls]).flatMap appended) :
    Replayable room (history ++ [calls]) := by
  obtain ⟨wal, lived, closed, contents⟩ := replayable.lives given
  have read : readLogs room wal.contents = .ok (history.flatMap appended) := by
    rw [contents]
    exact readLogs_records_iff.mpr replayable.readable
  -- `Stop` has written out again what `Init` had read.
  have nextLived : WriteAhead.lives room path (history ++ [calls]) = .ok
      ⟨some (wal.contents ++ records (history.flatMap appended ++ appended calls)), [],
        ⟨false, true⟩⟩ := by
    rw [lives_concat, lived]
    change live room path wal calls = _
    rw [live_eq given closed, read]
    rfl
  have again := (init_lives_iff given nextLived rfl).mp reproduced
  change readLogs room (wal.contents ++ _) = _ at again
  rw [contents, ← records_append, List.flatMap_append, List.flatMap_singleton] at again
  have nothing : history.flatMap appended = [] := by
    by_contra nonempty
    exact readLogs_repeated_ne replayable.readable nonempty _ again
  rw [nothing] at again
  constructor
  · rw [List.dropLast_concat]
    exact List.flatMap_eq_nil_iff.mp nothing
  · rw [List.flatMap_append, nothing, List.flatMap_singleton]
    exact readLogs_records_iff.mp again

/-- The logs are reproduced exactly in the histories that can be replayed. -/
theorem wal_reproduces_iff (room : Nat) {path : Bytes} (given : path ≠ [])
    (history : List (List WalCall)) :
    Reproduces room path history ↔ Replayable room history := by
  constructor
  · intro reproduces
    induction history using List.reverseRecOn with
    | nil => exact ⟨fun _ member => absurd member List.not_mem_nil,
        fun _ member => absurd member List.not_mem_nil⟩
    | append_singleton history calls ih =>
        have earlier := ih fun earlier begins =>
          reproduces earlier (begins.trans (List.prefix_append _ _))
        exact earlier.concat given (reproduces _ (List.prefix_refl _))
  · intro replayable earlier begins
    have earlierReplayable := replayable.earlier begins
    obtain ⟨wal, lived, closed, contents⟩ := earlierReplayable.lives given
    refine (init_lives_iff given lived closed).mpr ?_
    rw [contents]
    exact readLogs_records_iff.mpr earlierReplayable.readable

end Lives

theorem wal_reproduces_iff_restarted :
    Reproduces 24 [⟨46, by decide⟩]
      [[], [.append ⟨.put, [⟨97, by decide⟩], [⟨98, by decide⟩]⟩, .sync]] := by
  refine (wal_reproduces_iff 24 (by decide) _).mpr ⟨by decide, ?_⟩
  intro log member
  obtain rfl := List.mem_singleton.mp member
  exact ⟨⟨by decide, by decide, by decide⟩, ⟨by decide, by decide, by decide⟩⟩

/-- An incarnation without calls repeats the log of the incarnation before it. -/
theorem restart_repeats_log :
    ¬ Reproduces 24 [⟨46, by decide⟩]
      [[.append ⟨.put, [⟨97, by decide⟩], [⟨98, by decide⟩]⟩], []] := by
  intro reproduces
  obtain ⟨wal, initialised, logs⟩ := reproduces _ (List.prefix_refl _)
  have twice : wal.mlog = [⟨.put, [⟨97, by decide⟩], [⟨98, by decide⟩]⟩,
      ⟨.put, [⟨97, by decide⟩], [⟨98, by decide⟩]⟩] := by
    cases initialised
    rfl
  rw [twice] at logs
  exact absurd logs (by decide)

end Ctgfs.WriteAhead
