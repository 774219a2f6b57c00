import Mathlib.Logic.Function.Basic
import Ctgfs.Storage.Iterator

/-!
# Tables on disk

An `SStable` is a file that starts with a framed head, the `SSTMeta`, and goes on with the
records of its logs.  It is written in one go from a buffer and read by an `SSTIterator`
from the offset that the head names.
-/

namespace Ctgfs.Storage

open Foundation

abbrev Disk := Bytes → Option Bytes

structure SstMeta where
  lastLog : Log
  dataOffset : Nat
  dataSize : Nat
  deriving DecidableEq, Repr

/-- Which calls of an `SStable::Flush` succeed: `open`, the two writes of the head and the
write of the buffer. -/
structure FileCalls where
  opened : Bool
  lengthWritten : Bool
  headWritten : Bool
  dataWritten : Bool
  deriving DecidableEq, Repr

def FileCalls.all : FileCalls := ⟨true, true, true, true⟩

/-- The file after a `write`, which also fails when the file would be too large. -/
def tryWrite (succeeds : Bool) (file : Bytes) (position : Nat) (bytes : Bytes) : Option Bytes :=
  if succeeds ∧ (writeAt file position bytes).length < arrayLimit then
    some (writeAt file position bytes)
  else none

namespace SstMeta

def size (head : SstMeta) : Nat :=
  (head.lastLog.size + 2 * 8) % wordLimit

/-- The string that `SSTMeta::Encode` builds. -/
def bytes (head : SstMeta) : Bytes :=
  head.lastLog.encode ++ littleEndian 8 head.dataOffset ++ littleEndian 8 head.dataSize

def encode (head : SstMeta) : Except Failure Bytes :=
  if head.bytes.length = head.size then .ok head.bytes else .error .status

def decode (bytes : Bytes) : Except Failure SstMeta := do
  let lastLog ← Log.decode bytes
  let dataOffset ← wordAt bytes lastLog.size
  let dataSize ← wordAt bytes (lastLog.size + 8)
  return { lastLog, dataOffset, dataSize }

/-- `SSTMeta::Write` at the start of a file: whether its status is `OK`, and the file. -/
def write (calls : FileCalls) (head : SstMeta) (file : Bytes) : Bool × Bytes :=
  match tryWrite calls.lengthWritten file 0 (littleEndian 8 ((head.size + 8) % wordLimit)) with
  | none => (false, file)
  | some file =>
      match head.encode with
      | .error _ => (false, file)
      | .ok encoding =>
          match tryWrite calls.headWritten file 8 (encoding.take head.size) with
          | none => (false, file)
          | some file => (true, file)

def read (junk : Nat → Byte) (file : Bytes) : Except Failure SstMeta := do
  let (head, _, _) ← readFrame decode size junk file 0
  return head

end SstMeta

structure SStable where
  filename : Bytes
  head : SstMeta
  buf : Bytes
  deriving DecidableEq, Repr

/-- `SSTIterator`: the file and the offset of its descriptor, and its own two counters. -/
structure SstIterator where
  filename : Bytes
  offset : Nat
  pos : Nat
  size : Nat
  deriving DecidableEq, Repr

/-- What a function that writes a table returns: whether its status is `OK`, whether everything
has been written, and what it leaves. -/
structure Written (Result : Type) where
  ok : Bool
  complete : Bool
  result : Result

/-- The result when everything has been written. -/
def Written.toExcept {Result : Type} (written : Written Result) : Except Failure Result :=
  if written.complete then .ok written.result else .error .status

namespace SStable

/-- `SStable::Init` of a new table. -/
def init (filename : Bytes) (lastLog : Log) : SStable where
  filename := filename
  head :=
    { lastLog
      dataOffset := ((lastLog.size + 2 * 8) % wordLimit + 8) % wordLimit
      dataSize := 0 }
  buf := []

def recover (junk : Nat → Byte) (disk : Disk) (filename : Bytes) : Except Failure SStable :=
  match disk filename with
  | none => .error .status
  | some file => do
      let head ← SstMeta.read junk file
      return { filename, head, buf := [] }

def append (sst : SStable) (log : Log) : SStable :=
  { sst with
    head := { sst.head with dataSize := (sst.head.dataSize + log.encode.length) % wordLimit }
    buf := sst.buf ++ frame log.encode.length log.encode }

/-- `SStable::Flush` with calls that may fail.  The file is opened without `O_TRUNC`, so what it
holds behind the bytes that are written stays. -/
def flushWith (calls : FileCalls) (disk : Disk) (sst : SStable) : Written Disk :=
  if calls.opened then
    let (ok, file) := sst.head.write calls ((disk sst.filename).getD [])
    if ok then
      match tryWrite calls.dataWritten file (8 + sst.head.size) sst.buf with
      -- the failure is logged, but it does not become the status
      | none => ⟨true, false, Function.update disk sst.filename (some file)⟩
      | some file => ⟨true, true, Function.update disk sst.filename (some file)⟩
    else ⟨false, false, Function.update disk sst.filename (some file)⟩
  else ⟨false, false, disk⟩

/-- `SStable::Flush` when every call succeeds. -/
def flush (disk : Disk) (sst : SStable) : Except Failure Disk :=
  (sst.flushWith .all disk).toExcept

/-- `SStable::CreateIterator`.  `lseek` takes a signed offset, and its result is ignored. -/
def createIterator (disk : Disk) (sst : SStable) : Except Failure SstIterator :=
  match disk sst.filename with
  | none => .error .status
  | some file =>
      .ok {
        filename := sst.filename
        offset := if sst.head.dataOffset < arrayLimit then sst.head.dataOffset else 0
        pos := sst.head.dataOffset
        size := file.length }

end SStable

namespace SstIterator

def hasNext (iter : SstIterator) : Bool :=
  decide (iter.pos < iter.size)

def next (junk : Nat → Byte) (disk : Disk) (iter : SstIterator) :
    Except Failure (Log × SstIterator) :=
  if iter.hasNext then
    match disk iter.filename with
    | none => .error .status
    | some file => do
        let (log, readed, offset) ← Log.read junk file iter.offset
        return (log, { iter with offset, pos := (iter.pos + readed) % wordLimit })
  else .error .status

def iterator (junk : SstIterator → Nat → Byte) (disk : Disk) : Iterator SstIterator where
  hasNext := hasNext
  next iter := iter.next (junk iter) disk

end SstIterator

/-- The logs that an iterator over the table yields.  Uninitialised memory may hold
something else in each call of `Next`. -/
def SStable.logs (junk : SstIterator → Nat → Byte) (disk : Disk) (sst : SStable) :
    Except Failure (List Log) := do
  let iter ← sst.createIterator disk
  (SstIterator.iterator junk disk).drain (iter.size + 1) iter

section Head

namespace SstMeta

variable {head : SstMeta}

/-- A head as `SStable::Init` makes it for a log that was built by its constructor. -/
structure Built (head : SstMeta) : Prop where
  lastLog : head.lastLog.Built
  offset : head.dataOffset = head.lastLog.size + 3 * 8
  data : head.dataSize < wordLimit

theorem length_bytes (sized : head.lastLog.Sized) :
    head.bytes.length = head.lastLog.size + 2 * 8 := by
  rw [bytes, List.length_append, List.length_append, length_littleEndian, length_littleEndian,
    sized.length_encode]

theorem size_eq (sized : head.lastLog.Sized) (string : head.bytes.length < wordLimit) :
    head.size = head.bytes.length := by
  rw [length_bytes sized] at string ⊢
  exact Nat.mod_eq_of_lt string

theorem Built.length_bytes (built : head.Built) :
    head.bytes.length = head.lastLog.size + 2 * 8 :=
  SstMeta.length_bytes built.lastLog.sized

theorem Built.size_eq (built : head.Built) : head.size = head.bytes.length := by
  have small := built.lastLog.memory
  have limit := arrayLimit_lt_wordLimit
  refine SstMeta.size_eq built.lastLog.sized ?_
  rw [built.length_bytes]
  omega

theorem decode_bytes (sized : head.lastLog.Sized) (offsetFits : head.dataOffset < wordLimit)
    (dataFits : head.dataSize < wordLimit) : decode head.bytes = .ok head := by
  have log : Log.decode head.bytes = .ok head.lastLog := by
    rw [bytes, List.append_assoc]
    exact sized.decode_encode _
  have offset : wordAt head.bytes head.lastLog.size = .ok head.dataOffset := by
    have fits : head.dataOffset < 256 ^ 8 := offsetFits
    have word := wordAt_eq (List.prefix_append
      (head.lastLog.encode ++ littleEndian 8 head.dataOffset) (littleEndian 8 head.dataSize))
      (length_littleEndian _ _)
    rwa [sized.length_encode, ofLittleEndian_of_lt fits] at word
  have data : wordAt head.bytes (head.lastLog.size + 8) = .ok head.dataSize := by
    have fits : head.dataSize < 256 ^ 8 := dataFits
    have word := wordAt_eq (List.prefix_refl head.bytes) (length_littleEndian 8 head.dataSize)
    rwa [List.length_append, length_littleEndian, sized.length_encode,
      ofLittleEndian_of_lt fits] at word
  rw [decode, log]
  simp only [bind, Except.bind, offset, data]
  rfl

theorem Built.decode_bytes (built : head.Built) : decode head.bytes = .ok head := by
  refine SstMeta.decode_bytes built.lastLog.sized ?_ built.data
  rw [built.offset]
  exact built.lastLog.memory.trans arrayLimit_lt_wordLimit

theorem Built.read_frame (built : head.Built) (junk : Nat → Byte) (rest : Bytes) :
    read junk (frame head.bytes.length head.bytes ++ rest) = .ok head := by
  have small : head.bytes.length + 8 < arrayLimit := by
    rw [built.length_bytes]
    exact built.lastLog.memory
  have whole := readFrame_frame built.decode_bytes built.size_eq small junk [] rest
  rw [List.nil_append, List.length_nil] at whole
  rw [read, whole]
  rfl

/-- The codecs of a log and of the head of a table: what the constructor of `Log` has made
is read back from its encoding whatever bytes follow, its size is the length of the
encoding, and a head over it is encoded and read back whatever its two numbers are.  All
that is asked of the bytes is that the encodings are strings. -/
theorem codecs_prefix_exact (lsn : Nat) (op : Op) (key value rest : Bytes)
    (word : lsn < wordLimit) (string : (Log.make lsn op key value).encode.length < wordLimit) :
    Log.decode ((Log.make lsn op key value).encode ++ rest) = .ok (Log.make lsn op key value) ∧
      (Log.make lsn op key value).encode.length = (Log.make lsn op key value).size ∧
      ∀ dataOffset dataSize : Nat, dataOffset < wordLimit → dataSize < wordLimit →
        (SstMeta.bytes ⟨Log.make lsn op key value, dataOffset, dataSize⟩).length < wordLimit →
        ∃ encoded, SstMeta.encode ⟨Log.make lsn op key value, dataOffset, dataSize⟩ = .ok encoded ∧
          SstMeta.decode encoded = .ok ⟨Log.make lsn op key value, dataOffset, dataSize⟩ := by
  have sized : (Log.make lsn op key value).Sized := by
    rw [Log.length_encode] at string
    exact Log.sized_make op word string
  refine ⟨sized.decode_encode rest, sized.length_encode, ?_⟩
  intro dataOffset dataSize offsetFits dataFits headString
  refine ⟨_, if_pos (size_eq sized headString).symm, ?_⟩
  exact decode_bytes sized offsetFits dataFits

/-- An empty key and a value with a null byte, and a head with the largest numbers. -/
theorem codecs_prefix_exact_largest :
    Log.decode ((Log.make 18446744073709551615 .del [] [0]).encode ++ [255]) =
        .ok (Log.make 18446744073709551615 .del [] [0]) ∧
      ∃ encoded, SstMeta.encode ⟨Log.make 18446744073709551615 .del [] [0],
          18446744073709551615, 18446744073709551615⟩ = .ok encoded ∧
        SstMeta.decode encoded = .ok ⟨Log.make 18446744073709551615 .del [] [0],
          18446744073709551615, 18446744073709551615⟩ := by
  have codec := codecs_prefix_exact 18446744073709551615 .del [] [0] [255] (by decide)
    (by decide)
  exact ⟨codec.1, codec.2.2 _ _ (by decide) (by decide) (by decide)⟩

end SstMeta

end Head

section Tables

def tableFile (head : SstMeta) (logs : List Log) : Bytes :=
  frame head.bytes.length head.bytes ++ logs.flatMap Log.record

structure SStable.Holds (disk : Disk) (sst : SStable) (logs : List Log) : Prop where
  head : sst.head.Built
  built : ∀ log ∈ logs, log.Built
  stored : disk sst.filename = some (tableFile sst.head logs)
  small : (tableFile sst.head logs).length < arrayLimit

variable {disk : Disk} {sst : SStable} {logs : List Log}

theorem SstMeta.Built.length_frame {head : SstMeta} (built : head.Built) :
    (frame head.bytes.length head.bytes).length = head.dataOffset := by
  rw [Storage.length_frame, built.length_bytes, built.offset]

theorem SstIterator.yields_records (junk : SstIterator → Nat → Byte) {logs : List Log}
    (built : ∀ log ∈ logs, log.Built) (filename start : Bytes)
    (stored : disk filename = some (start ++ logs.flatMap Log.record))
    (small : start.length + Log.extent logs < arrayLimit) :
    (iterator junk disk).Yields
      ⟨filename, start.length, start.length, start.length + Log.extent logs⟩ logs := by
  induction logs generalizing start with
  | nil =>
      apply Iterator.Yields.nil
      simp [iterator, hasNext, Log.extent]
  | cons log rest ih =>
      have first := built log List.mem_cons_self
      have length := Log.length_record first
      rw [Log.extent_cons, length] at small ⊢
      rw [List.flatMap_cons, ← List.append_assoc] at stored
      have later := ih
        (fun other member => built other (List.mem_cons_of_mem _ member)) (start ++ log.record)
        stored (by rw [List.length_append, length]; omega)
      rw [List.length_append, length, Nat.add_assoc start.length] at later
      have noWrap : (start.length + (log.size + 8)) % wordLimit = start.length + (log.size + 8) :=
        Nat.mod_eq_of_lt (lt_trans (by omega) arrayLimit_lt_wordLimit)
      have more : start.length < start.length + (log.size + 8 + Log.extent rest) := by omega
      refine Iterator.Yields.cons ?_ ?_ later
      · simp [iterator, hasNext]
      · simp only [iterator, next, hasNext, more, decide_true, if_true, stored]
        rw [Log.read_record first]
        simp only [bind, Except.bind, noWrap]
        rfl

theorem SStable.Holds.yields (holds : sst.Holds disk logs) (junk : SstIterator → Nat → Byte) :
    ∃ iter, sst.createIterator disk = .ok iter ∧ logs.length < iter.size + 1 ∧
      (SstIterator.iterator junk disk).Yields iter logs := by
  have start := holds.head.length_frame
  have total : (tableFile sst.head logs).length = sst.head.dataOffset + Log.extent logs := by
    rw [tableFile, List.length_append, start, Log.length_records]
  have small := holds.small
  have room : sst.head.dataOffset < arrayLimit := by omega
  have few := Log.length_le_extent holds.built
  have yields := SstIterator.yields_records junk holds.built sst.filename
    (frame sst.head.bytes.length sst.head.bytes) holds.stored (by rw [start, ← total]; exact small)
  rw [start] at yields
  refine ⟨_, ?_, ?_, yields⟩
  · rw [createIterator, holds.stored]
    simp only [room, if_true, total]
  · simp only
    omega

theorem SStable.Holds.logs_eq (holds : sst.Holds disk logs) (junk : SstIterator → Nat → Byte) :
    sst.logs junk disk = .ok logs := by
  obtain ⟨iter, created, enough, yields⟩ := holds.yields junk
  rw [SStable.logs, created]
  exact yields.drain_eq _ enough

theorem SStable.Holds.recover_eq (holds : sst.Holds disk logs) (junk : Nat → Byte) :
    SStable.recover junk disk sst.filename = .ok { sst with buf := [] } := by
  rw [recover, holds.stored, tableFile]
  simp only [holds.head.read_frame junk]
  rfl

variable {filename : Bytes}

theorem SStable.Holds.update (holds : sst.Holds disk logs) (other : sst.filename ≠ filename)
    (file : Option Bytes) : sst.Holds (Function.update disk filename file) logs := by
  refine ⟨holds.head, holds.built, ?_, holds.small⟩
  rw [Function.update_of_ne other, holds.stored]

theorem SStable.foldl_append (sst : SStable) (built : ∀ log ∈ logs, log.Built)
    (data : sst.head.dataSize < wordLimit) :
    ∃ dataSize < wordLimit, logs.foldl SStable.append sst =
      { sst with
        head := { sst.head with dataSize }
        buf := sst.buf ++ logs.flatMap Log.record } := by
  induction logs generalizing sst with
  | nil => exact ⟨sst.head.dataSize, data, by simp⟩
  | cons log rest ih =>
      obtain ⟨dataSize, fits, appended⟩ := ih (sst.append log)
        (fun other member => built other (List.mem_cons_of_mem _ member))
        (Nat.mod_lt _ (by decide))
      refine ⟨dataSize, fits, ?_⟩
      have record : log.record = frame log.encode.length log.encode := by
        rw [Log.record, (built log List.mem_cons_self).length_encode]
      rw [List.foldl_cons, appended, List.flatMap_cons, record]
      simp [append]

variable {lastLog : Log}

theorem SStable.init_built (filename : Bytes) (last : lastLog.Built) {dataSize : Nat}
    (fits : dataSize < wordLimit) :
    ({ (SStable.init filename lastLog).head with dataSize } : SstMeta).Built := by
  have limit := arrayLimit_lt_wordLimit
  have memory := last.memory
  have inner : (lastLog.size + 2 * 8) % wordLimit = lastLog.size + 2 * 8 :=
    Nat.mod_eq_of_lt (by omega)
  refine ⟨last, ?_, fits⟩
  simp only [init, inner]
  exact Nat.mod_eq_of_lt (by omega)

theorem tryWrite_eq_some_iff {succeeds : Bool} {file bytes after : Bytes} {position : Nat} :
    tryWrite succeeds file position bytes = some after ↔
      (succeeds = true ∧ (writeAt file position bytes).length < arrayLimit) ∧
        writeAt file position bytes = after := by
  rw [tryWrite, Option.ite_none_right_eq_some, Option.some.injEq]

theorem tryWrite_eq_none {succeeds : Bool} {file bytes : Bytes} {position : Nat}
    (failed : tryWrite succeeds file position bytes = none) (tried : succeeds = true) :
    ¬ (writeAt file position bytes).length < arrayLimit := by
  intro small
  rw [tryWrite, if_pos ⟨tried, small⟩] at failed
  cases failed

theorem Written.toExcept_eq_ok {Result : Type} {written : Written Result} {result : Result} :
    written.toExcept = .ok result ↔ written.complete = true ∧ written.result = result := by
  rw [toExcept]
  split
  next complete => simp [complete]
  next lost => simp [lost]

theorem Written.toExcept_error {Result : Type} {written : Written Result} {failure : Failure}
    (failed : written.toExcept = .error failure) : failure = .status := by
  rw [toExcept] at failed
  split at failed
  · cases failed
  · cases failed
    rfl

def SStable.image (sst : SStable) : Bytes :=
  frame sst.head.bytes.length sst.head.bytes ++ sst.buf

def SStable.DataFollows (calls : FileCalls) (sst : SStable) : Prop :=
  calls.opened = true → calls.lengthWritten = true → calls.headWritten = true →
    calls.dataWritten = true ∧ sst.image.length < arrayLimit

inductive SStable.Flushed (calls : FileCalls) (disk : Disk) (sst : SStable) :
    Written Disk → Prop where
  | failed (file : Option Bytes) : (calls = .all → ¬ sst.image.length < arrayLimit) →
      Flushed calls disk sst ⟨false, false, Function.update disk sst.filename file⟩
  | headOnly : ¬ sst.DataFollows calls → Flushed calls disk sst
      ⟨true, false, Function.update disk sst.filename
        (some (frame sst.head.bytes.length sst.head.bytes))⟩
  | complete : sst.image.length < arrayLimit → Flushed calls disk sst
      ⟨true, true, Function.update disk sst.filename (some sst.image)⟩

theorem SstMeta.Built.writeAt_head {head : SstMeta} (built : head.Built) :
    writeAt (littleEndian 8 ((head.size + 8) % wordLimit)) 8 (head.bytes.take head.size) =
      frame head.bytes.length head.bytes := by
  have appended := writeAt_length (littleEndian 8 ((head.size + 8) % wordLimit))
    (head.bytes.take head.size)
  rw [length_littleEndian] at appended
  rw [appended, built.size_eq]
  rfl

theorem SStable.writeAt_data (head : sst.head.Built) :
    writeAt (frame sst.head.bytes.length sst.head.bytes) (8 + sst.head.size) sst.buf =
      sst.image := by
  have appended := writeAt_length (frame sst.head.bytes.length sst.head.bytes) sst.buf
  rw [Storage.length_frame, Nat.add_comm, ← head.size_eq] at appended
  rw [image, ← head.size_eq]
  exact appended

theorem SstMeta.Built.write_new {head : SstMeta} (built : head.Built) (calls : FileCalls) :
    (∃ file, head.write calls [] = (false, file) ∧
      (calls = .all → ¬ (frame head.bytes.length head.bytes).length < arrayLimit)) ∨
    (head.write calls [] = (true, frame head.bytes.length head.bytes) ∧
      calls.lengthWritten = true ∧ calls.headWritten = true) := by
  have encoded : head.encode = .ok head.bytes := by
    rw [encode, if_pos built.size_eq.symm]
  simp only [write, encoded]
  cases first : tryWrite calls.lengthWritten [] 0
      (littleEndian 8 ((head.size + 8) % wordLimit)) with
  | none =>
      refine .inl ⟨_, rfl, fun all small => tryWrite_eq_none first (by rw [all]; rfl) ?_⟩
      rw [Storage.length_frame] at small
      rw [length_writeAt_zero, length_littleEndian, List.length_nil]
      omega
  | some length =>
      obtain ⟨⟨lengthWritten, -⟩, rfl⟩ := tryWrite_eq_some_iff.mp first
      simp only [writeAt_zero, List.drop_nil, List.append_nil]
      cases second : tryWrite calls.headWritten (littleEndian 8 ((head.size + 8) % wordLimit)) 8
          (head.bytes.take head.size) with
      | none =>
          refine .inl ⟨_, rfl, fun all small => tryWrite_eq_none second (by rw [all]; rfl) ?_⟩
          rwa [built.writeAt_head]
      | some whole =>
          obtain ⟨⟨headWritten, -⟩, rfl⟩ := tryWrite_eq_some_iff.mp second
          rw [built.writeAt_head]
          exact .inr ⟨rfl, lengthWritten, headWritten⟩

theorem SStable.flushed (calls : FileCalls) (head : sst.head.Built)
    (fresh : disk sst.filename = none) : sst.Flushed calls disk (sst.flushWith calls disk) := by
  rw [flushWith]
  split
  next opened =>
    rw [fresh, Option.getD_none]
    rcases head.write_new calls with ⟨file, failed, large⟩ | ⟨written, lengthWritten, headWritten⟩
    · rw [failed]
      refine .failed _ fun all small => large all ?_
      rw [image, List.length_append] at small
      omega
    · simp only [written, if_true]
      cases last : tryWrite calls.dataWritten (frame sst.head.bytes.length sst.head.bytes)
          (8 + sst.head.size) sst.buf with
      | none =>
          refine .headOnly fun follows => ?_
          obtain ⟨dataWritten, small⟩ := follows opened lengthWritten headWritten
          rw [← SStable.writeAt_data head] at small
          exact tryWrite_eq_none last dataWritten small
      | some file =>
          obtain ⟨⟨-, small⟩, rfl⟩ := tryWrite_eq_some_iff.mp last
          rw [SStable.writeAt_data head] at small ⊢
          exact .complete small
  next closed =>
    have failed : sst.Flushed calls disk ⟨false, false, Function.update disk sst.filename none⟩ :=
      .failed none fun all => absurd (by rw [all]; rfl) closed
    rw [← fresh, Function.update_eq_self] at failed
    exact failed

/-- A flush changes no other file, and one that has written everything returns `OK`. -/
theorem SStable.flushWith_spec (calls : FileCalls) (disk : Disk) (sst : SStable) :
    (∃ file, (sst.flushWith calls disk).result = Function.update disk sst.filename file) ∧
      ((sst.flushWith calls disk).complete = true → (sst.flushWith calls disk).ok = true) := by
  rw [flushWith]
  split
  · dsimp only
    split
    · split
      · exact ⟨⟨_, rfl⟩, fun _ => rfl⟩
      · exact ⟨⟨_, rfl⟩, fun _ => rfl⟩
    · exact ⟨⟨_, rfl⟩, fun complete => complete⟩
  · exact ⟨⟨disk sst.filename, (Function.update_eq_self _ _).symm⟩, fun complete => complete⟩

theorem SStable.flush_fresh (head : sst.head.Built) (fresh : disk sst.filename = none) :
    sst.flush disk =
      if sst.image.length < arrayLimit then
        .ok (Function.update disk sst.filename (some sst.image))
      else .error .status := by
  have flushed := SStable.flushed .all head fresh
  rw [flush]
  revert flushed
  generalize sst.flushWith .all disk = written
  intro flushed
  cases flushed with
  | failed file large => rw [if_neg (large rfl), Written.toExcept, if_neg Bool.false_ne_true]
  | headOnly lost =>
      rw [if_neg fun small => lost fun _ _ _ => ⟨rfl, small⟩, Written.toExcept,
        if_neg Bool.false_ne_true]
  | complete small => rw [if_pos small, Written.toExcept, if_pos rfl]

theorem SStable.flush_eq {after : Disk} (head : sst.head.Built) (fresh : disk sst.filename = none)
    (flushed : sst.flush disk = .ok after) : sst.image.length < arrayLimit ∧
      after = Function.update disk sst.filename (some sst.image) := by
  rw [SStable.flush_fresh head fresh] at flushed
  split at flushed
  next room =>
    cases flushed
    exact ⟨room, rfl⟩
  next full => cases flushed

theorem SStable.flush_new {after : Disk} (last : lastLog.Built) (built : ∀ log ∈ logs, log.Built)
    (fresh : disk filename = none)
    (flushed : (logs.foldl SStable.append (.init filename lastLog)).flush disk = .ok after) :
    (logs.foldl SStable.append (.init filename lastLog)).filename = filename ∧
      (logs.foldl SStable.append (.init filename lastLog)).Holds after logs ∧
      ∃ file, after = Function.update disk filename (some file) := by
  obtain ⟨dataSize, fits, appended⟩ :=
    SStable.foldl_append (.init filename lastLog) built (show 0 < wordLimit by decide)
  have head : SstMeta.Built _ := SStable.init_built filename last fits
  rw [appended] at flushed ⊢
  obtain ⟨small, rfl⟩ := SStable.flush_eq head fresh flushed
  exact ⟨rfl, ⟨head, built, Function.update_self .., small⟩, _, rfl⟩

theorem SStable.flush_fits (last : lastLog.Built) (built : ∀ log ∈ logs, log.Built)
    (fresh : disk filename = none) (room : lastLog.size + 3 * 8 + Log.extent logs < arrayLimit) :
    ∃ after, (logs.foldl SStable.append (.init filename lastLog)).flush disk = .ok after := by
  obtain ⟨dataSize, fits, appended⟩ :=
    SStable.foldl_append (.init filename lastLog) built (show 0 < wordLimit by decide)
  have head : SstMeta.Built _ := SStable.init_built filename last fits
  have offset : (SStable.init filename lastLog).head.dataOffset = lastLog.size + 3 * 8 :=
    head.offset
  rw [appended, SStable.flush_fresh head fresh, if_pos]
  · exact ⟨_, rfl⟩
  · rw [image, List.length_append]
    calc _ = (SStable.init filename lastLog).head.dataOffset + Log.extent logs :=
          congrArg₂ (· + ·) head.length_frame rfl
      _ < arrayLimit := by
          rw [offset]
          exact room

theorem SStable.flush_room (last : lastLog ∈ logs) (built : ∀ log ∈ logs, log.Built)
    (fresh : disk filename = none) (room : 2 * Log.extent logs + 2 * 8 < arrayLimit) :
    ∃ after, (logs.foldl SStable.append (.init filename lastLog)).flush disk = .ok after := by
  have record := Log.record_le_extent last
  rw [Log.length_record (built lastLog last)] at record
  exact SStable.flush_fits (built lastLog last) built fresh (by omega)

/-- A table that was filled and flushed to a new file is recovered with the head that was
written, and the iterators of both tables yield the logs that were appended.  In
particular no `assert` on the way fails. -/
theorem sst_round_trip (disk : Disk) (filename : Bytes) {lastLog : Log} {logs : List Log}
    (last : lastLog.Built) (built : ∀ log ∈ logs, log.Built) (fresh : disk filename = none)
    (room : lastLog.size + 3 * 8 + Log.extent logs < arrayLimit)
    (headJunk : Nat → Byte) (junk : SstIterator → Nat → Byte) :
    ∃ after recovered,
      (logs.foldl SStable.append (.init filename lastLog)).flush disk = .ok after ∧
      SStable.recover headJunk after filename = .ok recovered ∧
      recovered.head = (logs.foldl SStable.append (.init filename lastLog)).head ∧
      ∀ sst ∈ [logs.foldl SStable.append (.init filename lastLog), recovered],
        ∃ iter, sst.createIterator after = .ok iter ∧
          (SstIterator.iterator junk after).Yields iter logs := by
  obtain ⟨after, flushed⟩ := SStable.flush_fits last built fresh room
  obtain ⟨name, holds, -⟩ := SStable.flush_new last built fresh flushed
  have recovered := holds.recover_eq headJunk
  rw [name] at recovered
  refine ⟨after, _, flushed, recovered, rfl, ?_⟩
  -- the buffer that is lost with the written table does not matter to its iterator
  have iterates : ∀ sst : SStable, sst.Holds after logs →
      ∃ iter, sst.createIterator after = .ok iter ∧
        (SstIterator.iterator junk after).Yields iter logs := by
    intro sst holds
    obtain ⟨iter, created, -, yields⟩ := holds.yields junk
    exact ⟨iter, created, yields⟩
  simp only [List.mem_cons, List.not_mem_nil, or_false]
  rintro sst (rfl | rfl)
  · exact iterates _ holds
  · refine iterates _ ⟨holds.head, holds.built, ?_, holds.small⟩
    rw [← holds.stored, name]

/-- A table with an empty key and a deletion. -/
theorem sst_round_trip_two_logs :
    ∃ after recovered,
      ([Log.make 1 .put [] [0], Log.make 2 .del [107] []].foldl SStable.append
        (.init [116] (Log.make 10 .put [107] [118]))).flush (fun _ => none) = .ok after ∧
      SStable.recover (fun _ => 0) after [116] = .ok recovered := by
  have last : (Log.make 10 .put [107] [118]).Built := Log.built_make _ (by decide) (by decide)
  have built : ∀ log ∈ [Log.make 1 .put [] [0], Log.make 2 .del [107] []], log.Built := by
    simp only [List.mem_cons, List.not_mem_nil, or_false]
    rintro log (rfl | rfl)
    · exact Log.built_make _ (by decide) (by decide)
    · exact Log.built_make _ (by decide) (by decide)
  obtain ⟨after, recovered, flushed, read, -⟩ :=
    sst_round_trip (fun _ => none) [116] last built rfl (by decide) (fun _ => 0) fun _ _ => 0
  exact ⟨after, recovered, flushed, read⟩

end Tables

end Ctgfs.Storage
