import Ctgfs.Storage.Frame

/-!
# Log records

A `Log` is stored as its number, its operation, its key and its value with their
lengths, and framed by the length of the whole record.  What is written is read back
whatever follows it in the file.
-/

namespace Ctgfs.Storage

open Foundation

inductive Op where
  | put
  | del
  deriving DecidableEq, Repr

def Op.code : Op → Nat
  | .put => 0
  | .del => 1

structure Log where
  lsn : Nat
  size : Nat
  key : Bytes
  value : Bytes
  op : Op
  deriving DecidableEq, Repr

namespace Log

def make (lsn : Nat) (op : Op) (key value : Bytes) : Log where
  lsn := lsn
  size := (3 * 8 + key.length + value.length + 4) % wordLimit
  key := key
  value := value
  op := op

def encode (log : Log) : Bytes :=
  littleEndian 8 log.lsn ++ littleEndian 4 log.op.code ++ littleEndian 8 log.key.length ++
    log.key ++ littleEndian 8 log.value.length ++ log.value

/-- The conversion of a `uint64_t` to `Op`, which keeps the low four bytes. -/
def opOf (word : Nat) : Except Failure Op :=
  match word % 4294967296 with
  | 0 => .ok .put
  | 1 => .ok .del
  | _ => .error .invalidOp

/-- `Log::Decode`.  The operation is read as a word of eight bytes although it was
written with four. -/
def decode (bytes : Bytes) : Except Failure Log := do
  let lsn ← wordAt bytes 0
  let word ← wordAt bytes 8
  let op ← opOf word
  let size1 ← wordAt bytes 12
  let key ← substr bytes 20 size1
  let size2 ← wordAt bytes (20 + size1)
  let value ← substr bytes (28 + size1) size2
  return { lsn, size := (size1 + size2 + 4 + 24) % wordLimit, key, value, op }

/-- The bytes that `Log::Write` writes. -/
def record (log : Log) : Bytes :=
  frame log.size log.encode

def read (junk : Nat → Byte) (file : Bytes) (position : Nat) : Except Failure (Log × Nat × Nat) :=
  readFrame decode Log.size junk file position

/-- Logs are read while an offset is below the size of the file: the loop of
`Wal::Recover`, and what is made of an `SSTIterator` by whoever drains it.  Uninitialised
memory may hold something else in each iteration. -/
def readLoop (junk : Nat → Nat → Byte) (file : Bytes) :
    Nat → Nat → Nat → Except Failure (List Log)
  | 0, _, _ => .error .fuel
  | fuel + 1, offset, position =>
      if offset < file.length then do
        let (log, readed, next) ← read (junk fuel) file position
        let rest ← readLoop junk file fuel ((offset + readed) % wordLimit) next
        return log :: rest
      else return []

def extent (logs : List Log) : Nat :=
  (logs.flatMap Log.record).length

/-- A log that the constructor has made: its number is a `uint64_t`, and its key and its
value are strings in the memory of one process. -/
structure Built (log : Log) : Prop where
  lsn : log.lsn < wordLimit
  size : log.size = 3 * 8 + log.key.length + log.value.length + 4
  memory : log.size + 3 * 8 < arrayLimit

/-- A log with the size that its constructor computes, when that size is a `uint64_t`. -/
structure Sized (log : Log) : Prop where
  lsn : log.lsn < wordLimit
  size : log.size = 3 * 8 + log.key.length + log.value.length + 4
  fits : log.size < wordLimit

section Bounds

variable {log : Log}

theorem Sized.keyFits (sized : log.Sized) : log.key.length < wordLimit := by
  have size := sized.size
  have small := sized.fits
  omega

theorem Sized.valueFits (sized : log.Sized) : log.value.length < wordLimit := by
  have size := sized.size
  have small := sized.fits
  omega

theorem Built.fits (built : log.Built) : log.size < wordLimit := by
  have small := built.memory
  have limit := arrayLimit_lt_wordLimit
  omega

theorem Built.sized (built : log.Built) : log.Sized :=
  ⟨built.lsn, built.size, built.fits⟩

end Bounds

theorem sized_make {lsn : Nat} (op : Op) {key value : Bytes} (word : lsn < wordLimit)
    (string : 3 * 8 + key.length + value.length + 4 < wordLimit) :
    (make lsn op key value).Sized :=
  ⟨word, Nat.mod_eq_of_lt string, Nat.mod_lt _ (by decide)⟩

theorem built_make {lsn : Nat} (op : Op) {key value : Bytes} (word : lsn < wordLimit)
    (memory : key.length + value.length + 52 < arrayLimit) :
    (make lsn op key value).Built := by
  have sized : (make lsn op key value).Sized := by
    refine sized_make op word (lt_trans ?_ arrayLimit_lt_wordLimit)
    omega
  have size : (make lsn op key value).size = 3 * 8 + key.length + value.length + 4 := sized.size
  refine ⟨word, size, ?_⟩
  rw [size]
  omega

section Codec

variable {log : Log}

@[simp]
theorem length_encode (log : Log) :
    log.encode.length = 3 * 8 + log.key.length + log.value.length + 4 := by
  simp only [encode, List.length_append, length_littleEndian]
  omega

theorem opOf_code (op : Op) (high : Nat) : opOf (op.code + 4294967296 * high) = .ok op := by
  cases op with
  | put => simp [opOf, Op.code]
  | del =>
      have low : (1 + 4294967296 * high) % 4294967296 = 1 := by omega
      simp only [opOf, Op.code, low]

theorem prefix_key (log : Log) (rest : Bytes) :
    littleEndian 8 log.lsn ++ littleEndian 4 log.op.code ++ littleEndian 8 log.key.length ++
      log.key <+: log.encode ++ rest :=
  ⟨littleEndian 8 log.value.length ++ (log.value ++ rest), by
    simp only [encode, List.append_assoc]⟩

theorem prefix_size1 (log : Log) (rest : Bytes) :
    littleEndian 8 log.lsn ++ littleEndian 4 log.op.code ++ littleEndian 8 log.key.length <+:
      log.encode ++ rest :=
  (List.prefix_append _ _).trans (prefix_key log rest)

theorem wordAt_lsn (sized : log.Sized) (rest : Bytes) :
    wordAt (log.encode ++ rest) 0 = .ok log.lsn := by
  have fits : log.lsn < 256 ^ 8 := sized.lsn
  have shape : [] ++ littleEndian 8 log.lsn <+: log.encode ++ rest := by
    rw [List.nil_append]
    exact (List.prefix_append _ _).trans ((List.prefix_append _ _).trans (prefix_size1 log rest))
  have word := wordAt_eq shape (length_littleEndian _ _)
  rwa [ofLittleEndian_of_lt fits] at word

theorem wordAt_op (log : Log) (rest : Bytes) :
    wordAt (log.encode ++ rest) 8 =
      .ok (log.op.code + 4294967296 * (log.key.length % 4294967296)) := by
  have fits : log.op.code < 256 ^ 4 := by cases log.op <;> decide
  have shape : littleEndian 8 log.lsn ++
      (littleEndian 4 log.op.code ++ littleEndian 4 log.key.length) <+: log.encode ++ rest := by
    have longer := prefix_size1 log rest
    rw [littleEndian_add 4 4 log.key.length, ← List.append_assoc] at longer
    rw [← List.append_assoc]
    exact (List.prefix_append _ _).trans longer
  have word := wordAt_eq shape (by simp)
  rwa [ofLittleEndian_append, ofLittleEndian_of_lt fits, ofLittleEndian_littleEndian,
    length_littleEndian, length_littleEndian] at word

theorem wordAt_size1 (sized : log.Sized) (rest : Bytes) :
    wordAt (log.encode ++ rest) 12 = .ok log.key.length := by
  have fits : log.key.length < 256 ^ 8 := sized.keyFits
  have word := wordAt_eq (prefix_size1 log rest) (length_littleEndian _ _)
  rwa [ofLittleEndian_of_lt fits, List.length_append, length_littleEndian,
    length_littleEndian] at word

theorem substr_key (log : Log) (rest : Bytes) :
    substr (log.encode ++ rest) 20 log.key.length = .ok log.key := by
  have part := substr_eq (prefix_key log rest)
  rwa [List.length_append, List.length_append, length_littleEndian, length_littleEndian,
    length_littleEndian] at part

theorem wordAt_size2 (sized : log.Sized) (rest : Bytes) :
    wordAt (log.encode ++ rest) (20 + log.key.length) = .ok log.value.length := by
  have fits : log.value.length < 256 ^ 8 := sized.valueFits
  have shape : littleEndian 8 log.lsn ++ littleEndian 4 log.op.code ++
      littleEndian 8 log.key.length ++ log.key ++ littleEndian 8 log.value.length <+:
        log.encode ++ rest :=
    ⟨log.value ++ rest, by simp only [encode, List.append_assoc]⟩
  have word := wordAt_eq shape (length_littleEndian _ _)
  rwa [ofLittleEndian_of_lt fits, List.length_append, List.length_append, List.length_append,
    length_littleEndian, length_littleEndian, length_littleEndian] at word

theorem substr_value (log : Log) (rest : Bytes) :
    substr (log.encode ++ rest) (28 + log.key.length) log.value.length = .ok log.value := by
  have position : (littleEndian 8 log.lsn ++ littleEndian 4 log.op.code ++
      littleEndian 8 log.key.length ++ log.key ++ littleEndian 8 log.value.length).length =
        28 + log.key.length := by
    simp only [List.length_append, length_littleEndian]
    omega
  rw [← position]
  exact substr_eq (List.prefix_append log.encode rest)

theorem Sized.decode_encode (sized : log.Sized) (rest : Bytes) :
    decode (log.encode ++ rest) = .ok log := by
  have size : (log.key.length + log.value.length + 4 + 24) % wordLimit = log.size := by
    have total : log.key.length + log.value.length + 4 + 24 = log.size := by
      have size := sized.size
      omega
    rw [total, Nat.mod_eq_of_lt sized.fits]
  simp only [decode, wordAt_lsn sized, wordAt_op, opOf_code, wordAt_size1 sized, substr_key,
    wordAt_size2 sized, substr_value, size, bind, Except.bind, pure, Except.pure]

theorem Sized.length_encode (sized : log.Sized) : log.encode.length = log.size := by
  rw [Log.length_encode, sized.size]

theorem Built.length_encode (built : log.Built) : log.encode.length = log.size :=
  built.sized.length_encode

theorem length_record (built : log.Built) : log.record.length = log.size + 8 := by
  rw [record, ← built.length_encode, length_frame]

theorem read_record (built : log.Built) (junk : Nat → Byte) (start rest : Bytes) :
    read junk (start ++ log.record ++ rest) start.length =
      .ok (log, log.size + 8, start.length + (log.size + 8)) := by
  have decoded := built.sized.decode_encode []
  rw [List.append_nil] at decoded
  rw [record, ← built.length_encode]
  exact readFrame_frame decoded built.length_encode.symm
    (by rw [built.length_encode]; exact lt_trans (by omega) built.memory) junk start rest

theorem length_records (logs : List Log) : (logs.flatMap Log.record).length = extent logs :=
  rfl

theorem extent_append (first second : List Log) :
    extent (first ++ second) = extent first + extent second := by
  rw [extent, List.flatMap_append, List.length_append]
  rfl

theorem extent_cons (log : Log) (logs : List Log) :
    extent (log :: logs) = log.record.length + extent logs := by
  rw [extent, List.flatMap_cons, List.length_append]
  rfl

variable {logs : List Log}

theorem length_le_extent (built : ∀ log ∈ logs, log.Built) : logs.length ≤ extent logs := by
  induction logs with
  | nil => exact Nat.zero_le _
  | cons log rest ih =>
      have first := length_record (built log List.mem_cons_self)
      have later := ih fun other member =>
        built other (List.mem_cons_of_mem _ member)
      rw [extent_cons, List.length_cons]
      omega

theorem record_le_extent {log : Log} (member : log ∈ logs) : log.record.length ≤ extent logs := by
  obtain ⟨before, after, rfl⟩ := List.append_of_mem member
  rw [extent_append, extent_cons]
  omega

theorem extent_perm {first second : List Log} (perm : first.Perm second) :
    extent first = extent second :=
  (perm.flatMap_right Log.record).length_eq

theorem readLoop_record (junk : Nat → Nat → Byte) {log : Log} (built : log.Built)
    (start rest : Bytes) (small : start.length + log.record.length < arrayLimit) (fuel : Nat) :
    readLoop junk (start ++ log.record ++ rest) (fuel + 1) start.length start.length =
      (readLoop junk (start ++ log.record ++ rest) fuel (start ++ log.record).length
        (start ++ log.record).length).map (log :: ·) := by
  have length := length_record built
  have inside : start.length < (start ++ log.record ++ rest).length := by
    simp only [List.length_append]
    omega
  have noWrap : (start.length + (log.size + 8)) % wordLimit = start.length + (log.size + 8) :=
    Nat.mod_eq_of_lt (lt_trans (by omega) arrayLimit_lt_wordLimit)
  rw [readLoop, if_pos inside, read_record built, List.length_append, length]
  simp only [bind, Except.bind, noWrap]
  rfl

theorem readLoop_records (junk : Nat → Nat → Byte) (built : ∀ log ∈ logs, log.Built) (start : Bytes)
    (small : start.length + extent logs < arrayLimit) (fuel : Nat) (enough : logs.length < fuel) :
    readLoop junk (start ++ logs.flatMap Log.record) fuel start.length start.length =
      .ok logs := by
  obtain ⟨fuel, rfl⟩ := Nat.exists_eq_add_one_of_ne_zero (by omega : fuel ≠ 0)
  induction logs generalizing start fuel with
  | nil => simp [readLoop, pure, Except.pure]
  | cons log rest ih =>
      obtain ⟨fuel, rfl⟩ := Nat.exists_eq_add_one_of_ne_zero
        (by rw [List.length_cons] at enough; omega : fuel ≠ 0)
      rw [extent_cons] at small
      have later := ih
        (fun other member => built other (List.mem_cons_of_mem _ member)) (start ++ log.record)
        (by rw [List.length_append]; omega) fuel (by simpa using enough)
      rw [List.flatMap_cons, ← List.append_assoc,
        readLoop_record junk (built log List.mem_cons_self) start _ (by omega), later]
      rfl

end Codec

end Log

end Ctgfs.Storage
