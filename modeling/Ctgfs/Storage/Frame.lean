import Ctgfs.Foundation.File

/-!
# Framed encodings in files

A log and the head of a table are stored in the same way: eight bytes with the length of
the whole frame, then the encoding.  Both are read by one sequence of calls, which is
parametrised here by the decoder.  A frame is read back wherever it stands in a file.
-/

namespace Ctgfs.Storage

open Foundation

universe u

def wordLimit : Nat := 18446744073709551616

def arrayLimit : Nat := 9223372036854775808

theorem arrayLimit_lt_wordLimit : arrayLimit < wordLimit := by
  decide

def wordSub (first second : Nat) : Nat :=
  (first + wordLimit - second) % wordLimit

theorem wordSub_add {first second : Nat} (fits : first < wordLimit) :
    wordSub (first + second) second = first := by
  rw [wordSub, Nat.add_right_comm, Nat.add_sub_cancel, Nat.add_mod_right, Nat.mod_eq_of_lt fits]

/-- What ends a call without its result: an error status, an exception, a failed
`assert`, or an access that the language does not define. -/
inductive Failure where
  /-- `new char[n]` throws. -/
  | badAlloc
  /-- `substr` throws. -/
  | outOfRange
  /-- A word is read beyond the end of a string. -/
  | invalidRead
  /-- An `Op` that is none of the enumerators. -/
  | invalidOp
  | assertFailed
  /-- A status other than `OK`. -/
  | status
  /-- A loop that has not ended. -/
  | fuel
  deriving DecidableEq, Repr

theorem bind_eq_error {α β : Type u} {first : Except Failure α} {second : α → Except Failure β}
    {failure : Failure} (failed : first >>= second = .error failure) :
    first = .error failure ∨ ∃ result, first = .ok result ∧ second result = .error failure := by
  cases first with
  | error other =>
      cases failed
      exact Or.inl rfl
  | ok result => exact Or.inr ⟨result, rfl, failed⟩

theorem bind_eq_ok {α β : Type u} {first : Except Failure α} {second : α → Except Failure β}
    {result : β} (returned : first >>= second = .ok result) :
    ∃ middle, first = .ok middle ∧ second middle = .ok result := by
  cases first with
  | error failure => cases returned
  | ok middle => exact ⟨middle, rfl, returned⟩

/-- `str_to_uint64(bytes.c_str() + offset)`; the null byte after the string may be read. -/
def wordAt (bytes : Bytes) (offset : Nat) : Except Failure Nat :=
  if offset + 8 ≤ bytes.length + 1 then
    .ok (ofLittleEndian (readAt (bytes ++ [nullByte]) offset 8))
  else .error .invalidRead

def substr (bytes : Bytes) (position count : Nat) : Except Failure Bytes :=
  if position ≤ bytes.length then .ok (readAt bytes position count) else .error .outOfRange

/-- The bytes that `Write` writes for an encoding of a given size. -/
def frame (size : Nat) (encoding : Bytes) : Bytes :=
  littleEndian 8 ((size + 8) % wordLimit) ++ encoding.take size

/-- The buffer of `Read` after the read of the body.  What a short read leaves as it is
holds `junk`. -/
def buffer (junk : Nat → Byte) (file : Bytes) (position length : Nat) : Bytes :=
  let body := readAt file position length
  body ++ (List.range (length - body.length)).map junk

/-- `Read` after the read of the length. -/
def readBody {α : Type u} (decode : Bytes → Except Failure α) (size : α → Nat)
    (junk : Nat → Byte) (file : Bytes) (position readed : Nat) : Except Failure (α × Nat × Nat) :=
  let length := wordSub readed 8
  if arrayLimit ≤ length then .error .badAlloc
  else do
    let decoded ← decode (buffer junk file position length)
    if size decoded = length then
      return (decoded, readed, position + (readAt file position length).length)
    else .error .assertFailed

/-- `Read` with a length variable that is zero before: what is decoded, the length and the
position after the read. -/
def readFrame {α : Type u} (decode : Bytes → Except Failure α) (size : α → Nat)
    (junk : Nat → Byte) (file : Bytes) (position : Nat) : Except Failure (α × Nat × Nat) :=
  let head := readAt file position 8
  readBody decode size junk file (position + head.length) (ofLittleEndian head)

theorem wordAt_eq {bytes start word : Bytes} (shape : start ++ word <+: bytes)
    (eight : word.length = 8) : wordAt bytes start.length = .ok (ofLittleEndian word) := by
  obtain ⟨rest, rfl⟩ := shape
  have inside : start.length + 8 ≤ (start ++ word ++ rest).length + 1 := by
    simp only [List.length_append]
    omega
  rw [wordAt, if_pos inside, List.append_assoc, ← eight, readAt_append]

theorem substr_eq {bytes start part : Bytes} (shape : start ++ part <+: bytes) :
    substr bytes start.length part.length = .ok part := by
  obtain ⟨rest, rfl⟩ := shape
  have inside : start.length ≤ (start ++ part ++ rest).length := by
    simp only [List.length_append]
    omega
  rw [substr, if_pos inside, readAt_append]

section Frames

variable {α : Type u} {decode : Bytes → Except Failure α} {size : α → Nat} {value : α}
  {encoding : Bytes}

theorem frame_eq (small : encoding.length + 8 < arrayLimit) :
    frame encoding.length encoding = littleEndian 8 (encoding.length + 8) ++ encoding := by
  rw [frame, Nat.mod_eq_of_lt (small.trans arrayLimit_lt_wordLimit), List.take_length]

theorem length_frame (encoding : Bytes) :
    (frame encoding.length encoding).length = encoding.length + 8 := by
  rw [frame, List.length_append, length_littleEndian, List.take_length, Nat.add_comm]

theorem readBody_eq (decoded : decode encoding = .ok value) (exact_ : size value = encoding.length)
    (small : encoding.length + 8 < arrayLimit) (junk : Nat → Byte) (start rest : Bytes) :
    readBody decode size junk (start ++ encoding ++ rest) start.length (encoding.length + 8) =
      .ok (value, encoding.length + 8, start.length + encoding.length) := by
  have fits : encoding.length < wordLimit := by
    have limit := arrayLimit_lt_wordLimit
    omega
  have length : wordSub (encoding.length + 8) 8 = encoding.length := wordSub_add fits
  have allocated : ¬ arrayLimit ≤ encoding.length := by omega
  have body := readAt_append start encoding rest
  have filled : buffer junk (start ++ encoding ++ rest) start.length encoding.length =
      encoding := by
    rw [buffer, body, Nat.sub_self, List.range_zero, List.map_nil, List.append_nil]
  rw [readBody, length, if_neg allocated, filled, decoded, body]
  exact if_pos exact_

theorem readFrame_frame (decoded : decode encoding = .ok value)
    (exact_ : size value = encoding.length) (small : encoding.length + 8 < arrayLimit)
    (junk : Nat → Byte) (start rest : Bytes) :
    readFrame decode size junk (start ++ frame encoding.length encoding ++ rest) start.length =
      .ok (value, encoding.length + 8, start.length + (encoding.length + 8)) := by
  have shape : start ++ frame encoding.length encoding ++ rest =
      start ++ littleEndian 8 (encoding.length + 8) ++ encoding ++ rest := by
    simp only [frame_eq small, List.append_assoc]
  have head : readAt (start ++ frame encoding.length encoding ++ rest) start.length 8 =
      littleEndian 8 (encoding.length + 8) := by
    have part := readAt_append start (littleEndian 8 (encoding.length + 8)) (encoding ++ rest)
    rwa [length_littleEndian, ← List.append_assoc, ← shape] at part
  have word : ofLittleEndian (littleEndian 8 (encoding.length + 8)) = encoding.length + 8 :=
    ofLittleEndian_of_lt (small.trans arrayLimit_lt_wordLimit)
  have body := readBody_eq decoded exact_ small junk
    (start ++ littleEndian 8 (encoding.length + 8)) rest
  rw [← shape, List.length_append, length_littleEndian] at body
  rw [readFrame, head, word, length_littleEndian, body, Nat.add_assoc, Nat.add_comm 8]

end Frames

end Ctgfs.Storage
