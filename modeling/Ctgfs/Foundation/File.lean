import Ctgfs.Foundation.LittleEndian

/-!
# Files as byte strings

A file is its contents.  A read gives fewer bytes than it asks for only at the end of
the file, and a write that succeeds writes all its bytes.
-/

namespace Ctgfs.Foundation

def readAt (file : Bytes) (position count : Nat) : Bytes :=
  (file.drop position).take count

/-- `write` at a position; a gap after the end is filled with null bytes. -/
def writeAt (file : Bytes) (position : Nat) (bytes : Bytes) : Bytes :=
  file.take position ++ List.replicate (position - file.length) nullByte ++ bytes ++
    file.drop (position + bytes.length)

theorem readAt_append (start bytes rest : Bytes) :
    readAt (start ++ bytes ++ rest) start.length bytes.length = bytes := by
  rw [readAt, List.append_assoc, List.drop_left, List.take_left]

theorem drop_eq_readAt (file : Bytes) (position count : Nat) :
    file.drop position = readAt file position count ++ file.drop (position + count) := by
  rw [readAt, ← List.drop_drop, List.take_append_drop]

variable {position : Nat} {file : Bytes}

theorem length_readAt_of_le {count : Nat} (inside : position + count ≤ file.length) :
    (readAt file position count).length = count := by
  rw [readAt, List.length_take, List.length_drop]
  omega

theorem writeAt_length (file bytes : Bytes) : writeAt file file.length bytes = file ++ bytes := by
  simp [writeAt]

theorem writeAt_zero (file bytes : Bytes) :
    writeAt file 0 bytes = bytes ++ file.drop bytes.length := by
  simp [writeAt]

theorem length_writeAt_zero (file bytes : Bytes) :
    (writeAt file 0 bytes).length = max bytes.length file.length := by
  rw [writeAt_zero, List.length_append, List.length_drop]
  omega

theorem writeAt_of_le {bytes : Bytes} (inside : position + bytes.length ≤ file.length) :
    writeAt file position bytes =
      file.take position ++ bytes ++ file.drop (position + bytes.length) := by
  have gap : position - file.length = 0 := by omega
  rw [writeAt, gap, List.replicate_zero, List.append_nil]

theorem length_writeAt_of_le {bytes : Bytes} (inside : position + bytes.length ≤ file.length) :
    (writeAt file position bytes).length = file.length := by
  rw [writeAt_of_le inside]
  simp only [List.length_append, List.length_take, List.length_drop]
  omega

end Ctgfs.Foundation
