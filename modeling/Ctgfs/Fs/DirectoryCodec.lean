import Ctgfs.Fs.Directory

/-!
# What `parse_dir` accepts

On contents whose length is an `int`, the places of the loop do not wrap around and no length
that passes the checks is negative.  Then `parse_dir` accepts the encodings of the vectors of
entries and nothing else.
-/

namespace Ctgfs.Fs

open Foundation

def Inside (content : Bytes) (read : Nat × Nat) : Prop :=
  read.1 + read.2 ≤ content.length

theorem parseEntry_inside (content : Bytes) {i : Nat} (more : i < content.length) :
    ∀ read ∈ (parseEntry content i).1, Inside content read := by
  have nameAt : (i + 4) % indexLimit ≤ i + 4 := Nat.mod_le _ _
  have inumAt := Nat.mod_le ((i + 4) % indexLimit + ofLittleEndian (readAt content i 4)) indexLimit
  rw [parseEntry]
  split
  · rintro read ⟨⟩
  dsimp only
  split
  · simp only [List.forall_mem_singleton, Inside]
    omega
  split
  · simp only [List.forall_mem_cons, List.not_mem_nil, false_implies, implies_true, and_true,
      Inside]
    split <;> omega
  · simp only [List.forall_mem_cons, List.not_mem_nil, false_implies, implies_true, and_true,
      Inside]
    split <;> omega

theorem parseReads_inside (content : Bytes) (turns i : Nat) :
    ∀ read ∈ parseReads content turns i, Inside content read := by
  induction turns generalizing i with
  | zero => rintro read ⟨⟩
  | succ turns ih =>
      rw [parseReads]
      split
      next => rintro read ⟨⟩
      next more =>
        intro read member
        rcases List.mem_append.mp member with here | later
        · exact parseEntry_inside content (not_le.mp more) read here
        · cases taken : (parseEntry content i).2 with
          | none =>
              rw [taken] at later
              cases later
          | some result =>
              rw [taken] at later
              exact ih _ read later

section Short

variable {content : Bytes} (short : content.length < intLimit)

include short

theorem parseLoop_turn {i : Nat} (inside : i ≤ content.length) (turns : Nat) (vec : List Dirent) :
    (i = content.length ∧ parseLoop content (turns + 1) i vec = some (some vec)) ∨
      parseLoop content (turns + 1) i vec = some none ∨
      ∃ entry : Dirent, content.drop i = entry.encode ++ content.drop (i + entry.encode.length) ∧
        i + entry.encode.length ≤ content.length ∧
        parseLoop content (turns + 1) i vec =
          parseLoop content turns (i + entry.encode.length) (vec ++ [entry]) := by
  have limit : intLimit = 2147483648 := rfl
  have index : indexLimit = 4294967296 := rfl
  rw [parseLoop]
  by_cases last : content.length ≤ i
  · exact .inl ⟨by omega, if_pos last⟩
  right
  rw [if_neg last, parseEntry]
  by_cases four : content.length - i < 4
  · exact .inl (by rw [if_pos four])
  rw [if_neg four, Nat.mod_eq_of_lt (by omega : i + 4 < indexLimit)]
  have sizeLength := length_readAt_of_le (by omega : i + 4 ≤ content.length)
  have sizeDrop := drop_eq_readAt content i 4
  generalize readAt content i 4 = bytes at sizeLength sizeDrop
  by_cases name : content.length - (i + 4) < ofLittleEndian bytes
  · exact .inl (by rw [if_pos name])
  rw [if_neg name, if_pos (by omega : ofLittleEndian bytes < intLimit),
    Nat.mod_eq_of_lt (by omega : i + 4 + ofLittleEndian bytes < indexLimit)]
  generalize size : ofLittleEndian bytes = count at name
  by_cases eight : content.length - (i + 4 + count) < 8
  · exact .inl (by rw [if_pos eight])
  rw [if_neg eight, Nat.mod_eq_of_lt (by omega : i + 4 + count + 8 < indexLimit)]
  have nameLength := length_readAt_of_le (by omega : i + 4 + count ≤ content.length)
  have nameDrop := drop_eq_readAt content (i + 4) count
  have inumLength := length_readAt_of_le (by omega : i + 4 + count + 8 ≤ content.length)
  have inumDrop := drop_eq_readAt content (i + 4 + count) 8
  generalize readAt content (i + 4) count = nameBytes at nameLength nameDrop ⊢
  generalize readAt content (i + 4 + count) 8 = inumBytes at inumLength inumDrop ⊢
  -- the bytes that were read are the images of what was read
  have sizeImage : littleEndian 4 nameBytes.length = bytes := by
    rw [nameLength, ← size, ← sizeLength, littleEndian_ofLittleEndian]
  have inumImage : littleEndian 8 (UInt64.ofNat (ofLittleEndian inumBytes)).toNat = inumBytes := by
    have small := ofLittleEndian_lt inumBytes
    rw [inumLength] at small
    rw [UInt64.toNat_ofNat_of_lt' small, ← inumLength, littleEndian_ofLittleEndian]
  right
  have length : (⟨nameBytes, UInt64.ofNat (ofLittleEndian inumBytes)⟩ : Dirent).encode.length =
      4 + count + 8 := by
    rw [Dirent.length_encode]
    dsimp only
    omega
  refine ⟨⟨nameBytes, UInt64.ofNat (ofLittleEndian inumBytes)⟩, ?_, ?_, ?_⟩
  · rw [length, Dirent.encode, sizeImage, inumImage, sizeDrop, nameDrop, inumDrop]
    simp only [List.append_assoc, Nat.add_assoc]
  · omega
  · rw [length]
    simp only [Nat.add_assoc]

theorem parseLoop_encodes {turns i : Nat} (inside : i ≤ content.length)
    (enough : content.length - i < turns) (vec : List Dirent) :
    parseLoop content turns i vec = some none ∨
      ∃ all, parseLoop content turns i vec = some (some all) ∧
        encodeDir all = encodeDir vec ++ content.drop i := by
  induction turns generalizing i vec with
  | zero => omega
  | succ turns ih =>
      obtain ⟨rfl, ended⟩ | failed | ⟨entry, here, within, onward⟩ :=
        parseLoop_turn short inside turns vec
      · refine .inr ⟨vec, ended, ?_⟩
        rw [List.drop_length, List.append_nil]
      · exact .inl failed
      · have grows := entry.length_encode
        rw [onward]
        obtain failed | ⟨all, result, encoded⟩ :=
          ih within (by omega) (vec ++ [entry])
        · exact .inl failed
        · refine .inr ⟨all, result, ?_⟩
          rw [encoded, encodeDir_append, here, List.append_assoc, encodeDir_cons]
          simp [encodeDir]

end Short

theorem short_of_encodeDir {vec : List Dirent} (short : (encodeDir vec).length < intLimit) :
    ∀ entry ∈ vec, entry.Short := by
  intro entry member
  obtain ⟨before, after, rfl⟩ := List.append_of_mem member
  rw [encodeDir_append, encodeDir_cons, List.length_append, List.length_append,
    entry.length_encode] at short
  rw [Dirent.Short]
  omega

/-- On contents whose length is an `int`, `parse_dir` returns, gives back the vectors whose
encoding is the content, and fails when there is none.  It reads inside the content only. -/
theorem parse_dir_exact (content : Bytes) (short : content.length < intLimit) :
    (∀ vec, encodeDir vec = content → parseDir content = some (some vec)) ∧
      (∀ vec, parseDir content = some (some vec) → encodeDir vec = content) ∧
      (parseDir content = some none ↔ ∀ vec, encodeDir vec ≠ content) ∧
      parseDir content ≠ none ∧
      ∀ read ∈ parseReads content (content.length + 1) 0, Inside content read := by
  have complete : ∀ vec, encodeDir vec = content → parseDir content = some (some vec) := by
    rintro vec rfl
    exact parseDir_encodeDir (short_of_encodeDir short) (short.trans (by decide))
  have ends : parseDir content = some none ∨
      ∃ all, parseDir content = some (some all) ∧ encodeDir all = content :=
    parseLoop_encodes short (Nat.zero_le _) (Nat.lt_succ_self _) []
  refine ⟨complete, ?_, ⟨?_, ?_⟩, ?_, parseReads_inside content _ 0⟩
  · intro vec parsed
    obtain failed | ⟨all, result, encoded⟩ := ends
    · cases failed.symm.trans parsed
    · cases result.symm.trans parsed
      exact encoded
  · intro failed vec encoded
    cases failed.symm.trans (complete vec encoded)
  · intro none
    obtain failed | ⟨all, -, encoded⟩ := ends
    · exact failed
    · exact absurd encoded (none all)
  · obtain failed | ⟨all, result, -⟩ := ends
    · simp [failed]
    · simp [result]

/-- A directory of one entry, and the same content without its last byte. -/
theorem parse_dir_exact_truncated :
    parseDir (encodeDir [⟨[97], 7⟩]) = some (some [⟨[97], 7⟩]) ∧
      ∀ vec, encodeDir vec ≠ (encodeDir [⟨[97], 7⟩]).dropLast :=
  ⟨(parse_dir_exact (encodeDir [⟨[97], 7⟩]) (by decide)).1 _ rfl,
    (parse_dir_exact (encodeDir [⟨[97], 7⟩]).dropLast (by decide)).2.2.1.mp (by decide)⟩

end Ctgfs.Fs
