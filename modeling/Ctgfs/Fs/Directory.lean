import Ctgfs.Foundation.File

/-!
# The contents of a directory

A directory is stored as an extent that holds its entries one after the other: the length of
the name in four bytes, the name, and the number in eight bytes.  The place in the content is
kept in an `unsigned int`, and the length is an `int`.
-/

namespace Ctgfs.Fs

open Foundation

abbrev Inum := UInt64

/-- The number of values of an `unsigned int`. -/
def indexLimit : Nat := 4294967296

/-- The first length that is negative as an `int`. -/
def intLimit : Nat := 2147483648

structure Dirent where
  name : Bytes
  inum : Inum
  deriving DecidableEq, Repr

variable (entry : Dirent)

def Dirent.encode : Bytes :=
  littleEndian 4 entry.name.length ++ entry.name ++ littleEndian 8 entry.inum.toNat

def encodeDir (vec : List Dirent) : Bytes :=
  vec.flatMap Dirent.encode

/-- The body of the loop of `parse_dir` at a place: what it reads of the content, as places and
numbers of bytes from there, and the next place with the entry, or `none` when it returns `-1`. -/
def parseEntry (content : Bytes) (i : Nat) : List (Nat × Nat) × Option (Nat × Dirent) :=
  if content.length - i < 4 then ([], none)
  else
    let size := ofLittleEndian (readAt content i 4)
    let nameAt := (i + 4) % indexLimit
    if content.length - nameAt < size then ([(i, 4)], none)
    else
      -- a negative `int` is a very large count for `substr`
      let count := if size < intLimit then size else content.length - nameAt
      let inumAt := (nameAt + size) % indexLimit
      if content.length - inumAt < 8 then ([(i, 4), (nameAt, count)], none)
      else
        let inum := UInt64.ofNat (ofLittleEndian (readAt content inumAt 8))
        ([(i, 4), (nameAt, count), (inumAt, 8)],
          some ((inumAt + 8) % indexLimit, ⟨readAt content nameAt count, inum⟩))

/-- The loop of `parse_dir` from a place on: `some none` when it returns `-1`, and `none` when
the turns are used up. -/
def parseLoop (content : Bytes) : Nat → Nat → List Dirent → Option (Option (List Dirent))
  | 0, _, _ => none
  | turns + 1, i, vec =>
      if content.length ≤ i then some (some vec)
      else
        match (parseEntry content i).2 with
        | none => some none
        | some (next, entry) => parseLoop content turns next (vec ++ [entry])

/-- What this loop reads of the content. -/
def parseReads (content : Bytes) : Nat → Nat → List (Nat × Nat)
  | 0, _ => []
  | turns + 1, i =>
      if content.length ≤ i then []
      else
        (parseEntry content i).1 ++
          match (parseEntry content i).2 with
          | none => []
          | some (next, _) => parseReads content turns next

/-- `parse_dir` on an empty vector.  There are fewer places than turns, so that a loop that
uses them all up has been at one place twice and never ends. -/
def parseDir (content : Bytes) : Option (Option (List Dirent)) :=
  parseLoop content (content.length + 1) 0 []

/-- A name whose length is an `int`. -/
def Dirent.Short : Prop :=
  entry.name.length < intLimit

theorem Dirent.length_encode : entry.encode.length = entry.name.length + 12 := by
  simp only [encode, List.length_append, length_littleEndian]
  omega

theorem encodeDir_append (first second : List Dirent) :
    encodeDir (first ++ second) = encodeDir first ++ encodeDir second :=
  List.flatMap_append

theorem encodeDir_cons (rest : List Dirent) :
    encodeDir (entry :: rest) = entry.encode ++ encodeDir rest :=
  List.flatMap_cons

theorem parseLoop_entry (start rest : Bytes) (entry : Dirent) (turns : Nat) (vec : List Dirent)
    (fits : (start ++ entry.encode ++ rest).length < indexLimit) :
    parseLoop (start ++ entry.encode ++ rest) (turns + 1) start.length vec =
      parseLoop (start ++ entry.encode ++ rest) turns (start ++ entry.encode).length
        (vec ++ [⟨if entry.name.length < intLimit then entry.name
          else entry.name ++ littleEndian 8 entry.inum.toNat ++ rest, entry.inum⟩]) := by
  have length : (start ++ entry.encode ++ rest).length =
      start.length + entry.name.length + 12 + rest.length := by
    simp only [List.length_append, entry.length_encode]
    omega
  rw [length] at fits
  have size : ofLittleEndian (readAt (start ++ entry.encode ++ rest) start.length 4) =
      entry.name.length := by
    have read := readAt_append start (littleEndian 4 entry.name.length)
      (entry.name ++ littleEndian 8 entry.inum.toNat ++ rest)
    have fits : entry.name.length < 256 ^ 4 := by
      have limit : indexLimit = 256 ^ 4 := rfl
      omega
    rw [length_littleEndian] at read
    simp only [Dirent.encode, List.append_assoc] at read ⊢
    rw [read, ofLittleEndian_of_lt fits]
  have position : (start ++ littleEndian 4 entry.name.length).length = start.length + 4 := by
    simp
  have name : readAt (start ++ entry.encode ++ rest) (start.length + 4) entry.name.length =
      entry.name := by
    have read := readAt_append (start ++ littleEndian 4 entry.name.length) entry.name
      (littleEndian 8 entry.inum.toNat ++ rest)
    rw [position] at read
    simpa only [Dirent.encode, List.append_assoc] using read
  have tail : readAt (start ++ entry.encode ++ rest) (start.length + 4)
      ((start ++ entry.encode ++ rest).length - (start.length + 4)) =
      entry.name ++ littleEndian 8 entry.inum.toNat ++ rest := by
    rw [readAt, List.take_of_length_le (List.length_drop ▸ le_refl _), ← position, Dirent.encode]
    simp only [List.append_assoc]
    rw [← List.append_assoc start, List.drop_left]
  have inum : UInt64.ofNat (ofLittleEndian (readAt (start ++ entry.encode ++ rest)
      (start.length + 4 + entry.name.length) 8)) = entry.inum := by
    have read := readAt_append (start ++ littleEndian 4 entry.name.length ++ entry.name)
      (littleEndian 8 entry.inum.toNat) rest
    rw [List.length_append, position, length_littleEndian] at read
    have fits : entry.inum.toNat < 256 ^ 8 := entry.inum.toNat_lt
    simp only [Dirent.encode, List.append_assoc] at read ⊢
    rw [read, ofLittleEndian_of_lt fits, UInt64.ofNat_toNat]
  have place : (start ++ entry.encode).length = start.length + 4 + entry.name.length + 8 := by
    rw [List.length_append, entry.length_encode]
    omega
  have turn : (parseEntry (start ++ entry.encode ++ rest) start.length).2 =
      some ((start ++ entry.encode).length, ⟨if entry.name.length < intLimit then entry.name
        else entry.name ++ littleEndian 8 entry.inum.toNat ++ rest, entry.inum⟩) := by
    rw [parseEntry, if_neg (by omega), size,
      Nat.mod_eq_of_lt (by omega : start.length + 4 < indexLimit), if_neg (by omega),
      Nat.mod_eq_of_lt (by omega : start.length + 4 + entry.name.length < indexLimit),
      if_neg (by omega), inum, place,
      Nat.mod_eq_of_lt (by omega : start.length + 4 + entry.name.length + 8 < indexLimit)]
    dsimp only
    split
    · rw [name]
    · rw [tail]
  rw [parseLoop, if_neg (by omega), turn]

theorem length_le_encodeDir (vec : List Dirent) : vec.length ≤ (encodeDir vec).length := by
  induction vec with
  | nil => simp
  | cons entry rest ih =>
      rw [encodeDir_cons, List.length_append, entry.length_encode, List.length_cons]
      omega

theorem parseLoop_encodeDir (start : Bytes) (rest vec : List Dirent) {turns : Nat}
    (short : ∀ entry ∈ rest, entry.Short) (enough : rest.length < turns)
    (fits : (start ++ encodeDir rest).length < indexLimit) :
    parseLoop (start ++ encodeDir rest) turns start.length vec = some (some (vec ++ rest)) := by
  induction rest generalizing start vec turns with
  | nil =>
      obtain ⟨turns, rfl⟩ := Nat.exists_eq_add_of_lt enough
      simp [encodeDir, parseLoop]
  | cons entry rest ih =>
      obtain ⟨turns, rfl⟩ : ∃ more, turns = more + 1 := ⟨turns - 1, by omega⟩
      have shortEntry : entry.name.length < intLimit := short entry List.mem_cons_self
      rw [encodeDir_cons, ← List.append_assoc] at fits ⊢
      rw [parseLoop_entry start (encodeDir rest) entry turns vec fits, if_pos shortEntry,
        ih (start ++ entry.encode) (vec ++ [entry])
          (fun other member => short other (List.mem_cons_of_mem _ member))
          (by simpa using enough) fits, List.append_assoc]
      rfl

theorem parseDir_encodeDir {vec : List Dirent} (short : ∀ entry ∈ vec, entry.Short)
    (fits : (encodeDir vec).length < indexLimit) : parseDir (encodeDir vec) = some (some vec) :=
  parseLoop_encodeDir [] vec [] short (Nat.lt_succ_of_le (length_le_encodeDir vec)) fits

theorem parseDir_long {entry : Dirent} (long : ¬ entry.name.length < intLimit)
    (fits : entry.name.length + 12 < indexLimit) :
    parseDir (encodeDir [entry]) =
      some (some [⟨entry.name ++ littleEndian 8 entry.inum.toNat, entry.inum⟩]) := by
  have content : encodeDir [entry] = [] ++ entry.encode ++ [] := by
    simp [encodeDir]
  have length : ([] ++ entry.encode ++ []).length = entry.name.length + 12 := by
    simp [entry.length_encode]
  have last : ∀ turns vec, parseLoop ([] ++ entry.encode ++ []) (turns + 1)
      ([] ++ entry.encode).length vec = some (some vec) := by
    intro turns vec
    rw [parseLoop, if_pos (by simp)]
  rw [parseDir, content, length]
  refine (parseLoop_entry [] [] entry (entry.name.length + 12) [] (length ▸ fits)).trans ?_
  rw [if_neg long, last, List.append_nil, List.nil_append]

end Ctgfs.Fs
