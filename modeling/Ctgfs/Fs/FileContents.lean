import Ctgfs.Fs.NameMap

/-!
# What is read and written in a file

A file is a string of bytes, and an offset is a place in it.  The operations truncate the offset
before they compare it with the size of the file, and use it in full afterwards.
-/

namespace Ctgfs.Fs

open Foundation Abstraction

variable {content origin : Bytes}

section Abstract

def slice (content : Bytes) (first last : Nat) : Bytes :=
  (content.take last).drop first

/-- A content after a string was written over it, with null bytes up to a place that is behind
its end. -/
structure Overwrites (origin buf : Bytes) (off : Nat) (content : Bytes) : Prop where
  length : content.length =
    if 0 < buf.length ∨ origin.length < off then max origin.length (off + buf.length)
    else origin.length
  written : ∀ i, off ≤ i → i < off + buf.length → content[i]? = buf[i - off]?
  kept : ∀ i < origin.length, ¬ (off ≤ i ∧ i < off + buf.length) → content[i]? = origin[i]?
  hole : ∀ i < off, origin.length ≤ i → content[i]? = some nullByte

/-- A content with a string at a place, and null bytes up to that place. -/
def overwrite (origin : Bytes) (off : Nat) (buf : Bytes) : Bytes :=
  if origin.length ≤ off then origin ++ List.replicate (off - origin.length) nullByte ++ buf
  else origin.take off ++ buf ++ origin.drop (off + buf.length)

theorem slice_of_le {first last : Nat} (outside : content.length ≤ first) :
    slice content first last = [] :=
  List.drop_eq_nil_of_le ((List.length_take_le' _ _).trans outside)

theorem overwrites_append {off : Nat} (behind : origin.length ≤ off) (buf : Bytes) :
    Overwrites origin buf off
      (origin ++ List.replicate (off - origin.length) nullByte ++ buf) where
  length := by
    simp only [List.length_append, List.length_replicate]
    split <;> omega
  written i after before := by
    rw [List.getElem?_append_right (by simpa [behind] using after)]
    congr 1
    simp only [List.length_append, List.length_replicate]
    omega
  kept i inside _ := by
    rw [List.append_assoc, List.getElem?_append_left inside]
  hole i before outside := by
    rw [List.getElem?_append_left (by simpa [behind] using before),
      List.getElem?_append_right outside, List.getElem?_replicate, if_pos (by omega)]

theorem overwrites_inside {off : Nat} (inside : off ≤ origin.length) (buf : Bytes) :
    Overwrites origin buf off (origin.take off ++ buf ++ origin.drop (off + buf.length)) where
  length := by
    simp only [List.length_append, List.length_take, List.length_drop]
    split <;> omega
  written i after before := by
    rw [List.append_assoc, List.getElem?_append_right (by simpa [inside] using after),
      List.getElem?_append_left (by simp only [List.length_take]; omega), List.length_take,
      Nat.min_eq_left inside]
  kept i present elsewhere := by
    by_cases before : i < off
    · rw [List.append_assoc, List.getElem?_append_left (by simp only [List.length_take]; omega),
        List.getElem?_take_of_lt before]
    · rw [List.getElem?_append_right (by simp only [List.length_append, List.length_take]; omega),
        List.getElem?_drop]
      congr 1
      simp only [List.length_append, List.length_take]
      omega
  hole i before outside := absurd (before.trans_le inside) (Nat.not_lt.mpr outside)

theorem overwrites_overwrite (origin : Bytes) (off : Nat) (buf : Bytes) :
    Overwrites origin buf off (overwrite origin off buf) := by
  rw [overwrite]
  split
  next behind => exact overwrites_append behind buf
  next inside => exact overwrites_inside (by omega) buf

theorem length_overwrite_lt {buf : Bytes} {off limit : Nat} (small : origin.length < limit)
    (fits : off + buf.length < limit) : (overwrite origin off buf).length < limit := by
  have length := (overwrites_overwrite origin off buf).length
  split at length <;> omega

end Abstract

variable {size : UInt64}

section Offsets

variable {off : Int64}

theorem unsignedOffset_of_nonneg (positive : 0 ≤ off.toInt) :
    unsignedOffset off = off.toInt.toNat % indexLimit := by
  have value : off.toUInt64.toNat = off.toInt.toNat := by
    have bits : off.toInt = off.toBitVec.toInt := rfl
    rw [bits, BitVec.toInt_eq_toNat_cond] at positive ⊢
    have same : off.toBitVec.toNat = off.toUInt64.toNat := rfl
    split <;> omega
  rw [unsignedOffset, UInt64.toNat_toUInt32, value]
  rfl

theorem readContent_eq (positive : 0 ≤ off.toInt) (near : ¬ (content.length < off.toInt.toNat ∧
      off.toInt.toNat % indexLimit < content.length)) :
    readContent content size off = some (slice content off.toInt.toNat
      (min (off.toInt.toNat + size.toNat) content.length)) := by
  have low := Nat.mod_le off.toInt.toNat indexLimit
  rw [readContent, unsignedOffset_of_nonneg positive]
  split
  next beyond => rw [slice_of_le (by omega)]
  next within =>
    have amount : (if content.length - off.toInt.toNat < size.toNat
        then content.length - off.toInt.toNat else size.toNat) =
        min (off.toInt.toNat + size.toNat) content.length - off.toInt.toNat := by
      split <;> omega
    rw [if_pos ⟨positive, by omega⟩, slice, List.drop_take, ← amount]

theorem readContent_outside (positive : 0 ≤ off.toInt) (beyond : content.length < off.toInt.toNat)
    (within : off.toInt.toNat % indexLimit < content.length) :
    readContent content size off = none := by
  rw [readContent, unsignedOffset_of_nonneg positive, if_neg (Nat.not_le.mpr within),
    if_neg (by omega)]

theorem writeContent_overwrite {buf : Bytes} (positive : 0 ≤ off.toInt)
    (whole : size.toNat = buf.length) (small : origin.length < indexLimit)
    (fits : off.toInt.toNat + buf.length < indexLimit) :
    writeContent origin size off buf = some (overwrite origin off.toInt.toNat buf) := by
  have offset : unsignedOffset off = off.toInt.toNat := by
    rw [unsignedOffset_of_nonneg positive, Nat.mod_eq_of_lt (by omega)]
  simp only [writeContent, overwrite, offset, Nat.mod_eq_of_lt small, whole]
  split
  next behind => rfl
  next inside =>
    rw [if_pos ⟨positive, by omega⟩, Nat.mod_eq_of_lt (by omega)]
    split
    next longer => rfl
    next covered =>
      have rest : origin.drop (off.toInt.toNat + buf.length) = [] :=
        List.drop_eq_nil_of_le (by omega)
      rw [rest]

end Offsets

theorem read_run {attr : Inum → Bytes → Attr} {issued inum : Inum} {store : Store} {off : Int64}
    (stored : store inum = some content) :
    (read (.sound attr issued) inum size off).run store =
      ((readContent content size off).map .ok, store) := by
  have returned {Value : Type} (value : Value) (store : Store) :
      (pure value : StateM Store Value) store = (value, store) := rfl
  simp only [read, connected, locked, Lower.sound, OptionT.run, bind, OptionT.bind, OptionT.mk,
    StateT.bind, returned, liftM, monadLift, MonadLift.monadLift, OptionT.lift, stored, if_true,
    Option.elim_some]
  cases readContent content size off <;> rfl

/-- On layers that do what they are asked for, a write puts the string over the content. -/
theorem write_overwrites {attr : Inum → Bytes → Attr} {issued inum : Inum} {store : Store}
    {origin buf : Bytes} {size : UInt64} {off : Int64} (stored : store inum = some origin)
    (whole : size.toNat = buf.length) (positive : 0 ≤ off.toInt) (small : origin.length < 2 ^ 32)
    (fits : off.toInt + size.toNat < 2 ^ 32) :
    ∃ content, (write (.sound attr issued) inum size off buf).run store =
        (some (.ok ()), Function.update store inum (some content)) ∧
      Overwrites origin buf off.toInt.toNat content := by
  have limit : indexLimit = 2 ^ 32 := rfl
  have space : off.toInt.toNat + buf.length < indexLimit := by omega
  have made := writeContent_overwrite positive whole small space
  have reaches : Reaches _ (write (.sound attr issued) inum size off buf) (store, [], 2) _ :=
    (faithful_sound attr).reaches_write fun other here => by
      obtain rfl := Option.some.inj (stored.symm.trans here)
      exact ⟨_, made, length_overwrite_lt small space⟩
  obtain ⟨result, next, ran, told⟩ := run_of_reaches reaches
  rw [stored] at told
  obtain ⟨other, again, rfl, rfl⟩ := told
  obtain rfl := Option.some.inj (made.symm.trans again)
  exact ⟨_, ran, overwrites_overwrite origin _ buf⟩

/-- Two bytes written over the end of a file of two bytes. -/
theorem write_overwrites_end :
    ∃ content, (write (.sound (fun _ _ => ⟨0, 0, 0, 0⟩) 0) 5 2 1 [1, 2]).run
        (fun _ => some [3, 4]) =
        (some (.ok ()), Function.update (fun _ => some [3, 4]) 5 (some content)) ∧
      Overwrites [3, 4] [1, 2] 1 content :=
  write_overwrites rfl rfl (by decide) (by decide) (by decide)

/-- A read gives the bytes at its offset, unless the offset is behind the content and its low
bits are a place in the content: then bytes outside of it are read. -/
theorem read_slice_iff {attr : Inum → Bytes → Attr} {issued inum : Inum} {store : Store}
    {content : Bytes} {size : UInt64} {off : Int64} (stored : store inum = some content)
    (positive : 0 ≤ off.toInt) :
    (read (.sound attr issued) inum size off).run store =
        (some (.ok (slice content off.toInt.toNat
          (min (off.toInt.toNat + size.toNat) content.length))), store) ↔
      ¬ (content.length < off.toInt.toNat ∧ off.toInt.toNat % 2 ^ 32 < content.length) := by
  rw [read_run stored]
  constructor
  · rintro returned ⟨beyond, within⟩
    rw [readContent_outside positive beyond within] at returned
    have nothing : none = some _ := congrArg Prod.fst returned
    exact absurd nothing (by simp)
  · intro near
    rw [readContent_eq positive near]
    rfl

/-- The last byte of a file of three bytes. -/
theorem read_slice_iff_last :
    (read (.sound (fun _ _ => ⟨0, 0, 0, 0⟩) 0) 5 2 2).run (fun _ => some [1, 2, 3]) =
      (some (.ok [3]), fun _ => some [1, 2, 3]) :=
  (@read_slice_iff (fun _ _ => ⟨0, 0, 0, 0⟩) 0 5 (fun _ => some [1, 2, 3]) [1, 2, 3] 2 2 rfl
    (by decide)).mpr (by decide)

/-- An offset of 4 GiB in a file of one byte, where nothing is to be read. -/
theorem read_outside_content :
    slice [1] (4294967296 : Int64).toInt.toNat 1 = [] ∧
      (read (.sound (fun _ _ => ⟨0, 0, 0, 0⟩) 0) 5 1 4294967296).run (fun _ => some [1]) =
        (none, fun _ => some [1]) :=
  ⟨by decide, rfl⟩

end Ctgfs.Fs
