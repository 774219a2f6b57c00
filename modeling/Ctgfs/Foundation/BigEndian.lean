import Ctgfs.Foundation.LittleEndian

/-!
# Words in network order

A word of 32 bits as its four bytes, the most significant byte first, taken apart and put
together with shifts and masks.
-/

namespace Ctgfs.Foundation

def lowByte (x : UInt32) : Byte :=
  ⟨(x &&& 255).toNat, by
    rw [UInt32.toNat_and]
    exact Nat.and_lt_two_pow _ (by decide : 255 < 2 ^ 8)⟩

def bigEndian (x : UInt32) : Bytes :=
  [lowByte (x >>> 24), lowByte (x >>> 16), lowByte (x >>> 8), lowByte x]

def joinBytes (b3 b2 b1 b0 : UInt32) : UInt32 :=
  b3 <<< 24 ||| b2 <<< 16 ||| b1 <<< 8 ||| b0

def wordOfByte (byte : Byte) : UInt32 := UInt32.ofNat byte.val

def ofBigEndian : Bytes → UInt32
  | [b3, b2, b1, b0] => joinBytes (wordOfByte b3) (wordOfByte b2) (wordOfByte b1) (wordOfByte b0)
  | _ => 0

@[simp]
theorem length_bigEndian (x : UInt32) : (bigEndian x).length = 4 := rfl

@[simp]
theorem wordOfByte_lowByte (x : UInt32) : wordOfByte (lowByte x) = x &&& 255 :=
  UInt32.ofNat_toNat

theorem getLsbD_mask (i : Nat) : (255#32).getLsbD i = decide (i < 8) := by
  change Nat.testBit (2 ^ 8 - 1) i = decide (i < 8)
  exact Nat.testBit_two_pow_sub_one 8 i

theorem joinBytes_mask (x : UInt32) :
    joinBytes (x >>> 24 &&& 255) (x >>> 16 &&& 255) (x >>> 8 &&& 255) (x &&& 255) = x := by
  rw [← UInt32.toBitVec_inj]
  apply BitVec.eq_of_getLsbD_eq
  intro i small
  simp only [joinBytes, UInt32.toBitVec_or, UInt32.toBitVec_shiftLeft, UInt32.toBitVec_and,
    UInt32.toBitVec_shiftRight, UInt32.toBitVec_ofNat, BitVec.ofNat_eq_ofNat, BitVec.reduceMod,
    BitVec.ushiftRight_eq', BitVec.toNat_ofNat, Nat.reducePow, Nat.reduceMod,
    BitVec.shiftLeft_eq', BitVec.getLsbD_or, BitVec.getLsbD_shiftLeft, BitVec.getLsbD_and,
    BitVec.getLsbD_ushiftRight, getLsbD_mask]
  -- Each bit comes from the byte that it stands in.
  rcases (by omega : i < 8 ∨ 8 ≤ i ∧ i < 16 ∨ 16 ≤ i ∧ i < 24 ∨ 24 ≤ i) with h | h | h | h
  · grind
  · grind
  · grind
  · grind

theorem ofBigEndian_bigEndian (x : UInt32) : ofBigEndian (bigEndian x) = x := by
  simp only [bigEndian, ofBigEndian, wordOfByte_lowByte]
  exact joinBytes_mask x

theorem joinBytes_half (x : UInt16) :
    joinBytes 0 0 (x.toUInt32 >>> 8 &&& 255) (x.toUInt32 &&& 255) = x.toUInt32 := by
  have high : ∀ shift : UInt32, 16 ≤ shift.toNat → shift.toNat < 32 →
      x.toUInt32 >>> shift = 0 := by
    intro shift large small
    apply UInt32.toNat_inj.mp
    rw [UInt32.toNat_shiftRight, UInt16.toNat_toUInt32, Nat.mod_eq_of_lt small]
    apply Nat.shiftRight_eq_zero
    exact lt_of_lt_of_le x.toNat_lt (Nat.pow_le_pow_right (by decide) large)
  have joined := joinBytes_mask x.toUInt32
  rwa [high 24 (by decide) (by decide), high 16 (by decide) (by decide)] at joined

theorem sshiftRight_and_mask (x : BitVec 32) {shift : Nat} (small : shift ≤ 24) :
    x.sshiftRight shift &&& 255#32 = x >>> shift &&& 255#32 := by
  apply BitVec.eq_of_getLsbD_eq
  intro i inside
  simp only [BitVec.getLsbD_and, BitVec.getLsbD_sshiftRight, BitVec.getLsbD_ushiftRight,
    getLsbD_mask]
  grind

theorem bigEndian_int (x : Int32) :
    [lowByte (x >>> 24).toUInt32, lowByte (x >>> 16).toUInt32, lowByte (x >>> 8).toUInt32,
      lowByte x.toUInt32] = bigEndian x.toUInt32 := by
  have same : ∀ {first second : UInt32}, first &&& 255 = second &&& 255 →
      lowByte first = lowByte second := by
    intro first second masked
    simp only [lowByte, masked]
  have shifted : ∀ {shift : Nat}, shift ≤ 24 →
      (⟨x.toBitVec.sshiftRight shift⟩ : UInt32) &&& 255 = ⟨x.toBitVec >>> shift⟩ &&& 255 := by
    intro shift small
    rw [← UInt32.toBitVec_inj]
    exact sshiftRight_and_mask x.toBitVec small
  have third : lowByte (x >>> 24).toUInt32 = lowByte (x.toUInt32 >>> 24) :=
    same (shifted (by decide : 24 ≤ 24))
  have second : lowByte (x >>> 16).toUInt32 = lowByte (x.toUInt32 >>> 16) :=
    same (shifted (by decide : 16 ≤ 24))
  have first : lowByte (x >>> 8).toUInt32 = lowByte (x.toUInt32 >>> 8) :=
    same (shifted (by decide : 8 ≤ 24))
  rw [bigEndian, third, second, first]

theorem toUInt8_and_mask (x : UInt32) : (x &&& 255).toUInt8 = x.toUInt8 := by
  rw [UInt32.toUInt8_and]
  exact UInt8.and_neg_one

theorem or_shiftLeft_halves (x : UInt64) :
    x.toUInt32.toUInt64 ||| (x >>> 32).toUInt32.toUInt64 <<< 32 = x := by
  rw [← UInt64.toBitVec_inj]
  apply BitVec.eq_of_getLsbD_eq
  intro i small
  simp only [UInt64.toBitVec_or, UInt32.toBitVec_toUInt64, UInt64.toBitVec_toUInt32,
    UInt64.toBitVec_ofNat, UInt64.toBitVec_shiftLeft, UInt64.toBitVec_shiftRight,
    BitVec.ofNat_eq_ofNat, BitVec.reduceMod, BitVec.ushiftRight_eq', BitVec.toNat_ofNat,
    Nat.reducePow, Nat.reduceMod, BitVec.shiftLeft_eq', BitVec.getLsbD_or,
    BitVec.getLsbD_shiftLeft, BitVec.getLsbD_setWidth, BitVec.getLsbD_ushiftRight]
  rcases Nat.lt_or_ge i 32 with low | high
  · grind
  · grind

end Ctgfs.Foundation
