import Mathlib.Data.List.Lex
import Mathlib.Order.Fin.Basic
import Mathlib.Tactic.Ring

/-!
# Numbers as little-endian byte strings

The memory image of an unsigned integer of `width` bytes on the machines that the
code is built for.  Byte strings are compared byte by byte as `std::string` compares
them, which is the lexicographic order.
-/

namespace Ctgfs.Foundation

/-- A `char`, compared as `std::char_traits<char>` compares it: as an unsigned byte. -/
abbrev Byte := Fin 256

/-- The byte after the last one of a `std::string`. -/
def nullByte : Byte := ⟨0, by decide⟩

/-- The contents of a `std::string`. -/
abbrev Bytes := List Byte

/-- The image of a number in `width` bytes, the least significant byte first. -/
def littleEndian : Nat → Nat → Bytes
  | 0, _ => []
  | width + 1, value => ⟨value % 256, Nat.mod_lt _ (by decide)⟩ :: littleEndian width (value / 256)

def ofLittleEndian : Bytes → Nat
  | [] => 0
  | byte :: rest => byte + 256 * ofLittleEndian rest

@[simp]
theorem length_littleEndian (width value : Nat) : (littleEndian width value).length = width := by
  induction width generalizing value with
  | zero => rfl
  | succ width ih => simp [littleEndian, ih]

theorem ofLittleEndian_littleEndian (width value : Nat) :
    ofLittleEndian (littleEndian width value) = value % 256 ^ width := by
  induction width generalizing value with
  | zero => simp [littleEndian, ofLittleEndian, Nat.mod_one]
  | succ width ih =>
      rw [littleEndian, ofLittleEndian, ih, Nat.pow_succ',
        Nat.mod_mul]

theorem ofLittleEndian_of_lt {width value : Nat} (fits : value < 256 ^ width) :
    ofLittleEndian (littleEndian width value) = value := by
  rw [ofLittleEndian_littleEndian, Nat.mod_eq_of_lt fits]

theorem ofLittleEndian_lt (bytes : Bytes) : ofLittleEndian bytes < 256 ^ bytes.length := by
  induction bytes with
  | nil => simp [ofLittleEndian]
  | cons byte rest ih =>
      have small := byte.isLt
      simp only [ofLittleEndian, List.length_cons, Nat.pow_succ']
      omega

theorem littleEndian_ofLittleEndian (bytes : Bytes) :
    littleEndian bytes.length (ofLittleEndian bytes) = bytes := by
  induction bytes with
  | nil => rfl
  | cons byte rest ih =>
      have small := byte.isLt
      have low : (byte.val + 256 * ofLittleEndian rest) % 256 = byte.val := by omega
      have high : (byte.val + 256 * ofLittleEndian rest) / 256 = ofLittleEndian rest := by omega
      simp only [List.length_cons, littleEndian, ofLittleEndian, low, high, ih]

theorem littleEndian_add (low high value : Nat) :
    littleEndian (low + high) value =
      littleEndian low value ++ littleEndian high (value / 256 ^ low) := by
  induction low generalizing value with
  | zero => simp [littleEndian]
  | succ low ih =>
      rw [Nat.add_right_comm, littleEndian, littleEndian, ih, List.cons_append,
        Nat.div_div_eq_div_mul, Nat.pow_succ']

theorem ofLittleEndian_append (low high : Bytes) :
    ofLittleEndian (low ++ high) = ofLittleEndian low + 256 ^ low.length * ofLittleEndian high := by
  induction low with
  | nil => simp [ofLittleEndian]
  | cons byte rest ih =>
      rw [List.cons_append, ofLittleEndian, ofLittleEndian, ih, List.length_cons]
      ring

theorem mem_littleEndian_iff {byte : Byte} {width value : Nat} :
    byte ∈ littleEndian width value ↔ ∃ i < width, value / 256 ^ i % 256 = byte := by
  induction width generalizing value with
  | zero => simp [littleEndian]
  | succ width ih =>
      rw [littleEndian, List.mem_cons, ih, Nat.exists_lt_succ_left]
      simp only [Nat.pow_zero, Nat.div_one, Nat.pow_succ', Nat.div_div_eq_div_mul, Fin.ext_iff,
        eq_comm]

/-- The order of two images is the order of the numbers at the least significant byte
in which they differ. -/
theorem littleEndian_lt_iff {width first second : Nat} :
    littleEndian width first < littleEndian width second ↔
      ∃ i < width, (∀ j < i, first / 256 ^ j % 256 = second / 256 ^ j % 256) ∧
        first / 256 ^ i % 256 < second / 256 ^ i % 256 := by
  induction width generalizing first second with
  | zero => simp [littleEndian]
  | succ width ih =>
      rw [littleEndian, littleEndian, List.cons_lt_cons_iff, ih,
        Nat.exists_lt_succ_left]
      simp only [Nat.forall_lt_succ_left, Nat.pow_zero, Nat.div_one, Nat.pow_succ',
        Nat.div_div_eq_div_mul, Fin.ext_iff, Fin.lt_def]
      simp only [Nat.not_lt_zero, false_implies, implies_true, true_and]
      refine or_congr_right ?_
      constructor
      · rintro ⟨same, i, small, before, less⟩
        exact ⟨i, small, ⟨same, before⟩, less⟩
      · rintro ⟨i, small, ⟨same, before⟩, less⟩
        exact ⟨same, i, small, before, less⟩

/-- The order of two strings is decided by their first parts when these differ and
have the same length. -/
theorem append_lt_append_iff {first second firstRest secondRest : Bytes}
    (length : first.length = second.length) (different : first ≠ second) :
    first ++ firstRest < second ++ secondRest ↔ first < second := by
  induction first generalizing second with
  | nil =>
      obtain rfl : second = [] := List.length_eq_zero_iff.mp length.symm
      exact absurd rfl different
  | cons head tail ih =>
      cases second with
      | nil => cases length
      | cons other others =>
          rw [List.cons_append, List.cons_append, List.cons_lt_cons_iff, List.cons_lt_cons_iff]
          refine or_congr_right (and_congr_right fun same => ?_)
          subst same
          apply ih
          · simpa using length
          · exact fun equal => different (by rw [equal])

theorem append_lt_append_left_iff (start first second : Bytes) :
    start ++ first < start ++ second ↔ first < second := by
  induction start with
  | nil => rfl
  | cons head tail ih =>
      rw [List.cons_append, List.cons_append, List.cons_lt_cons_iff]
      simp [ih]

end Ctgfs.Foundation
