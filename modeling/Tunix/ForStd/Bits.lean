import Tunix.ForStd.Bytes

/-!
# Bits in byte buffers

A bitmap is a buffer whose bit `i` is bit `i % 8` of byte `i / 8`. Setting or clearing a bit
changes that bit and no other (`bitTest_bitSet`, `bitTest_bitClear`).
-/

namespace Bytes

open UInt8

def bitTest (bits : Buffer) (bit : Nat) : Bool := (bits (bit / 8) >>> ofNat (bit % 8)) &&& 1 = 1

def bitSet (bits : Buffer) (bit : Nat) : Buffer :=
  storeByte bits (bit / 8) (bits (bit / 8) ||| (1 : UInt8) <<< ofNat (bit % 8))

def bitClear (bits : Buffer) (bit : Nat) : Buffer :=
  storeByte bits (bit / 8) (bits (bit / 8) &&& ~~~((1 : UInt8) <<< ofNat (bit % 8)))

/-! ## One byte -/

private theorem ofNat_toNat {k : Nat} (hk : k < 8) : (ofNat k).toNat = k := by
  simp only [toNat_ofNat']
  omega

private theorem shift_and_one (v : UInt8) {k : Nat} (hk : k < 8) :
    decide ((v >>> UInt8.ofNat k) &&& 1 = 1) = v.toBitVec.getLsbD k := by
  rw [Bool.eq_iff_iff, decide_eq_true_iff, ← UInt8.toNat_inj]
  simp only [UInt8.toNat_and, UInt8.toNat_shiftRight, ofNat_toNat hk, UInt8.toNat_one,
    Nat.mod_eq_of_lt hk]
  rw [← BitVec.testBit_toNat, Nat.testBit, Nat.and_comm]
  simp

/-- The byte with a single bit. -/
private theorem one_shift_getLsbD {k i : Nat} (hk : k < 8) (hi : i < 8) :
    ((1 : UInt8) <<< ofNat k).toBitVec.getLsbD i = decide (i = k) := by
  interval_cases k <;> interval_cases i <;> decide

/-- A bit, as the bit of a machine word. -/
theorem bitTest_eq (bits : Buffer) (bit : Nat) :
    bitTest bits bit = (bits (bit / 8)).toBitVec.getLsbD (bit % 8) :=
  shift_and_one _ (Nat.mod_lt _ (by decide))

/-- Setting a bit sets it and no other. -/
theorem bitTest_bitSet (bits : Buffer) (bit i : Nat) :
    bitTest (bitSet bits bit) i = (decide (i = bit) || bitTest bits i) := by
  have hk : bit % 8 < 8 := Nat.mod_lt _ (by decide)
  have hi : i % 8 < 8 := Nat.mod_lt _ (by decide)
  rw [bitTest_eq, bitTest_eq, bitSet, storeByte]
  by_cases hbyte : i / 8 = bit / 8
  · have hsame : i % 8 = bit % 8 ↔ i = bit := by omega
    rw [if_pos hbyte, UInt8.toBitVec_or, BitVec.getLsbD_or, one_shift_getLsbD hk hi, hbyte]
    simp [hsame, Bool.or_comm]
  · rw [if_neg hbyte, decide_eq_false (by rintro rfl; exact hbyte rfl), Bool.false_or]

/-- Clearing a bit clears it and no other. -/
theorem bitTest_bitClear (bits : Buffer) (bit i : Nat) :
    bitTest (bitClear bits bit) i = (!decide (i = bit) && bitTest bits i) := by
  have hk : bit % 8 < 8 := Nat.mod_lt _ (by decide)
  have hi : i % 8 < 8 := Nat.mod_lt _ (by decide)
  rw [bitTest_eq, bitTest_eq, bitClear, storeByte]
  by_cases hbyte : i / 8 = bit / 8
  · have hsame : i % 8 = bit % 8 ↔ i = bit := by omega
    rw [if_pos hbyte, UInt8.toBitVec_and, BitVec.getLsbD_and, UInt8.toBitVec_not,
      BitVec.getLsbD_not,
      one_shift_getLsbD hk hi, hbyte]
    simp [hsame, hi, Bool.and_comm]
  · rw [if_neg hbyte, decide_eq_false (by rintro rfl; exact hbyte rfl),
      Bool.not_false, Bool.true_and]

end Bytes
