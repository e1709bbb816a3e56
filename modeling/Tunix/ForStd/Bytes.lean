import Mathlib.Tactic.IntervalCases

/-!
# Words stored in byte buffers

A buffer is a function from byte offsets to bytes. This file defines the big- and
little-endian loads and stores that on-disk formats use and proves how a load sees
through the stores made before it: a load at the offset of a store returns the stored
word, and a load of other bytes does not see the store.
-/

namespace Bytes

open UInt32

/-- A byte buffer, indexed by offset. -/
abbrev Buffer := Nat → UInt8

variable {b : Buffer} {at_ off : Nat} (v : UInt32)

/-- The buffer that `memset(.., 0, ..)` leaves. -/
def zeros : Buffer := fun _ => 0

/-! ## Loads and stores -/

def loadBe32 (b : Buffer) (off : Nat) : UInt32 :=
  (b off).toUInt32 <<< 24 ||| (b (off + 1)).toUInt32 <<< 16 |||
    (b (off + 2)).toUInt32 <<< 8 ||| (b (off + 3)).toUInt32

def storeBe32 (b : Buffer) (off : Nat) (v : UInt32) : Buffer := fun i =>
  if i = off then (v >>> 24).toUInt8
  else if i = off + 1 then (v >>> 16).toUInt8
  else if i = off + 2 then (v >>> 8).toUInt8
  else if i = off + 3 then v.toUInt8
  else b i

def loadBe16 (b : Buffer) (off : Nat) : UInt16 := (b off).toUInt16 <<< 8 ||| (b (off + 1)).toUInt16

def storeBe16 (b : Buffer) (off : Nat) (v : UInt16) : Buffer := fun i =>
  if i = off then (v >>> 8).toUInt8
  else if i = off + 1 then v.toUInt8
  else b i

def loadLe16 (b : Buffer) (off : Nat) : UInt16 := (b off).toUInt16 ||| (b (off + 1)).toUInt16 <<< 8

def loadLe32 (b : Buffer) (off : Nat) : UInt32 :=
  (b off).toUInt32 ||| (b (off + 1)).toUInt32 <<< 8 |||
    (b (off + 2)).toUInt32 <<< 16 ||| (b (off + 3)).toUInt32 <<< 24

def loadLe64 (b : Buffer) (off : Nat) : UInt64 :=
  (loadLe32 b off).toUInt64 ||| (loadLe32 b (off + 4)).toUInt64 <<< 32

def storeLe32 (b : Buffer) (off : Nat) (v : UInt32) : Buffer := fun i =>
  if i = off then v.toUInt8
  else if i = off + 1 then (v >>> 8).toUInt8
  else if i = off + 2 then (v >>> 16).toUInt8
  else if i = off + 3 then (v >>> 24).toUInt8
  else b i

def storeLe64 (b : Buffer) (off : Nat) (v : UInt64) : Buffer :=
  storeLe32 (storeLe32 b off v.toUInt32) (off + 4) (v >>> 32).toUInt32

/-- Overwrite a single byte. -/
def storeByte (b : Buffer) (off : Nat) (v : UInt8) : Buffer := fun i => if i = off then v else b i

/-! ## Reassembling a word from its bytes -/

private theorem be32_roundtrip :
    (v >>> 24).toUInt8.toUInt32 <<< 24 ||| (v >>> 16).toUInt8.toUInt32 <<< 16 |||
      (v >>> 8).toUInt8.toUInt32 <<< 8 ||| v.toUInt8.toUInt32 = v := by
  apply UInt32.eq_of_toBitVec_eq
  apply BitVec.eq_of_getLsbD_eq
  intro i hi
  simp only [UInt32.toBitVec_or, UInt32.toBitVec_shiftLeft, UInt8.toBitVec_toUInt32,
    UInt32.toBitVec_toUInt8, UInt32.toBitVec_shiftRight, BitVec.getLsbD_or]
  have h24 : (toBitVec 24 % 32 : BitVec 32) = 24#32 := by decide
  have h16 : (toBitVec 16 % 32 : BitVec 32) = 16#32 := by decide
  have h8 : (toBitVec 8 % 32 : BitVec 32) = 8#32 := by decide
  simp only [h24, h16, h8]
  -- one bit at a time: bit `i` comes back from exactly one of the four bytes
  interval_cases i <;> simp

private theorem be16_roundtrip (v : UInt16) :
    (v >>> 8).toUInt8.toUInt16 <<< 8 ||| v.toUInt8.toUInt16 = v := by
  apply UInt16.eq_of_toBitVec_eq
  apply BitVec.eq_of_getLsbD_eq
  intro i hi
  simp only [UInt16.toBitVec_or, UInt16.toBitVec_shiftLeft, UInt8.toBitVec_toUInt16,
    UInt16.toBitVec_toUInt8, UInt16.toBitVec_shiftRight, BitVec.getLsbD_or]
  interval_cases i <;> simp

/-- The bytes of a word put together from four bytes are those bytes. -/
theorem byte_of_be32 (a b c d : UInt8) :
    let v := a.toUInt32 <<< 24 ||| b.toUInt32 <<< 16 ||| c.toUInt32 <<< 8 ||| d.toUInt32
    (v >>> 24).toUInt8 = a ∧ (v >>> 16).toUInt8 = b ∧ (v >>> 8).toUInt8 = c ∧ v.toUInt8 = d := by
  have h24 : (toBitVec 24 % 32 : BitVec 32) = 24#32 := by decide
  have h16 : (toBitVec 16 % 32 : BitVec 32) = 16#32 := by decide
  have h8 : (toBitVec 8 % 32 : BitVec 32) = 8#32 := by decide
  refine ⟨?_, ?_, ?_, ?_⟩ <;>
  · apply UInt8.eq_of_toBitVec_eq
    apply BitVec.eq_of_getLsbD_eq
    intro i hi
    simp only [UInt32.toBitVec_or, UInt32.toBitVec_shiftLeft, UInt8.toBitVec_toUInt32,
      UInt32.toBitVec_toUInt8, UInt32.toBitVec_shiftRight, h24, h16, h8]
    interval_cases i <;> simp

/-! ## A load after a store -/

/-- A word that was stored is read back. -/
@[simp] theorem loadBe32_storeBe32 (b : Buffer) (off : Nat) (v : UInt32) :
    loadBe32 (storeBe32 b off v) off = v := by
  simp only [loadBe32, storeBe32, ↓reduceIte, Nat.add_eq_left, Nat.reduceEqDiff,
    Nat.add_left_cancel_iff, OfNat.ofNat_ne_zero, OfNat.ofNat_ne_one, one_ne_zero]
  exact be32_roundtrip v

/-- A half word that was stored is read back. -/
@[simp] theorem loadBe16_storeBe16 (b : Buffer) (off : Nat) (v : UInt16) :
    loadBe16 (storeBe16 b off v) off = v := by
  simp only [loadBe16, storeBe16, ↓reduceIte, Nat.add_eq_left, one_ne_zero]
  exact be16_roundtrip v

/-- A store leaves the bytes outside its four alone. -/
theorem storeBe32_apply (b : Buffer) (off i : Nat) (v : UInt32) (h : i < off ∨ off + 4 ≤ i) :
    storeBe32 b off v i = b i := by
  simp only [storeBe32]
  rw [if_neg (by omega), if_neg (by omega), if_neg (by omega), if_neg (by omega)]

/-- A store leaves the bytes outside its two alone. -/
theorem storeBe16_apply (b : Buffer) (off i : Nat) (v : UInt16) (h : i < off ∨ off + 2 ≤ i) :
    storeBe16 b off v i = b i := by
  simp only [storeBe16]
  rw [if_neg (by omega), if_neg (by omega)]

/-- A stored byte changes no other. -/
theorem storeByte_apply (b : Buffer) (off i : Nat) (v : UInt8) (h : i ≠ off) :
    storeByte b off v i = b i := if_neg h

/-- A second store at an offset replaces the first. -/
@[simp] theorem storeBe32_storeBe32 (b : Buffer) (off : Nat) (v w : UInt32) :
    storeBe32 (storeBe32 b off v) off w = storeBe32 b off w := by
  funext i
  simp only [storeBe32]
  split_ifs <;> rfl

/-- Storing back the word that was loaded changes nothing. -/
@[simp] theorem storeBe32_loadBe32 (b : Buffer) (off : Nat) :
    storeBe32 b off (loadBe32 b off) = b := by
  obtain ⟨h0, h1, h2, h3⟩ := byte_of_be32 (b off) (b (off + 1)) (b (off + 2)) (b (off + 3))
  funext i
  simp only [storeBe32, loadBe32]
  split_ifs with e0 e1 e2 e3
  · rw [h0, e0]
  · rw [h1, e1]
  · rw [h2, e2]
  · rw [h3, e3]
  · rfl

/-- A word is determined by its four bytes. -/
theorem loadBe32_congr {c : Buffer} (h : ∀ i, off ≤ i → i < off + 4 → b i = c i) :
    loadBe32 b off = loadBe32 c off := by
  simp only [loadBe32, h off (by omega) (by omega), h (off + 1) (by omega) (by omega),
    h (off + 2) (by omega) (by omega), h (off + 3) (by omega) (by omega)]

/-- A half word is determined by its two bytes. -/
theorem loadBe16_congr {c : Buffer} (h : ∀ i, off ≤ i → i < off + 2 → b i = c i) :
    loadBe16 b off = loadBe16 c off := by
  simp only [loadBe16, h off (by omega) (by omega), h (off + 1) (by omega) (by omega)]

/-! ## A load past a store elsewhere -/

/-- A word that is stored elsewhere does not matter. -/
theorem loadBe32_storeBe32_of_disjoint {v : UInt32}
    (h : off + 4 ≤ at_ ∨ at_ + 4 ≤ off) : loadBe32 (storeBe32 b off v) at_ = loadBe32 b at_ :=
  loadBe32_congr fun i h1 h2 => storeBe32_apply _ _ _ _ (by omega)

/-- A half word that is stored elsewhere does not matter. -/
theorem loadBe32_storeBe16_of_disjoint {v : UInt16}
    (h : off + 2 ≤ at_ ∨ at_ + 4 ≤ off) : loadBe32 (storeBe16 b off v) at_ = loadBe32 b at_ :=
  loadBe32_congr fun i h1 h2 => storeBe16_apply _ _ _ _ (by omega)

/-- A byte that is stored elsewhere does not matter. -/
theorem loadBe32_storeByte_of_disjoint {v : UInt8}
    (h : off + 1 ≤ at_ ∨ at_ + 4 ≤ off) : loadBe32 (storeByte b off v) at_ = loadBe32 b at_ :=
  loadBe32_congr fun i h1 h2 => storeByte_apply _ _ _ _ (by omega)

/-- A word that is stored elsewhere does not matter for a half word. -/
theorem loadBe16_storeBe32_of_disjoint {v : UInt32}
    (h : off + 4 ≤ at_ ∨ at_ + 2 ≤ off) : loadBe16 (storeBe32 b off v) at_ = loadBe16 b at_ :=
  loadBe16_congr fun i h1 h2 => storeBe32_apply _ _ _ _ (by omega)

/-- A half word that is stored elsewhere does not matter for another. -/
theorem loadBe16_storeBe16_of_disjoint {v : UInt16}
    (h : off + 2 ≤ at_ ∨ at_ + 2 ≤ off) : loadBe16 (storeBe16 b off v) at_ = loadBe16 b at_ :=
  loadBe16_congr fun i h1 h2 => storeBe16_apply _ _ _ _ (by omega)

/-! ## Little-endian words -/

private theorem le32_roundtrip :
    v.toUInt8.toUInt32 ||| (v >>> 8).toUInt8.toUInt32 <<< 8 |||
      (v >>> 16).toUInt8.toUInt32 <<< 16 |||
      (v >>> 24).toUInt8.toUInt32 <<< 24 = v := by
  have hswap (a b c d : UInt32) : d ||| c ||| b ||| a = a ||| b ||| c ||| d := by
    rw [UInt32.or_comm _ a, UInt32.or_comm _ b, UInt32.or_comm d c, ← UInt32.or_assoc,
      ← UInt32.or_assoc]
  exact (hswap _ _ _ _).trans (be32_roundtrip v)

/-- A double word is put together from its halves. -/
theorem halves_roundtrip (v : UInt64) :
    v.toUInt32.toUInt64 ||| (v >>> 32).toUInt32.toUInt64 <<< 32 = v := by
  apply UInt64.eq_of_toBitVec_eq
  apply BitVec.eq_of_getLsbD_eq
  intro i hi
  have h32 : (UInt64.toBitVec 32 % 64 : BitVec 64) = 32#64 := by decide
  simp only [UInt64.toBitVec_or, UInt64.toBitVec_shiftLeft, toBitVec_toUInt64,
    UInt64.toBitVec_toUInt32, UInt64.toBitVec_shiftRight, BitVec.getLsbD_or, h32]
  by_cases hlow : i < 32
  · simp [hlow, hi]
  · simp [hlow, hi, show i - 32 < 32 by omega, show 32 + (i - 32) = i by omega]

/-- A word that was stored is read back, lowest byte first. -/
@[simp] theorem loadLe32_storeLe32 (b : Buffer) (off : Nat) (v : UInt32) :
    loadLe32 (storeLe32 b off v) off = v := by
  simp only [loadLe32, storeLe32, ↓reduceIte, Nat.add_eq_left, Nat.reduceEqDiff,
    Nat.add_left_cancel_iff, OfNat.ofNat_ne_zero, OfNat.ofNat_ne_one, one_ne_zero]
  exact le32_roundtrip v

/-- A stored word changes its four bytes only. -/
theorem storeLe32_apply (b : Buffer) (off i : Nat) (v : UInt32) (h : i < off ∨ off + 4 ≤ i) :
    storeLe32 b off v i = b i := by
  simp only [storeLe32]
  rw [if_neg (by omega), if_neg (by omega), if_neg (by omega), if_neg (by omega)]

/-- A stored double word changes its eight bytes only. -/
theorem storeLe64_apply (b : Buffer) (off i : Nat) (v : UInt64) (h : i < off ∨ off + 8 ≤ i) :
    storeLe64 b off v i = b i := by
  rw [storeLe64, storeLe32_apply _ _ _ _ (by omega), storeLe32_apply _ _ _ _ (by omega)]

/-- A word depends on its four bytes only. -/
theorem loadLe32_congr {c : Buffer} (h : ∀ i, off ≤ i → i < off + 4 → b i = c i) :
    loadLe32 b off = loadLe32 c off := by
  simp only [loadLe32, h off (by omega) (by omega), h (off + 1) (by omega) (by omega),
    h (off + 2) (by omega) (by omega), h (off + 3) (by omega) (by omega)]

/-- A double word depends on its eight bytes only. -/
theorem loadLe64_congr {c : Buffer} (h : ∀ i, off ≤ i → i < off + 8 → b i = c i) :
    loadLe64 b off = loadLe64 c off := by
  unfold loadLe64
  rw [loadLe32_congr fun i h1 h2 => h i h1 (by omega), loadLe32_congr fun i h1 h2 =>
    h i (by omega) (by omega)]

/-- A double word that was stored is read back. -/
@[simp] theorem loadLe64_storeLe64 (b : Buffer) (off : Nat) (v : UInt64) :
    loadLe64 (storeLe64 b off v) off = v := by
  have hlow : loadLe32 (storeLe64 b off v) off = v.toUInt32 := by
    rw [storeLe64, loadLe32_congr fun i _ _ => storeLe32_apply _ _ _ _ (by omega),
      loadLe32_storeLe32]
  have hhigh : loadLe32 (storeLe64 b off v) (off + 4) = (v >>> 32).toUInt32 := by
    rw [storeLe64, loadLe32_storeLe32]
  rw [loadLe64, hlow, hhigh]
  exact halves_roundtrip v

/-! ## Masks -/

/-- A mask goes over both sides of a union of bits. -/
theorem or_and_mask (a b c : UInt32) : (a ||| b) &&& c = (a &&& c) ||| (b &&& c) := by
  apply UInt32.toNat_inj.mp
  exact Nat.and_or_distrib_right a.toNat b.toNat c.toNat

end Bytes
