import Tunix.Kernel.Crc

/-!
# The checksum is linear

`crc32c` is linear over exclusive or, in its start value and its data together
(`crc32c_xor`). The sums of two buffers of one length therefore differ by the sum of the
difference of the buffers, whatever the start value and the rest of the data are. The last
section evaluates that difference for one change, blanking a first word, over all lengths
up to a page.
-/

namespace Tunix.Crc

open Bytes

/-! ## Linearity -/

private theorem and_one_cases (v : UInt32) : v &&& 1 = 0 ∨ v &&& 1 = 1 := by
  have h : (v &&& 1).toNat = v.toNat % 2 := by simp [UInt32.toNat_and, Nat.and_one_is_mod]
  rcases Nat.mod_two_eq_zero_or_one v.toNat with h0 | h1
  · exact Or.inl (UInt32.toNat.inj (by rw [h, h0]; rfl))
  · exact Or.inr (UInt32.toNat.inj (by rw [h, h1]; rfl))

variable (a b : UInt32) (data : Buffer)

private theorem xor_and (a b c : UInt32) : (a ^^^ b) &&& c = (a &&& c) ^^^ (b &&& c) := by
  apply UInt32.eq_of_toBitVec_eq
  apply BitVec.eq_of_getLsbD_eq
  simp [Bool.and_xor_distrib_right]

/-- The folded polynomial depends linearly on the bit shifted out. -/
private theorem fold_xor : (0x82F63B78 : UInt32) &&& ((0 : UInt32) - ((a ^^^ b) &&& 1)) =
      ((0x82F63B78 : UInt32) &&& ((0 : UInt32) - (a &&& 1))) ^^^
        ((0x82F63B78 : UInt32) &&& ((0 : UInt32) - (b &&& 1))) := by
  rw [xor_and]
  rcases and_one_cases a with ha | ha <;> rcases and_one_cases b with hb | hb <;>
    rw [ha, hb] <;> decide

private theorem xor_xor_xor_comm (c d : UInt32) :
    (a ^^^ b) ^^^ (c ^^^ d) = (a ^^^ c) ^^^ (b ^^^ d) := by
  rw [UInt32.xor_assoc, ← UInt32.xor_assoc b, UInt32.xor_comm b c, UInt32.xor_assoc c,
    ← UInt32.xor_assoc a]

private theorem crc32cBit_xor : crc32cBit (a ^^^ b) = crc32cBit a ^^^ crc32cBit b := by
  simp only [crc32cBit]
  rw [fold_xor, UInt32.shiftRight_xor, xor_xor_xor_comm]

private theorem iterate_crc32cBit_xor (n : Nat) (a b : UInt32) :
    crc32cBit^[n] (a ^^^ b) = crc32cBit^[n] a ^^^ crc32cBit^[n] b := by
  induction n generalizing a b with
  | zero => rfl
  | succ n ih => simp only [Function.iterate_succ_apply, crc32cBit_xor, ih]

private theorem crc32cTable_xor : crc32cTable (a ^^^ b) = crc32cTable a ^^^ crc32cTable b := by
  simp only [crc32cTable, iterate_crc32cBit_xor]

private theorem crc32cByte_xor (x y : UInt8) :
    crc32cByte (a ^^^ b) (x ^^^ y) = crc32cByte a x ^^^ crc32cByte b y := by
  have hindex : ((a ^^^ b) ^^^ (x ^^^ y).toUInt32) &&& 0xFF =
      ((a ^^^ x.toUInt32) &&& 0xFF) ^^^ ((b ^^^ y.toUInt32) &&& 0xFF) := by
    rw [UInt8.toUInt32_xor, xor_xor_xor_comm, xor_and]
  simp only [crc32cByte]
  rw [hindex, crc32cTable_xor, UInt32.shiftRight_xor, xor_xor_xor_comm]

private theorem crc32c_succ (crc : UInt32) (data : Buffer) (n : Nat) :
    crc32c crc data (n + 1) = crc32cByte (crc32c crc data n) (data n) := by
  simp [crc32c, List.range_succ]

/-- The sum of the difference is the difference of the sums. -/
theorem crc32c_xor (x y : Buffer) (n : Nat) :
    crc32c (a ^^^ b) (fun i => x i ^^^ y i) n = crc32c a x n ^^^ crc32c b y n := by
  induction n with
  | zero => rfl
  | succ n ih => rw [crc32c_succ, ih, crc32cByte_xor, crc32c_succ, crc32c_succ]

/-- A sum reads the first `n` bytes only. -/
theorem crc32c_congr {crc : UInt32} {x y : Buffer} {n : Nat} (h : ∀ i < n, x i = y i) :
    crc32c crc x n = crc32c crc y n := by
  induction n with
  | zero => rfl
  | succ n ih =>
    rw [crc32c_succ, crc32c_succ, ih fun i hi => h i (by omega), h n (by omega)]

/-! ## Blanking a first word -/

/-- `crc32cBit` on numbers, for the evaluation below. -/
private def bitNat (n : Nat) : Nat := (n >>> 1) ^^^ (0x82F63B78 * (n % 2))

/-- `crc32cByte` on numbers. -/
private def byteNat (n byte : Nat) : Nat := (n >>> 8) ^^^ bitNat^[8] ((n ^^^ byte) % 256)

private theorem toNat_crc32cBit (v : UInt32) : (crc32cBit v).toNat = bitNat v.toNat := by
  have hmod : (v &&& 1).toNat = v.toNat % 2 := by simp [UInt32.toNat_and, Nat.and_one_is_mod]
  have hfold :
      ((0x82F63B78 : UInt32) &&& ((0 : UInt32) - (v &&& 1))).toNat =
        0x82F63B78 * (v.toNat % 2) := by
    rcases and_one_cases v with h | h <;> rw [h] at hmod ⊢ <;> rw [← hmod] <;> decide
  rw [crc32cBit, UInt32.toNat_xor, hfold]
  rfl

private theorem toNat_iterate_crc32cBit (k : Nat) (v : UInt32) :
    (crc32cBit^[k] v).toNat = bitNat^[k] v.toNat := by
  induction k generalizing v with
  | zero => rfl
  | succ k ih => rw [Function.iterate_succ_apply, ih, toNat_crc32cBit]; rfl

private theorem toNat_crc32cByte (v : UInt32) (byte : UInt8) :
    (crc32cByte v byte).toNat = byteNat v.toNat byte.toNat := by
  have hmod : ((v ^^^ byte.toUInt32) &&& 0xFF).toNat = (v.toNat ^^^ byte.toNat) % 256 := by
    have h := Nat.and_two_pow_sub_one_eq_mod (v.toNat ^^^ byte.toNat) 8
    simpa [UInt32.toNat_and] using h
  rw [crc32cByte, crc32cTable, UInt32.toNat_xor, toNat_iterate_crc32cBit, hmod]
  rfl

/-- The low halves of the next `k` sums over zero bytes are not zero. -/
private def lowHalvesNonzero : Nat → Nat → Bool
  | 0, _ => true
  | k + 1, n => Nat.blt 0 (n % 65536) && lowHalvesNonzero k (byteNat n 0)

private theorem lowHalvesNonzero_crc32c (m k : Nat)
    (hz : ∀ i, m ≤ i → data i = 0) (h : lowHalvesNonzero k (crc32c 0 data m).toNat = true) :
    ∀ n, m ≤ n → n < m + k → (crc32c 0 data n).toNat % 65536 ≠ 0 := by
  induction k generalizing m with
  | zero => intro n h1 h2; omega
  | succ k ih =>
    have hnext : byteNat (crc32c 0 data m).toNat 0 = (crc32c 0 data (m + 1)).toNat := by
      rw [crc32c_succ, toNat_crc32cByte, hz m (le_refl m)]
      rfl
    rw [lowHalvesNonzero, Bool.and_eq_true, hnext] at h
    intro n h1 h2
    rcases Nat.eq_or_lt_of_le h1 with rfl | hlt
    · have hpos : 0 < (crc32c 0 data m).toNat % 65536 := by simpa [Nat.blt_eq] using h.1
      omega
    · exact ih (m + 1) (fun i hi => hz i (by omega)) h.2 n hlt (by omega)

private theorem lowHalvesNonzero_magic : lowHalvesNonzero 4093 1813381988 = true := by
  decide +kernel

/-- The journal's magic number and zero bytes after it: no sum over four to 4096 bytes has a
    low half of zero. -/
private theorem crc32c_magic_low (n : Nat) (h4 : 4 ≤ n) (hn : n ≤ 4096) :
    (crc32c 0 (storeBe32 zeros 0 0xC03B3998) n).toNat % 65536 ≠ 0 := by
  have hstart : (crc32c 0 (storeBe32 zeros 0 0xC03B3998) 4).toNat = 1813381988 := by
    decide
  refine lowHalvesNonzero_crc32c _ 4 4093 ?_ ?_ n h4 (by omega)
  · intro i hi
    rw [storeBe32_apply _ _ _ _ (Or.inr hi)]
    rfl
  · rw [hstart]; exact lowHalvesNonzero_magic

private theorem low_xor {a b : UInt32} (h : (a ^^^ b).toNat % 65536 ≠ 0) :
    a &&& 0xFFFF ≠ b &&& 0xFFFF := by
  intro heq
  apply h
  have hxor : ((a ^^^ b) &&& 0xFFFF).toNat = (a ^^^ b).toNat % 65536 := by
    have h := Nat.and_two_pow_sub_one_eq_mod (a ^^^ b).toNat 16
    simpa [UInt32.toNat_and] using h
  rw [← hxor, xor_and, heq, UInt32.xor_self]
  rfl

/-- Blanking a first word that holds the journal's magic number changes the low half of the
    checksum, for every start value, every rest of the block and every length up to 4096. -/
theorem crc32c_blank_magic (crc : UInt32) (data : Buffer) (n : Nat)
    (hmagic : loadBe32 data 0 = 0xC03B3998) (h4 : 4 ≤ n) (hn : n ≤ 4096) :
    crc32c crc (storeBe32 data 0 0) n &&& 0xFFFF ≠ crc32c crc data n &&& 0xFFFF := by
  apply low_xor
  rw [← crc32c_xor, UInt32.xor_self]
  have hdiff : (fun i => storeBe32 data 0 0 i ^^^ data i) = storeBe32 zeros 0 0xC03B3998 := by
    conv_lhs => rw [← storeBe32_loadBe32 data 0, hmagic]
    funext i
    simp only [storeBe32, zeros]
    split_ifs <;> simp
  rw [hdiff]
  exact crc32c_magic_low n h4 hn

end Tunix.Crc
