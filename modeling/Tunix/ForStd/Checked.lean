import Mathlib.Data.Nat.Bitwise

/-!
# Checked and masked 64-bit arithmetic

Addition and subtraction that have no result where the exact one does not fit, and the operations
with masks of low bits, with their values as natural numbers.
-/

namespace UInt64

def checkedAdd (a b : UInt64) : Option UInt64 :=
  if a.toNat + b.toNat < 2 ^ 64 then some (a + b) else none

def checkedSub (a b : UInt64) : Option UInt64 := if b ≤ a then some (a - b) else none

def saturatingSub (a b : UInt64) : UInt64 := if b ≤ a then a - b else 0

variable {a b c : UInt64}

/-- A sum that fits is the sum of the numbers. -/
theorem toNat_add_of_lt (h : a.toNat + b.toNat < 2 ^ 64) : (a + b).toNat = a.toNat + b.toNat := by
  rw [UInt64.toNat_add, Nat.mod_eq_of_lt h]

/-- A checked sum is there exactly if it fits. -/
theorem checkedAdd_eq_some : checkedAdd a b = some c ↔ a.toNat + b.toNat < 2 ^ 64 ∧ c = a + b := by
  unfold checkedAdd
  split_ifs with h
  · rw [Option.some.injEq, eq_comm, and_iff_right h]
  · exact ⟨nofun, fun hc => absurd hc.1 h⟩

/-- A checked difference is there exactly if it is not negative. -/
theorem checkedSub_eq_some : checkedSub a b = some c ↔ a.toNat = b.toNat + c.toNat := by
  unfold checkedSub
  split_ifs with h
  · have hle := UInt64.le_iff_toNat_le.mp h
    rw [Option.some.injEq, ← UInt64.toNat_inj, UInt64.toNat_sub_of_le _ _ h]
    omega
  · rw [UInt64.le_iff_toNat_le] at h
    simp only [false_iff]
    omega

/-- A saturating difference is that of natural numbers. -/
theorem toNat_saturatingSub : (saturatingSub a b).toNat = a.toNat - b.toNat := by
  unfold saturatingSub
  split_ifs with h
  · exact UInt64.toNat_sub_of_le _ _ h
  rw [UInt64.le_iff_toNat_le] at h
  show 0 = _
  omega

/-- The low bits of a value. -/
theorem toNat_and_mask (v : UInt64) {k : Nat} {mask : UInt64} (hmask : mask.toNat = 2 ^ k - 1) :
    (v &&& mask).toNat = v.toNat % 2 ^ k := by
  rw [UInt64.toNat_and, hmask, Nat.and_two_pow_sub_one_eq_mod]

/-- A value without its low bits. -/
theorem toNat_and_not_mask (v : UInt64) {k : Nat} (hk : k ≤ 64) {mask : UInt64}
    (hmask : mask.toNat = 2 ^ k - 1) : (v &&& ~~~mask).toNat = v.toNat / 2 ^ k * 2 ^ k := by
  have hpow : 2 ^ k ≤ 2 ^ 64 := Nat.pow_le_pow_right (by decide) hk
  have hpos : 0 < 2 ^ k := Nat.two_pow_pos k
  have hnot : UInt64.size - 1 - mask.toNat = 2 ^ 64 - (2 ^ k - 1 + 1) := by
    rw [hmask]
    show 2 ^ 64 - 1 - (2 ^ k - 1) = _
    omega
  rw [UInt64.toNat_and, UInt64.toNat_not, hnot]
  refine Nat.eq_of_testBit_eq fun i => ?_
  rw [Nat.testBit_and, Nat.testBit_two_pow_sub_succ (by omega), Nat.testBit_two_pow_sub_one,
    Nat.testBit_mul_two_pow, Nat.testBit_div_two_pow]
  by_cases hi : i < k
  · simp [hi]
  -- A bit from `k` on is the value's own, and there are none from 64 on.
  rw [Nat.sub_add_cancel (Nat.le_of_not_lt hi)]
  by_cases hhigh : i < 64
  · simp [hi, hhigh, Nat.le_of_not_lt hi]
  have hnone : v.toNat.testBit i = false := Nat.testBit_lt_two_pow (lt_of_lt_of_le v.toNat_lt
      (Nat.pow_le_pow_right (by decide) (Nat.le_of_not_lt hhigh)))
  simp [hnone]

end UInt64
