import Tunix.Kernel.Fat
import Mathlib.Tactic.IntervalCases
import Mathlib.Tactic.NormNum

/-!
# The entries of a FAT

What `fat_entry_read` makes of the bytes of a table of 12, 16 or 32 bits, as a number
(`tableValue`), and what becomes of it when `fat_entry_write` puts an entry there: this entry has
the new value, and all others have the one that they had (`tableValue_putEntry`), also where two
entries of 12 bits share a byte.
-/

namespace Tunix.Fat

/-! ## Bytes -/

/-- The number that so many bytes make, the low one first. -/
def bytesValue (data : Nat → UInt8) (at_ : Nat) : Nat → Nat
  | 0 => 0
  | width + 1 => bytesValue data at_ width + 2 ^ (8 * width) * (data (at_ + width)).toNat

private theorem bytesValue_lt (data : Nat → UInt8) (at_ width : Nat) :
    bytesValue data at_ width < 2 ^ (8 * width) := by
  induction width with
  | zero => exact Nat.one_pos
  | succ width ih =>
    have hbyte : (data (at_ + width)).toNat + 1 ≤ 2 ^ 8 := (data (at_ + width)).toNat_lt
    calc bytesValue data at_ width + 2 ^ (8 * width) * (data (at_ + width)).toNat
        < 2 ^ (8 * width) * ((data (at_ + width)).toNat + 1) := by rw [Nat.mul_succ]; omega
      _ ≤ 2 ^ (8 * width) * 2 ^ 8 := Nat.mul_le_mul_left _ hbyte
      _ = 2 ^ (8 * (width + 1)) := by rw [← Nat.pow_add, Nat.mul_succ]

private theorem toNat_littleEndian (data : Nat → UInt8) (at_ : Nat) {width : Nat}
    (hwidth : width ≤ 4) :
    (littleEndian data at_ width).toNat = bytesValue data at_ width := by
  induction width with
  | zero => rfl
  | succ width ih =>
    have hbyte := (data (at_ + width)).toNat_lt
    have hshift : ((data (at_ + width)).toUInt32 <<< (8 * width).toUInt32).toNat =
        2 ^ (8 * width) * (data (at_ + width)).toNat := by
      rw [UInt32.toNat_shiftLeft, UInt8.toNat_toUInt32, Nat.shiftLeft_eq, Nat.mul_comm]
      have hsmall : width < 4 := by omega
      interval_cases width <;> simp <;> omega
    rw [littleEndian, UInt32.toNat_or, hshift, ih (by omega), Nat.or_comm,
      ← Nat.two_pow_add_eq_or_of_lt (bytesValue_lt data at_ width), Nat.add_comm, bytesValue]

/-- A number depends on its bytes only. -/
theorem bytesValue_congr {data data' : Nat → UInt8} {at_ at_' width : Nat}
    (h : ∀ k < width, data (at_ + k) = data' (at_' + k)) :
    bytesValue data at_ width = bytesValue data' at_' width := by
  induction width with
  | zero => rfl
  | succ width ih =>
    rw [bytesValue, bytesValue, ih fun k hk => h k (by omega), h width (by omega)]

/-- A number put into bytes is the number that they make. -/
theorem bytesValue_putBytes (data : Nat → UInt8) (at_ : Nat) {width : Nat} (hwidth : width ≤ 4)
    (value : UInt32) :
    bytesValue (putBytes data at_ width value) at_ width = value.toNat % 2 ^ (8 * width) := by
  have hbyte (k : Nat) (hk : k < width) : (putBytes data at_ width value (at_ + k)).toNat =
      value.toNat / 2 ^ (8 * k) % 256 := by
    rw [putBytes, if_pos ⟨by omega, by omega⟩, Nat.add_sub_cancel_left, UInt32.toNat_toUInt8,
      UInt32.toNat_shiftRight,
      Nat.shiftRight_eq_div_pow]
    have hsmall : k < 4 := by omega
    interval_cases k <;> rfl
  have hall : ∀ k ≤ width,
      bytesValue (putBytes data at_ width value) at_ k = value.toNat % 2 ^ (8 * k) := by
    intro k hk
    induction k with
    | zero => rw [bytesValue, Nat.mul_zero, Nat.pow_zero, Nat.mod_one]
    | succ k ih =>
      rw [bytesValue, ih (by omega), hbyte k (by omega), Nat.mul_succ, Nat.pow_add, Nat.mod_mul]
  exact hall width le_rfl

/-- The four bits from a place on, with other bits below them. -/
theorem merge_high {x y k : Nat} (hx : x < 2 ^ (k + 4)) :
    x &&& (2 ^ 4 - 1) <<< k ||| y &&& (2 ^ k - 1) = 2 ^ k * (x / 2 ^ k) + y % 2 ^ k := by
  have hhigh : x &&& (2 ^ 4 - 1) <<< k = 2 ^ k * (x / 2 ^ k &&& (2 ^ 4 - 1)) := by
    rw [← Nat.shiftRight_eq_div_pow, Nat.mul_comm, ← Nat.shiftLeft_eq]
    refine Nat.eq_of_testBit_eq fun i => ?_
    simp only [Nat.testBit_and, Nat.testBit_shiftLeft, Nat.testBit_shiftRight]
    by_cases hi : k ≤ i
    · simp [hi, Nat.add_sub_cancel' hi]
    · simp [hi]
  have hlt : x / 2 ^ k < 2 ^ 4 := Nat.div_lt_of_lt_mul (by rwa [← Nat.pow_add])
  rw [hhigh, Nat.and_two_pow_sub_one_eq_mod, Nat.and_two_pow_sub_one_eq_mod, Nat.mod_eq_of_lt hlt,
    ← Nat.two_pow_add_eq_or_of_lt (Nat.mod_lt _ (Nat.two_pow_pos k))]

/-! ## Entries -/

section Entry

variable {v : FatVolume} {table table' : Nat → UInt8} {cluster cluster' : UInt32}

/-- The widths that `fatfs_mount` gives a table. -/
def FatVolume.Wide (v : FatVolume) : Prop := v.bits = 12 ∨ v.bits = 16 ∨ v.bits = 32

/-- How many bytes an entry is read from. -/
def FatVolume.entryWidth (v : FatVolume) : Nat := if v.bits = 32 then 4 else 2

/-- The value of an entry, from the bytes of the table. -/
def FatVolume.tableValue (v : FatVolume) (table : Nat → UInt8) (cluster : UInt32) : Nat :=
  let value := bytesValue table (v.entryOffset cluster).toNat v.entryWidth
  if v.bits = 12 then if cluster.toNat % 2 = 1 then value / 16 else value % 4096
  else if v.bits = 32 then value % 2 ^ 28
  else value

/-- What is in the bytes of an entry when it has a new value. -/
def FatVolume.packed (v : FatVolume) (cluster : UInt32) (old value : Nat) : Nat :=
  if v.bits = 12 then if cluster.toNat % 2 = 1 then
    old % 16 + 16 * value else 2 ^ 12 * (old / 2 ^ 12) + value
  else if v.bits = 32 then 2 ^ 28 * (old / 2 ^ 28) + value
  else value

/-- A value that fits into an entry. -/
def FatVolume.Fits (v : FatVolume) (value : Nat) : Prop :=
  value < 2 ^ (if v.bits = 32 then 28 else v.bits)

private theorem FatVolume.toNat_entryOffset (v : FatVolume) (cluster : UInt32) :
    (v.entryOffset cluster).toNat =
    if v.bits = 12 then cluster.toNat + cluster.toNat / 2
    else if v.bits = 16 then cluster.toNat * 2 else cluster.toNat * 4 := by
  have hlt := cluster.toNat_lt
  unfold FatVolume.entryOffset
  split_ifs
  · rw [UInt64.toNat_add, UInt32.toNat_toUInt64, UInt32.toNat_toUInt64, UInt32.toNat_div]
    exact Nat.mod_eq_of_lt (show cluster.toNat + cluster.toNat / 2 < 2 ^ 64 by omega)
  · rw [UInt64.toNat_mul, UInt32.toNat_toUInt64]
    exact Nat.mod_eq_of_lt (show cluster.toNat * 2 < 2 ^ 64 by omega)
  · rw [UInt64.toNat_mul, UInt32.toNat_toUInt64]
    exact Nat.mod_eq_of_lt (show cluster.toNat * 4 < 2 ^ 64 by omega)

private theorem odd_iff : cluster % 2 = 1 ↔ cluster.toNat % 2 = 1 := by
  rw [← UInt32.toNat_inj, UInt32.toNat_mod]
  rfl

private theorem within_toNat :
    (v.entryOffset cluster % bytesPerSector.toUInt64).toNat = (v.entryOffset cluster).toNat % 512 :=
  UInt64.toNat_mod ..

/-- `fat_entry_read` reads the value of the entry. -/
theorem FatVolume.toNat_entryValue (hwide : v.Wide) {sectors : Nat → UInt8}
    (h : ∀ k < 4, sectors ((v.entryOffset cluster).toNat % 512 + k) =
      table ((v.entryOffset cluster).toNat + k)) :
    (v.entryValue cluster sectors).toNat = v.tableValue table cluster := by
  have hvalue (width : Nat) (hwidth : width ≤ 4) :
      (littleEndian sectors ((v.entryOffset cluster).toNat % 512) width).toNat =
        bytesValue table (v.entryOffset cluster).toNat width := by
    rw [toNat_littleEndian sectors _ hwidth]
    exact bytesValue_congr fun k hk => h k (by omega)
  unfold FatVolume.entryValue FatVolume.tableValue FatVolume.entryWidth
  simp only [within_toNat, odd_iff]
  rcases hwide with hbits | hbits | hbits
  · simp only [hbits, true_or, if_true, show (12 : Nat) ≠ 32 by decide, if_false]
    split_ifs
    · rw [UInt32.toNat_shiftRight, hvalue 2 (by decide)]
      exact Nat.shiftRight_eq_div_pow _ 4
    · rw [UInt32.toNat_and, hvalue 2 (by decide)]
      exact Nat.and_two_pow_sub_one_eq_mod _ 12
  · simp only [hbits, or_true, if_true, show (16 : Nat) ≠ 32 by decide,
      show (16 : Nat) ≠ 12 by decide, if_false]
    exact hvalue 2 (by decide)
  · simp only [hbits, if_true, show (32 : Nat) ≠ 16 by decide, show (32 : Nat) ≠ 12 by decide,
      or_self, if_false]
    rw [UInt32.toNat_and, hvalue 4 (by decide)]
    exact Nat.and_two_pow_sub_one_eq_mod _ 28

/-- `fat_entry_write` puts the new value into the bytes of the entry. -/
theorem FatVolume.withEntry_eq (hwide : v.Wide) (value : UInt32) (hfits : v.Fits value.toNat)
    (sectors : Nat → UInt8) :
    ∃ word : UInt32, v.withEntry cluster value sectors =
        putBytes sectors ((v.entryOffset cluster).toNat % 512) v.entryWidth word ∧
      word.toNat = v.packed cluster
        (bytesValue sectors ((v.entryOffset cluster).toNat % 512) v.entryWidth) value.toNat := by
  unfold FatVolume.withEntry FatVolume.packed FatVolume.entryWidth
  unfold FatVolume.Fits at hfits
  have hold := bytesValue_lt sectors ((v.entryOffset cluster).toNat % 512)
  simp only [within_toNat, odd_iff]
  -- With 12 bits half of a byte belongs to the neighbour, with 32 the four highest bits are kept.
  rcases hwide with hbits | hbits | hbits
  · simp only [hbits, if_true, show (12 : Nat) ≠ 32 by decide, if_false] at hfits ⊢
    refine ⟨_, rfl, ?_⟩
    split_ifs
    · have hshift : (value <<< (4 : UInt32)).toNat = 2 ^ 4 * value.toNat := by
        rw [UInt32.toNat_shiftLeft]
        exact (Nat.mod_eq_of_lt (by rw [Nat.shiftLeft_eq]; change _ * 2 ^ 4 < _; omega)).trans
          ((Nat.shiftLeft_eq _ 4).trans (Nat.mul_comm _ _))
      rw [UInt32.toNat_or, UInt32.toNat_and, hshift,
        toNat_littleEndian _ _ (by decide), Nat.or_comm]
      have hlow :=
        Nat.and_two_pow_sub_one_eq_mod
          (bytesValue sectors ((v.entryOffset cluster).toNat % 512) 2) 4
      have hmerge := Nat.two_pow_add_eq_or_of_lt (Nat.mod_lt
        (bytesValue sectors ((v.entryOffset cluster).toNat % 512) 2)
          (Nat.two_pow_pos 4)) value.toNat
      rw [← hlow] at hmerge
      exact hmerge.symm.trans (by rw [hlow, Nat.add_comm])
    · rw [UInt32.toNat_or, UInt32.toNat_and, UInt32.toNat_and, toNat_littleEndian _ _ (by decide)]
      exact (@merge_high _ value.toNat 12 (hold 2)).trans (by rw [Nat.mod_eq_of_lt hfits])
  · simp only [hbits, if_true, show (16 : Nat) ≠ 32 by decide,
      show (16 : Nat) ≠ 12 by decide, if_false]
    exact ⟨value, rfl, rfl⟩
  · simp only [hbits, if_true, show (32 : Nat) ≠ 16 by decide, show (32 : Nat) ≠ 12 by decide,
      if_false] at hfits ⊢
    refine ⟨_, rfl, ?_⟩
    rw [UInt32.toNat_or, UInt32.toNat_and, UInt32.toNat_and, toNat_littleEndian _ _ (by decide)]
    exact (@merge_high _ value.toNat 28 (hold 4)).trans (by rw [Nat.mod_eq_of_lt hfits])

/-- The table with the new bytes has the new value in this entry. -/
theorem FatVolume.tableValue_putBytes (hwide : v.Wide) {word : UInt32} {value : Nat}
    (hfits : v.Fits value)
    (hword : word.toNat =
      v.packed cluster (bytesValue table (v.entryOffset cluster).toNat v.entryWidth) value) :
    v.tableValue (putBytes table (v.entryOffset cluster).toNat v.entryWidth word)
      cluster = value := by
  have hold := bytesValue_lt table (v.entryOffset cluster).toNat v.entryWidth
  unfold FatVolume.tableValue
  rw [bytesValue_putBytes table _
    (by unfold FatVolume.entryWidth; split_ifs <;> decide) word, hword]
  unfold FatVolume.Fits at hfits
  unfold FatVolume.packed FatVolume.entryWidth at *
  rcases hwide with hbits | hbits | hbits <;> simp only [hbits] at hfits hold ⊢
  · norm_num at hfits hold ⊢
    split_ifs <;> omega
  · norm_num at hfits hold ⊢
    omega
  · norm_num at hfits hold ⊢
    omega

/-- Entries without a common byte do not see one another. -/
private theorem FatVolume.tableValue_putBytes_of_apart {word : UInt32} (happart :
    ∀ k < v.entryWidth, (v.entryOffset cluster').toNat + k < (v.entryOffset cluster).toNat ∨
      (v.entryOffset cluster).toNat + v.entryWidth ≤ (v.entryOffset cluster').toNat + k) :
    v.tableValue (putBytes table (v.entryOffset cluster).toNat v.entryWidth word) cluster' =
      v.tableValue table cluster' := by
  unfold FatVolume.tableValue
  rw [bytesValue_congr fun k hk => if_neg (by have := happart k hk; omega)]

/-- The others have the value that they had. -/
theorem FatVolume.tableValue_putBytes_of_ne (hwide : v.Wide) {word : UInt32} {value : Nat}
    (hfits : v.Fits value)
    (hword : word.toNat =
      v.packed cluster (bytesValue table (v.entryOffset cluster).toNat v.entryWidth) value)
    (hne : cluster' ≠ cluster) :
    v.tableValue (putBytes table (v.entryOffset cluster).toNat v.entryWidth word) cluster' =
      v.tableValue table cluster' := by
  have hne : cluster'.toNat ≠ cluster.toNat := fun h => hne (UInt32.toNat.inj h)
  have happart := @tableValue_putBytes_of_apart v table cluster cluster' word
  have hoff := v.toNat_entryOffset cluster
  have hoff' := v.toNat_entryOffset cluster'
  rcases hwide with hbits | hbits | hbits
  · -- two entries that are neighbours may share a byte
    have hput := bytesValue_putBytes table (v.entryOffset cluster).toNat (show 2 ≤ 4 by decide) word
    have hwidth : v.entryWidth = 2 := by simp [FatVolume.entryWidth, hbits]
    simp only [FatVolume.Fits, FatVolume.packed, hbits, hwidth, if_true, show (12 : Nat) ≠ 32 by
      decide, if_false]
      at hfits hword hoff hoff' happart ⊢
    generalize hbytes :
      putBytes table (v.entryOffset cluster).toNat 2 word = table' at hput happart ⊢
    have hlow := (table' (v.entryOffset cluster).toNat).toNat_lt
    have hhigh := (table' ((v.entryOffset cluster).toNat + 1)).toNat_lt
    have hlow' := (table (v.entryOffset cluster).toNat).toNat_lt
    have hhigh' := (table ((v.entryOffset cluster).toNat + 1)).toNat_lt
    have hother (i : Nat)
        (hi : i < (v.entryOffset cluster).toNat ∨ (v.entryOffset cluster).toNat + 2 ≤ i) :
        table' i = table i := by
      rw [← hbytes]
      exact if_neg (by omega)
    simp only [bytesValue, Nat.add_zero] at hput hword
    by_cases hnext : cluster.toNat % 2 = 0 ∧ cluster'.toNat = cluster.toNat + 1
    · have hat : (v.entryOffset cluster').toNat = (v.entryOffset cluster).toNat + 1 := by omega
      have hbehind := hother ((v.entryOffset cluster).toNat + 2) (by omega)
      rw [if_neg (by omega)] at hword
      simp only [FatVolume.tableValue, hbits, hwidth, if_true, hat, bytesValue,
        Nat.add_zero, Nat.add_assoc,
        Nat.reduceAdd, hbehind, show cluster'.toNat % 2 = 1 by omega]
      omega
    by_cases hprev : cluster.toNat % 2 = 1 ∧ cluster'.toNat + 1 = cluster.toNat
    · have hat : (v.entryOffset cluster).toNat = (v.entryOffset cluster').toNat + 1 := by omega
      have hbefore := hother (v.entryOffset cluster').toNat (by omega)
      rw [if_pos hprev.1] at hword
      rw [hat] at hput hword hlow hlow' hhigh hhigh'
      simp only [FatVolume.tableValue, hbits, hwidth, if_true, bytesValue, Nat.add_zero, hbefore,
        show ¬cluster'.toNat % 2 = 1 by omega, if_false]
      omega
    · exact happart fun k hk => by omega
  all_goals
    refine happart fun k hk => ?_
    simp only [FatVolume.entryWidth, hbits] at *
    norm_num at *
    omega

end Entry

end Tunix.Fat
