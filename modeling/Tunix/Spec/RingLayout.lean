import Tunix.ForStd.Checked
import Tunix.ForStd.Triple
import Tunix.Kernel.IoUring

/-!
# The memory of a ring

A ring that `io_uring_create` returns has room for what the kernel reads and writes: `Shape.Sized`
says where the parts of the memory end. Every access is at an offset that the kernel computed from
its own sizes and from a masked or checked index, so that what user space stores does not matter:
`Shape.Holds` says that the access is inside the ring.
-/

namespace Tunix.IoUring

open Bytes UInt32
open UInt64 (toNat_add toNat_mul ofNat)

variable {shape : Shape} {world : World}

/-! ## Sizes -/

/-- The parts of the ring memory lie in it one after the other. -/
structure Shape.Sized (shape : Shape) : Prop where
  sqEntries_pos : 0 < shape.sqEntries.toNat
  sqEntries_le : shape.sqEntries.toNat ≤ 2 ^ 15
  cqEntries_pos : 0 < shape.cqEntries.toNat
  cqEntries_le : shape.cqEntries.toNat ≤ 2 ^ 16
  array_dvd : 4 ∣ (arrayOffset shape.cqEntries).toNat
  cqes_le : 128 + shape.cqEntries.toNat * 16 ≤ (arrayOffset shape.cqEntries).toNat
  array_le : (arrayOffset shape.cqEntries).toNat ≤ shape.sqesOffset.toNat
  /-- Without the flag the array of indices comes before the entries. -/
  indices_le : shape.setupFlags &&& setupNoSqarray = 0 →
    (arrayOffset shape.cqEntries).toNat + shape.sqEntries.toNat * 4 ≤ shape.sqesOffset.toNat
  sqes_dvd : 64 ∣ shape.sqesOffset.toNat
  sqes_le : shape.sqesOffset.toNat + shape.sqEntries.toNat * 64 ≤ shape.pageCount.toNat * 4096
  sqes_lt : shape.sqesOffset.toNat < 2 ^ 32

private theorem toNat_alignTo (v : UInt64) {alignment : UInt64} {k : Nat} (hk : k < 64)
    (ha : alignment.toNat = 2 ^ k) (hv : v.toNat + 2 ^ k ≤ 2 ^ 64) :
    (alignTo v alignment).toNat = (v.toNat + 2 ^ k - 1) / 2 ^ k * 2 ^ k := by
  have hpos : 0 < 2 ^ k := Nat.two_pow_pos k
  have hone : (1 : UInt64).toNat = 1 := rfl
  -- The sum may be 2^64 itself: the subtraction of one brings it back.
  have hsum : (v + alignment - 1).toNat = v.toNat + 2 ^ k - 1 := by
    rw [UInt64.toNat_sub, toNat_add, ha, hone]
    omega
  have hmask : (alignment - 1).toNat = 2 ^ k - 1 := by
    rw [UInt64.toNat_sub, ha, hone]
    omega
  rw [alignTo, UInt64.toNat_and_not_mask _ (le_of_lt hk) hmask, hsum]

/-- Rounding up to a multiple. -/
theorem le_roundUp (n : Nat) {a : Nat} (ha : 0 < a) :
    n ≤ (n + a - 1) / a * a ∧ (n + a - 1) / a * a < n + a := by
  have hdiv := Nat.div_add_mod (n + a - 1) a
  have hmod := Nat.mod_lt (n + a - 1) ha
  rw [mul_comm] at hdiv
  omega

private theorem alignTo_spec (v : UInt64) {alignment : UInt64} {k : Nat} (hk : k < 64)
    (ha : alignment.toNat = 2 ^ k) (hv : v.toNat + 2 ^ k ≤ 2 ^ 64) :
    v.toNat ≤ (alignTo v alignment).toNat ∧ (alignTo v alignment).toNat < v.toNat + 2 ^ k ∧
      2 ^ k ∣ (alignTo v alignment).toNat := by
  rw [toNat_alignTo v hk ha hv]
  obtain ⟨hle, hlt⟩ := le_roundUp v.toNat (Nat.two_pow_pos k)
  exact ⟨hle, hlt, dvd_mul_left _ _⟩

/-- Where the array of indices begins. -/
theorem arrayOffset_spec {cq : UInt32} (hcq : cq.toNat ≤ 2 ^ 16) :
    128 + cq.toNat * 16 ≤ (arrayOffset cq).toNat ∧ (arrayOffset cq).toNat < 192 + cq.toNat * 16 ∧
      64 ∣ (arrayOffset cq).toNat := by
  have hval : (cqCqes.toUInt64 + cq.toUInt64 * 16).toNat = 128 + cq.toNat * 16 := by
    have hcqes : cqCqes.toUInt64.toNat = 128 := rfl
    have hsize : (16 : UInt64).toNat = 16 := rfl
    rw [toNat_add, toNat_mul, hcqes, hsize, toNat_toUInt64]
    omega
  have h := alignTo_spec (cqCqes.toUInt64 + cq.toUInt64 * 16) (k := 6) (by decide)
    (rfl : (64 : UInt64).toNat = 2 ^ 6)
    (by rw [hval]; omega)
  rw [hval] at h
  exact ⟨h.1, by have := h.2.1; unfold arrayOffset; omega, h.2.2⟩

/-- The memory that `io_uring_create` lays out holds its parts. -/
theorem sized_layout {sq cq : UInt64} (flags : UInt32) (hsq : 0 < sq.toNat ∧ sq.toNat ≤ 2 ^ 15)
    (hcq : 0 < cq.toNat ∧ cq.toNat ≤ 2 ^ 16) : (layout sq cq flags).Sized := by
  have hsq32 : sq.toUInt32.toNat = sq.toNat := by
    rw [UInt64.toNat_toUInt32]
    omega
  have hcq32 : cq.toUInt32.toNat = cq.toNat := by
    rw [UInt64.toNat_toUInt32]
    omega
  obtain ⟨hcqes, hsmall, harray⟩ := arrayOffset_spec (hcq32 ▸ hcq.2 : cq.toUInt32.toNat ≤ 2 ^ 16)
  set array := arrayOffset cq.toUInt32 with harrayDef
  have hindices : (array + sq * 4).toNat = array.toNat + sq.toNat * 4 := by
    have hfour : (4 : UInt64).toNat = 4 := rfl
    rw [toNat_add, toNat_mul, hfour]
    omega
  have hbytes : (sq * 64).toNat = sq.toNat * 64 := by
    have hsize : (64 : UInt64).toNat = 64 := rfl
    rw [toNat_mul, hsize]
    omega
  -- The rings take the array too unless the flag says that there is none.
  obtain ⟨ringBytes, hring⟩ : ∃ ringBytes,
      ringBytes = if flags &&& setupNoSqarray ≠ 0 then array else array + sq * 4 := ⟨_, rfl⟩
  have hringLe : array.toNat ≤ ringBytes.toNat ∧ ringBytes.toNat ≤ array.toNat + sq.toNat * 4 ∧
      (flags &&& setupNoSqarray = 0 → ringBytes.toNat = array.toNat + sq.toNat * 4) := by
    by_cases hflag : flags &&& setupNoSqarray = 0
    · rw [hring, if_neg (not_not.mpr hflag), hindices]
      omega
    · rw [hring, if_pos hflag]
      exact ⟨le_refl _, by omega, fun h => absurd h hflag⟩
  have hpageSize : ringPage.toNat = 2 ^ 12 := rfl
  have hsqes := alignTo_spec ringBytes (k := 12) (by decide) hpageSize (by omega)
  have hrounded := alignTo_spec (sq * 64) (k := 12) (by decide) hpageSize (by omega)
  have htotal : (alignTo ringBytes ringPage + alignTo (sq * 64) ringPage).toNat =
      (alignTo ringBytes ringPage).toNat + (alignTo (sq * 64) ringPage).toNat :=
    UInt64.toNat_add_of_lt (by omega)
  have hpages :
      ((alignTo ringBytes ringPage + alignTo (sq * 64) ringPage) / ringPage).toNat * 4096 =
      (alignTo ringBytes ringPage).toNat + (alignTo (sq * 64) ringPage).toNat := by
    have hpage : ringPage.toNat = 4096 := rfl
    rw [UInt64.toNat_div, htotal, hpage]
    exact Nat.div_mul_cancel (Nat.dvd_add hsqes.2.2 hrounded.2.2)
  have hshape : layout sq cq flags = {
      pageCount := (alignTo ringBytes ringPage + alignTo (sq * 64) ringPage) / ringPage
      ringBytes := ringBytes
      sqesOffset := alignTo ringBytes ringPage
      sqesBytes := sq * 64
      sqEntries := sq.toUInt32
      cqEntries := cq.toUInt32
      setupFlags := flags
      opLimit := cq.toUInt32 * 16 } := by
    rw [hring]
    rfl
  rw [hshape]
  exact {
    sqEntries_pos := by show 0 < sq.toUInt32.toNat; omega
    sqEntries_le := by show sq.toUInt32.toNat ≤ _; omega
    cqEntries_pos := by show 0 < cq.toUInt32.toNat; omega
    cqEntries_le := by show cq.toUInt32.toNat ≤ _; omega
    array_dvd := Nat.dvd_trans (by decide) harray
    cqes_le := hcqes
    array_le := by show array.toNat ≤ (alignTo ringBytes ringPage).toNat; omega
    indices_le := by
      intro hflag
      have := hringLe.2.2 hflag
      show array.toNat + sq.toUInt32.toNat * 4 ≤ (alignTo ringBytes ringPage).toNat
      omega
    sqes_dvd := Nat.dvd_trans (by decide) hsqes.2.2
    sqes_le := by
      show (alignTo ringBytes ringPage).toNat + sq.toUInt32.toNat * 64 ≤ _ * 4096
      rw [hpages]
      omega
    sqes_lt := by show (alignTo ringBytes ringPage).toNat < _; omega }

/-- Rounding from a power of two on ends at one that is not above a power of two above the value. -/
theorem roundPow2From_spec {value : UInt64} {n : Nat} (hn : n < 64) (hvalue : value.toNat ≤ 2 ^ n) :
    ∀ (turns i : Nat) (result : UInt64), result.toNat = 2 ^ i → i ≤ n → n < i + turns →
      ∃ r, roundPow2From value turns result = some r ∧ ∃ j, j ≤ n ∧ r.toNat = 2 ^ j := by
  intro turns
  induction turns with
  | zero => intro i result _ hle hlt; omega
  | succ turns ih =>
    intro i result hresult hle hlt
    unfold roundPow2From
    split
    · next hless =>
      have hlt' : 2 ^ i < 2 ^ n := by
        rw [UInt64.lt_iff_toNat_lt] at hless
        omega
      have hin : i < n := (Nat.pow_lt_pow_iff_right (by decide)).mp hlt'
      have hdouble : (result <<< 1).toNat = 2 ^ (i + 1) := by
        have hpow : 2 ^ (i + 1) < 2 ^ 64 := Nat.pow_lt_pow_right (by decide) (by omega)
        have hone : (1 : UInt64).toNat % 64 = 1 := rfl
        rw [UInt64.toNat_shiftLeft, hresult, hone, Nat.shiftLeft_eq, ← pow_succ,
          Nat.mod_eq_of_lt hpow]
      exact ih (i + 1) (result <<< 1) hdouble hin (by omega)
    · exact ⟨result, rfl, i, hle, hresult⟩

private theorem roundPow2_spec {value : UInt64} {n : Nat} (hn : n < 64)
    (hvalue : value.toNat ≤ 2 ^ n) :
    ∃ r, roundPow2 value = some r ∧ ∃ j, j ≤ n ∧ r.toNat = 2 ^ j :=
  roundPow2From_spec hn hvalue 65 0 1 rfl (Nat.zero_le n) (by omega)

private theorem submissionEntries_le {entries flags e : UInt32}
    (h : submissionEntries entries flags = .ok e) :
    e.toNat ≤ 2 ^ 15 := by
  unfold submissionEntries at h
  split_ifs at h with hzero hbig hclamp
  · cases h
    decide
  · cases h
    exact not_lt.mp fun hlt => hbig (lt_iff_toNat_lt.mpr hlt)

private theorem completionEntries_le {params : Params} {e : UInt64}
    (h : completionEntries params = .ok e) :
    e.toNat ≤ 2 ^ 16 := by
  unfold completionEntries at h
  split_ifs at h with hzero hbig hclamp
  · cases h
    decide
  · cases h
    exact not_lt.mp fun hlt => hbig (lt_iff_toNat_lt.mpr hlt)

/-- The bounds of a power of two. -/
theorem bounds_of_pow {a n j : Nat} (hj : j ≤ n) (ha : a = 2 ^ j) : 0 < a ∧ a ≤ 2 ^ n := by
  rw [ha]
  exact ⟨Nat.two_pow_pos j, Nat.pow_le_pow_right (by decide) hj⟩

/-- The sizes are found, and they are powers of two in the bounds. -/
theorem ringEntries_spec (entries : UInt32) (params : Params) :
    ∃ r, ringEntries entries params = some r ∧ ∀ sq cq, r = .ok (sq, cq) →
      (∃ i, i ≤ 15 ∧ sq.toNat = 2 ^ i) ∧ (∃ j, j ≤ 16 ∧ cq.toNat = 2 ^ j) := by
  unfold ringEntries
  dsimp only
  split
  · exact ⟨_, rfl, nofun⟩
  split
  · exact ⟨_, rfl, nofun⟩
  split
  · exact ⟨_, rfl, nofun⟩
  cases hsubmission : submissionEntries entries params.flags with
  | error e => exact ⟨_, rfl, nofun⟩
  | ok e =>
    have hasked : e.toUInt64.toNat ≤ 2 ^ 15 := by
      exact submissionEntries_le hsubmission
    obtain ⟨sq, hsq, i, hi, hpow⟩ := roundPow2_spec (by decide) hasked
    simp only [hsq, Option.bind_some]
    split
    · refine ⟨_, rfl, fun a b h => ?_⟩
      cases h
      have htwo : (2 : UInt64).toNat = 2 := rfl
      have hle := (bounds_of_pow hi hpow).2
      refine ⟨⟨i, hi, hpow⟩, i + 1, by omega, ?_⟩
      have hdouble : 2 ^ (i + 1) = sq.toNat * 2 := by rw [hpow, pow_succ]
      rw [toNat_mul, htwo, hdouble]
      omega
    cases hcompletion : completionEntries params with
    | error e => exact ⟨_, rfl, nofun⟩
    | ok asked =>
      obtain ⟨cq, hcq, j, hj, hcpow⟩ :=
        roundPow2_spec (n := 16) (by decide) (completionEntries_le hcompletion)
      simp only [hcq, Option.map_some]
      split
      · exact ⟨_, rfl, nofun⟩
      refine ⟨_, rfl, fun a b h => ?_⟩
      cases h
      exact ⟨⟨i, hi, hpow⟩, j, hj, hcpow⟩

/-! ## Accesses -/

/-- An aligned field inside the ring lies in one page. -/
theorem holds_atOffset {offset : UInt64} {size a : Nat} (hpage : a ∣ 4096)
    (hoffset : a ∣ offset.toNat)
    (hsize : size ≤ a) (hend : offset.toNat + size ≤ shape.pageCount.toNat * 4096)
    (hpos : 0 < size) :
    shape.Holds (atOffset offset) size := by
  have hring : ringPage.toNat = 4096 := rfl
  constructor
  · show offset / ringPage < shape.pageCount
    rw [UInt64.lt_iff_toNat_lt, UInt64.toNat_div, hring]
    omega
  · -- An aligned part does not cross the end of a page.
    show (offset % ringPage).toNat + size ≤ ringPage.toNat
    rw [UInt64.toNat_mod, hring]
    have hmod : a ∣ offset.toNat % 4096 := (Nat.dvd_mod_iff hpage).mpr hoffset
    have hroom : a ≤ 4096 - offset.toNat % 4096 := Nat.le_of_dvd (by omega) (Nat.dvd_sub hpage hmod)
    omega

/-- A part of what is held is held. -/
theorem Shape.Holds.part {p : Pointer} {size : Nat} (h : shape.Holds p size) (d : Nat) {n : Nat}
    (hd : d + n ≤ size) : shape.Holds ⟨p.page, p.offset + UInt64.ofNat d⟩ n := by
  obtain ⟨hpage, hoffset⟩ := h
  refine ⟨hpage, ?_⟩
  have hring : ringPage.toNat = 4096 := rfl
  show (p.offset + UInt64.ofNat d).toNat + n ≤ ringPage.toNat
  rw [toNat_add, UInt64.toNat_ofNat', hring]
  omega

/-- The fields of the header are in the ring. -/
theorem Shape.Sized.holds_field (hs : shape.Sized) {offset : UInt32} (hoffset : 4 ∣ offset.toNat)
    (hle : offset.toNat < 128) : shape.Holds (field offset) 4 := by
  have hcq := hs.cqes_le
  have harray := hs.array_le
  have hsqes := hs.sqes_le
  refine holds_atOffset (a := 4) (by decide) (by rwa [toNat_toUInt64]) (le_refl _) ?_ (by decide)
  rw [toNat_toUInt64]
  omega

/-- A masked index is below the number of entries. -/
theorem and_pred_lt (i : UInt32) {entries : UInt32} (h : 0 < entries.toNat) :
    (i &&& (entries - 1)).toNat < entries.toNat := by
  have hone : (1 : UInt32).toNat = 1 := rfl
  have hle : (i &&& (entries - 1)).toNat ≤ (entries - 1).toNat := by
    exact Nat.and_le_right
  rw [UInt32.toNat_sub, hone] at hle
  omega

/-- The offset of an entry of a table. -/
theorem toNat_entry {base : UInt64} (index : UInt32) {size : Nat} (hsize : size ≤ 64)
    (hbase : base.toNat < 2 ^ 32) :
    (base + index.toUInt64 * UInt64.ofNat size).toNat = base.toNat + index.toNat * size := by
  have hindex := index.toNat_lt
  have hmul : index.toNat * size ≤ 2 ^ 32 * 64 := Nat.mul_le_mul (le_of_lt hindex) hsize
  rw [toNat_add, toNat_mul, toNat_toUInt64, UInt64.toNat_ofNat',
    Nat.mod_eq_of_lt (a := size) (by omega)]
  omega

/-- The index array is in the ring. -/
theorem Shape.Sized.holds_index (hs : shape.Sized) (hflag : shape.setupFlags &&& setupNoSqarray = 0)
    (head : UInt32) : shape.Holds (atOffset (arrayOffset shape.cqEntries +
      (head &&& (shape.sqEntries - 1)).toUInt64 * 4)) 4 := by
  have hlt := and_pred_lt head hs.sqEntries_pos
  have hbase := hs.array_le
  have hend := hs.indices_le hflag
  have hsqes := hs.sqes_le
  have hsmall := lt_of_le_of_lt hbase hs.sqes_lt
  have hoffset := toNat_entry (head &&& (shape.sqEntries - 1)) (by decide : 4 ≤ 64) hsmall
  apply holds_atOffset (a := 4) (by decide) ?_ (le_refl _) ?_ (by decide)
  · erw [hoffset]
    exact Nat.dvd_add hs.array_dvd (Nat.dvd_mul_left _ _)
  · erw [hoffset]
    omega

/-- The submissions are in the ring. -/
theorem Shape.Sized.holds_sqe (hs : shape.Sized) {index : UInt32}
    (hindex : index < shape.sqEntries) :
    shape.Holds (atOffset (shape.sqesOffset + index.toUInt64 * 64)) 64 := by
  have hlt := lt_iff_toNat_lt.mp hindex
  have hsqes := hs.sqes_le
  have hoffset := toNat_entry index (by decide : 64 ≤ 64) hs.sqes_lt
  apply holds_atOffset (a := 64) (by decide) ?_ (le_refl _) ?_ (by decide)
  · erw [hoffset]
    exact Nat.dvd_add hs.sqes_dvd (Nat.dvd_mul_left _ _)
  · erw [hoffset]
    omega

/-- The completions are in the ring. -/
theorem Shape.Sized.holds_cqe (hs : shape.Sized) (tail : UInt32) :
    shape.Holds (atOffset (cqCqes.toUInt64 + (tail &&& (shape.cqEntries - 1)).toUInt64 * 16))
      16 := by
  have hlt := and_pred_lt tail hs.cqEntries_pos
  have hcqes := hs.cqes_le
  have harray := hs.array_le
  have hsqes := hs.sqes_le
  have hbase : cqCqes.toUInt64.toNat = 128 := rfl
  have hsmall : cqCqes.toUInt64.toNat < 2 ^ 32 := by decide
  have hoffset := toNat_entry (tail &&& (shape.cqEntries - 1)) (by decide : 16 ≤ 64) hsmall
  apply holds_atOffset (a := 16) (by decide) ?_ (le_refl _) ?_ (by decide)
  · erw [hoffset]
    exact Nat.dvd_add (by decide) (Nat.dvd_mul_left _ _)
  · erw [hoffset]
    omega

end Tunix.IoUring
