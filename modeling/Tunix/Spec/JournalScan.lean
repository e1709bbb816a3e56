import Tunix.Spec.JournalReplay

/-!
# Scanning a log without a commit block

A log of ordinary size, and what the scan makes of one in which no transaction `N` is complete:
it ends at `N`, whatever else the log holds (`walkLog_scan_stale`). The walk may go over
descriptors of an unfinished transaction and over anything that lies behind them, but it never
leaves the log area and never fails.
-/

namespace Tunix.Jbd2

open Bytes

/-! ## The log area -/

/-- A position of the log area. -/
def InArea (j : Layout) (position : Nat) : Prop := j.first ≤ position ∧ position < j.last

section Area

variable {j : Layout} (h : Opened j)

include h

/-- Before the end of the area, positions are counted up. -/
theorem Opened.iterate_eq {i : Nat} (hi : j.first + i < j.last) :
    (step j)^[i] j.first = j.first + i := by
  have h1 := h.last_le
  have h2 := h.maxlen_lt
  induction i with
  | zero => rfl
  | succ i ih =>
    rw [Function.iterate_succ_apply', ih (by omega)]
    unfold step
    rw [Nat.mod_eq_of_lt (by omega), if_neg (by omega)]
    omega

/-- As many positions as the area has are different ones. -/
theorem Opened.positions_nodup {n : Nat} (hn : j.first + n ≤ j.last) : (positions j n).Nodup := by
  rw [positions_nodup_iff]
  intro i k hik hk
  rw [h.iterate_eq (by omega), h.iterate_eq (by omega)]
  omega

variable (hlt : j.first < j.last)

include hlt

/-- A step stays in the area. -/
theorem Opened.step_inArea {position : Nat} (hp : InArea j position) :
    InArea j (step j position) := by
  have h1 := h.last_le
  have h2 := h.maxlen_lt
  obtain ⟨h3, h4⟩ := hp
  unfold InArea step
  dsimp only
  split_ifs <;> omega

/-- Every position is in the area. -/
theorem Opened.iterate_inArea (i : Nat) : InArea j ((step j)^[i] j.first) := by
  induction i with
  | zero => exact ⟨le_refl _, hlt⟩
  | succ i ih => rw [Function.iterate_succ_apply']; exact h.step_inArea hlt ih

end Area

/-! ## Logs of ordinary size -/

/-- The 32-bit arithmetic on log positions does not overflow: the log area starts before it ends,
    and is not within one descriptor of `2 ^ 32` blocks. -/
structure Ordinary (j : Layout) : Prop extends Opened j where
  first_lt_last : j.first < j.last
  last_small : j.last + 512 < 2 ^ 32

variable {j : Layout} {entries : List Entry}

/-- The area is not empty. -/
theorem Ordinary.first_inArea {j : Layout} (h : Ordinary j) :
    InArea j j.first := ⟨le_refl _, h.first_lt_last⟩

/-- Every position is in the area of an ordinary journal. -/
theorem Ordinary.iterate_inArea (h : Ordinary j) (i : Nat) :
    InArea j ((step j)^[i] j.first) := h.toOpened.iterate_inArea h.first_lt_last i

private theorem Ordinary.logRead (h : Ordinary j) {position : Nat} (hp : InArea j position)
    (read : UInt64 → Block) : ∃ block, logRead j read position = some block := by
  obtain ⟨disk, hloc⟩ := h.located position (lt_of_lt_of_le hp.2 h.last_le)
  exact ⟨read disk, by simp [Jbd2.logRead, hloc]⟩

/-! ## Transactions within the capacity -/

private theorem splitBatches_length {n : Nat} (hn : 0 < n) (fuel : Nat) :
    (splitBatches n fuel entries).length * n < entries.length + n := by
  induction fuel generalizing entries with
  | zero => simp [splitBatches]; omega
  | succ fuel ih =>
    rw [splitBatches]
    split_ifs with hnil
    · simp [hn]
    have hrest := @ih (entries.drop n)
    have hpos := List.length_pos_iff.mpr hnil
    rw [List.length_drop] at hrest
    rw [List.length_cons, Nat.succ_mul]
    by_cases hle : n ≤ entries.length
    · omega
    -- the last batch
    have hlt : (splitBatches n fuel (entries.drop n)).length * n < 1 * n := by omega
    have hzero := Nat.lt_of_mul_lt_mul_right hlt
    rw [Nat.lt_one_iff.mp hzero]
    omega

private theorem batchesBlocks_length (j : Layout) (sequence : UInt32)
    (batches : List (List Entry)) :
    (batchesBlocks j sequence batches).length = batches.flatten.length + batches.length := by
  induction batches with
  | nil => rfl
  | cons batch batches ih =>
    have hsplit : batchesBlocks j sequence (batch :: batches) =
        batchBlocks j sequence batch ++ batchesBlocks j sequence batches := by simp [batchesBlocks]
    rw [hsplit, List.length_append, batchBlocks_length, ih, List.flatten_cons, List.length_append,
      List.length_cons]
    omega

/-- `usable - ceil(usable / (tags + 1))` entries and their descriptors take `usable` blocks. -/
private theorem capacity_fits {n b t u : Nat} (hb : b * t < n + t)
    (hn : n ≤ u - (u + t) / (t + 1)) : n + b ≤ u := by
  have hdiv := Nat.div_add_mod (u + t) (t + 1)
  have hmod : (u + t) % (t + 1) < t + 1 := Nat.mod_lt _ (by omega)
  generalize (u + t) / (t + 1) = c at hn hdiv
  have hexpand : (t + 1) * c = c * t + c := by rw [Nat.succ_mul, mul_comm]
  have hlt : b * t < (c + 1) * t := by
    rw [Nat.succ_mul]
    omega
  have hbc := Nat.lt_of_mul_lt_mul_right hlt
  by_cases hcu : c ≤ u
  · omega
  have hc0 : 0 < c := by omega
  have hct : t ≤ c * t := Nat.le_mul_of_pos_left t hc0
  omega

private theorem capacity_quotient_le (u t : Nat) : (u + t) / (t + 1) ≤ u := by
  rcases Nat.eq_zero_or_pos u with rfl | hpos
  · rw [zero_add, Nat.div_eq_of_lt (Nat.lt_succ_self t)]
  apply Nat.div_le_of_le_mul
  have hle : t ≤ t * u := Nat.le_mul_of_pos_right t hpos
  rw [Nat.succ_mul]
  omega

/-- A descriptor block has at most 512 tags. -/
theorem tagsPerDescriptor_le (h : Opened j) : tagsPerDescriptor j ≤ 512 := by
  have hb := (tagBytes_bounds j).1
  have hle := h.blockSize_le
  simp only [maxBlockSize] at hle
  calc tagsPerDescriptor j ≤ (j.blockSize - headerBytes - tailBytes j) / 8 :=
    Nat.div_le_div_left hb (by omega)
    _ ≤ 512 := by omega

/-- The blocks of a transaction: its data, its descriptors and the commit block. -/
theorem transactionLength_eq (hbs : 1024 ≤ j.blockSize) (sequence : UInt32)
    (entries : List Entry) : transactionLength j sequence entries =
      entries.length + (batchesOf j entries).length + 1 := by
  have hflat := congrArg List.length (batchesOf_flatten hbs entries)
  rw [transactionLength, logBlocks, batchesBlocks_length, hflat]

/-- The quotient in the capacity, in 32-bit words. -/
theorem journalCapacity_eq (h : Opened j) (hlt : j.first < j.last) :
    journalCapacity j = j.last - j.first - 2 -
      (j.last - j.first - 2 + tagsPerDescriptor j) % 2 ^ 32 / (tagsPerDescriptor j + 1) := by
  have h1 := h.last_le
  have h2 := h.maxlen_lt
  have hspace : (j.last + 2 ^ 32 - j.first) % 2 ^ 32 = j.last - j.first := by
    rw [show j.last + 2 ^ 32 - j.first = j.last - j.first + 2 ^ 32 by omega, Nat.add_mod_right]
    exact Nat.mod_eq_of_lt (by omega)
  have husable : (if j.last - j.first > 2 then j.last - j.first - 2 else 0) =
      j.last - j.first - 2 := by split_ifs <;> omega
  have hquot := le_trans (Nat.div_le_div_right (Nat.mod_le _ (2 ^ 32)))
    (capacity_quotient_le (j.last - j.first - 2) (tagsPerDescriptor j))
  unfold journalCapacity
  dsimp only
  rw [hspace, husable]
  generalize (j.last - j.first - 2 + tagsPerDescriptor j) % 2 ^ 32 / (tagsPerDescriptor j + 1) = q
    at hquot
  omega

/-- The entries of a transaction within the capacity and their descriptors leave two blocks of the
    log area free. -/
theorem capacity_room (h : Opened j) (hlt : j.first < j.last)
    (hwrap : j.last - j.first - 2 + tagsPerDescriptor j < 2 ^ 32)
    (hcap : entries.length ≤ journalCapacity j) :
    entries.length + (batchesOf j entries).length ≤ j.last - j.first - 2 := by
  rw [journalCapacity_eq h hlt, Nat.mod_eq_of_lt hwrap] at hcap
  exact capacity_fits (splitBatches_length (tagsPerDescriptor_pos h.blockSize_ge) _) hcap

/-- A transaction within the capacity leaves a block of the log area free behind it. -/
theorem transactionLength_lt (h : Ordinary j) (sequence : UInt32)
    (hcap : entries.length ≤ journalCapacity j) :
    j.first + transactionLength j sequence entries < j.last := by
  have hroom := h.room
  have h1 := h.first_lt_last
  have h2 := h.last_small
  have htags := tagsPerDescriptor_le h.toOpened
  have hfits := capacity_room h.toOpened h1 (by omega) hcap
  rw [transactionLength_eq h.blockSize_ge]
  omega

/-! ## Stale logs -/

/-- Every header in the log area is older than `sequence`, or is a descriptor of it. -/
def Stale (j : Layout) (read : UInt64 → Block) (sequence : UInt32) : Prop :=
  ∀ position, InArea j position → ∀ block, logRead j read position = some block →
    loadBe32 block 0 = magic →
      (loadBe32 block 8).toNat < sequence.toNat ∨ Header block descriptorBlockType sequence

/-- The tag loop of a scan never fails and stays in the log area. -/
theorem walkTags_scan {s : State} (h : Ordinary s.journal) (work : Block) (limit : Nat)
    (fuel off tags : Nat) (w : Walk) (hp : InArea s.journal w.position) :
    ∃ tags' w', walkTags .scan work limit fuel off tags w s = (some (tags', w'), s) ∧
      w'.sequence = w.sequence ∧ InArea s.journal w'.position ∧ tags ≤ tags' ∧
      (0 < fuel → off + tagBytes s.journal ≤ limit → tags < tags') := by
  induction fuel generalizing off tags w with
  | zero => exact ⟨tags, w, rfl, rfl, hp, le_refl _, fun h0 => absurd h0 (by omega)⟩
  | succ fuel ih =>
    rw [walkTags]
    by_cases hfit : off + tagBytes s.journal ≤ limit
    swap
    · rw [if_neg hfit]
      exact ⟨tags, w, rfl, rfl, hp, le_refl _, fun _ hf => absurd hf hfit⟩
    obtain ⟨block, hread⟩ := h.logRead hp s.dev.read
    obtain ⟨checksum, hsum⟩ : ∃ checksum, (if Pass.scan = .scan ∧ sumV1 s.journal then
        (logRead s.journal s.dev.read w.position).map fun scratch =>
          Crc.crc32Be w.checksum scratch s.journal.blockSize
      else some w.checksum) = some checksum := by
      rw [hread]
      split_ifs
      · exact ⟨_, rfl⟩
      · exact ⟨_, rfl⟩
    rw [if_pos hfit]
    rw [hsum]
    by_cases hlast : (readTag s.journal work off).flags &&& flagLastTag = 0
    · obtain ⟨tags', w', hrun, hseq, harea, hle, -⟩ := ih
        (off + tagSize s.journal (readTag s.journal work off)) (tags + 1)
        ⟨step s.journal w.position, w.sequence, checksum⟩
          (h.toOpened.step_inArea h.first_lt_last hp)
      simp only [hlast, ne_eq, not_true, if_false]
      exact ⟨tags', w', hrun, hseq, harea, by omega, fun _ _ => by omega⟩
    · simp only [hlast, ne_eq, not_false_eq_true, if_true]
      exact ⟨_, _, rfl, rfl, h.toOpened.step_inArea h.first_lt_last hp, by omega,
        fun _ _ => by omega⟩

/-- A scan of a stale log comes to no commit block of its transaction. -/
theorem walkBlocks_scan_stale {s : State} (h : Ordinary s.journal) {sequence : UInt32}
    (hstale : Stale s.journal s.dev.read sequence) (stop : UInt32) (guard : Nat) (w : Walk)
    (hp : InArea s.journal w.position) (hseq : w.sequence = sequence) :
    ∃ w', walkBlocks .scan stop guard w s = (some w', s) ∧ w'.sequence = sequence := by
  induction guard generalizing w with
  | zero => exact ⟨w, rfl, hseq⟩
  | succ guard ih =>
    obtain ⟨work, hread⟩ := h.logRead hp s.dev.read
    rw [walkBlocks, if_neg (by simp), hread]
    dsimp only
    split
    · exact ⟨w, rfl, hseq⟩
    next hend =>
    push Not at hend
    -- a header of this sequence is a descriptor
    have hdesc : Header work descriptorBlockType sequence := by
      rcases hstale _ hp work hread hend.1 with hlt | hhdr
      · rw [hend.2, hseq] at hlt
        exact absurd hlt (lt_irrefl _)
      · exact hhdr
    have hcommit : loadBe32 work 4 ≠ commitBlockType := by rw [hdesc.type]; decide
    have hrevoke : loadBe32 work 4 ≠ revokeBlockType := by rw [hdesc.type]; decide
    rw [if_neg hcommit, if_neg hrevoke, if_neg (not_not_intro hdesc.type)]
    split
    · exact ⟨w, rfl, hseq⟩
    obtain ⟨tags, w', hrun, hseq', harea, -, hpos⟩ := walkTags_scan h work
      (s.journal.blockSize - tailBytes s.journal) s.journal.blockSize headerBytes 0
      ⟨step s.journal w.position, w.sequence, if sumV1 s.journal ∧ Pass.scan = .scan then
        Crc.crc32Be w.checksum work s.journal.blockSize else w.checksum⟩
          (h.toOpened.step_inArea h.first_lt_last hp)
    have htags : tags ≠ 0 := by
      have hbs := h.blockSize_ge
      have hfits := batch_fits (tagsPerDescriptor_pos hbs) hbs
      omega
    rw [hrun]
    simp only [htags, if_false]
    exact ih w' harea (hseq'.trans hseq)

/-- **A stale log is empty to the scan**: it ends at the sequence it starts with. -/
theorem walkLog_scan_stale {s : State} (h : Ordinary s.journal)
    (hstale : Stale s.journal s.dev.read s.journal.sequence)
    (hstart : InArea s.journal s.journal.start.toNat) (stop : UInt32) :
    walkLog .scan stop s = (some s.journal.sequence, s) := by
  obtain ⟨w, hrun, hseq⟩ := walkBlocks_scan_stale h hstale stop ((s.journal.last + 1) % 2 ^ 32)
    ⟨s.journal.start.toNat, s.journal.sequence, 0xFFFFFFFF⟩ hstart rfl
  unfold walkLog
  rw [hrun]
  simp [hseq]

end Tunix.Jbd2
