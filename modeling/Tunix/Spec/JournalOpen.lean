import Tunix.Spec.JournalCodec

/-!
# Opening a journal

`journalOpen_iff` takes `jbd2_journal_open` apart: what it reads from the superblock
(`Superblock`) and what it demands of the geometry (`Geometry`). The superblocks that
`write_journal_superblock` writes are again superblocks of the same layout
(`updateSuperblock_superblock`), so a journal that was opened once opens again after any of
its transactions.
-/

namespace Tunix.Jbd2

open Bytes Crc Option

variable {work : Block} {l : Layout} {sequence : UInt32}

/-- A journal superblock for the given layout, start of the log and sequence number. -/
structure Superblock (work : Block) (l : Layout) (start sequence : UInt32) : Prop where
  magic : loadBe32 work 0 = magic
  type : loadBe32 work 4 = superblockV1 ∨ loadBe32 work 4 = superblockV2
  blockSize : (loadBe32 work 12).toNat = l.blockSize
  features : readFeatures work = some (l.compat, l.incompat)
  seed : crc32c 0xFFFFFFFF (readUuid work) uuidBytes = l.csumSeed
  maxlen : (loadBe32 work 16).toNat = l.maxlen
  first : (loadBe32 work 20).toNat = l.first
  last : readLast work l.incompat l.maxlen = some l.last
  sequence : loadBe32 work 24 = sequence
  start : loadBe32 work 28 = start

/-- The geometry `jbd2_journal_open` accepts. -/
structure Geometry (l : Layout) : Prop where
  blockSize : ¬(l.blockSize < 1024 ∨ l.blockSize > maxBlockSize)
  room : ¬(l.last < 8 ∨ l.first = 0 ∨ (l.first + 4) % 2 ^ 32 ≥ l.last)
  mapsAll : mapsAll l.map l.maxlen = true
  mapped : l.mapped = fun index => (l.map index).getD 0
  mappedCount : l.mappedCount = l.maxlen

/-- A journal as `jbd2_journal_open` hands it out. -/
def openedJournal (l : Layout) (start sequence : UInt32) : Journal where
  toLayout := l
  busy := false
  sequence := if sequence = 0 then 1 else sequence
  start := start
  fastCommitPending := false
  openForWrites := false
  gather := []
  gatherStart := 0
  revokes := fun _ => ⟨0, 0⟩
  revokeCount := 0
  revokeCapacity := 0

/-- A journal opens exactly with the layout its superblock describes. -/
theorem journalOpen_iff {map : Nat → Option UInt64} {read : UInt64 → Block}
    {blockSize : Nat} {j : Journal} :
    journalOpen map read blockSize = some j ↔ ∃ home start sequence, map 0 = some home ∧ home ≠ 0 ∧
        Superblock (read home) j.toLayout start sequence ∧ Geometry j.toLayout ∧
        j.map = map ∧ j.blockSize = blockSize ∧ j = openedJournal j.toLayout start sequence := by
  constructor
  · intro h
    simp only [journalOpen, bind_eq_bind, bind_eq_some_iff, guard_eq_some', pure_def, some.injEq,
      exists_const] at h
    obtain ⟨hbs, home, hmap, hhome, hmagic, htype, hsize, ⟨compat, incompat⟩, hfeat, last, hlast,
      hroom, hall, rfl⟩ := h
    exact ⟨home, _, _, hmap, hhome,
      ⟨hmagic, htype, hsize, hfeat, rfl, rfl, rfl, hlast, rfl, rfl⟩, ⟨hbs, hroom, hall, rfl, rfl⟩,
      rfl, rfl, rfl⟩
  · rintro ⟨home, start, sequence, hmap, hhome, hsb, hgeo, rfl, rfl, hj⟩
    have hrec : openedJournal j.toLayout start sequence = j := hj.symm
    simp only [journalOpen, bind_eq_bind, bind_eq_some_iff, guard_eq_some', pure_def,
      some.injEq, exists_const]
    refine ⟨hgeo.blockSize, home, hmap, hhome, hsb.magic, hsb.type, hsb.blockSize, _, hsb.features,
      j.last, ?_, ?_, ?_, ?_⟩
    · rw [hsb.maxlen]; exact hsb.last
    · rw [hsb.first]; exact hgeo.room
    · rw [hsb.maxlen]; exact hgeo.mapsAll
    · rw [hsb.maxlen, hsb.first, hsb.sequence, hsb.start, hsb.seed, ← hgeo.mapped]
      nth_rewrite 2 [← hgeo.mappedCount]
      exact hrec

/-! ## Opening again -/

/-- The state of a machine that has come up with the given device contents. -/
def reopened (r : Journal) (img : UInt64 → Block) : State where
  journal := r
  dev := { base := img, history := [], answers := [] }

/-- The journal that a superblock describes. -/
abbrev journalAt (l : Layout) (sequence : UInt32) : Journal :=
  openedJournal l (.ofNat l.first) sequence

/-- A device with the superblock of a layout opens as a journal with that layout. -/
theorem journalOpen_superblock {home : UInt64} {img : UInt64 → Block} (hgeo : Geometry l)
    (hhome : logLocate l 0 = some home) (hsb : Superblock (img home) l (.ofNat l.first) sequence) :
    journalOpen l.map img l.blockSize = some (journalAt l sequence) := by
  have hmap : l.map 0 = some home ∧ home ≠ 0 := by
    unfold logLocate at hhome
    rw [hgeo.mapped] at hhome
    cases hm : l.map 0 with
    | none => simp [hm] at hhome
    | some disk =>
      by_cases h0 : disk = 0
      · simp [hm, h0] at hhome
      · simp only [hm, Option.getD_some, h0, if_false, ite_self, Option.some.injEq] at hhome
        exact ⟨congrArg some hhome, hhome ▸ h0⟩
  exact journalOpen_iff.mpr ⟨home, _, _, hmap.1, hmap.2, hsb, hgeo, rfl, rfl, rfl⟩

/-- The sequence number of a journal that is opened, unless it is zero. -/
theorem journalAt_sequence (hseq : sequence ≠ 0) :
    (journalAt l sequence).sequence = sequence := if_neg hseq

/-! ## Facts about an opened journal -/

/-- What the later functions rely on. -/
structure Opened (j : Layout) : Prop where
  blockSize_ge : 1024 ≤ j.blockSize
  blockSize_le : j.blockSize ≤ maxBlockSize
  first_pos : 0 < j.first
  first_lt : j.first < 2 ^ 32
  room : (j.first + 4) % 2 ^ 32 < j.last
  last_le : j.last ≤ j.maxlen
  maxlen_lt : j.maxlen < 2 ^ 32
  located : ∀ position < j.maxlen, ∃ disk, logLocate j position = some disk

private theorem readLast_le {incompat : UInt32} {maxlen last : Nat}
    (h : readLast work incompat maxlen = some last) : last ≤ maxlen := by
  unfold readLast at h
  dsimp only at h
  split_ifs at h <;> simp only [some.injEq] at h <;> omega

private theorem Geometry.located (h : Geometry l) {position : Nat} (hp : position < l.maxlen) :
    ∃ disk, logLocate l position = some disk := by
  have hall := h.mapsAll
  simp only [Jbd2.mapsAll, List.all_eq_true, List.mem_range] at hall
  have hone := hall position hp
  cases hm : l.map position with
  | none => simp [hm] at hone
  | some disk =>
    have hne : disk ≠ 0 := by simpa [hm] using hone
    simp [logLocate, h.mappedCount, hp, h.mapped, hm, hne]

/-- A superblock of this shape gives a journal that can be used. -/
theorem Superblock.opened {start : UInt32} (h : Superblock work l start sequence)
    (hgeo : Geometry l) : Opened l where
  blockSize_ge := by have := hgeo.blockSize; omega
  blockSize_le := by have := hgeo.blockSize; omega
  first_pos := by have := hgeo.room; omega
  first_lt := by rw [← h.first]; exact (loadBe32 work 20).toNat_lt
  room := by have := hgeo.room; omega
  last_le := readLast_le h.last
  maxlen_lt := by rw [← h.maxlen]; exact (loadBe32 work 16).toNat_lt
  located := fun _ hp => hgeo.located hp

/-- What `jbd2_journal_open` accepts can be used. -/
theorem journalOpen_opened {map : Nat → Option UInt64} {read : UInt64 → Block} {blockSize : Nat}
    {j : Journal} (h : journalOpen map read blockSize = some j) : Opened j := by
  obtain ⟨home, start, sequence, -, -, hsb, hgeo, -⟩ := journalOpen_iff.mp h
  exact hsb.opened hgeo

/-! ## Rewriting the superblock -/

/-- A layout with other features that a superblock of `work`'s version can announce. -/
structure Refeatured (work : Block) (l₀ l : Layout) : Prop where
  same : l = { l₀ with compat := l.compat, incompat := l.incompat }
  known : loadBe32 work 4 = superblockV2 → l.incompat &&& ~~~incompatKnown = 0
  old : loadBe32 work 4 ≠ superblockV2 → l = l₀
  fastCommit : l.incompat &&& incompatFastCommit = l₀.incompat &&& incompatFastCommit

/-- The bytes `write_journal_superblock` leaves alone. -/
private theorem updateSuperblock_apply (l : Layout) (work : Block) (start sequence : UInt32)
    (i : Nat) (hi : i < 24 ∨ 32 ≤ i ∧ i < 36 ∨ 44 ≤ i ∧ i < 80 ∨ 81 ≤ i ∧ i < 252) :
    updateSuperblock l work start sequence i = work i := by
  have hbase : storeBe32 (storeBe32 work 24 sequence) 28 start i = work i := by
    rw [storeBe32_apply _ _ _ _ (by omega), storeBe32_apply _ _ _ _ (by omega)]
  have hfeat : storeBe32 (storeBe32 (storeBe32 (storeBe32 work 24 sequence) 28 start) 36 l.compat)
      40 l.incompat i = work i := by
    rw [storeBe32_apply _ _ _ _ (by omega), storeBe32_apply _ _ _ _ (by omega), hbase]
  unfold updateSuperblock
  split_ifs
  · unfold sealSuperblock
    split_ifs
    · exact hfeat
    rw [storeBe32_apply _ _ _ _ (by simp only [sbChecksumAt]; omega),
      storeBe32_apply _ _ _ _ (by simp only [sbChecksumAt]; omega),
      storeByte_apply _ _ _ _ (by omega), hfeat]
  · exact hbase

private theorem updateSuperblock_load (l : Layout) (work : Block) (start sequence : UInt32)
    (off : Nat) (hoff : off + 4 ≤ 24 ∨ 81 ≤ off ∧ off + 4 ≤ 252) :
    loadBe32 (updateSuperblock l work start sequence) off = loadBe32 work off :=
  loadBe32_congr fun i h1 h2 => updateSuperblock_apply l work start sequence i (by omega)

/-- A rewritten superblock announces the features of the journal and carries its checksum. -/
private theorem readFeatures_updateSuperblock {l₀ : Layout} (hf : Refeatured work l₀ l)
    (h₀ : readFeatures work = some (l₀.compat, l₀.incompat))
    (start sequence : UInt32) :
    readFeatures (updateSuperblock l work start sequence) = some (l.compat, l.incompat) := by
  have htype := updateSuperblock_load l work start sequence 4 (by omega)
  have hold : loadBe32 (storeBe32 (storeBe32 work 24 sequence) 28 start) 4 = loadBe32 work 4 := by
    rw [loadBe32_storeBe32_of_disjoint (by omega), loadBe32_storeBe32_of_disjoint (by omega)]
  by_cases hv2 : loadBe32 work 4 = superblockV2
  · have hknown := hf.known hv2
    unfold readFeatures
    rw [htype]
    unfold updateSuperblock sealSuperblock
    simp only [hold, hv2, if_true, ne_eq, not_true, if_false]
    by_cases hcsum : hasCsum l = true
    · simp [hcsum, hknown, sbChecksumAt, loadBe32_storeBe32_of_disjoint,
        loadBe32_storeByte_of_disjoint, storeBe32_apply, storeByte]
    · have hno : l.incompat &&& (incompatCsumV2 ||| incompatCsumV3) = 0 := by
        simpa [hasCsum] using hcsum
      simp [hcsum, hknown, hno, loadBe32_storeBe32_of_disjoint]
  · have h := hf.old hv2
    subst h
    unfold readFeatures at h₀ ⊢
    rw [htype]
    simpa [hv2] using h₀

/-- A rewritten superblock is one for the journal's layout with the new start and sequence. -/
theorem updateSuperblock_superblock {l₀ : Layout} {start₀ sequence₀ : UInt32}
    (h : Superblock work l₀ start₀ sequence₀) (hf : Refeatured work l₀ l)
    (start sequence : UInt32) :
    Superblock (updateSuperblock l work start sequence) l start sequence := by
  have hload := updateSuperblock_load l work start sequence
  have hsame := hf.same
  -- The two words that are set; the checksum is stored elsewhere.
  have hwords : loadBe32 (updateSuperblock l work start sequence) 24 = sequence ∧
      loadBe32 (updateSuperblock l work start sequence) 28 = start := by
    unfold updateSuperblock sealSuperblock
    dsimp only
    split_ifs <;>
      simp [sbChecksumAt, loadBe32_storeBe32_of_disjoint, loadBe32_storeByte_of_disjoint]
  refine ⟨?_, ?_, ?_, readFeatures_updateSuperblock hf h.features start sequence, ?_, ?_, ?_, ?_,
    hwords.1, hwords.2⟩
  · rw [hload 0 (by omega)]; exact h.magic
  · rw [hload 4 (by omega)]; exact h.type
  · rw [hload 12 (by omega), hsame]; exact h.blockSize
  · have huuid :
        Crc.crc32c 0xFFFFFFFF (readUuid (updateSuperblock l work start sequence)) uuidBytes =
        Crc.crc32c 0xFFFFFFFF (readUuid work) uuidBytes := by
      refine Crc.crc32c_congr fun i hi => ?_
      simp only [uuidBytes] at hi
      unfold readUuid
      rw [hload 4 (by omega)]
      split_ifs
      · exact updateSuperblock_apply l work start sequence _ (by omega)
      · rfl
    rw [huuid, hsame]
    exact h.seed
  · rw [hload 16 (by omega), hsame]; exact h.maxlen
  · rw [hload 20 (by omega), hsame]; exact h.first
  · have hlast := h.last
    unfold readLast at hlast ⊢
    rw [hload 84 (by omega), hf.fastCommit, hsame]
    exact hlast

/-- A superblock keeps its features. -/
theorem Refeatured.refl {start : UInt32} (h : Superblock work l start sequence) :
    Refeatured work l l where
  same := rfl
  known := fun hv2 => by
    have hfeat := h.features
    unfold readFeatures at hfeat
    dsimp only at hfeat
    split_ifs at hfeat with h1 h2
    · exact absurd hv2 h1
    simp only [some.injEq, Prod.mk.injEq] at hfeat
    rw [← hfeat.2]
    simpa using h2
  old := fun _ => rfl
  fastCommit := rfl

private theorem or_and_distrib (a b c : UInt32) : (a ||| b) &&& c = (a &&& c) ||| (b &&& c) := by
  apply UInt32.eq_of_toBitVec_eq
  simp [BitVec.and_or_distrib_right]

private theorem or_known {a b mask : UInt32} (hb : b &&& mask = 0) :
    (a ||| b) &&& mask = a &&& mask := by
  rw [or_and_distrib, hb, UInt32.or_zero]

private theorem and_known {a b mask : UInt32} (hb : b &&& mask = mask) :
    (a &&& b) &&& mask = a &&& mask := by
  rw [UInt32.and_assoc, hb]

private theorem and_clear {a mask : UInt32} (b : UInt32) (h : a &&& mask = 0) :
    (a &&& b) &&& mask = 0 := by
  rw [UInt32.and_comm a b, UInt32.and_assoc, h, UInt32.and_zero]

/-- `jbd2_journal_begin` asks for features that the superblock can announce. -/
theorem refeatured_wantFeatures {start : UInt32} (h : Superblock work l start sequence)
    (want64Bit wantCsum : Bool) :
    Refeatured work l (wantFeatures work want64Bit wantCsum l) := by
  have hrefl := Refeatured.refl h
  by_cases hv2 : loadBe32 work 4 = superblockV2
  swap
  · rw [wantFeatures, if_neg hv2]
    exact hrefl
  have hknown := hrefl.known hv2
  have h64 : incompat64Bit &&& ~~~incompatKnown = 0 := by decide
  have hv3 : incompatCsumV3 &&& ~~~incompatKnown = 0 := by decide
  rw [wantFeatures, if_pos hv2]
  refine ⟨?_, fun _ => ?_, fun hne => absurd hv2 hne, ?_⟩
  · cases want64Bit <;> cases wantCsum <;> rfl
  · cases want64Bit <;> cases wantCsum <;> simp only [if_true, Bool.false_eq_true, if_false]
    · exact hknown
    · rw [or_known hv3, and_clear _ hknown]
    · rw [or_known h64, hknown]
    · rw [or_known hv3, and_clear _ ((or_known h64).trans hknown)]
  · have hfc : ~~~incompatCsumV2 &&& incompatFastCommit = incompatFastCommit := by decide
    cases want64Bit <;> cases wantCsum <;> simp only [if_true, Bool.false_eq_true, if_false]
    · rw [or_known (by decide), and_known hfc]
    · rw [or_known (by decide)]
    · rw [or_known (by decide), and_known hfc, or_known (by decide)]

end Tunix.Jbd2
