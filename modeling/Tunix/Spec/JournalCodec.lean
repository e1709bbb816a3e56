import Tunix.Kernel.Jbd2
import Tunix.Spec.CrcLinear

/-!
# Log blocks: what is written is what is read

The writer's encodings against the reader's decodings, one kind of log block at a time: tags
(`readTag_putTag`), descriptors (`descriptor_tags`), images of data blocks
(`unescape_escaped`) and commit blocks (`commitValid_commitBlock`). The last section compares
the checksum in a tag with the one the reader takes of the image in the log.

## Key results

- `descriptor_tags`: the tags of a descriptor are those of its batch
- `blockSum_escaped_iff`: the reader's checksum of an image is the tag's one exactly when the
  block is not escaped
-/

namespace Tunix.Jbd2

open Bytes Crc

/-! ## Tags -/

/-- A target that fits into the tags of the journal. -/
def Representable (j : Layout) (target : UInt64) : Prop := has64Bit j = true ∨ target.toNat < 2 ^ 32

/-- A target as the tags of the journal hold it. -/
def heldTarget (j : Layout) (target : UInt64) : UInt64 :=
  if has64Bit j then target else target.toUInt32.toUInt64

/-- The checksum of a data block as the journal's tags hold it. -/
def blockSum (j : Layout) (sequence : UInt32) (data : Block) : UInt32 :=
  if hasCsumV3 j then dataCsum j sequence data else dataCsum j sequence data &&& 0xFFFF

/-- The tag written for a block, as the reader sees it. -/
def tagOf (j : Layout) (sequence : UInt32) (e : Entry) (last : Bool) : Tag where
  target := heldTarget j e.1
  flags := tagFlags e.2 last
  checksum := if hasCsum j then blockSum j sequence e.2 else 0

variable {j : Layout} (sequence : UInt32) (data block : Block) (last : Bool) (batch : List Entry)

private theorem hasCsum_of_hasCsumV3 {j : Layout} (h : hasCsumV3 j = true) : hasCsum j = true := by
  simp only [hasCsumV3, hasCsum, decide_eq_true_eq, ne_eq] at h ⊢
  intro h0
  apply h
  have h16 : incompatCsumV3 = (incompatCsumV2 ||| incompatCsumV3) &&& incompatCsumV3 := by decide
  rw [h16, ← UInt32.and_assoc, h0, UInt32.zero_and]

/-- The sizes a tag can have. -/
theorem tagBytes_bounds (j : Layout) : 8 ≤ tagBytes j ∧ tagBytes j ≤ 16 := by
  unfold tagBytes
  split_ifs <;> simp

private theorem tagBytes_of_csumV3 (h : hasCsumV3 j = true) : tagBytes j = 16 := by
  simp [tagBytes, h]

private theorem tagBytes_of_64Bit (h : has64Bit j = true) : 12 ≤ tagBytes j := by
  unfold tagBytes
  split_ifs <;> simp

private theorem low_half {v : UInt64} (h : v.toNat < 2 ^ 32) : v.toUInt32.toUInt64 = v := by
  apply UInt64.toNat.inj
  rw [UInt32.toNat_toUInt64, UInt64.toNat_toUInt32, Nat.mod_eq_of_lt h]

private theorem toUInt32_toUInt16 (v : UInt32) : v.toUInt16.toUInt32 = v &&& 0xFFFF := by
  apply UInt32.toNat.inj
  have h := Nat.and_two_pow_sub_one_eq_mod v.toNat 16
  simpa using h.symm

/-- `put_tag` writes inside its own bytes only. -/
theorem putTag_apply (j : Layout) (block : Block) (off i : Nat) (target : UInt64)
    (flags sequence : UInt32) (data : Block) (h : i < off ∨ off + tagBytes j ≤ i) :
    putTag j block off target flags sequence data i = block i := by
  have hb := tagBytes_bounds j
  by_cases hv3 : hasCsumV3 j = true
  · have h16 := tagBytes_of_csumV3 hv3
    simp only [putTag, hv3, if_true]
    rw [storeBe32_apply _ _ _ _ (by omega), storeBe32_apply _ _ _ _ (by omega),
      storeBe32_apply _ _ _ _ (by omega), storeBe32_apply _ _ _ _ (by omega)]
  by_cases h64 : has64Bit j = true
  · have h12 := tagBytes_of_64Bit h64
    simp only [putTag, hv3, h64, if_true]
    rw [if_neg Bool.false_ne_true, storeBe32_apply _ _ _ _ (by omega),
      storeBe16_apply _ _ _ _ (by omega), storeBe16_apply _ _ _ _ (by omega),
      storeBe32_apply _ _ _ _ (by omega)]
  · simp only [putTag, hv3, h64]
    rw [if_neg Bool.false_ne_true, if_neg Bool.false_ne_true, storeBe16_apply _ _ _ _ (by omega),
      storeBe16_apply _ _ _ _ (by omega), storeBe32_apply _ _ _ _ (by omega)]

/-- `read_tag` looks at the bytes of its tag only. -/
theorem readTag_congr {b c : Block} {off : Nat}
    (h : ∀ i, off ≤ i → i < off + tagBytes j → b i = c i) : readTag j b off = readTag j c off := by
  have hb := tagBytes_bounds j
  have htarget : (readTag j b off).target = (readTag j c off).target := by
    have hlow : loadBe32 b off = loadBe32 c off := loadBe32_congr fun i h1 h2 => h i h1 (by omega)
    simp only [readTag, hlow]
    split_ifs with h64
    · have := tagBytes_of_64Bit h64
      have hhigh : loadBe32 b (off + 8) = loadBe32 c (off + 8) :=
        loadBe32_congr fun i h1 h2 => h i (by omega) (by omega)
      rw [hhigh]
    · rfl
  have hrest : (readTag j b off).flags = (readTag j c off).flags ∧
      (readTag j b off).checksum = (readTag j c off).checksum := by
    simp only [readTag]
    split_ifs with hv3
    · have h16 := tagBytes_of_csumV3 hv3
      exact ⟨loadBe32_congr fun i h1 h2 => h i (by omega) (by omega),
        loadBe32_congr fun i h1 h2 => h i (by omega) (by omega)⟩
    · exact ⟨congrArg _ (loadBe16_congr fun i h1 h2 => h i (by omega) (by omega)),
        congrArg _ (loadBe16_congr fun i h1 h2 => h i (by omega) (by omega))⟩
  exact Tag.ext htarget hrest.1 hrest.2

private theorem tagFlags_toUInt16 :
    (tagFlags data last).toUInt16.toUInt32 = tagFlags data last := by
  unfold tagFlags
  split_ifs <;> decide

/-- A tag is read back as it was put. -/
theorem readTag_putTag (j : Layout) (block : Block) (off : Nat) (sequence : UInt32)
    (e : Entry) (last : Bool) :
    readTag j (putTag j block off e.1 (tagFlags e.2 last) sequence e.2) off =
      tagOf j sequence e last := by
  have hjoin := halves_roundtrip e.1
  have hflags := tagFlags_toUInt16 e.2 last
  have hsum := toUInt32_toUInt16 (dataCsum j sequence e.2)
  -- `simp` turns the narrowing conversions into remainders, here and in the goals below
  simp only [UInt64.toUInt64_toUInt32, UInt32.toUInt32_toUInt16] at hjoin hflags hsum
  unfold putTag readTag tagOf blockSum heldTarget
  by_cases hv3 : hasCsumV3 j = true
  · have hcsum := hasCsum_of_hasCsumV3 hv3
    by_cases h64 : has64Bit j = true
    · simp [hv3, h64, hcsum, loadBe32_storeBe32_of_disjoint, hjoin]
    · simp [hv3, h64, hcsum, loadBe32_storeBe32_of_disjoint]
  · by_cases h64 : has64Bit j = true
    · by_cases hcsum : hasCsum j = true <;>
        simp [hv3, h64, hcsum, loadBe32_storeBe32_of_disjoint, loadBe32_storeBe16_of_disjoint,
          loadBe16_storeBe16_of_disjoint, loadBe16_storeBe32_of_disjoint, hjoin, hflags, hsum]
    · by_cases hcsum : hasCsum j = true <;>
        simp [hv3, h64, hcsum, loadBe32_storeBe16_of_disjoint,
          loadBe16_storeBe16_of_disjoint, hflags, hsum]

/-- A block number that the tag has room for is read back. -/
theorem heldTarget_eq {target : UInt64} (h : Representable j target) :
    heldTarget j target = target := by
  unfold heldTarget
  split_ifs with h64
  · rfl
  · exact low_half (h.resolve_left h64)

/-! ## Headers -/

/-- A block that begins with a header of the given type and sequence. -/
structure Header (block : Block) (type sequence : UInt32) : Prop where
  magic : loadBe32 block 0 = magic
  type : loadBe32 block 4 = type
  sequence : loadBe32 block 8 = sequence

private theorem putHeader_header (type sequence : UInt32) :
    Header (putHeader block type sequence) type sequence where
  magic := by simp [putHeader, loadBe32_storeBe32_of_disjoint]
  type := by simp [putHeader, loadBe32_storeBe32_of_disjoint]
  sequence := by simp [putHeader]

/-- A header is in the first twelve bytes. -/
theorem Header.congr {b c : Block} {type sequence : UInt32} (h : Header b type sequence)
    (hbc : ∀ i < headerBytes, b i = c i) : Header c type sequence := by
  have hload (off : Nat) (hoff : off + 4 ≤ headerBytes) : loadBe32 c off = loadBe32 b off :=
    loadBe32_congr fun i _ h2 => (hbc i (by omega)).symm
  simp only [headerBytes] at hload
  exact ⟨(hload 0 (by omega)).trans h.magic, (hload 4 (by omega)).trans h.type,
    (hload 8 (by omega)).trans h.sequence⟩

/-! ## Descriptors -/

/-- From offset `off` on, a descriptor holds the tags of a batch, the last one marked. -/
def Tags (j : Layout) (sequence : UInt32) (work : Block) : Nat → List Entry → Prop
  | _, [] => True
  | off, e :: rest =>
    readTag j work off = tagOf j sequence e rest.isEmpty ∧
      Tags j sequence work (off + tagBytes j) rest

/-- The tags of a batch depend on their own bytes only. -/
theorem Tags.congr {sequence : UInt32} {b c : Block} {off : Nat}
    {batch : List Entry} (ht : Tags j sequence b off batch)
    (h : ∀ i, off ≤ i → i < off + batch.length * tagBytes j → b i = c i) :
    Tags j sequence c off batch := by
  induction batch generalizing off with
  | nil => trivial
  | cons e rest ih =>
    rw [List.length_cons, Nat.succ_mul] at h
    refine ⟨?_, ih ht.2 fun i h1 h2 => h i (by omega) (by omega)⟩
    rw [← ht.1]
    exact (readTag_congr fun i h1 h2 => h i h1 (by omega)).symm

/-- The tags of a batch leave the bytes before and after them alone. -/
theorem putTags_apply (j : Layout) (sequence : UInt32) (batch : List Entry) (off i : Nat)
    (block : Block) (h : i < off ∨ off + batch.length * tagBytes j ≤ i) :
    putTags j sequence batch off block i = block i := by
  induction batch generalizing off block with
  | nil => rfl
  | cons e rest ih =>
    rw [List.length_cons, Nat.succ_mul] at h
    rw [putTags, ih _ _ (by omega), putTag_apply _ _ _ _ _ _ _ _ (by omega)]

private theorem putTags_tags (j : Layout) (sequence : UInt32) (batch : List Entry) (off : Nat)
    (block : Block) :
    Tags j sequence (putTags j sequence batch off block) off batch := by
  induction batch generalizing off block with
  | nil => trivial
  | cons e rest ih =>
    refine ⟨?_, ih _ _⟩
    rw [← readTag_putTag j block off sequence e rest.isEmpty]
    -- the later tags start behind this one
    exact readTag_congr fun i _ h2 => putTags_apply _ _ _ _ _ _ (Or.inl h2)

/-- A batch that fits into one descriptor ends before the checksum in its tail. -/
theorem batch_fits {n : Nat} (hn : n ≤ tagsPerDescriptor j)
    (hbs : 1024 ≤ j.blockSize) : headerBytes + n * tagBytes j ≤ j.blockSize - tailBytes j := by
  have hmul : n * tagBytes j ≤ j.blockSize - headerBytes - tailBytes j := by
    calc n * tagBytes j ≤ tagsPerDescriptor j * tagBytes j := Nat.mul_le_mul_right _ hn
      _ ≤ j.blockSize - headerBytes - tailBytes j := Nat.div_mul_le_self _ _
  have htail : tailBytes j ≤ 4 := by unfold tailBytes; split_ifs <;> omega
  simp only [headerBytes] at hmul ⊢
  omega

/-- A descriptor block has room for a tag. -/
theorem tagsPerDescriptor_pos (hbs : 1024 ≤ j.blockSize) : 0 < tagsPerDescriptor j := by
  have hb := tagBytes_bounds j
  have htail : tailBytes j ≤ 4 := by unfold tailBytes; split_ifs <;> omega
  apply Nat.div_pos _ (by omega)
  simp only [headerBytes]
  omega

private theorem tailBytes_of_csum (h : hasCsum j = true) : tailBytes j = 4 := by
  simp [tailBytes, h]

section Descriptor

variable {sequence : UInt32} {batch : List Entry} (hbs : 1024 ≤ j.blockSize)
    (hn : batch.length ≤ tagsPerDescriptor j)

include hbs hn

/-- Sealing a descriptor leaves everything before its tail alone. -/
theorem descriptor_apply (i : Nat) (hi : i < headerBytes + batch.length * tagBytes j) :
    descriptor j sequence batch i =
      putTags j sequence batch headerBytes (putHeader zeros descriptorBlockType sequence) i := by
  have hfit := batch_fits hn hbs
  unfold descriptor
  split_ifs with hcsum
  · rw [tailBytes_of_csum hcsum] at hfit
    exact storeBe32_apply _ _ _ _ (by omega)
  · rfl

/-- A descriptor block is read back tag by tag. -/
theorem descriptor_tags : Tags j sequence (descriptor j sequence batch) headerBytes batch :=
  (putTags_tags j sequence batch headerBytes _).congr fun i _ h2 =>
    (descriptor_apply hbs hn i h2).symm

/-- The header of a descriptor block. -/
theorem descriptor_header : Header (descriptor j sequence batch) descriptorBlockType sequence :=
  (putHeader_header zeros _ _).congr fun i hi => by
    rw [descriptor_apply hbs hn i (by omega)]
    exact (putTags_apply _ _ _ _ _ _ (Or.inl hi)).symm

end Descriptor

/-- A descriptor carries its own checksum. -/
theorem descriptor_blockCsum (hcsum : hasCsum j = true) :
    blockCsum j (descriptor j sequence batch) (j.blockSize - 4) =
      loadBe32 (descriptor j sequence batch) (j.blockSize - 4) := by
  simp [descriptor, hcsum, blockCsum]

/-! ## Data blocks -/

/-- The image of a block in the log is not taken for a header. -/
theorem escaped_magic : loadBe32 (escaped data) 0 ≠ magic := by
  unfold escaped needsEscape
  simp only [decide_eq_true_eq]
  split_ifs with h
  · rw [loadBe32_storeBe32]; decide
  · exact h

/-- The flag that says that the block is escaped. -/
theorem tagFlags_escape : tagFlags data last &&& flagEscape = 0 ↔ needsEscape data = false := by
  unfold tagFlags
  cases needsEscape data <;> cases last <;> simp <;> decide

/-- No tag is followed by an identifier. -/
theorem tagFlags_sameUuid : tagFlags data last &&& flagSameUuid ≠ 0 := by
  unfold tagFlags
  cases needsEscape data <;> cases last <;> decide

/-- The flag of the last tag. -/
theorem tagFlags_last : tagFlags data last &&& flagLastTag = 0 ↔ last = false := by
  unfold tagFlags
  cases needsEscape data <;> cases last <;> simp <;> decide

/-- Restoring the magic number gives an escaped block back. -/
theorem unescape_escaped {data : Block} (h : needsEscape data = true) :
    storeBe32 (escaped data) 0 magic = data := by
  have hmagic : loadBe32 data 0 = magic := of_decide_eq_true h
  simp only [escaped, h, if_true, storeBe32_storeBe32]
  rw [← hmagic, storeBe32_loadBe32]

/-- A block that needs no escape is logged as it is. -/
theorem escaped_of_not {data : Block} (h : needsEscape data = false) : escaped data = data := by
  simp [escaped, h]

/-- The reader takes the checksum of the image in the log, the writer that of the block. They
    agree exactly for the blocks that are not escaped. -/
theorem blockSum_escaped_iff (h4 : 4 ≤ j.blockSize) (hbs : j.blockSize ≤ maxBlockSize) :
    blockSum j sequence (escaped data) = blockSum j sequence data ↔ needsEscape data = false := by
  constructor
  · intro heq
    by_contra hne
    have hesc : needsEscape data = true := by simpa using hne
    have hmagic : loadBe32 data 0 = 0xC03B3998 := of_decide_eq_true hesc
    have hlow := crc32c_blank_magic (crc32c j.csumSeed (storeBe32 zeros 0 sequence) 4) data
      j.blockSize hmagic h4 hbs
    apply hlow
    simp only [blockSum, escaped, hesc, if_true, dataCsum] at heq
    split_ifs at heq
    · rw [heq]
    · exact heq
  · intro h
    simp [escaped, h]

/-! ## Commit blocks -/

/-- The header of a commit block. -/
theorem commitBlock_header (j : Layout) (sequence : UInt32) (now : UInt64) (checksum : UInt32) :
    Header (commitBlock j sequence now checksum) commitBlockType sequence := by
  refine (putHeader_header zeros _ _).congr fun i hi => ?_
  simp only [headerBytes] at hi
  -- the time stamp and the checksum lie behind the header
  have hstamp (a b c : UInt32) : storeBe32 (storeBe32 (storeBe32
      (putHeader zeros commitBlockType sequence) 48 a) 52 b) 56 c i =
      putHeader zeros commitBlockType sequence i := by
    rw [storeBe32_apply _ _ _ _ (by omega), storeBe32_apply _ _ _ _ (by omega),
      storeBe32_apply _ _ _ _ (by omega)]
  by_cases hcsum : hasCsum j = true
  · simp only [commitBlock, hcsum, if_true]
    rw [storeBe32_apply _ _ _ _ (by omega), hstamp]
  · by_cases hv1 : sumV1 j = true
    · simp only [commitBlock, hcsum, hv1, if_true]
      rw [if_neg Bool.false_ne_true, storeBe32_apply _ _ _ _ (by omega),
        storeByte_apply _ _ _ _ (by omega), storeByte_apply _ _ _ _ (by omega), hstamp]
    · simp only [commitBlock, hcsum, hv1]
      rw [if_neg Bool.false_ne_true, if_neg Bool.false_ne_true, hstamp]

/-- The reader accepts a commit block whose checksum is the one it has taken. -/
theorem commitValid_commitBlock (j : Layout) (sequence : UInt32) (now : UInt64)
    (checksum : UInt32) : commitValid j (commitBlock j sequence now checksum) checksum = true := by
  unfold commitValid commitBlock
  by_cases hcsum : hasCsum j = true
  · simp [hcsum, blockCsum]
  by_cases hv1 : sumV1 j = true
  · simp [hcsum, hv1]
  · have hcompat : j.compat &&& compatChecksum = 0 := by simpa [sumV1, hcsum] using hv1
    simp [hcsum, hcompat]

end Tunix.Jbd2
