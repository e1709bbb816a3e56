import Tunix.ForStd.Disk
import Tunix.Kernel.Crc

/-!
# The metadata journal

Model of `kernel/fs/jbd2.c`: opening a journal, writing and checkpointing a transaction, and
recovering the log. Blocks are byte buffers, log positions and lengths are numbers, sequence
numbers and features are the 32-bit words of the source.

The journal reaches its device through the operations that ext4 passes to
`jbd2_journal_open` (all of them present). A device request either completes or fails; a
failed write may still have reached the device with some of its blocks. Reads do not fail.
Functions that return a status in the source return it as a `Bool`, `true` for zero, next to
the state they leave.
-/

namespace Tunix.Jbd2

open Bytes Crc

/-- The bytes of a block of the journal. -/
abbrev Block := Buffer

/-! ## Constants -/

/-- `JBD2_MAGIC`: the first word of every block of the journal that is not data. -/
def magic : UInt32 := 0xC03B3998

/-- `JBD2_DESCRIPTOR_BLOCK`. -/
def descriptorBlockType : UInt32 := 1
/-- `JBD2_COMMIT_BLOCK`. -/
def commitBlockType : UInt32 := 2
/-- `JBD2_SUPERBLOCK_V1`. -/
def superblockV1 : UInt32 := 3
/-- `JBD2_SUPERBLOCK_V2`. -/
def superblockV2 : UInt32 := 4
/-- `JBD2_REVOKE_BLOCK`. -/
def revokeBlockType : UInt32 := 5

/-- `JBD2_FLAG_ESCAPE`: the block began with the magic number, which is blanked in the log. -/
def flagEscape : UInt32 := 1
/-- `JBD2_FLAG_SAME_UUID`: no identifier follows the tag. -/
def flagSameUuid : UInt32 := 2
/-- `JBD2_FLAG_LAST_TAG`. -/
def flagLastTag : UInt32 := 8

/-- `JBD2_COMPAT_CHECKSUM`: a commit block has the checksum of its transaction. -/
def compatChecksum : UInt32 := 0x1
/-- `JBD2_INCOMPAT_64BIT`: tags hold block numbers of 64 bits. -/
def incompat64Bit : UInt32 := 0x2
/-- `JBD2_INCOMPAT_CSUM_V2`. -/
def incompatCsumV2 : UInt32 := 0x8
/-- `JBD2_INCOMPAT_CSUM_V3`. -/
def incompatCsumV3 : UInt32 := 0x10
/-- `JBD2_INCOMPAT_FAST_COMMIT`. -/
def incompatFastCommit : UInt32 := 0x20
/-- `JBD2_INCOMPAT_KNOWN`: a journal with another feature is not opened. -/
def incompatKnown : UInt32 := 0x3F

/-- `JBD2_CRC32_CHKSUM`. -/
def crc32Chksum : UInt8 := 1
/-- `JBD2_CRC32C_CHKSUM`. -/
def crc32cChksum : UInt8 := 4
/-- `JBD2_DEFAULT_FC`: the blocks of the fast commit area, if the superblock gives none. -/
def defaultFc : Nat := 256
/-- `JBD2_FC_TAG_HEAD`: the tag that a fast commit block begins with. -/
def fcTagHead : UInt16 := 9
/-- `JBD2_SB_CHECKSUM_AT`: where the superblock has its checksum. -/
def sbChecksumAt : Nat := 0xFC

/-- `JBD2_MAX_BLOCK_SIZE`. -/
def maxBlockSize : Nat := 4096
/-- `JBD2_HEADER_BYTES`. -/
def headerBytes : Nat := 12
/-- `JBD2_UUID_BYTES`. -/
def uuidBytes : Nat := 16
/-- `JBD2_GATHER_BLOCKS`: how many blocks are written with one request. -/
def gatherBlocks : Nat := 32

/-! ## The device -/

/-- How the device answers a request: it completes it, or fails after some of its blocks
    have landed. -/
inductive Answer where
  | ok
  | fail (landed : List Bool)

/-- The device: its contents when the journal was opened, the requests completed since
    (newest first) and its answers to the next ones. -/
structure Dev where
  base : UInt64 → Block
  history : Disk.History UInt64 Block
  answers : List Answer

namespace Dev

/-- A block as the device answers it, with what it has only taken into its cache. -/
def read (d : Dev) (block : UInt64) : Block := Disk.view d.base d.history block

/-- The blocks of a request that landed although the request failed. -/
def landed : List Bool → List (UInt64 × Block) → List (UInt64 × Block)
  | true :: bs, w :: ws => w :: landed bs ws
  | false :: bs, _ :: ws => landed bs ws
  | _, _ => []

/-- One request that writes a list of blocks. -/
def write (d : Dev) (ws : List (UInt64 × Block)) : Bool × Dev := match d.answers with
  | .fail bs :: rest =>
    (false, { d with history := Disk.issue (landed bs ws) d.history, answers := rest })
  | .ok :: rest => (true, { d with history := Disk.issue ws d.history, answers := rest })
  | [] => (true, { d with history := Disk.issue ws d.history })

/-- A flush, which makes what was written before it durable, unless the device fails. -/
def flush (d : Dev) : Bool × Dev := match d.answers with
  | .fail _ :: rest => (false, { d with answers := rest })
  | .ok :: rest => (true, { d with history := .flush :: d.history, answers := rest })
  | [] => (true, { d with history := .flush :: d.history })

end Dev

/-! ## The journal -/

/-- A revoked block, with the last transaction that revoked it. -/
structure RevokeEntry where
  block : UInt64
  sequence : UInt32

/-- The part of a journal that does not change while transactions are written: where its blocks
    lie and in which format. -/
structure Layout where
  map : Nat → Option UInt64
  blockSize : Nat
  maxlen : Nat
  first : Nat
  last : Nat
  compat : UInt32
  incompat : UInt32
  csumSeed : UInt32
  mapped : Nat → UInt64
  mappedCount : Nat

/-- `struct jbd2_journal`: the fields that change while the journal is open. -/
structure Journal extends Layout where
  busy : Bool
  sequence : UInt32
  start : UInt32
  fastCommitPending : Bool
  openForWrites : Bool
  gather : List Block
  gatherStart : UInt64
  revokes : Nat → RevokeEntry
  revokeCount : Nat
  revokeCapacity : Nat

instance : Coe Journal Layout := ⟨Journal.toLayout⟩

/-- A journal and the device it lives on. -/
structure State where
  journal : Journal
  dev : Dev

/-- `if (f() != 0) return -1; ...` -/
def andThen (r : Bool × State) (k : State → Bool × State) : Bool × State := if r.1 then k r.2 else r

variable (s : State) (j : Layout)

/-- `has_csum`. -/
def hasCsum : Bool := j.incompat &&& (incompatCsumV2 ||| incompatCsumV3) ≠ 0

/-- `has_csum_v3`. -/
def hasCsumV3 : Bool := j.incompat &&& incompatCsumV3 ≠ 0

/-- `has_64bit`. -/
def has64Bit : Bool := j.incompat &&& incompat64Bit ≠ 0

/-- `tag_bytes`: the size of a tag, without the identifier of the first one. -/
def tagBytes : Nat :=
  if hasCsumV3 j then 16
  else
    let size := if j.incompat &&& incompatCsumV2 ≠ 0 then 14 else 12
    if has64Bit j then size else size - 4

/-- `tail_bytes`: what a block with tags or revokes keeps free for its checksum. -/
def tailBytes : Nat := if hasCsum j then 4 else 0

/-- The v1 transaction checksum is in use. -/
def sumV1 : Bool := !hasCsum j && j.compat &&& compatChecksum ≠ 0

/-- `block_csum`: the checksum of a block whose own field counts as zero. -/
def blockCsum (block : Block) (off : Nat) : UInt32 :=
  crc32c j.csumSeed (storeBe32 block off 0) j.blockSize

/-- `data_csum`: the checksum of a logged block, which also covers the sequence number. -/
def dataCsum (sequence : UInt32) (data : Block) : UInt32 :=
  crc32c (crc32c j.csumSeed (storeBe32 zeros 0 sequence) 4) data j.blockSize

/-- `needs_escape`. -/
def needsEscape (data : Block) : Bool := loadBe32 data 0 = magic

/-- `step`: the next position in the log, which wraps at its end. -/
def step (position : Nat) : Nat :=
  let position := (position + 1) % 2 ^ 32
  if position ≥ j.last then j.first else position

/-- `log_locate`: the device block of a block of the journal file. -/
def logLocate (fileBlock : Nat) : Option UInt64 :=
  if fileBlock < j.mappedCount ∧ j.mapped fileBlock ≠ 0 then some (j.mapped fileBlock)
  else
    match j.map fileBlock with
    | some disk => if disk = 0 then none else some disk
    | none => none

/-- `log_read`. -/
def logRead (read : UInt64 → Block) (fileBlock : Nat) : Option Block :=
  (logLocate j fileBlock).map read

/-- `log_write`. -/
def logWrite (fileBlock : Nat) (data : Block) :
    Bool × State :=
  match logLocate s.journal fileBlock with
  | none => (false, s)
  | some disk =>
    let (ok, dev) := s.dev.write [(disk, data)]
    (ok, { s with dev })

/-- `device_flush`. -/
def deviceFlush : Bool × State :=
  let (ok, dev) := s.dev.flush
  (ok, { s with dev })

/-- `put_header`. -/
def putHeader (block : Block) (type sequence : UInt32) : Block :=
  storeBe32 (storeBe32 (storeBe32 block 0 magic) 4 type) 8 sequence

/-- `seal_superblock`: the checksum is put in. -/
def sealSuperblock (block : Block) : Block :=
  if !hasCsum j then block
  else
    let block := storeBe32 (storeByte block 80 crc32cChksum) sbChecksumAt 0
    storeBe32 block sbChecksumAt (crc32c 0xFFFFFFFF block 1024)

/-- The superblock `write_journal_superblock` writes over the one it read. -/
def updateSuperblock (work : Block) (start sequence : UInt32) : Block :=
  let work := storeBe32 (storeBe32 work 24 sequence) 28 start
  if loadBe32 work 4 = superblockV2 then
    sealSuperblock j (storeBe32 (storeBe32 work 36 j.compat) 40 j.incompat)
  else work

/-- `write_journal_superblock`: where the log starts, and with which sequence number. -/
def writeJournalSuperblock (start sequence : UInt32) : Bool × State :=
  match logRead s.journal s.dev.read 0 with
  | none => (false, s)
  | some work =>
    andThen (logWrite s 0 (updateSuperblock s.journal work start sequence)) fun s =>
      (true, { s with journal := { s.journal with start, sequence } })

/-- `tags_per_descriptor`. -/
def tagsPerDescriptor : Nat := (j.blockSize - headerBytes - tailBytes j) / tagBytes j

/-- The subtractions and the sum are those of 32-bit words. -/
def journalCapacity : Nat :=
  let space := (j.last + 2 ^ 32 - j.first) % 2 ^ 32
  let tags := tagsPerDescriptor j
  let usable := if space > 2 then space - 2 else 0
  (usable + 2 ^ 32 - ((usable + tags) % 2 ^ 32) / (tags + 1)) % 2 ^ 32

/-- The compatible and incompatible features of a superblock, or `none` when
    `jbd2_journal_open` turns it down. A version 1 superblock has none. -/
def readFeatures (work : Block) : Option (UInt32 × UInt32) :=
  let compat := loadBe32 work 36
  let incompat := loadBe32 work 40
  if loadBe32 work 4 ≠ superblockV2 then some (0, 0)
  else if incompat &&& ~~~incompatKnown ≠ 0 then none
  else if incompat &&& (incompatCsumV2 ||| incompatCsumV3) ≠ 0 ∧ (work 80 ≠ crc32cChksum ∨
        crc32c 0xFFFFFFFF (storeBe32 work sbChecksumAt 0) 1024 ≠ loadBe32 work sbChecksumAt) then
    none
  else some (compat, incompat)

/-- The UUID that seeds the checksums; a version 1 superblock leaves it blank. -/
def readUuid (work : Block) : Block :=
  if loadBe32 work 4 = superblockV2 then fun i => work (48 + i) else zeros

/-- End of the log area: the fast commit blocks lie behind it. -/
def readLast (work : Block) (incompat : UInt32) (maxlen : Nat) : Option Nat :=
  if incompat &&& incompatFastCommit ≠ 0 then
    let fast := (loadBe32 work 84).toNat
    let fast := if fast = 0 then defaultFc else fast
    if fast ≥ maxlen then none else some (maxlen - fast)
  else some maxlen

/-- The mapping loop of `jbd2_journal_open` gets through all `wanted` blocks. -/
def mapsAll (map : Nat → Option UInt64) (wanted : Nat) : Bool :=
  (List.range wanted).all fun index => (map index).any (· ≠ 0)

/-- `jbd2_journal_open` on a device, with memory available. -/
def journalOpen (map : Nat → Option UInt64) (read : UInt64 → Block)
    (blockSize : Nat) : Option Journal := do
  guard (¬(blockSize < 1024 ∨ blockSize > maxBlockSize))
  let home ← map 0
  guard (home ≠ 0)
  let work := read home
  guard (loadBe32 work 0 = magic)
  let type := loadBe32 work 4
  guard (type = superblockV1 ∨ type = superblockV2)
  guard ((loadBe32 work 12).toNat = blockSize)
  let (compat, incompat) ← readFeatures work
  let maxlen := (loadBe32 work 16).toNat
  let first := (loadBe32 work 20).toNat
  let sequence := loadBe32 work 24
  let last ← readLast work incompat maxlen
  guard (¬(last < 8 ∨ first = 0 ∨ (first + 4) % 2 ^ 32 ≥ last))
  guard (mapsAll map maxlen)
  return {
    map, blockSize, busy := false, maxlen, first, last
    sequence := if sequence = 0 then 1 else sequence
    start := loadBe32 work 28
    compat, incompat
    csumSeed := crc32c 0xFFFFFFFF (readUuid work) uuidBytes
    fastCommitPending := false
    mapped := fun index => (map index).getD 0
    mappedCount := maxlen
    openForWrites := false
    gather := [], gatherStart := 0
    revokes := fun _ => ⟨0, 0⟩, revokeCount := 0, revokeCapacity := 0 }

/-! ## Revoked blocks -/

/-- `revokes_clear`. -/
def revokesClear (j : Journal) : Journal :=
  { j with revokes := fun _ => ⟨0, 0⟩, revokeCount := 0, revokeCapacity := 0 }

/-- `revoke_hash`. -/
def revokeHash (block : UInt64) : Nat := ((block * 0x9E3779B97F4A7C15) >>> 32).toNat

/-- Linear probing from `at_`; the table always has a free slot, so `fuel` slots are enough. -/
def probe (table : Nat → RevokeEntry) (mask : Nat) (block : UInt64) : Nat → Nat → Nat
  | 0, at_ => at_
  | fuel + 1, at_ =>
    if (table at_).block ≠ 0 ∧ (table at_).block ≠ block then
      probe table mask block fuel ((at_ + 1) &&& mask)
    else at_

/-- `revoke_slot`: the entry of a block, or the free one where it would be. -/
def revokeSlot (table : Nat → RevokeEntry) (capacity : Nat) (block : UInt64) : Nat :=
  probe table (capacity - 1) block capacity (revokeHash block &&& (capacity - 1))

/-- Double the table and put every remembered block into it. -/
def revokesGrow (j : Journal) : Journal :=
  let capacity := if j.revokeCapacity ≠ 0 then j.revokeCapacity * 2 else 256
  let table := (List.range j.revokeCapacity).foldl (fun table index =>
    if (j.revokes index).block ≠ 0 then
      Function.update table (revokeSlot table capacity (j.revokes index).block) (j.revokes index)
    else table) (fun _ => ⟨0, 0⟩)
  { j with revokes := table, revokeCapacity := capacity }

/-- `(int32_t)(a - b) < 0` -/
def before (a b : UInt32) : Bool := (a - b) &&& 0x80000000 ≠ 0

/-- `revoke_remember`: the later sequence number stays. -/
def revokeRemember (j : Journal) (block : UInt64) (sequence : UInt32) : Journal :=
  if block = 0 then j
  else
    let j := if (j.revokeCount + 1) * 2 > j.revokeCapacity then revokesGrow j else j
    let slot := revokeSlot j.revokes j.revokeCapacity block
    if (j.revokes slot).block = 0 then
      { j with
        revokes := Function.update j.revokes slot ⟨block, sequence⟩
        revokeCount := j.revokeCount + 1 }
    else if before (j.revokes slot).sequence sequence then
      { j with revokes := Function.update j.revokes slot ⟨(j.revokes slot).block, sequence⟩ }
    else j

/-- `revoked`: a copy of the block as old as this is not to be written home. -/
def revoked (j : Journal) (block : UInt64) (sequence : UInt32) : Bool :=
  if j.revokeCapacity = 0 ∨ block = 0 then false
  else
    let entry := j.revokes (revokeSlot j.revokes j.revokeCapacity block)
    entry.block = block ∧ !before entry.sequence sequence

/-- The record loop of `collect_revokes`. -/
def collectRecords (block : Block) (record used : Nat) (sequence : UInt32) :
    Nat → Nat → Journal → Journal
  | 0, _, j => j
  | fuel + 1, off, j =>
    if off + record ≤ used then
      let target : UInt64 :=
        if record = 8 then (loadBe32 block off).toUInt64 <<< 32 |||
          (loadBe32 block (off + 4)).toUInt64
        else (loadBe32 block off).toUInt64
      collectRecords block record used sequence fuel (off + record)
        (revokeRemember j target sequence)
    else j

/-- `collect_revokes`: what a revoke block lists. -/
def collectRevokes (j : Journal) (block : Block) (sequence : UInt32) : Option Journal :=
  if hasCsum j ∧ blockCsum j block (j.blockSize - 4) ≠ loadBe32 block (j.blockSize - 4) then none
  else
    let used := (loadBe32 block headerBytes).toNat
    let record := if has64Bit j then 8 else 4
    if used < headerBytes + 4 ∨ used > j.blockSize - tailBytes j then none
    else some (collectRecords block record used sequence j.blockSize (headerBytes + 4) j)

/-! ## Walking the log -/

/-- What a descriptor block says of one logged block. -/
@[ext] structure Tag where
  target : UInt64
  flags : UInt32
  checksum : UInt32
  deriving DecidableEq

/-- `read_tag`. -/
def readTag (block : Block) (off : Nat) : Tag where
  target := (loadBe32 block off).toUInt64 |||
      (if has64Bit j then (loadBe32 block (off + 8)).toUInt64 <<< 32 else 0)
  flags := if hasCsumV3 j then loadBe32 block (off + 4) else (loadBe16 block (off + 6)).toUInt32
  checksum := if hasCsumV3 j then loadBe32 block (off + 12) else (loadBe16 block (off + 4)).toUInt32

/-- What `read_tag` returns: the bytes the tag takes, with the UUID unless it is left out. -/
def tagSize (tag : Tag) : Nat :=
  if tag.flags &&& flagSameUuid = 0 then tagBytes j + uuidBytes else tagBytes j

/-- `commit_valid`: the checksum of a commit block holds. -/
def commitValid (block : Block) (checksum : UInt32) : Bool :=
  if hasCsum j then blockCsum j block 16 = loadBe32 block 16
  else if j.compat &&& compatChecksum = 0 then true
  else if block 12 ≠ crc32Chksum ∨ block 13 ≠ 4 then true
  else loadBe32 block 16 = checksum

/-- `replay_block`: a logged block is written home. -/
def replayBlock (tag : Tag) (position : Nat) (sequence : UInt32) : Bool × State :=
  match logRead s.journal s.dev.read position with
  | none => (false, s)
  | some scratch =>
    let sum := dataCsum s.journal sequence scratch
    let sum := if hasCsumV3 s.journal then sum else sum &&& 0xFFFF
    if hasCsum s.journal ∧ sum ≠ tag.checksum then (true, s)
    else
      let scratch := if tag.flags &&& flagEscape ≠ 0 then storeBe32 scratch 0 magic else scratch
      let (ok, dev) := s.dev.write [(tag.target, scratch)]
      (ok, { s with dev })

/-- The three passes over the log. -/
inductive Pass where
  | scan
  | revoke
  | replay
  deriving DecidableEq

/-- Where a walk stands: the block to read next, the transaction it is in and the v1 checksum
    of that transaction so far. -/
structure Walk where
  position : Nat
  sequence : UInt32
  checksum : UInt32

/-- The tag loop of `walk_log` over the descriptor `work`: `off` is the offset of the next tag,
    `tags` the number of tags read. The walk's position runs over the data blocks. -/
def walkTags (pass : Pass) (work : Block) (limit : Nat) :
    Nat → Nat → Nat → Walk → State → Option (Nat × Walk) × State
  | 0, _, tags, w, s => (some (tags, w), s)
  | fuel + 1, off, tags, w, s =>
    if off + tagBytes s.journal ≤ limit then
      let tag := readTag s.journal work off
      let last := tag.flags &&& flagLastTag ≠ 0
      match (if pass = .scan ∧ sumV1 s.journal then
          (logRead s.journal s.dev.read w.position).map fun scratch =>
            crc32Be w.checksum scratch s.journal.blockSize
        else some w.checksum) with
      | none => (none, s)
      | some checksum =>
        let (ok, s') :=
          if pass = .replay ∧ !revoked s.journal tag.target w.sequence then
            replayBlock s tag w.position w.sequence
          else (true, s)
        if !ok then (none, s')
        else
          let w := { w with checksum, position := step s.journal w.position }
          if last then (some (tags + 1, w), s')
          else walkTags pass work limit fuel (off + tagSize s.journal tag) (tags + 1) w s'
    else (some (tags, w), s)

/-- The block loop of `walk_log`, bounded by its guard. -/
def walkBlocks (pass : Pass) (stop : UInt32) : Nat → Walk → State → Option Walk × State
  | 0, w, s => (some w, s)
  | guard + 1, w, s =>
    if pass ≠ .scan ∧ w.sequence = stop then (some w, s)
    else
      match logRead s.journal s.dev.read w.position with
      | none => (none, s)
      | some work =>
        if loadBe32 work 0 ≠ magic ∨ loadBe32 work 8 ≠ w.sequence then (some w, s)
        else if loadBe32 work 4 = commitBlockType then
          if pass = .scan ∧ !commitValid s.journal work w.checksum then (some w, s)
          else
            walkBlocks pass stop guard
              ⟨step s.journal w.position, w.sequence + 1, 0xFFFFFFFF⟩ s
        else if loadBe32 work 4 = revokeBlockType then
          match (if pass = .revoke then collectRevokes s.journal work w.sequence
            else some s.journal) with
          | none => (none, s)
          | some journal =>
            walkBlocks pass stop guard { w with position := step s.journal w.position }
              { s with journal }
        else if loadBe32 work 4 ≠ descriptorBlockType then (some w, s)
        else if hasCsum s.journal ∧ blockCsum s.journal work (s.journal.blockSize - 4) ≠
              loadBe32 work (s.journal.blockSize - 4) then
          (some w, s)
        else
          let checksum :=
            if sumV1 s.journal ∧ pass = .scan then crc32Be w.checksum work s.journal.blockSize
            else w.checksum
          match walkTags pass work (s.journal.blockSize - tailBytes s.journal) s.journal.blockSize
            headerBytes 0 ⟨step s.journal w.position, w.sequence, checksum⟩ s with
          | (none, s) => (none, s)
          | (some (tags, w), s) =>
            if tags = 0 then (none, s) else walkBlocks pass stop guard w s

/-- `walk_log`: the sequence it stops at, or `none` for a failure. `stop` is the value of `*end`
    that the later passes stop at. -/
def walkLog (pass : Pass) (stop : UInt32) (s : State) : Option UInt32 × State :=
  let (w, s') := walkBlocks pass stop ((s.journal.last + 1) % 2 ^ 32)
    ⟨s.journal.start.toNat, s.journal.sequence, 0xFFFFFFFF⟩ s
  (w.map Walk.sequence, s')

/-- `check_fast_commit`: a fast commit of the next transaction is in its area. -/
def checkFastCommit (next : UInt32) : Bool :=
  if s.journal.incompat &&& incompatFastCommit = 0 then s.journal.fastCommitPending
  else
    match logRead s.journal s.dev.read s.journal.last with
    | none => s.journal.fastCommitPending
    | some scratch =>
      (loadLe16 scratch 0 = fcTagHead ∧ loadLe16 scratch 2 ≥ 8 ∧ loadLe32 scratch 8 = next) ∨
        s.journal.fastCommitPending

/-- The revoke and the replay pass of `jbd2_journal_recover`, with the flush after them. -/
def replayTo (stop : UInt32) (s : State) : Bool × State := match walkLog .revoke stop s with
  | (none, s) => (false, s)
  | (some _, s) =>
    match walkLog .replay stop s with
    | (none, s) => (false, s)
    | (some _, s) => deviceFlush s

/-- The end of `jbd2_journal_recover`. -/
def recoverEnd (r : Bool × State) : Bool × State :=
  (r.1, { r.2 with journal := { revokesClear r.2.journal with busy := false } })

/-- The three passes of `jbd2_journal_recover` and the superblock after them. -/
def recoverLog : Bool × State := match walkLog .scan s.journal.sequence s with
  | (none, s) => recoverEnd (false, s)
  | (some stop, s) =>
    if checkFastCommit s stop then
      (false, { s with journal := { s.journal with fastCommitPending := true, busy := false } })
    else
      recoverEnd <|
        andThen (if stop ≠ s.journal.sequence then replayTo stop s else (true, s)) fun s =>
          andThen (writeJournalSuperblock s 0 stop) deviceFlush

/-- `jbd2_journal_recover`. -/
def journalRecover : Bool × State :=
  if s.journal.start = 0 then (true, s)
  else recoverLog { s with journal := { revokesClear s.journal with busy := true } }

/-! ## Writing a transaction -/

/-- The features `jbd2_journal_begin` adds to a version 2 journal. -/
def wantFeatures (work : Block) (want64Bit wantCsum : Bool) (j : Layout) : Layout :=
  if loadBe32 work 4 = superblockV2 then
    let j := if want64Bit then { j with incompat := j.incompat ||| incompat64Bit } else j
    if wantCsum then
      { j with
        compat := j.compat &&& ~~~compatChecksum
        incompat := (j.incompat &&& ~~~incompatCsumV2) ||| incompatCsumV3 }
    else j
  else j

/-- `jbd2_journal_begin`. -/
def journalBegin (want64Bit wantCsum : Bool) : Bool × State :=
  if s.journal.busy then (false, s)
  else if s.journal.openForWrites then (true, s)
  else
    match logRead s.journal s.dev.read 0 with
    | none => (false, s)
    | some work =>
      let j := { s.journal with toLayout := wantFeatures work want64Bit wantCsum s.journal }
      andThen
        (andThen (writeJournalSuperblock { s with journal := j } (UInt32.ofNat j.first) j.sequence)
          deviceFlush)
        fun s => (true, { s with journal := { s.journal with openForWrites := true } })

/-- `gather_flush`: the blocks that were gathered are written with one request. -/
def gatherFlush : Bool × State :=
  if s.journal.gather = [] then (true, s)
  else
    let (ok, dev) := s.dev.write
      ((s.journal.gather.zipIdx).map fun (b, i) => (s.journal.gatherStart + UInt64.ofNat i, b))
    (ok, { journal := { s.journal with gather := [] }, dev })

/-- `gather_add`: a block joins those before it, if it follows them on the device. -/
def gatherAdd (diskBlock : UInt64) (data : Block) : Bool × State :=
  let j := s.journal
  andThen
    (if j.gather ≠ [] ∧ (diskBlock ≠ j.gatherStart + UInt64.ofNat j.gather.length ∨
        j.gather.length = gatherBlocks) then gatherFlush s
      else (true, s))
    fun s =>
      let j := s.journal
      (true, { s with journal := { j with
        gatherStart := if j.gather = [] then diskBlock else j.gatherStart
        gather := j.gather ++ [data] } })

/-- A block is gathered for its position in the log. -/
def writeLogBlock (position : Nat) (data : Block) : Bool × State :=
  match logLocate s.journal position with
  | none => (false, s)
  | some disk => gatherAdd s disk data

/-- `put_tag`. -/
def putTag (block : Block) (off : Nat) (target : UInt64) (flags sequence : UInt32) (data : Block) :
    Block :=
  let block := storeBe32 block off target.toUInt32
  if hasCsumV3 j then
    storeBe32 (storeBe32 (storeBe32 block (off + 4) flags) (off + 8) (target >>> 32).toUInt32)
      (off + 12) (dataCsum j sequence data)
  else
    let sum : UInt16 := if hasCsum j then (dataCsum j sequence data).toUInt16 else 0
    let block := storeBe16 (storeBe16 block (off + 4) sum) (off + 6) flags.toUInt16
    if has64Bit j then storeBe32 block (off + 8) (target >>> 32).toUInt32 else block

/-- A block on its way to disk: its home and its contents. -/
abbrev Entry := UInt64 × Block

/-- The flags of a tag. -/
def tagFlags (data : Block) (last : Bool) : UInt32 :=
  flagSameUuid ||| (if needsEscape data then flagEscape else 0) |||
    (if last then flagLastTag else 0)

/-- The tags of one descriptor, from offset `off` on. -/
def putTags (j : Layout) (sequence : UInt32) : List Entry → Nat → Block → Block
  | [], _, block => block
  | (target, data) :: rest, off, block =>
    putTags j sequence rest (off + tagBytes j)
      (putTag j block off target (tagFlags data rest.isEmpty) sequence data)

/-- The descriptor block of a batch. -/
def descriptor (sequence : UInt32) (batch : List Entry) : Block :=
  let work := putTags j sequence batch headerBytes (putHeader zeros descriptorBlockType sequence)
  if hasCsum j then
    storeBe32 work (j.blockSize - 4) (blockCsum j work (j.blockSize - 4))
  else work

/-- The image of a block in the log: its first word is blanked if it is the magic. -/
def escaped (data : Block) : Block := if needsEscape data then storeBe32 data 0 0 else data

/-- The block that ends a transaction, with the time and the checksum. -/
def commitBlock (sequence : UInt32) (now : UInt64) (checksum : UInt32) : Block :=
  let seconds := now / 1000000000
  let work := putHeader zeros commitBlockType sequence
  let work := storeBe32 work 48 (seconds >>> 32).toUInt32
  let work := storeBe32 work 52 seconds.toUInt32
  let work := storeBe32 work 56 (now % 1000000000).toUInt32
  if hasCsum j then storeBe32 work 16 (blockCsum j work 16)
  else if sumV1 j then
    storeBe32 (storeByte (storeByte work 12 crc32Chksum) 13 4) 16 checksum
  else work

/-- Write a list of log blocks from a position on; the position after them comes first. -/
def writeLogBlocks : List Block → Nat → State → Nat × Bool × State
  | [], position, s => (position, true, s)
  | data :: rest, position, s =>
    match writeLogBlock s position data with
    | (false, s) => (position, false, s)
    | (true, s) => writeLogBlocks rest (step s.journal position) s

/-- The v1 checksum runs over the blocks in the order they are written. -/
def sumBlocks (checksum : UInt32) (blocks : List Block) : UInt32 :=
  if sumV1 j then blocks.foldl (fun sum block => crc32Be sum block j.blockSize) checksum
  else checksum

/-- The blocks of one batch: its descriptor and the images of its data. -/
def batchBlocks (sequence : UInt32) (batch : List Entry) : List Block :=
  descriptor j sequence batch :: batch.map fun e => escaped e.2

/-- The batch loop of `log_transaction`. Every round takes at least one entry, so as many rounds
    as there are entries are enough. -/
def logBatches (sequence : UInt32) :
    Nat → List Entry → Nat → UInt32 → State → Nat × UInt32 × Bool × State
  | 0, _, position, checksum, s => (position, checksum, true, s)
  | fuel + 1, entries, position, checksum, s =>
    if entries = [] then (position, checksum, true, s)
    else
      let batch := entries.take (tagsPerDescriptor s.journal)
      let blocks := batchBlocks s.journal sequence batch
      match writeLogBlocks blocks position s with
      | (position, false, s') => (position, checksum, false, s')
      | (position, true, s') =>
        logBatches sequence fuel (entries.drop (tagsPerDescriptor s.journal)) position
          (sumBlocks s.journal checksum blocks) s'

/-- `log_transaction`: the transaction is in the log once the device has flushed its commit
    block. -/
def logTransaction (entries : List Entry) (now : UInt64) : Bool × State :=
  let sequence := s.journal.sequence
  match logBatches sequence entries.length entries s.journal.first 0xFFFFFFFF s with
  | (_, _, false, s) => (false, s)
  | (position, checksum, true, s) =>
    andThen (andThen (gatherFlush s) deviceFlush) fun s =>
      andThen (logWrite s position (commitBlock s.journal sequence now checksum)) deviceFlush

/-- The writes of `checkpoint` to the blocks' homes. -/
def gatherAll : List Entry → State → Bool × State
  | [], s => (true, s)
  | (target, data) :: rest, s => andThen (gatherAdd s target data) (gatherAll rest)

/-- `checkpoint`: the blocks are written home, and then the log is empty. -/
def checkpoint (entries : List Entry) : Bool × State := andThen (gatherAll entries s) fun s =>
    andThen (andThen (gatherFlush s) deviceFlush) fun s =>
      andThen (writeJournalSuperblock s (UInt32.ofNat s.journal.first) (s.journal.sequence + 1))
        deviceFlush

/-- The transaction loop of `jbd2_journal_commit`; `now` gives the time of each transaction. -/
def commitBatches (capacity : Nat) : Nat → List Entry → (Nat → UInt64) → State → Bool × State
  | 0, _, _, s => (true, s)
  | fuel + 1, entries, now, s =>
    if entries = [] then (true, s)
    else
      let batch := entries.take capacity
      andThen (andThen (logTransaction s batch (now 0)) fun s => checkpoint s batch)
        (commitBatches capacity fuel (entries.drop capacity) fun i => now (i + 1))

/-- `jbd2_journal_commit`. -/
def journalCommit (entries : List Entry) (now : Nat → UInt64) : Bool × State :=
  if s.journal.busy ∨ ¬s.journal.openForWrites then (false, s)
  else if entries = [] then (true, s)
  else if journalCapacity s.journal = 0 then (false, s)
  else
    let r := commitBatches (journalCapacity s.journal) entries.length entries now
      { s with journal := { s.journal with busy := true } }
    (r.1, { r.2 with journal := { r.2.journal with busy := false } })

end Tunix.Jbd2
