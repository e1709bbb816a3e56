import Tunix.ForStd.Bits

/-!
# The block allocator of ext4

`alloc_block`, `free_block` and what they rest on, from `kernel/fs/ext4/balloc.c` and the group
functions of `kernel/fs/ext4/super.c`. A volume holds, for each group, its descriptor and its block
bitmap. Whether a bitmap can be read (or a buffer for it found) is given by a list of answers, and
so is whether `free_block` gets memory for a longer queue.
-/

namespace Tunix.Ext4

open Bytes

/-- What the superblock says of the layout of a volume. -/
structure Geometry where
  blockSize : Nat
  groupCount : Nat
  firstDataBlock : Nat
  blocksPerGroup : Nat
  blocksCount : Nat
  inodesPerGroup : Nat
  inodesPerBlock : Nat
  gdPerBlock : Nat
  gdBlocks : Nat
  reservedGdtBlocks : Nat
  firstMetaBg : Nat
  backupBgs : Nat × Nat
  /-- The descriptors have the size of 64-bit volumes. -/
  wideDesc : Bool
  has64Bit : Bool
  hasMetaBg : Bool
  hasSparseSuper2 : Bool
  hasSparseSuper : Bool
  hasGroupCsum : Bool

/-- A group descriptor, as far as the block allocator uses it. -/
structure GroupDesc where
  blockBitmap : Nat
  inodeBitmap : Nat
  inodeTable : Nat
  freeBlocks : Nat
  blockUninit : Bool

/-- What the allocator reads and changes of a mounted volume. -/
structure Volume where
  geometry : Geometry
  groups : Nat → GroupDesc
  /-- The contents of the groups' block bitmaps. -/
  bitmaps : Nat → Buffer
  /-- The groups whose bitmap or descriptor has changed: 1 for the block bitmap, 4 for the
      descriptor. -/
  groupDirty : Nat → UInt8
  sbFreeBlocks : Nat
  blockCursorGroup : Nat
  blockCursorBit : Nat
  pendingFree : List Nat
  pendingFreeCapacity : Nat
  /-- Whether the next bitmaps that are asked for can be had; all later ones can. -/
  reads : List Bool
  /-- Whether the next requests for memory succeed; all later ones do. -/
  mallocs : List Bool

/-! ## Groups -/

variable (g : Geometry) (v : Volume)

/-- `group_first_block`. -/
def groupFirstBlock (group : Nat) : Nat := g.firstDataBlock + group * g.blocksPerGroup

/-- `group_block_count`: the last group may be shorter. -/
def groupBlockCount (group : Nat) : Nat :=
  let first := groupFirstBlock g group
  if first ≥ g.blocksCount then 0
  else min (g.blocksCount - first) g.blocksPerGroup

/-- The block is one of the group. -/
def inGroup (block group : Nat) : Bool :=
  let first := groupFirstBlock g group
  block ≥ first ∧ block < first + groupBlockCount g group

/-- The loop of `power_of`; a 32-bit value is passed after at most 32 rounds. -/
def powerLoop (value base : Nat) : Nat → Nat → Nat
  | 0, power => power
  | fuel + 1, power => if power < value then powerLoop value base fuel (power * base) else power

/-- `power_of`: the value is a power of the base. -/
def powerOf (value base : Nat) : Bool := powerLoop value base 32 base = value

/-- `group_has_super`: the group keeps a copy of the superblock. -/
def groupHasSuper (group : Nat) : Bool :=
  if group = 0 then true
  else if g.hasSparseSuper2 then group = g.backupBgs.1 ∨ group = g.backupBgs.2
  else if group ≤ 1 ∨ !g.hasSparseSuper then true
  else if group % 2 = 0 then false
  else powerOf group 3 || powerOf group 5 || powerOf group 7

/-- The blocks of descriptors in a group, where they are spread over the groups. -/
def groupGdtBlocksMeta (group : Nat) : Nat :=
  let first := group / g.gdPerBlock * g.gdPerBlock
  let last := first + g.gdPerBlock - 1
  if group = first ∨ group = first + 1 ∨ group = last then 1 else 0

/-- `group_base_meta_blocks`: the blocks at the start of a group that are no data. -/
def groupBaseMetaBlocks (group : Nat) : Nat :=
  let count := if groupHasSuper g group then 1 else 0
  if !g.hasMetaBg ∨ group < g.firstMetaBg * g.gdPerBlock then
    if count ≠ 0 then
      count + (if g.hasMetaBg then g.firstMetaBg else g.gdBlocks) + g.reservedGdtBlocks
    else count
  else count + groupGdtBlocksMeta g group

/-! ## Bitmaps -/

/-- The blocks that hold the bitmaps of the groups. The kernel knows a bitmap by its block, here it
    is known by its group; that is the same as long as these blocks are all different. -/
def Volume.bitmapBlocks : List Nat := (List.range v.geometry.groupCount).flatMap fun group =>
  [(v.groups group).blockBitmap, (v.groups group).inodeBitmap]

/-- Set `count` bits from `start` on. -/
def bitsSetRange (bits : Buffer) (start : Nat) : Nat → Buffer
  | 0 => bits
  | count + 1 => bitsSetRange (bitSet bits start) (start + 1) count

/-- One pass of `bitmap_scan`, from `bit` up to `stop`. -/
def scanPass (bits : Buffer) (stop : Nat) : Nat → Nat → Option Nat
  | 0, _ => none
  | fuel + 1, bit =>
    if bit < stop then
      if bit % 32 = 0 ∧ bit + 32 ≤ stop ∧ loadLe32 bits (bit / 8) = 0xFFFFFFFF then
        scanPass bits stop fuel (bit + 32)
      else if !bitTest bits bit then some bit
      else scanPass bits stop fuel (bit + 1)
    else none

/-- `bitmap_scan`: the first clear bit from a place on, and then from the start. -/
def bitmapScan (bits : Buffer) (start maxBits : Nat) : Option Nat :=
  let start := if start ≥ maxBits then 0 else start
  (scanPass bits maxBits (maxBits - start) start).or (scanPass bits start start 0)

/-- Mark the blocks of a list that lie in a group. -/
def markOwned (g : Geometry) (group : Nat) : List Nat → Buffer → Buffer
  | [], bits => bits
  | block :: rest, bits =>
    markOwned g group rest
      (if inGroup g block group then bitSet bits (block - groupFirstBlock g group) else bits)

/-- The bitmap that `block_bitmap` makes for a group whose bitmap was never written. -/
def freshBitmap (desc : GroupDesc) (group : Nat) : Buffer :=
  let bits := bitsSetRange zeros 0 (groupBaseMetaBlocks g group)
  let bits := markOwned g group [desc.blockBitmap, desc.inodeBitmap] bits
  let tableBlocks := g.inodesPerGroup / g.inodesPerBlock
  let bits := markOwned g group ((List.range tableBlocks).map (desc.inodeTable + ·)) bits
  let count := groupBlockCount g group
  bitsSetRange bits count (g.blockSize * 8 - count)

/-- The answer to the next request for a buffer. -/
def Volume.takeRead : Bool × Volume := (v.reads.headD true, { v with reads := v.reads.tail })

/-- Whether the next `kmalloc` succeeds. -/
def Volume.takeMalloc : Bool × Volume :=
  (v.mallocs.headD true, { v with mallocs := v.mallocs.tail })

/-- The descriptor of a group is replaced. -/
def Volume.setDesc (group : Nat) (desc : GroupDesc) : Volume :=
  { v with groups := Function.update v.groups group desc }

/-- The bitmap of a group is replaced. -/
def Volume.setBitmap (group : Nat) (bits : Buffer) : Volume :=
  { v with bitmaps := Function.update v.bitmaps group bits }

/-- What of a group has to be written is noted. -/
def Volume.markDirty (group : Nat) (flags : UInt8) : Volume :=
  { v with groupDirty := Function.update v.groupDirty group (v.groupDirty group ||| flags) }

/-- The group's bitmap is still to be made. -/
def Volume.uninit (group : Nat) : Bool := v.geometry.hasGroupCsum && (v.groups group).blockUninit

/-- The bitmap of a group, made if it was never written. -/
def blockBitmap (group : Nat) : Option Buffer × Volume :=
  let (ok, v) := v.takeRead
  if !ok then (none, v)
  else if !v.uninit group then (some (v.bitmaps group), v)
  else
    let desc := v.groups group
    let bits := freshBitmap v.geometry desc group
    let v := (v.setBitmap group bits).setDesc group { desc with blockUninit := false }
    (some bits, v.markDirty group (1 ||| 4))

/-- `gd_set_free_blocks`, in the width of the descriptor. -/
def gdSetFreeBlocks (group value : Nat) : Volume :=
  let stored := value % (if v.geometry.wideDesc then 2 ^ 32 else 2 ^ 16)
  (v.setDesc group { v.groups group with freeBlocks := stored }).markDirty group 4

/-- `sb_set_free_blocks`, in the width of the field. -/
def sbSetFreeBlocks (value : Nat) : Volume :=
  { v with sbFreeBlocks := value % (if v.geometry.has64Bit then 2 ^ 64 else 2 ^ 32) }

/-! ## Allocation -/

/-- What `alloc_block` does once it has found a clear bit. -/
def takeBit (group : Nat) (bits : Buffer) (bit : Nat) : Volume :=
  let v := v.setBitmap group (bitSet bits bit)
  let v := gdSetFreeBlocks v group ((v.groups group).freeBlocks - 1)
  let v := v.markDirty group 1
  let v := if v.sbFreeBlocks ≠ 0 then sbSetFreeBlocks v (v.sbFreeBlocks - 1) else v
  { v with blockCursorGroup := group, blockCursorBit := bit + 1 }

/-- The search of `alloc_block` over the groups, from the one at `index` on. -/
def allocLoop (below4g : Bool) (startGroup startBit : Nat) : Nat → Nat → Volume → Nat × Volume
  | 0, _, v => (0, v)
  | rounds + 1, index, v =>
    let next := allocLoop below4g startGroup startBit rounds (index + 1)
    let sum := (startGroup + index) % 2 ^ 32
    let group := if sum ≥ v.geometry.groupCount then sum - v.geometry.groupCount else sum
    let first := groupFirstBlock v.geometry group
    if (v.groups group).freeBlocks = 0 then next v
    else if below4g ∧ first > 0xFFFFFFFF then next v
    else
      match blockBitmap v group with
      | (none, v) => next v
      | (some bits, v) =>
        let count := groupBlockCount v.geometry group
        let limit := if below4g ∧ first + count > 2 ^ 32 then 2 ^ 32 - first else count
        match bitmapScan bits (if index = 0 then startBit else 0) limit with
        | none => next v
        | some bit => (first + bit, takeBit v group bits bit)

/-- The block allocated, or 0 if there is none. -/
def allocBlock (goal : Nat) (below4g : Bool) : Nat × Volume :=
  let g := v.geometry
  if goal ≥ g.firstDataBlock ∧ goal < g.blocksCount then
    let within := goal - g.firstDataBlock
    allocLoop below4g (within / g.blocksPerGroup) (within % g.blocksPerGroup) g.groupCount 0 v
  else
    let v := if v.blockCursorGroup ≥ g.groupCount then
      { v with blockCursorGroup := 0, blockCursorBit := 0 } else v
    allocLoop below4g v.blockCursorGroup v.blockCursorBit g.groupCount 0 v

/-! ## Release -/

/-- The volume has a block of this number. -/
def Geometry.contains (block : Nat) : Bool := block ≥ g.firstDataBlock ∧ block < g.blocksCount

/-- What `release_block_now` does with a bit that is set. -/
def dropBit (group : Nat) (bits : Buffer) (bit : Nat) : Volume :=
  let v := (v.setBitmap group (bitClear bits bit)).markDirty group 1
  let v := sbSetFreeBlocks v (v.sbFreeBlocks + 1)
  gdSetFreeBlocks v group ((v.groups group).freeBlocks + 1)

/-- `release_block_now`. -/
def releaseBlockNow (block : Nat) : Volume :=
  if !v.geometry.contains block then v
  else
    let within := block - v.geometry.firstDataBlock
    let group := within / v.geometry.blocksPerGroup
    match blockBitmap v group with
    | (none, v) => v
    | (some bits, v) =>
      let bit := within % v.geometry.blocksPerGroup
      if !bitTest bits bit then v else dropBit v group bits bit

/-- `apply_pending_frees`. -/
def applyPendingFrees : Volume := { v.pendingFree.foldl releaseBlockNow v with pendingFree := [] }

/-- A block is freed. The buffer of the block is thrown away too, even if it is dirty; that is of no
    concern here unless the block holds a bitmap, which is not to be freed. -/
def freeBlock (block : Nat) : Volume :=
  if !v.geometry.contains block then v
  else if v.pendingFree.length = v.pendingFreeCapacity then
    match v.takeMalloc with
    | (false, v) => releaseBlockNow v block
    | (true, v) =>
      { v with
        pendingFreeCapacity := if v.pendingFreeCapacity ≠ 0 then v.pendingFreeCapacity * 2 else 256
        pendingFree := v.pendingFree ++ [block] }
  else { v with pendingFree := v.pendingFree ++ [block] }

end Tunix.Ext4
