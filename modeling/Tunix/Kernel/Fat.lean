import Tunix.Kernel.Block

/-!
# The FAT file system

The functions of `kernel/fs/fatfs.c` that read, write and truncate files of a volume, whose geometry
is that of any boot sector. They are programs that ask the device for sectors: a request names what
it is for (`FatUse`), and the program goes on with what the device answers. No request is checked on
its way to the disk, since `read_sectors` and `write_sectors` call the functions of the device
directly.
-/

namespace Tunix.Fat

open Block

/-! ## Volumes -/

/-- The geometry of a volume, as `fatfs_mount` reads it. -/
structure FatVolume where
  sectorsPerCluster : UInt32
  clusterBytes : UInt32
  fatStart : UInt32
  fatSectors : UInt32
  fatCount : UInt32
  rootStart : UInt32
  rootSectors : UInt32
  dataStart : UInt32
  clusterCount : UInt32
  rootCluster : UInt32
  bits : Nat

/-- The sizes are checked when a volume is mounted. -/
def bytesPerSector : UInt32 := 512

/-- A number of so many bytes, the low one first. -/
def littleEndian (data : Nat → UInt8) (at_ : Nat) : Nat → UInt32
  | 0 => 0
  | width + 1 =>
    littleEndian data at_ width ||| ((data (at_ + width)).toUInt32 <<< (8 * width).toUInt32)

/-! ## Requests -/

/-- What a request is for: an entry of a copy of the table, with the sector behind it; a sector of a
    cluster; or a sector of the root directory. -/
inductive FatUse
  | entry (copy cluster : UInt32)
  | data (cluster within : UInt32)
  | root (offset : UInt64)
  deriving DecidableEq

/-- The place of an entry in the table, in bytes. -/
def FatVolume.entryOffset (v : FatVolume) (cluster : UInt32) : UInt64 :=
  if v.bits = 12 then cluster.toUInt64 + (cluster / 2).toUInt64
  else if v.bits = 16 then cluster.toUInt64 * 2
  else cluster.toUInt64 * 4

/-- `cluster_sector`. -/
def FatVolume.clusterSector (v : FatVolume) (cluster : UInt32) : UInt64 :=
  v.dataStart.toUInt64 + (cluster - 2).toUInt64 * v.sectorsPerCluster.toUInt64

/-- The first sector of a use, relative to the partition. -/
def FatVolume.sector (v : FatVolume) : FatUse → UInt64
  | .entry copy cluster =>
    v.fatStart.toUInt64 + copy.toUInt64 * v.fatSectors.toUInt64 +
      v.entryOffset cluster / bytesPerSector.toUInt64
  | .data cluster within => v.clusterSector cluster + (within / bytesPerSector).toUInt64
  | .root offset => v.rootStart.toUInt64 + offset / bytesPerSector.toUInt64

/-- The sectors of a use. -/
def FatUse.count : FatUse → UInt32
  | .entry .. => 2
  | .data .. => 1
  | .root .. => 1

/-- A program that asks the device for sectors. -/
inductive FatProg (α : Type)
  | done (a : α)
  | read (use : FatUse) (next : Option (Nat → UInt8) → FatProg α)
  | write (use : FatUse) (data : Nat → UInt8) (next : Bool → FatProg α)

/-- One program behind another. -/
def FatProg.bind {α β : Type} : FatProg α → (α → FatProg β) → FatProg β
  | .done a, f => f a
  | .read use next, f => .read use fun answer => (next answer).bind f
  | .write use data next, f => .write use data fun answer => (next answer).bind f

instance : Monad FatProg where
  pure := .done
  bind := .bind

/-- The sectors of a use are read. -/
def readSectors (use : FatUse) : FatProg (Option (Nat → UInt8)) := .read use .done

/-- A device that cannot be written refuses without a request. -/
def writeSectors (writable : Bool) (use : FatUse) (data : Nat → UInt8) : FatProg Bool :=
  if writable then .write use data .done else .done false

/-! ## The table -/

section Volume

variable (v : FatVolume) (writable : Bool)

/-- `cluster_is_end`: no cluster follows. -/
def FatVolume.clusterIsEnd (value : UInt32) : Bool :=
  if v.bits = 12 then value ≥ 0x0FF8 else if v.bits = 16 then value ≥ 0xFFF8 else value ≥ 0x0FFFFFF8

/-- The mark for the last cluster of a chain. -/
def FatVolume.endMark : UInt32 :=
  if v.bits = 32 then 0x0FFFFFFF else if v.bits = 16 then 0xFFFF else 0x0FFF

/-- The entry of a cluster, in the sectors it lies in. -/
def FatVolume.entryValue (cluster : UInt32) (sectors : Nat → UInt8) : UInt32 :=
  let within := (v.entryOffset cluster % bytesPerSector.toUInt64).toNat
  let value := littleEndian sectors within (if v.bits = 12 ∨ v.bits = 16 then 2 else 4)
  if v.bits = 12 then if cluster % 2 = 1 then value >>> 4 else value &&& 0x0FFF
  else if v.bits = 32 then value &&& 0x0FFFFFFF
  else value

/-- Bytes replaced, from a place on. -/
def putBytes (data : Nat → UInt8) (at_ width : Nat) (value : UInt32) : Nat → UInt8 := fun i =>
  if at_ ≤ i ∧ i < at_ + width then (value >>> (8 * (i - at_)).toUInt32).toUInt8 else data i

namespace FatVolume

/-- The sectors of an entry with another value in it. -/
def withEntry (cluster value : UInt32) (sectors : Nat → UInt8) : Nat → UInt8 :=
  let within := (v.entryOffset cluster % bytesPerSector.toUInt64).toNat
  if v.bits = 12 then
    let packed : UInt32 := littleEndian sectors within 2
    let packed : UInt32 := if cluster % 2 = 1 then (packed &&& 0x000F) ||| (value <<< (4 : UInt32))
      else (packed &&& 0xF000) ||| (value &&& 0x0FFF)
    putBytes sectors within 2 packed
  else if v.bits = 16 then putBytes sectors within 2 value
  else
    let existing := littleEndian sectors within 4
    putBytes sectors within 4 ((existing &&& 0xF0000000) ||| (value &&& 0x0FFFFFFF))

/-- `fat_entry_read`. -/
def entryRead (cluster : UInt32) : FatProg (Option UInt32) := do
  match ← readSectors (.entry 0 cluster) with
  | none => return none
  | some sectors => return some (v.entryValue cluster sectors)

/-- A turn of the loop of `fat_entry_write`. -/
def entryWriteCopy (cluster value copy : UInt32) : FatProg Bool := do
  match ← readSectors (.entry copy cluster) with
  | none => return false
  | some sectors => writeSectors writable (.entry copy cluster) (v.withEntry cluster value sectors)

/-- The loop of `fat_entry_write` over the copies of the table. -/
def entryWriteCopies (cluster value : UInt32) : Nat → UInt32 → FatProg Bool
  | 0, _ => return true
  | copies + 1, copy => do
    if ← v.entryWriteCopy writable cluster value copy then
      entryWriteCopies cluster value copies (copy + 1)
    else return false

/-- `fat_entry_write`: the entry in all copies of the table. -/
def entryWrite (cluster value : UInt32) : FatProg Bool :=
  v.entryWriteCopies writable cluster value v.fatCount.toNat 0

/-- The loop of `fat_allocate_cluster`. -/
def allocateFrom : Nat → UInt32 → FatProg UInt32
  | 0, _ => return 0
  | turns + 1, cluster =>
    if cluster ≥ v.clusterCount + 2 then return 0
    else do
      match ← v.entryRead cluster with
      | none => return 0
      | some value =>
        if value ≠ 0 then allocateFrom turns (cluster + 1)
        else if ← v.entryWrite writable cluster v.endMark then return cluster
        else return 0

/-- `fat_allocate_cluster`: the first free cluster, marked as the end of a chain. -/
def allocateCluster : FatProg UInt32 := v.allocateFrom writable (v.clusterCount + 2).toNat 2

/-- The loop of `cluster_at`. -/
def clusterWalk (grow : Bool) : Nat → UInt32 → FatProg UInt32
  | 0, cluster => return cluster
  | steps + 1, cluster => do
    match ← v.entryRead cluster with
    | none => return 0
    | some next =>
      if !v.clusterIsEnd next then clusterWalk grow steps next
      else if !grow then return 0
      else
        let next ← v.allocateCluster writable
        if next = 0 then return 0
        else if ← v.entryWrite writable cluster next then clusterWalk grow steps next
        else return 0

/-- `cluster_at`: the cluster that holds an offset of a file. -/
def clusterAt (first : UInt32) (offset : UInt64) (grow : Bool) : FatProg UInt32 :=
  if first < 2 then return 0
  else v.clusterWalk writable grow (offset / v.clusterBytes.toUInt64).toNat first

/-! ## Directories -/

/-- `directory_read`. -/
def directoryRead (cluster : UInt32) (offset : UInt64) : FatProg (Option (Nat → UInt8)) :=
  if cluster = 0 then
    if offset / bytesPerSector.toUInt64 ≥ v.rootSectors.toUInt64 then return none
    else readSectors (.root offset)
  else do
    let here ← v.clusterAt writable cluster offset false
    if here = 0 then return none
    else readSectors (.data here (offset % v.clusterBytes.toUInt64).toUInt32)

/-- `directory_write`. -/
def directoryWrite (cluster : UInt32) (offset : UInt64) (data : Nat → UInt8) : FatProg Bool :=
  if cluster = 0 then
    if offset / bytesPerSector.toUInt64 ≥ v.rootSectors.toUInt64 then return false
    else writeSectors writable (.root offset) data
  else do
    let here ← v.clusterAt writable cluster offset false
    if here = 0 then return false
    else writeSectors writable (.data here (offset % v.clusterBytes.toUInt64).toUInt32) data

end FatVolume

/-- What a node keeps of its file. -/
structure FatFile where
  firstCluster : UInt32
  entryCluster : UInt32
  entryOffset : UInt32
  length : UInt64

/-- The entry with the first cluster and the size of its file. -/
def directoryEntry (data : Nat → UInt8) (at_ : Nat) (size firstCluster : UInt32) : Nat → UInt8 :=
  let data := putBytes data (at_ + 26) 2 firstCluster
  let data := putBytes data (at_ + 20) 2 (firstCluster >>> 16)
  putBytes data (at_ + 28) 4 size

/-- `fat_write_directory_entry`: size and first cluster of a file. -/
def FatVolume.writeDirectoryEntry (file : FatFile) (size firstCluster : UInt32) : FatProg Bool := do
  let within := file.entryOffset % bytesPerSector
  let offset := (file.entryOffset - within).toUInt64
  match ← v.directoryRead writable file.entryCluster offset with
  | none => return false
  | some sector =>
    v.directoryWrite writable file.entryCluster offset
      (directoryEntry sector within.toNat size firstCluster)

/-! ## Files -/

/-- How much of a sector a step moves. -/
def chunkSize (within : UInt32) (left : Nat) : Nat :=
  min (bytesPerSector - within % bytesPerSector).toNat left

namespace FatVolume

/-- The loop of `fat_node_read`; the bytes come in the order of the file. -/
def readLoop (first : UInt32) : Nat → UInt64 → Nat → List UInt8 → FatProg (Option (List UInt8))
  | 0, _, _, moved => return some moved
  | turns + 1, offset, left, moved =>
    if left = 0 then return some moved
    else do
      let cluster ← v.clusterAt writable first offset false
      if cluster = 0 then return some moved
      else
        let within := (offset % v.clusterBytes.toUInt64).toUInt32
        match ← readSectors (.data cluster within) with
        | none => return none
        | some staging =>
          let chunk := chunkSize within left
          let bytes := (List.range chunk).map fun i => staging ((within % bytesPerSector).toNat + i)
          readLoop first turns (offset + chunk.toUInt64) (left - chunk) (moved ++ bytes)

/-- `fat_node_read`. -/
def nodeRead (file : FatFile) (offset : UInt64) (size : Nat) : FatProg (Option (List UInt8)) :=
  if offset ≥ file.length then return some []
  else
    let size := min size (file.length - offset).toNat
    v.readLoop writable file.firstCluster size offset size []

/-- `release_chain`, with a bound for the length of the chain. -/
def releaseChain : Nat → UInt32 → FatProg Bool
  | 0, _ => return true
  | turns + 1, cluster =>
    if cluster < 2 ∨ v.clusterIsEnd cluster then return true
    else do
      match ← v.entryRead cluster with
      | none => return false
      | some next =>
        if ← v.entryWrite writable cluster 0 then releaseChain turns next else return false

/-- The part of `fat_node_truncate` that cuts a chain behind its last cluster. -/
def cutChain (turns : Nat) (first : UInt32) (length : UInt64) : FatProg Bool := do
  let last ← v.clusterAt writable first (length - 1) false
  if last = 0 then return false
  else match ← v.entryRead last with
    | none => return false
    | some next =>
      if ← v.entryWrite writable last v.endMark then
        if v.clusterIsEnd next then return true else v.releaseChain writable turns next
      else return false

/-- `fat_node_truncate`. -/
def nodeTruncate (turns : Nat) (file : FatFile) (length : UInt64) : FatProg Bool :=
  if !writable then return false
  else if length > 0xFFFFFFFF then return false
  else if length ≥ file.length then
    v.writeDirectoryEntry writable file length.toUInt32 file.firstCluster
  else if length = 0 then do
    if ← v.releaseChain writable turns file.firstCluster then
      v.writeDirectoryEntry writable file 0 0
    else return false
  else do
    if ← v.cutChain writable turns file.firstCluster length then
      v.writeDirectoryEntry writable file length.toUInt32 file.firstCluster
    else return false

end FatVolume

/-- A step of `fat_node_write`: the sector with the new bytes is written; a sector that is not
    replaced as a whole is read before. -/
def writeChunk (cluster within : UInt32) (bytes : Nat → UInt8) (chunk : Nat) : FatProg Bool := do
  let place := (within % bytesPerSector).toNat
  let filled := fun (staging : Nat → UInt8) i =>
    if place ≤ i ∧ i < place + chunk then bytes (i - place) else staging i
  if chunk ≠ bytesPerSector.toNat then
    match ← readSectors (.data cluster within) with
    | none => return false
    | some staging => writeSectors writable (.data cluster within) (filled staging)
  else writeSectors writable (.data cluster within) (filled fun _ => 0)

/-- The loop of `fat_node_write`; it comes to the end of what was written. -/
def FatVolume.writeLoop (first : UInt32) (bytes : Nat → UInt8) :
    Nat → UInt64 → Nat → Nat → FatProg (Option (UInt64 × Nat))
  | 0, offset, _, moved => return some (offset, moved)
  | turns + 1, offset, left, moved =>
    if left = 0 then return some (offset, moved)
    else do
      let cluster ← v.clusterAt writable first offset true
      if cluster = 0 then return some (offset, moved)
      else
        let within := (offset % v.clusterBytes.toUInt64).toUInt32
        let chunk := chunkSize within left
        if ← writeChunk writable cluster within (fun i => bytes (moved + i)) chunk then
          FatVolume.writeLoop first bytes turns (offset + chunk.toUInt64)
            (left - chunk) (moved + chunk)
        else return none

/-- The first cluster of a file that is about to be written. -/
def FatVolume.firstFor (file : FatFile) (size : Nat) : FatProg (Option UInt32) :=
  if file.firstCluster < 2 ∧ size ≠ 0 then do
    let cluster ← v.allocateCluster writable
    if cluster = 0 then return none else return some cluster
  else return some file.firstCluster

/-- `fat_node_write`. -/
def FatVolume.nodeWrite (file : FatFile) (offset : UInt64) (size : Nat) (bytes : Nat → UInt8) :
    FatProg (Option Nat) :=
  if !writable then return none
  else do
    match ← v.firstFor writable file size with
    | none => return none
    | some first =>
      match ← v.writeLoop writable first bytes size offset size 0 with
      | none => return none
      | some (offset, moved) =>
        let length := max offset file.length
        if ← v.writeDirectoryEntry writable file length.toUInt32 first then return some moved
        else return none

end Volume

end Tunix.Fat
