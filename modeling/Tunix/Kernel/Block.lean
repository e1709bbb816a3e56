import Mathlib.Algebra.Group.Nat.Defs

/-!
# Block devices

The part of `kernel/block/block.c` that checks requests and hands those of a partition on to its
disk. The counting of requests and the reports of failures are left out.
-/

namespace Tunix.Block

/-- `BLOCK_SECTOR_SIZE`. -/
def blockSectorSize : Nat := 512

/-- What a request does with the sectors. -/
inductive Direction
  | read
  | write
  | discard
  deriving DecidableEq

/-- A request as it comes to a disk. -/
structure DiskRequest where
  direction : Direction
  lba : UInt64
  count : UInt32
  deriving DecidableEq

/-- A partition: where it starts on its disk, its size, and what its disk can do. -/
structure PartitionDevice where
  start : UInt64
  sectors : UInt64
  /-- `block_register_partition` only takes what is on the disk. -/
  onDisk : start.toNat + sectors.toNat < 2 ^ 64
  writable : Bool
  discards : Bool

/-- The functions of the device that are there. -/
def PartitionDevice.offers (d : PartitionDevice) : Direction → Bool
  | .read => true
  | .write => d.writable
  | .discard => d.discards

/-- What `partition_read`, `partition_write` and `partition_discard` ask of the disk. -/
def PartitionDevice.request (d : PartitionDevice) (direction : Direction) (lba : UInt64)
    (count : UInt32) :
    DiskRequest :=
  { direction, lba := d.start + lba, count }

/-- The request that `block_device_read`, `block_device_write` or `block_device_discard` makes, if
    any. -/
def PartitionDevice.blockDevice (d : PartitionDevice) (direction : Direction) (lba : UInt64)
    (count : UInt32) : Option DiskRequest :=
  if !d.offers direction ∨ count = 0 then none
  else if lba + count.toUInt64 > d.sectors then none
  else some (d.request direction lba count)

end Tunix.Block
