import Tunix.Kernel.Cred

/-!
# System V shared memory

`kernel/ipc/sysvshm.c` and the system calls on it in `kernel/core/syscall.c`. The table of segments
is a list of slots. Of the file of a segment only the counter of references matters, one of which is
the segment's own; areas that map the file come and go with calls of all kinds, and `areas` is what
has become of their number. What the kernel answers otherwise (memory, a place for a mapping, page
tables) is an input. Times and process numbers are left out.
-/

namespace Tunix.SysvShm

open Tunix.Core

/-- `SHM_MAX_BYTES`. -/
def shmMaxBytes : UInt64 := 0x00007FFFFFFFFFFF
/-- `IPC_PRIVATE`: a segment without a key. -/
def ipcPrivate : Int32 := 0
/-- `IPC_CREAT`. -/
def ipcCreat : UInt32 := 0x200
/-- `IPC_EXCL`. -/
def ipcExcl : UInt32 := 0x400
/-- `IPC_64`. -/
def ipc64 : UInt32 := 0x100
/-- `SHM_RDONLY`. -/
def shmRdonly : UInt32 := 0x1000
/-- `SHM_RND`: the address is rounded down. -/
def shmRnd : UInt32 := 0x2000
/-- `USER_ADDRESS_LIMIT`. -/
def userAddressLimit : UInt64 := 0x0000800000000000

/-- The error numbers of the calls. -/
inductive Error
  | noEnt
  | noMem
  | fault
  | exist
  | inval
  | noSpc
  deriving DecidableEq

/-- `struct shm_segment`. -/
structure Segment where
  used : Bool
  destroyed : Bool
  id : Int32
  key : Int32
  mode : UInt32
  uid : UInt32
  gid : UInt32
  cuid : UInt32
  cgid : UInt32
  size : UInt64
  /-- References of the file besides that of the segment. -/
  attachCount : Nat
  deriving DecidableEq

/-- A slot that is not used. -/
def Segment.zero : Segment := ⟨false, false, 0, 0, 0, 0, 0, 0, 0, 0, 0⟩

/-- The table of segments, and the attachments of the processes. -/
structure Shm where
  segments : List Segment
  nextId : Int32
  deriving DecidableEq

variable (s : Shm)

/-- `find_by_id`. -/
def Shm.findById (id : Int32) : Option Nat :=
  if id ≤ 0 then none else s.segments.findIdx? fun segment => segment.used && segment.id == id

/-- `find_by_key`: a segment that is being destroyed has no key any more. -/
def Shm.findByKey (key : Int32) : Option Segment :=
  if key = ipcPrivate then none
  else s.segments.find? fun segment => segment.used && !segment.destroyed && segment.key == key

/-- Changes one slot. -/
def Shm.modify (s : Shm) (i : Nat) (change : Segment → Segment) : Shm :=
  { s with segments := s.segments.modify i change }

/-- `sysvshm_reap`: a destroyed segment goes when nothing is attached to it. -/
def Shm.sysvshmReap : Shm := { s with segments := s.segments.map fun segment =>
      if segment.used && segment.destroyed && segment.attachCount == 0 then .zero else segment }

/-- The first free slot, in a larger table if there is none; `grown` says whether there is memory
    for it. -/
def Shm.slot (grown : Bool) : Option (Nat × Shm) :=
  match s.segments.findIdx? fun segment => !segment.used with
  | some i => some (i, s)
  | none =>
    let capacity := if s.segments.length ≠ 0 then s.segments.length * 2 else 32
    if grown then
      some (s.segments.length,
        { s with segments := s.segments ++ List.replicate (capacity - s.segments.length) .zero })
    else none

/-- `sysvshm_get`. `object` says whether there is memory for the file and its pages. -/
def Shm.sysvshmGet (caller : Credentials) (key : Int32) (size : UInt64) (flags : UInt32)
    (grown object : Bool) : Except Error Int32 × Shm :=
  let s := s.sysvshmReap
  match s.findByKey key with
  | some existing =>
    if flags &&& ipcCreat ≠ 0 ∧ flags &&& ipcExcl ≠ 0 then (.error .exist, s)
    else if size ≠ 0 ∧ existing.size < size then (.error .inval, s)
    else (.ok existing.id, s)
  | none =>
    if key ≠ ipcPrivate ∧ flags &&& ipcCreat = 0 then (.error .noEnt, s)
    else if size = 0 ∨ shmMaxBytes < size then (.error .inval, s)
    else
      match s.slot grown with
      | none => (.error .noSpc, s)
      | some (i, s) =>
        if object then
          let next := s.nextId + 1
          let new : Segment :=
            { used := true, destroyed := false, id := s.nextId, key, mode := flags &&& 0x1FF,
              uid := caller.user.effective, cuid := caller.user.effective,
              gid := caller.group.effective, cgid := caller.group.effective,
              size, attachCount := 0 }
          (.ok s.nextId, { s.modify i (fun _ => new) with nextId := if next ≤ 0 then 1 else next })
        else (.error .noMem, s)

/-- The next page boundary. -/
def alignUp (value : UInt64) : UInt64 := (value + 4095) &&& ~~~4095

/-- A mapping of a segment: where it is and whether it may be written. It may always be read. -/
structure Mapping where
  base : UInt64
  write : Bool
  deriving DecidableEq

/-- `sys_shmat`. `range` is what `find_mapping_range` answers, `mapped` whether pages and area are
    made. -/
def Shm.sysShmat (id : Int32) (address : UInt64) (flags : UInt32) (range : Option UInt64)
    (mapped : Bool) : Except Error Mapping × Shm :=
  match s.findById id with
  | none => (.error .inval, s)
  | some i =>
    let length := alignUp (s.segments.getD i .zero).size
    if length = 0 then (.error .inval, s)
    else if address ≠ 0 ∧ address &&& 0xFFF ≠ 0 ∧ flags &&& shmRnd = 0 then (.error .inval, s)
    else
      match if address ≠ 0 then some (address &&& ~~~0xFFF) else range with
      | none => (.error .noMem, s)
      | some base =>
        if base < 0x10000 ∨ userAddressLimit ≤ base ∨
          userAddressLimit - base < length then (.error .inval, s)
        else if mapped then
          (.ok ⟨base, flags &&& shmRdonly = 0⟩,
            s.modify i fun segment => { segment with attachCount := segment.attachCount + 1 })
        else (.error .noMem, s)

/-- `sysvshm_set`. -/
def Shm.sysvshmSet (id : Int32) (mode uid gid : UInt32) : Except Error Unit × Shm :=
  match s.findById id with
  | none => (.error .inval, s)
  | some i => (.ok (), s.modify i fun segment => { segment with mode := mode &&& 0x1FF, uid, gid })

/-- `sysvshm_remove`. -/
def Shm.sysvshmRemove (id : Int32) : Except Error Unit × Shm := match s.findById id with
  | none => (.error .inval, s)
  | some i =>
    (.ok (), s.modify i fun segment =>
      if 0 < segment.attachCount then { segment with destroyed := true } else .zero)

/-- What `IPC_SET` takes from the buffer. -/
structure ShmIdDs where
  mode : UInt32
  uid : UInt32
  gid : UInt32

/-- The commands of `sys_shmctl`. -/
inductive Command
  | rmid
  | set
  | stat
  deriving DecidableEq

/-- The command of a number, whatever its `IPC_64` bit. -/
def Command.ofNat? (command : UInt32) : Option Command :=
  if command &&& ~~~ipc64 = 0 then some .rmid
  else if command &&& ~~~ipc64 = 1 then some .set
  else if command &&& ~~~ipc64 = 2 then some .stat
  else none

/-- `sys_shmctl`. `buffer` is what can be copied from the user, and `writable` whether `IPC_STAT`
    can copy its answer there. -/
def Shm.sysShmctl (id : Int32) (command : UInt32) (buffer : Option ShmIdDs) (writable : Bool) :
    Except Error Unit × Shm :=
  match Command.ofNat? command with
  | some .rmid => s.sysvshmRemove id
  | some .set =>
    match buffer with
    | none => (.error .fault, s)
    | some value => s.sysvshmSet id value.mode value.uid value.gid
  | some .stat =>
    if (s.findById id).isNone then (.error .inval, s)
    else if writable then (.ok (), s)
    else (.error .fault, s)
  | none => (.error .inval, s)

/-- The calls of a process. -/
inductive Call
  | shmget (key : Int32) (size : UInt64) (flags : UInt32) (grown object : Bool)
  | shmat (id : Int32) (address : UInt64) (flags : UInt32) (range : Option UInt64) (mapped : Bool)
  | shmctl (id : Int32) (command : UInt32) (buffer : Option ShmIdDs) (writable : Bool)
  /-- `sys_shmdt` and whatever else unmaps, splits or copies areas of a segment's file. -/
  | areas (slot count : Nat)
  | reap

/-- The segments after a call. -/
def Shm.call (caller : Credentials) : Call → Shm
  | .shmget key size flags grown object => (s.sysvshmGet caller key size flags grown object).2
  | .shmat id address flags range mapped => (s.sysShmat id address flags range mapped).2
  | .shmctl id command buffer writable => (s.sysShmctl id command buffer writable).2
  | .areas slot count => s.modify slot fun segment => { segment with attachCount := count }
  | .reap => s.sysvshmReap

end Tunix.SysvShm
