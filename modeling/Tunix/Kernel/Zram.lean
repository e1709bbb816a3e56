import Mathlib.Init

/-!
# The compressed disk in memory

`kernel/drivers/storage/zram.c`: a disk of pages, each kept as nothing, as a word that fills it,
compressed, or as it is. Sectors are read and written through the pages that they lie in. Every
operation holds `zram_lock`. The table of slots is empty while the device has no size.
-/

namespace Tunix.Zram

/-- `ZRAM_PAGE`, `BLOCK_SECTOR_SIZE` and `ZRAM_SECTORS`. -/
def pageSize : Nat := 4096
/-- `BLOCK_SECTOR_SIZE`. -/
def sectorSize : Nat := 512
/-- `ZRAM_SECTORS`: the sectors of a page. -/
def sectors : Nat := 8

/-- `ZRAM_HUGE` and `ZRAM_HEADER`. -/
def huge : Nat := 3072
/-- `ZRAM_HEADER`: what an allocation costs besides its bytes. -/
def header : Nat := 48

/-- The bytes of a page. -/
abbrev Page := Fin 4096 → UInt8

/-- The byte at an address of the disk in the page that holds it. -/
def Page.byte (page : Page) (i : Nat) : UInt8 := page (Fin.ofNat 4096 i)

/-- The eight bytes of a word as they stand in memory. -/
abbrev Word := Fin 8 → UInt8

/-- `tunix_lz4_compress`, with no bytes for the size 0, and `tunix_lz4_decompress` into a page. -/
structure Codec where
  compress : Page → List UInt8
  decompress : List UInt8 → Option Page

/-- `struct zram_slot`, with the memory that it points to. -/
inductive Slot
  | empty
  | same (value : Word)
  | packed (blob : List UInt8)
  | raw (page : Page)

/-- The field `size`. -/
def Slot.size : Slot → Nat
  | .packed blob => blob.length
  | .raw _ => pageSize
  | _ => 0

/-- What the bytes of a slot are charged with. -/
def charge (size : Nat) : Nat := size + header

/-- The memory that a slot is charged for. -/
def Slot.charged : Slot → Nat
  | .packed blob => charge blob.length
  | .raw _ => charge pageSize
  | _ => 0

/-- The device: the slots and the counters. -/
structure State where
  slots : List Slot
  storedPages : Nat
  compressedBytes : Nat
  memoryUsed : Nat
  memoryUsedMax : Nat
  memoryLimit : Nat
  samePages : Nat
  hugePages : Nat
  hugePagesSince : Nat
  failedReads : Nat
  failedWrites : Nat
  invalidIo : Nat
  freedNotices : Nat

/-- The device before it has a size. -/
def State.initial (memoryLimit : Nat) : State := ⟨[], 0, 0, 0, 0, memoryLimit, 0, 0, 0, 0, 0, 0, 0⟩

variable (codec : Codec) (s : State)

/-- The slot of a page. -/
def State.slot (page : Nat) : Slot := s.slots.getD page .empty

/-! ## Slots -/

/-- The counters after the slot has been cleared. -/
def State.uncount : Slot → State
  | .empty => s
  | .same _ => { s with samePages := s.samePages - 1, storedPages := s.storedPages - 1 }
  | .packed blob => { s with
      memoryUsed := s.memoryUsed - charge blob.length
      compressedBytes := s.compressedBytes - blob.length
      storedPages := s.storedPages - 1 }
  | .raw _ => { s with
      memoryUsed := s.memoryUsed - charge pageSize
      compressedBytes := s.compressedBytes - pageSize
      hugePages := s.hugePages - 1
      storedPages := s.storedPages - 1 }

/-- `slot_clear`. -/
def slotClear (page : Nat) : State :=
  { s.uncount (s.slot page) with slots := s.slots.set page .empty }

/-- `same_filled`, with the word of the page that it gives. -/
def sameFilled (page : Page) : Option Word :=
  if (List.range' 1 511).all fun index => (List.range 8).all fun k =>
    page.byte (8 * index + k) = page.byte k then
    some fun k => page.byte k
  else none

/-- Why a page is not stored. -/
inductive Errno
  | ENOSPC
  | ENOMEM
deriving DecidableEq

/-- `slot_store`. -/
def slotStore (page : Nat) (data : Page) (kmalloc : Bool) : State × Option Errno :=
  match sameFilled data with
  | some pattern =>
    let s := slotClear s page
    ({ s with
      slots := s.slots.set page (.same pattern), samePages := s.samePages + 1,
      storedPages := s.storedPages + 1 },
      none)
  | none =>
    let packed := codec.compress data
    let whole := packed.length = 0 ∨ huge < packed.length
    let size := if whole then pageSize else packed.length
    let oldCharge := (s.slot page).charged
    if s.memoryLimit ≠ 0 ∧
      s.memoryLimit < s.memoryUsed - oldCharge + charge size then (s, some .ENOSPC)
    else if ¬kmalloc then (s, some .ENOMEM)
    else
      let s := slotClear s page
      let s := { s with
        slots := s.slots.set page (if whole then .raw data else .packed packed)
        storedPages := s.storedPages + 1
        compressedBytes := s.compressedBytes + size
        memoryUsed := s.memoryUsed + charge size }
      let s := if s.memoryUsedMax < s.memoryUsed then
        { s with memoryUsedMax := s.memoryUsed } else s
      (if whole then { s with hugePages := s.hugePages + 1, hugePagesSince := s.hugePagesSince + 1 }
        else s, none)

/-- What a slot holds; `none` is `-EIO`. -/
def Slot.load : Slot → Option Page
  | .empty => some fun _ => 0
  | .same value => some fun i => value (Fin.ofNat 8 i)
  | .raw page => some page
  | .packed blob => codec.decompress blob

/-- `slot_load`. -/
def slotLoad (page : Nat) : Option Page := (s.slot page).load codec

/-! ## Sectors -/

/-- `range_valid`. -/
def rangeValid (lba count : Nat) : Bool :=
  count ≠ 0 ∧ lba < s.slots.length * sectors ∧ count ≤ s.slots.length * sectors - lba

/-- The sectors of the first page of a range. -/
def takeOf (lba count : Nat) : Nat :=
  if count < sectors - lba % sectors then count else sectors - lba % sectors

/-- Each turn of the loops goes forward. -/
theorem takeOf_pos (lba : Nat) {count : Nat} (h : count ≠ 0) : 0 < takeOf lba count := by
  unfold takeOf sectors
  split <;> omega

/-- No turn goes past the end of the request. -/
theorem takeOf_le (lba count : Nat) : takeOf lba count ≤ count := by
  unfold takeOf sectors
  split <;> omega

/-- The loop of `zram_read`. -/
def readLoop (codec : Codec) (s : State) (lba count : Nat) : State × Option (List UInt8) :=
  if _h : count = 0 then (s, some [])
  else
    let within := lba % sectors
    let take := takeOf lba count
    match slotLoad codec s (lba / sectors) with
    | none => ({ s with failedReads := s.failedReads + 1 }, none)
    | some data =>
      let out :=
        if within = 0 ∧ take = sectors then (List.range pageSize).map data.byte
        else (List.range (take * sectorSize)).map fun i => data.byte (within * sectorSize + i)
      let (s, rest) := readLoop codec s (lba + take) (count - take)
      (s, rest.map (out ++ ·))
termination_by count
decreasing_by
  have hpos := takeOf_pos lba _h
  omega

/-- `zram_read`. -/
def zramRead (lba count : Nat) : State × Option (List UInt8) :=
  if ¬rangeValid s lba count then ({ s with invalidIo := s.invalidIo + 1 }, none)
  else readLoop codec s lba count

/-- `memcpy` of `size` bytes into a page. -/
def Page.copy (page : Page) (start size : Nat) (source : Nat → UInt8) : Page :=
  fun i => if start ≤ i.val ∧ i.val < start + size then source (i.val - start) else page i

/-- The loop of `zram_write`: `source` is the memory at the pointer `in`, and `kmalloc` says for
    which pages memory is found. -/
def writeLoop (codec : Codec) (kmalloc : Nat → Bool) (s : State) (lba count : Nat)
    (source : Nat → UInt8) :
    State × Bool :=
  if _h : count = 0 then (s, true)
  else
    let page := lba / sectors
    let within := lba % sectors
    let take := takeOf lba count
    let whole : Option Page :=
      if within ≠ 0 ∨ take ≠ sectors then
        (slotLoad codec s page).map fun scratch =>
          scratch.copy (within * sectorSize) (take * sectorSize) source
      else some fun i => source i.val
    match whole with
    | none => ({ s with failedWrites := s.failedWrites + 1 }, false)
    | some whole =>
      match slotStore codec s page whole (kmalloc page) with
      | (s, some _) => ({ s with failedWrites := s.failedWrites + 1 }, false)
      | (s, none) =>
        writeLoop codec kmalloc s (lba + take) (count - take) fun i =>
          source (i + take * sectorSize)
termination_by count
decreasing_by
  have hpos := takeOf_pos lba _h
  omega

/-- `zram_write`. -/
def zramWrite (kmalloc : Nat → Bool) (s : State) (lba count : Nat) (source : Nat → UInt8) :
    State × Bool :=
  if ¬rangeValid s lba count then ({ s with invalidIo := s.invalidIo + 1 }, false)
  else writeLoop codec kmalloc s lba count source

/-- A turn of the loop of `zram_discard`. -/
def discardPage (page : Nat) : State := slotClear (match s.slot page with
    | .empty => s
    | _ => { s with freedNotices := s.freedNotices + 1 }) page

/-- `zram_discard`. -/
def zramDiscard (lba count : Nat) : State × Bool :=
  if ¬rangeValid s lba count then (s, false)
  else
    let first := (lba + sectors - 1) / sectors
    let last := (lba + count) / sectors
    ((List.range' first (last - first)).foldl discardPage s, true)

/-- `release_all`. -/
def releaseAll : State :=
  let s := (List.range s.slots.length).foldl slotClear s
  { s with slots := [], hugePagesSince := 0, memoryUsedMax := s.memoryUsed }

/-- `disksize` is written, with a number of pages for which there is memory. -/
def setDisksize (pages : Nat) : State :=
  if s.slots = [] then { s with slots := List.replicate pages .empty } else s

/-- The calls on the device. -/
inductive Event
  | disksize (pages : Nat)
  | read (lba count : Nat)
  | write (lba count : Nat) (source : Nat → UInt8) (kmalloc : Nat → Bool)
  | discard (lba count : Nat)
  | reset

/-- The device after a call. -/
def step : Event → State
  | .disksize pages => setDisksize s pages
  | .read lba count => (zramRead codec s lba count).1
  | .write lba count source kmalloc => (zramWrite codec kmalloc s lba count source).1
  | .discard lba count => (zramDiscard s lba count).1
  | .reset => releaseAll s

/-- The device after some calls. -/
def run (events : List Event) : State := events.foldl (step codec) s

end Tunix.Zram
