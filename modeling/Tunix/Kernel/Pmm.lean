import Tunix.ForStd.Bits

/-!
# Physical pages

The allocator of physical pages, from `kernel/mm/pmm.c`: a bitmap with a bit for each page that is
taken, a reference count for each page, a counter of the free pages and a hint where to look for the
next one. Addresses and the arithmetic on them are 64 bits wide; page numbers are natural numbers.
-/

namespace Tunix.Mm

open Bytes

/-- `PMM_PAGE_SIZE`. -/
def pmmPageSize : Nat := 4096
/-- `DIRECT_MAP_BYTES`: memory behind it is not used. -/
def directMapBytes : UInt64 := 0x3E8000000000
/-- `PMM_LOW_MEMORY_RESERVE`: the pages below stay reserved. -/
def pmmLowMemoryReserve : UInt64 := 0x100000

/-- The calls of `panic` in the allocator. -/
inductive PmmPanic
  | insufficientUsableMemory
  | noRoomForTracking
  | invariantBroken
  | invalidFree
  | doubleFree
  deriving DecidableEq

/-- An entry of the memory map. -/
structure MemoryRegion where
  base : UInt64
  length : UInt64
  usable : Bool

/-- The bitmap of the pages in use, and how often each is referred to. -/
structure Pmm where
  bitmap : Buffer
  refcounts : Nat → UInt32
  totalPages : Nat
  usablePages : Nat
  freePages : Nat
  nextHint : Nat
  trackingPhysical : UInt64
  trackingBytes : UInt64

/-- `bit_set`. -/
def Pmm.bitSet (s : Pmm) (page : Nat) : Pmm := { s with bitmap := Bytes.bitSet s.bitmap page }

/-- `bit_clear`. -/
def Pmm.bitClear (s : Pmm) (page : Nat) : Pmm := { s with bitmap := Bytes.bitClear s.bitmap page }

/-- `bit_test`. -/
def Pmm.bitTest (s : Pmm) (page : Nat) : Bool := Bytes.bitTest s.bitmap page

variable (s : Pmm)

/-- The count of a page is replaced. -/
def Pmm.setRefcount (page : Nat) (count : UInt32) : Pmm :=
  { s with refcounts := Function.update s.refcounts page count }

/-- A free page is taken out of those that can be allocated. -/
def Pmm.reservePage (page : Nat) : Pmm :=
  if page < s.totalPages ∧ !s.bitTest page then
    { s.bitSet page with freePages := s.freePages - 1 }
  else s

/-! ## The memory map -/

/-- The start of a page, for an address. -/
def pageDown (address : UInt64) : UInt64 := address &&& ~~~4095

/-- The first page boundary at or above an address. -/
def pageUp (address : UInt64) : UInt64 := pageDown (address + 4095)

/-- The highest place for the tracking tables, after one more region. -/
def placeInRegion (totalPages trackingBytes best : UInt64) (region : MemoryRegion) : UInt64 :=
  if !region.usable then best
  else
    let start := pageUp region.base
    let stop := pageDown (region.base + region.length)
    let start := if start < pmmLowMemoryReserve then pmmLowMemoryReserve else start
    let stop := if stop > totalPages * 4096 then totalPages * 4096 else stop
    if stop ≤ start ∨ stop - start < trackingBytes then best
    else if stop - trackingBytes > best then stop - trackingBytes
    else best

/-- Where bitmap and counts go: into the first region with room for them. -/
def placeTracking (totalPages trackingBytes : UInt64) (regions : List MemoryRegion) : UInt64 :=
  regions.foldl (placeInRegion totalPages trackingBytes) 0

/-- The end of memory and the bytes that are usable, after one more region. -/
def measureRegion (acc : UInt64 × UInt64) (region : MemoryRegion) : UInt64 × UInt64 :=
  let (highest, usable) := acc
  let stop := region.base + region.length
  if stop < region.base then acc
  else
    let stop := if stop > directMapBytes then directMapBytes else stop
    if stop ≤ region.base then acc
    else (if stop > highest then stop else highest,
      if region.usable then usable + (stop - region.base) else usable)

/-- A page of usable memory becomes free. -/
def Pmm.addPage (page : Nat) : Pmm :=
  if page < s.totalPages ∧ s.bitTest page then
    { s.bitClear page with freePages := s.freePages + 1 }
  else s

/-- The whole pages of a usable region become free. -/
def Pmm.addRegion (highest : UInt64) (s : Pmm) (region : MemoryRegion) : Pmm :=
  if !region.usable then s
  else
    let start := pageUp region.base
    let stop := pageDown (region.base + region.length)
    let stop := if stop > highest then pageDown highest else stop
    -- both ends are multiples of the page size
    let first := start.toNat / pmmPageSize
    let last := stop.toNat / pmmPageSize
    (List.range' first (last - first)).foldl Pmm.addPage s

/-- A page of the tracking tables themselves. -/
def Pmm.trackPage (page : Nat) : Pmm := (s.reservePage page).setRefcount page 1

/-- `pmm_init`. -/
def pmmInit (regions : List MemoryRegion) : Except PmmPanic Pmm :=
  let (highest, usable) := regions.foldl measureRegion (0, 0)
  if usable < 2 * 1024 * 1024 then .error .insufficientUsableMemory
  else
    let totalPages := (highest + 4095) / 4096
    let bitmapBytes := (totalPages + 7) / 8
    let refcountOffset := (bitmapBytes + 63) &&& ~~~63
    let trackingBytes := pageUp (refcountOffset + totalPages * 4)
    let trackingPhysical := placeTracking totalPages trackingBytes regions
    if trackingPhysical = 0 then .error .noRoomForTracking
    else
      let s : Pmm :=
        { bitmap := fun _ => 0xFF, refcounts := fun _ => 0, totalPages := totalPages.toNat
          usablePages := 0, freePages := 0, nextHint := 0, trackingPhysical, trackingBytes }
      let s := regions.foldl (Pmm.addRegion highest) s
      let s := { s with usablePages := s.freePages }
      let s := (List.range (pmmLowMemoryReserve.toNat / pmmPageSize)).foldl Pmm.reservePage s
      let first := trackingPhysical.toNat / pmmPageSize
      let last := (trackingPhysical + trackingBytes).toNat / pmmPageSize
      let s := (List.range' first (last - first)).foldl Pmm.trackPage s
      .ok { s with nextHint := pmmLowMemoryReserve.toNat / pmmPageSize }

/-! ## Allocation -/

/-- The page is taken, with one reference. -/
def Pmm.takePage (page : Nat) : Pmm := (s.bitSet page).setRefcount page 1

/-- The first page from `first` below `stop` that is free. -/
def Pmm.firstFree (first stop : Nat) : Option Nat :=
  (List.range' first (stop - first)).find? fun page => !s.bitTest page

/-- The address of a page, or 0 (`NULL`) if there is none. -/
def Pmm.allocPage : Except PmmPanic (UInt64 × Pmm) :=
  if s.freePages = 0 then .ok (0, s)
  else
    match (s.firstFree s.nextHint s.totalPages).or (s.firstFree 0 s.nextHint) with
    | none => .error .invariantBroken
    | some page =>
      .ok (UInt64.ofNat (page * pmmPageSize), { s.takePage page with
          freePages := s.freePages - 1
          nextHint := if page + 1 ≥ s.totalPages then 0 else page + 1 })

/-- The first run of `count` free pages below `last`; each round moves on by `stride` pages at
    least, so that there are at most `last` of them. -/
def Pmm.findRun (s : Pmm) (count stride last : Nat) : Nat → Nat → Option Nat
  | 0, _ => none
  | rounds + 1, first =>
    if first + count ≤ last then
      match (List.range' first count).find? s.bitTest with
      | some page => s.findRun count stride last rounds (page - page % stride + stride)
      | none => some first
    else none

/-- The alignment of a run, in pages. -/
def strideOf (alignmentBytes : UInt64) : Nat :=
  (if alignmentBytes > 4096 then alignmentBytes / 4096 else 1).toNat

/-- The page where a run has to end. -/
def Pmm.lastPage (limit : UInt64) : Nat :=
  min (if limit ≠ 0 then limit.toNat / pmmPageSize else s.totalPages) s.totalPages

/-- The address of the first of `count` pages, or 0. -/
def Pmm.allocPagesBelow (count alignmentBytes limit : UInt64) : UInt64 × Pmm :=
  if count = 0 then (0, s)
  else if alignmentBytes &&& (alignmentBytes - 1) ≠ 0 then (0, s)
  else if s.freePages < count.toNat then (0, s)
  else
    let stride := strideOf alignmentBytes
    let last := s.lastPage limit
    match s.findRun count.toNat stride last last stride with
    | none => (0, s)
    | some first =>
      let t := (List.range' first count.toNat).foldl Pmm.takePage s
      (UInt64.ofNat (first * pmmPageSize), { t with freePages := s.freePages - count.toNat })

/-! ## References -/

/-- `pmm_free_page`. -/
def Pmm.freePage (address : UInt64) : Except PmmPanic Pmm :=
  if address = 0 then .ok s
  else if address &&& 4095 ≠ 0 ∨ address.toNat ≥ s.totalPages * pmmPageSize then .error .invalidFree
  else
    let page := address.toNat / pmmPageSize
    if !s.bitTest page then .error .doubleFree
    else if s.refcounts page > 1 then .ok (s.setRefcount page (s.refcounts page - 1))
    else
      .ok { (s.setRefcount page 0).bitClear page with
        freePages := s.freePages + 1
        nextHint := if page < s.nextHint then page else s.nextHint }

/-- `pmm_free_pages`. -/
def Pmm.freePagesAt (address count : UInt64) : Except PmmPanic Pmm :=
  if address = 0 ∨ count = 0 then .ok s
  else (List.range count.toNat).foldlM
    (fun s index => s.freePage (address + UInt64.ofNat index * 4096)) s

/-- `pmm_page_is_allocated`. -/
def Pmm.pageIsAllocated (physical : UInt64) : Bool :=
  if physical &&& 4095 ≠ 0 ∨ physical.toNat ≥ s.totalPages * pmmPageSize then false
  else s.bitTest (physical.toNat / pmmPageSize)

/-- Whether the page could be given another reference. -/
def Pmm.pageRef (physical : UInt64) : Bool × Pmm :=
  let page := physical.toNat / pmmPageSize
  if s.pageIsAllocated physical ∧ s.refcounts page ≠ 0xFFFFFFFF then
    (true, s.setRefcount page (s.refcounts page + 1))
  else (false, s)

/-! ## Reserved pages -/

/-- One turn of the loop: the pages released so far, and the state. -/
def Pmm.releasePage (acc : Nat × Pmm) (page : Nat) : Nat × Pmm :=
  let (released, s) := acc
  if !s.bitTest page ∨ s.refcounts page ≠ 0 then acc
  else (released + 1, { s.bitClear page with
    freePages := s.freePages + 1
    nextHint := if page < s.nextHint then page else s.nextHint })

/-- The pages that `pmm_release_reserved` looks at: from the first up to the second. -/
def Pmm.reservedRange (physical length : UInt64) : Nat × Nat :=
  if length = 0 then (0, 0)
  else (physical.toNat / pmmPageSize,
    min ((physical + length + 4095).toNat / pmmPageSize) s.totalPages)

/-- How many pages were released, and the state. -/
def Pmm.releaseReserved (physical length : UInt64) : Nat × Pmm :=
  let (first, last) := s.reservedRange physical length
  (List.range' first (last - first)).foldl Pmm.releasePage (0, s)

end Tunix.Mm
