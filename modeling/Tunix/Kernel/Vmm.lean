import Tunix.Kernel.Flush

/-!
# Address spaces

The functions of `kernel/mm/vmm.c` that read and write page tables, each under `tables_lock` and so
in one step. What the page allocator and the swap code answer during a call is given with the call,
by the place in the tables that the question is asked for (`Services`).
-/

namespace Tunix.Mm

/-- The page tables, and what the processors still hold of them. -/
structure Vmm where
  tables : PageTables
  flushing : Flushing

/-- What the policy decides for a page. -/
inductive ReclaimAction where
  | keep
  | drop
  | swap
deriving DecidableEq

/-- What other parts of the kernel answer during a call. -/
structure Services where
  /-- `pmm_alloc_page` for the table that an entry of a level is to lead to. -/
  tablePage : Level → Nat → Option UInt64
  /-- `swap_cache_take` for the page at an address. -/
  cacheTake : Nat → UInt64
  decide : Nat → UInt64 → ReclaimAction
  /-- The processors that answer a flush in time. -/
  answers : Nat → Bool

/-- Tables are not made. -/
def noTables : Level → Option UInt64 := fun _ => none

/-- The part of `vmm_map_page_in_locked` that changes the tables. -/
def PageTables.mapPageIn (s : PageTables) (env : Services) (cr3 address : Nat)
    (physical flags : UInt64) :
    Int × PageTables :=
  if !s.registered cr3 then (-1, s)
  else if address % 4096 ≠ 0 ∨ physical % 4096 ≠ 0 then (-1, s)
  else if hasBit flags pageUser ∧ userAddressLimit ≤ address then (-1, s)
  else if hasBit flags pageUser ∧ cr3 = s.kernelCr3 then (-1, s)
  else
    let pages := fun level => match level with
      | .four => env.tablePage .four (index4 address)
      | .three => env.tablePage .three (index3 address)
      | .two => env.tablePage .two (index2 address)
    match s.walk cr3 address flags pages with
    | (false, s) => (-1, s)
    | (true, s) =>
      if s.leaf cr3 address ≠ 0 then (-2, s)
      else
        let entry := ptePage (physical &&& pteAddressMask) (flags ||| pagePresent)
        (0, (s.setLeaf cr3 address entry).account cr3 0 entry)

/-- `vmm_map_page_in_locked`. -/
def Vmm.mapPageIn (s : Vmm) (env : Services) (cr3 address : Nat) (physical flags : UInt64) :
    Int × Vmm :=
  let (status, tables) := s.tables.mapPageIn env cr3 address physical flags
  (status, { s with tables := tables })

variable (s : Vmm) (self : Nat) (env : Services)

/-- A leaf is taken out of the tables. -/
def Vmm.dropLeaf (cr3 address : Nat) (replacement : UInt64) : Removed × Vmm :=
  let entry := s.tables.leaf cr3 address
  let (page, flushing) := s.flushing.remove (tableOwner cr3 address) (pteAddress entry)
  (page, ⟨(s.tables.setLeaf cr3 address replacement).account cr3 entry replacement, flushing⟩)

/-- The page that was mapped is what the caller may give back. -/
def Vmm.unmapPageLocked (cr3 address : Nat) : Option Removed × Vmm :=
  if !s.tables.registered cr3 then (none, s)
  else
    match s.tables.walk cr3 address 0 noTables with
    | (false, tables) => (none, { s with tables := tables })
    | (true, tables) =>
      let s : Vmm := { s with tables := tables }
      if !ptePresent (s.tables.leaf cr3 address) then (none, s)
      else
        let (page, s) := s.dropLeaf cr3 address 0
        (some page, { s with
          flushing := s.flushing.invalidateAfterChange self env.answers cr3 address (some page) })

/-- `protect_page_locked`. -/
def Vmm.protectPageLocked (cr3 address : Nat) (flags : UInt64) : Int × Vmm :=
  if !s.tables.registered cr3 then (-1, s)
  else
    match s.tables.walk cr3 address flags noTables with
    | (false, tables) => (-1, { s with tables := tables })
    | (true, tables) =>
      let entry := tables.leaf cr3 address
      if pteIsSwap entry then
        let kept := swapPteFlags entry &&& pageShared
        let new := swapPte (swapPteSlot entry) ((flags &&& ~~~pageShared) ||| kept)
        (0, { s with tables := tables.setLeaf cr3 address new })
      else if !ptePresent entry then (-1, { s with tables := tables })
      else
        let new := ptePage (pteAddress entry) ((flags &&& ~~~pteAddressMask) ||| pagePresent)
        (0, ⟨(tables.setLeaf cr3 address new).account cr3 entry new,
          s.flushing.invalidateAfterChange self env.answers cr3 address none⟩)

/-! ## Pruning -/

/-- The entry of a level is cleared and the table it led to is parked. -/
def Vmm.dropTable (level : Level) (cr3 address : Nat) : Vmm :=
  let entry := s.tables.upper level cr3 address
  let (page, flushing) := s.flushing.remove (tableOwner cr3 address) (pteAddress entry)
  ⟨s.tables.setUpper level cr3 address 0, flushing.freePageAfterFlush self env.answers page⟩

/-- `table_is_empty` for the 512 entries below an index. -/
def tableIsEmpty (f : Nat → UInt64) (i : Nat) : Bool :=
  (List.range 512).all fun j => f (i * 512 + j) == 0

/-- One turn of `prune_locked`: whether a table is given up, and the state after it. -/
def Vmm.pruneBlock (cr3 address : Nat) : Bool × Vmm :=
  let owner := tableOwner cr3 address
  if !s.tables.hasTable cr3 address then (false, s)
  else if !tableIsEmpty (s.tables.e1 owner) (index2 address) then (false, s)
  else
    let s := s.dropTable self env .two cr3 address
    if !tableIsEmpty (s.tables.e2 owner) (index3 address) then (true, s)
    else
      let s := s.dropTable self env .three cr3 address
      if !tableIsEmpty (s.tables.e3 owner) (index4 address) then (true, s)
      else (true, s.dropTable self env .four cr3 address)

/-- The loop of `prune_locked`, a block of the lowest tables in each turn. -/
def Vmm.pruneLoop (self : Nat) (env : Services) (cr3 end_ : Nat) :
    Nat → Nat → Bool → Vmm → Bool × Vmm
  | 0, _, freed, s => (freed, s)
  | turns + 1, address, freed, s =>
    if address < end_ ∧ address < userAddressLimit ∧ index4 address < 256 then
      let (more, s) := s.pruneBlock self env cr3 address
      pruneLoop self env cr3 end_ turns (address + 0x200000) (freed || more) s
    else (freed, s)

/-- The end of `prune_locked`: one flush for all the tables. -/
def Vmm.pruneFlush (cr3 : Nat) (freed : Bool) (s : Vmm) : Vmm :=
  let flushing := s.flushing
  let flushing := if freed then
      (if cr3 = flushing.root self then flushing.writeRoot self cr3 else flushing).flushOthers
        self env.answers cr3
    else flushing
  { s with flushing := flushing.batchEnd self env.answers }

/-- `prune_locked`: tables without an entry are taken out. -/
def Vmm.pruneLocked (cr3 start end_ : Nat) : Vmm :=
  if !s.tables.registered cr3 ∨ end_ ≤ start then s
  else
    let first := start / 0x200000 * 0x200000
    let s := { s with flushing := s.flushing.batchBegin self }
    let r := pruneLoop self env cr3 end_ ((end_ - first) / 0x200000 + 1) first false s
    pruneFlush self env cr3 r.1 r.2

/-! ## Ranges -/

/-- The next address to look at, where a table is missing. -/
def PageTables.skip (s : PageTables) (cr3 address : Nat) : Option Nat :=
  if !tableFromEntry (s.upper .four cr3 address) then some ((address / 2 ^ 39 + 1) * 2 ^ 39)
  else if !tableFromEntry (s.upper .three cr3 address) then some ((address / 2 ^ 30 + 1) * 2 ^ 30)
  else if !tableFromEntry (s.upper .two cr3 address) then some ((address / 2 ^ 21 + 1) * 2 ^ 21)
  else none

/-- One entry of `vmm_unmap_range`. -/
def Vmm.unmapEntry (cr3 address : Nat) : Vmm :=
  let entry := s.tables.leaf cr3 address
  if entry = 0 then s
  else if !ptePresent entry then
    { s with tables := (s.tables.setLeaf cr3 address 0).account cr3 entry 0 }
  else
    let (page, s) := s.dropLeaf cr3 address 0
    let flushing :=
      if cr3 = s.flushing.root self then s.flushing.invalidate self page else s.flushing
    let flushing := flushing.flushOthers self env.answers cr3
    { s with
      flushing := if hasBit (pteFlags entry) pageDevice then flushing
        else flushing.freePageAfterFlush self env.answers page }

/-- The loop of `vmm_unmap_range`. -/
def Vmm.unmapLoop (self : Nat) (env : Services) (cr3 end_ : Nat) : Nat → Nat → Vmm → Vmm
  | 0, _, s => s
  | turns + 1, address, s =>
    if address < end_ then
      match s.tables.skip cr3 address with
      | some next => unmapLoop self env cr3 end_ turns next s
      | none => unmapLoop self env cr3 end_ turns (address + 4096)
          (s.unmapEntry self env cr3 address)
    else s

/-- `vmm_unmap_range`. -/
def Vmm.unmapRange (cr3 start end_ : Nat) : Vmm :=
  let end_ := min end_ userAddressLimit
  let first := start / 4096 * 4096
  let s := { s with flushing := s.flushing.batchBegin self }
  let s := if s.tables.registered cr3 then
      unmapLoop self env cr3 end_ ((end_ - first) / 4096 + 1) first s
    else s
  { s with flushing := s.flushing.batchEnd self env.answers }

/-- How far a scan for pages to give up has come. -/
structure Reclaim where
  cursor : Nat
  budget : Nat
  visited : Nat
  aged : Nat
  dropped : Nat
  swapped : Nat

/-- One entry of `vmm_reclaim_scan`. -/
def Vmm.reclaimEntry (cr3 address : Nat) (scan : Reclaim) : Vmm × Reclaim :=
  let entry := s.tables.leaf cr3 address
  let flags := pteFlags entry
  if !ptePresent entry then (s, scan)
  else if !hasBit flags pageUser || hasBit flags pageDevice then (s, scan)
  else
    let scan := { scan with visited := scan.visited + 1 }
    if pteYoung entry then
      (⟨s.tables.setLeaf cr3 address (pteMkold entry), s.flushing.flushOthers self env.answers cr3⟩,
        { scan with aged := scan.aged + 1 })
    else
      -- a page is taken out of the tables, with a swap entry in its place or with none
      let replace := fun (replacement : UInt64) (scan : Reclaim) =>
        let (page, s) := s.dropLeaf cr3 address replacement
        let flushing :=
          if cr3 = s.flushing.root self then s.flushing.invalidate self page else s.flushing
        let flushing := flushing.flushOthers self env.answers cr3
        ({ s with flushing := flushing.freePageAfterFlush self env.answers page }, scan)
      match env.decide address flags with
      | .keep => (s, scan)
      | .swap =>
        let slot := env.cacheTake address
        if slot = 0 then (s, scan)
        else replace (swapPte slot flags) { scan with swapped := scan.swapped + 1 }
      | .drop => replace 0 { scan with dropped := scan.dropped + 1 }

/-- The loop of `vmm_reclaim_scan`. -/
def Vmm.reclaimLoop (self : Nat) (env : Services) (cr3 : Nat) :
    Nat → Nat → Vmm → Reclaim → Nat × Vmm × Reclaim
  | 0, address, s, scan => (address, s, scan)
  | turns + 1, address, s, scan =>
    if scan.visited < scan.budget ∧ address < userAddressLimit then
      match s.tables.skip cr3 address with
      | some next => reclaimLoop self env cr3 turns next s scan
      | none =>
        let (s, scan) := s.reclaimEntry self env cr3 address scan
        reclaimLoop self env cr3 turns (address + 4096) s scan
    else (address, s, scan)

/-- `vmm_reclaim_scan`. -/
def Vmm.reclaimScan (cr3 : Nat) (scan : Reclaim) : Option (Vmm × Reclaim) :=
  if !s.tables.registered cr3 ∨ cr3 = s.tables.kernelCr3 then none
  else
    let s := { s with flushing := s.flushing.batchBegin self }
    let first := scan.cursor / 4096 * 4096
    let first := if userAddressLimit ≤ first then 0 else first
    let (address, s, scan) :=
      reclaimLoop self env cr3 ((userAddressLimit - first) / 4096 + 1) first s scan
    some ({ s with flushing := s.flushing.batchEnd self env.answers },
      { scan with cursor := if userAddressLimit ≤ address then 0 else address })

end Tunix.Mm
