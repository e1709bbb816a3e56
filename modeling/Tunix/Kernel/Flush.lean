import Tunix.Kernel.PageTable

/-!
# Flushing translations

`kernel/mm/vmm.c`, from `settle_batch` to `invalidate_after_change`, and the flushes of
`arch/x86_64/smp.c`. A processor may go on using a translation after its entry is taken out of the
tables. Each entry that is taken out gets a number, and `held` says which processors may still have
a translation through it: at first those that run the address space, and later those of them that
have not been flushed or switched to other tables since. `early` collects the pages that are given
back while some processor may still use them.

Waiting for another processor ends after a timeout, so a call is given which processors answer in
time.
-/

namespace Tunix.Mm

/-- A page that an entry led to, with the number of the entry. -/
structure Removed where
  physical : UInt64
  id : Nat
deriving DecidableEq

/-- `struct flush_batch` of a processor. -/
structure FlushBatch where
  depth : Nat
  pending : Bool
  kernel : Bool
  cr3 : Nat
  deferred : List Removed

/-- What the processors may still use, and the pages that wait for it to end. -/
structure Flushing where
  /-- The processors that are online. -/
  online : List Nat
  /-- The tables that a processor has loaded. -/
  root : Nat → Nat
  /-- `address_space` of a processor, which says what it runs. -/
  addressSpace : Nat → Nat
  batch : Nat → FlushBatch
  held : Nat → Nat → Bool
  /-- The number of entries taken out so far. -/
  removals : Nat
  early : List Removed

/-- `DEFERRED_FREE_MAX`: as many pages wait in a batch for its flush. -/
def deferredFreeMax : Nat := 64

variable (s : Flushing) (self : Nat) (answers : Nat → Bool)

/-- A processor forgets its translations. -/
def Flushing.forget (forgets : Nat → Bool) : Flushing :=
  { s with held := fun cpu id => s.held cpu id && !forgets cpu }

/-- `flush_others` of `smp.c`: the other processors that are asked and answer reload their
    tables. -/
def Flushing.smpFlush (asked : Nat → Bool) : Flushing :=
  s.forget fun cpu => decide (cpu ∈ s.online) && cpu != self && asked cpu && answers cpu

/-- `smp_flush_address_space`: the processors that run the address space. -/
def Flushing.smpFlushAddressSpace (cr3 : Nat) : Flushing :=
  if cr3 = 0 then s else s.smpFlush self answers fun cpu => s.addressSpace cpu == cr3

/-- `smp_flush_kernel_mappings`: all processors. -/
def Flushing.smpFlushKernelMappings : Flushing :=
  s.smpFlush self answers fun _ => true

/-- An entry is taken out of the tables. -/
def Flushing.remove (owner : Option Nat) (physical : UInt64) : Removed × Flushing :=
  let uses := fun cpu => decide (cpu ∈ s.online) && (match owner with
    | some cr3 => s.root cpu == cr3
    | none => true)
  (⟨physical, s.removals⟩, { s with
      removals := s.removals + 1
      held := fun cpu id => if id = s.removals then uses cpu else s.held cpu id })

/-- The batch of a processor is replaced. -/
def Flushing.setBatch (batch : FlushBatch) : Flushing :=
  { s with batch := Function.update s.batch self batch }

/-- `pmm_free_page` for a page that an entry led to. -/
def Flushing.freePage (page : Removed) : Flushing :=
  if s.online.any fun cpu => s.held cpu page.id then { s with early := page :: s.early } else s

/-- `settle_batch`: what the batch owes is flushed, and its pages are given back. -/
def Flushing.settleBatch : Flushing :=
  let batch := s.batch self
  let s := if batch.kernel then
      (s.setBatch self { s.batch self with kernel := false }).smpFlushKernelMappings self answers
    else s
  let s := if batch.pending then
      (s.setBatch self { s.batch self with pending := false, cr3 := 0 }).smpFlushAddressSpace self
        answers batch.cr3
    else s
  let s := batch.deferred.foldl Flushing.freePage s
  s.setBatch self { s.batch self with deferred := [] }

/-- `vmm_flush_batch_begin`. -/
def Flushing.batchBegin : Flushing :=
  s.setBatch self { s.batch self with depth := (s.batch self).depth + 1 }

/-- `vmm_flush_batch_end`: the outermost end settles. -/
def Flushing.batchEnd : Flushing :=
  let batch := s.batch self
  if batch.depth = 0 then s
  else
    let s := s.setBatch self { batch with depth := batch.depth - 1 }
    if batch.depth - 1 ≠ 0 then s else s.settleBatch self answers

/-- `vmm_free_page_after_flush`: in a batch the page waits. -/
def Flushing.freePageAfterFlush (page : Removed) : Flushing :=
  if page.physical = 0 then s
  else if (s.batch self).depth = 0 then s.freePage page
  else
    let s := if (s.batch self).deferred.length = deferredFreeMax then
      s.settleBatch self answers else s
    s.setBatch self { s.batch self with deferred := (s.batch self).deferred ++ [page] }

/-- `flush_kernel_mapping`. -/
def Flushing.flushKernelMapping : Flushing :=
  if (s.batch self).depth = 0 then s.smpFlushKernelMappings self answers
  else s.setBatch self { s.batch self with kernel := true }

/-- `flush_others`: in a batch the address space is noted. -/
def Flushing.flushOthers (cr3 : Nat) : Flushing :=
  let batch := s.batch self
  if batch.depth = 0 then s.smpFlushAddressSpace self answers cr3
  else
    let s := if batch.pending ∧
      batch.cr3 ≠ cr3 then s.smpFlushAddressSpace self answers batch.cr3 else s
    s.setBatch self { s.batch self with cr3 := cr3, pending := true }

/-- `vmm_arch_invalidate` on this processor, for an entry that has just been taken out. -/
def Flushing.invalidate (page : Removed) : Flushing :=
  { s with held := fun cpu id => s.held cpu id && !(cpu == self && id == page.id) }

/-- `invalidate_after_change`: here at once, elsewhere by a flush. -/
def Flushing.invalidateAfterChange (cr3 address : Nat) (page : Option Removed) : Flushing :=
  let s := match page with
    | some page => if cr3 = s.root self ∨ kernelMapping address then s.invalidate self page else s
    | none => s
  if kernelMapping address then s.flushKernelMapping self answers
    else s.flushOthers self answers cr3

/-- `vmm_arch_write_root`: the processor forgets what it had, even if the tables are the same. -/
def Flushing.writeRoot (cr3 : Nat) : Flushing :=
  { s.forget (· == self) with root := Function.update s.root self cr3 }

end Tunix.Mm
