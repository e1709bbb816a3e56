import Mathlib.Algebra.Group.Nat.Defs
import Mathlib.Logic.Function.Basic

/-!
# Page tables

Entries of page tables on x86-64 (`include/tunix/vmm_arch.h`, and the swap entries of
`kernel/mm/vmm.c`) and the tables of the address spaces. A table page belongs to one place of one
tree, except for the tables of the kernel half, which all address spaces share. An entry is
therefore named by who owns the table and by the bits of the address that lead to it: `e4` is the
root table, and `e3`, `e2` and `e1` are the three levels below it. A table that is not there has no
entries that count; a new one is cleared.
-/

namespace Tunix.Mm

/-! ## Entries -/

/-- `PAGE_PRESENT`. -/
def pagePresent : UInt64 := 0x1
/-- `PAGE_WRITE`. -/
def pageWrite : UInt64 := 0x2
/-- `PAGE_USER`. -/
def pageUser : UInt64 := 0x4
/-- `PAGE_HUGE`: the entry maps a large page. -/
def pageHuge : UInt64 := 0x80
/-- `PAGE_DEVICE`: the page is not one of the memory. -/
def pageDevice : UInt64 := 0x200
/-- `PAGE_COW`: a write copies the page. -/
def pageCow : UInt64 := 0x400
/-- `PAGE_SHARED`. -/
def pageShared : UInt64 := 0x800
/-- `PAGE_FILEBACKED`. -/
def pageFilebacked : UInt64 := 0x10000000000000
/-- `PAGE_NX`. -/
def pageNx : UInt64 := 0x8000000000000000

/-- `PTE_ADDRESS_MASK`. -/
def pteAddressMask : UInt64 := 0x000FFFFFFFFFF000
/-- `PTE_ACCESSED`. -/
def pteAccessed : UInt64 := 0x20

variable (entry : UInt64)

/-- One of the bits is set. -/
def hasBit (bit : UInt64) : Bool := entry &&& bit != 0

/-- `pte_present`. -/
def ptePresent : Bool := hasBit entry pagePresent
/-- `pte_huge`. -/
def pteHuge : Bool := hasBit entry pageHuge
/-- `pte_address`. -/
def pteAddress : UInt64 := entry &&& pteAddressMask
/-- `pte_flags`. -/
def pteFlags : UInt64 := entry &&& ~~~pteAddressMask
/-- `pte_page`. -/
def ptePage (physical flags : UInt64) : UInt64 := physical ||| flags
/-- `pte_young`: the processor has used the entry. -/
def pteYoung : Bool := hasBit entry pteAccessed
/-- `pte_mkold`. -/
def pteMkold : UInt64 := entry &&& ~~~pteAccessed

/-- `pte_table_grant_user`: a table above a page of the user is one of the user too. -/
def pteTableGrantUser (leafFlags : UInt64) : UInt64 :=
  if hasBit leafFlags pageUser ∧ !hasBit entry pageUser then entry ||| pageUser else entry

/-- `SWAP_PTE_MARK`: an entry that is not present and has this bit stands for a slot. -/
def swapPteMark : UInt64 := 0x2
/-- `SWAP_PTE_WRITE`. -/
def swapPteWrite : UInt64 := 0x8
/-- `SWAP_PTE_NX`. -/
def swapPteNx : UInt64 := 0x10
/-- `SWAP_PTE_COW`. -/
def swapPteCow : UInt64 := 0x20
/-- `SWAP_PTE_SHARED`. -/
def swapPteShared : UInt64 := 0x40
/-- `SWAP_PTE_SLOTS`: the bits that hold the slot, inverted. -/
def swapPteSlots : UInt64 := 0x000FFFFFFFFFF000

/-- `pte_is_swap`. -/
def pteIsSwap : Bool := !ptePresent entry && hasBit entry swapPteMark

/-- `swap_pte`: the entry of a page that is in a slot, with the flags it had. -/
def swapPte (slot flags : UInt64) : UInt64 :=
  let entry := swapPteMark ||| ((~~~slot <<< 12) &&& swapPteSlots)
  let entry := if hasBit flags pageWrite then entry ||| swapPteWrite else entry
  let entry := if hasBit flags pageNx then entry ||| swapPteNx else entry
  let entry := if hasBit flags pageCow then entry ||| swapPteCow else entry
  if hasBit flags pageShared then entry ||| swapPteShared else entry

/-- `swap_pte_slot`. -/
def swapPteSlot : UInt64 := (~~~entry &&& swapPteSlots) >>> 12

/-- `swap_pte_flags`: the flags that the page gets back. -/
def swapPteFlags : UInt64 :=
  let flags := pageUser ||| pagePresent
  let flags := if hasBit entry swapPteWrite then flags ||| pageWrite else flags
  let flags := if hasBit entry swapPteNx then flags ||| pageNx else flags
  let flags := if hasBit entry swapPteCow then flags ||| pageCow else flags
  if hasBit entry swapPteShared then flags ||| pageShared else flags

/-- What a leaf is counted as. -/
inductive UsageKind where
  | anon
  | file
  | shmem
  | swap
deriving DecidableEq

/-- `usage_kind`: what an entry is counted as, if it is. -/
def usageKind : Option UsageKind :=
  if pteIsSwap entry then some .swap
  else if !ptePresent entry then none
  else
    let flags := pteFlags entry
    if !hasBit flags pageUser || hasBit flags pageDevice then none
    else if hasBit flags pageShared then some .shmem
    else if hasBit flags pageFilebacked then some .file
    else some .anon

/-! ## Tables -/

/-- `USER_ADDRESS_LIMIT`. -/
def userAddressLimit : Nat := 0x0000800000000000
/-- `KERNEL_HALF_BASE`. -/
def kernelHalfBase : Nat := 0xFFFF800000000000

/-- `kernel_mapping`: the address is one of the half that all address spaces share. -/
def kernelMapping (address : Nat) : Bool := kernelHalfBase ≤ address

/-! The bits of an address that select an entry at each level. -/

/-- The entry of the highest table for an address. -/
def index4 (address : Nat) : Nat := address / 2 ^ 39 % 2 ^ 9
/-- The entry of a table of the third level, over all of them in a row. -/
def index3 (address : Nat) : Nat := address / 2 ^ 30 % 2 ^ 18
/-- The entry of a table of the second level, over all of them in a row. -/
def index2 (address : Nat) : Nat := address / 2 ^ 21 % 2 ^ 27
/-- The leaf for an address, over all tables of the lowest level in a row. -/
def index1 (address : Nat) : Nat := address / 2 ^ 12 % 2 ^ 36

/-- Who has the tables that an address leads through: the address space, or the kernel. -/
def tableOwner (cr3 address : Nat) : Option Nat := if index4 address < 256 then some cr3 else none

/-- The tables of all address spaces, and what is counted of them. -/
structure PageTables where
  kernelCr3 : Nat
  /-- The address spaces in the table of spaces. -/
  spaces : Nat → Bool
  e4 : Nat → Nat → UInt64
  e3 : Option Nat → Nat → UInt64
  e2 : Option Nat → Nat → UInt64
  e1 : Option Nat → Nat → UInt64
  /-- The counters of the `vmm_space`s. -/
  pages : Nat → UsageKind → Int

variable (s : PageTables)

/-- `address_space_registered`. -/
def PageTables.registered (cr3 : Nat) : Bool := cr3 != 0 && s.spaces cr3

/-- An entry of a family of tables is written. -/
def setEntry {κ : Type*} [DecidableEq κ] (f : κ → Nat → UInt64) (o : κ) (i : Nat) (entry : UInt64) :
    κ → Nat → UInt64 :=
  Function.update f o (Function.update (f o) i entry)

/-- The 512 entries below an index are cleared. -/
def clearBelow {κ : Type*} [DecidableEq κ] (f : κ → Nat → UInt64) (o : κ) (i : Nat) :
    κ → Nat → UInt64 :=
  Function.update f o fun j => if j / 512 = i then 0 else f o j

/-- The upper levels. -/
inductive Level where
  | four
  | three
  | two
deriving DecidableEq

/-- The entry above the lowest level that an address goes through. -/
def PageTables.upper (level : Level) (cr3 address : Nat) : UInt64 := match level with
  | .four => s.e4 cr3 (index4 address)
  | .three => s.e3 (tableOwner cr3 address) (index3 address)
  | .two => s.e2 (tableOwner cr3 address) (index2 address)

/-- An entry above the lowest level is replaced. -/
def PageTables.setUpper (level : Level) (cr3 address : Nat) (entry : UInt64) : PageTables :=
  match level with
  | .four => { s with e4 := setEntry s.e4 cr3 (index4 address) entry }
  | .three => { s with e3 := setEntry s.e3 (tableOwner cr3 address) (index3 address) entry }
  | .two => { s with e2 := setEntry s.e2 (tableOwner cr3 address) (index2 address) entry }

/-- The table that an entry leads to is a new one. -/
def PageTables.clearTable (level : Level) (cr3 address : Nat) : PageTables := match level with
  | .four => { s with e3 := clearBelow s.e3 (tableOwner cr3 address) (index4 address) }
  | .three => { s with e2 := clearBelow s.e2 (tableOwner cr3 address) (index3 address) }
  | .two => { s with e1 := clearBelow s.e1 (tableOwner cr3 address) (index2 address) }

/-- The leaf of an address. -/
def PageTables.leaf (cr3 address : Nat) : UInt64 := s.e1 (tableOwner cr3 address) (index1 address)

/-- A leaf is replaced. -/
def PageTables.setLeaf (cr3 address : Nat) (entry : UInt64) : PageTables :=
  { s with e1 := setEntry s.e1 (tableOwner cr3 address) (index1 address) entry }

/-- The entry leads to a table. -/
def tableFromEntry : Bool := ptePresent entry && !pteHuge entry

/-- All three tables on the way to the leaf are there. -/
def PageTables.hasTable (cr3 address : Nat) : Bool :=
  tableFromEntry (s.upper .four cr3 address) && tableFromEntry (s.upper .three cr3 address) &&
    tableFromEntry (s.upper .two cr3 address)

/-- `account`: the counts of an address space after a leaf has changed. -/
def PageTables.account (cr3 : Nat) (old new : UInt64) : PageTables :=
  if cr3 = s.kernelCr3 then s
  else
    let pages := s.pages cr3
    let pages := match usageKind old with
      | some kind => Function.update pages kind (pages kind - 1)
      | none => pages
    let pages := match usageKind new with
      | some kind => Function.update pages kind (pages kind + 1)
      | none => pages
    { s with pages := Function.update s.pages cr3 pages }

/-- One step down the tables. A table that is missing is made if there is a page for it. -/
def PageTables.nextTable (level : Level) (cr3 address : Nat) (leafFlags : UInt64)
    (page : Option UInt64) : Bool × PageTables :=
  let entry := s.upper level cr3 address
  if ptePresent entry then
    if pteHuge entry then (false, s)
    else (true, s.setUpper level cr3 address (pteTableGrantUser entry leafFlags))
  else
    match page with
    | none => (false, s)
    | some physical =>
      let flags := pagePresent ||| pageWrite ||| (if hasBit leafFlags pageUser then pageUser else 0)
      (true, (s.clearTable level cr3 address).setUpper level cr3 address (physical ||| flags))

/-- The way down to a leaf; the pages are for the tables that are missing, if they may be made. -/
def PageTables.walk (cr3 address : Nat) (leafFlags : UInt64) (pages : Level → Option UInt64) :
    Bool × PageTables :=
  match s.nextTable .four cr3 address leafFlags (pages .four) with
  | (false, s) => (false, s)
  | (true, s) =>
    match s.nextTable .three cr3 address leafFlags (pages .three) with
    | (false, s) => (false, s)
    | (true, s) => s.nextTable .two cr3 address leafFlags (pages .two)

end Tunix.Mm
