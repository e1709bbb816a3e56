import Tunix.ForStd.Bytes
import Tunix.ForStd.Checked
import Tunix.ForStd.Except

/-!
# The ELF planner

`plan` and what it rests on, from `kernel/rust/elf/src/lib.rs`: it reads the header and the program
headers of an executable and lays out where its segments go. Nothing in the file can be relied on,
so all arithmetic on its 64-bit fields is checked. The bytes given are the first ones of a file of a
given size.
-/

namespace Tunix.Elf

open Bytes

/-- `HEADER_SIZE`. -/
def headerSize : Nat := 64
/-- `PROGRAM_SIZE`. -/
def programSize : Nat := 56
/-- `PAGE_SIZE`. -/
def pageSize : UInt64 := 4096
/-- `LOWEST_ADDRESS`: no program lies below it. -/
def lowestAddress : UInt64 := 0x10000
/-- `MAX_HEADER_SPAN`: how far the program headers may reach into the file. -/
def maxHeaderSpan : UInt64 := 65536
/-- `MAX_INTERP_SIZE`: the longest name of an interpreter. -/
def maxInterpSize : UInt64 := 4096

/-- `ET_EXEC`. -/
def etExec : UInt16 := 2
/-- `ET_DYN`. -/
def etDyn : UInt16 := 3
/-- `PT_LOAD`. -/
def ptLoad : UInt32 := 1
/-- `PT_INTERP`. -/
def ptInterp : UInt32 := 3
/-- `PF_X`. -/
def pfX : UInt32 := 1
/-- `PF_W`. -/
def pfW : UInt32 := 2

/-- Why a file is refused. -/
inductive Error
  | truncated
  | ident
  | kind
  | machine
  | layout
  | program
  | interp
  | range
  | entry
  | phdr
  deriving DecidableEq

/-- What is read of the file header. -/
structure Header where
  kind : UInt16
  entry : UInt64
  phoff : UInt64
  phnum : UInt16
  deriving DecidableEq

/-- A program header. -/
structure Program where
  kind : UInt32
  flags : UInt32
  offset : UInt64
  vaddr : UInt64
  filesz : UInt64
  memsz : UInt64
  align : UInt64
  deriving DecidableEq

/-- What the kernel is told of an image that it may load. -/
structure Plan where
  kind : UInt16
  phnum : UInt16
  loadCount : UInt16
  loadBias : UInt64
  entry : UInt64
  phdr : UInt64
  imageStart : UInt64
  imageEnd : UInt64
  interpOffset : UInt64
  interpSize : UInt64
  deriving DecidableEq

/-- A part of the image, with the pages it covers. -/
structure Segment where
  address : UInt64
  fileOffset : UInt64
  fileSize : UInt64
  memorySize : UInt64
  pageStart : UInt64
  pageEnd : UInt64
  writable : Bool
  executable : Bool
  deriving DecidableEq

/-- The machine and the limit of its user addresses. -/
structure Target where
  machine : UInt16
  userLimit : UInt64

/-- A slice of bytes, which has at most `isize::MAX` of them. -/
structure Slice where
  bytes : List UInt8
  length_lt : bytes.length < 2 ^ 63

variable (bytes : List UInt8) (header : Header) (fileSize : UInt64)

/-- The bytes by their offsets. -/
def bufferOf : Buffer := fun i => bytes.getD i 0

/-- `bytes.get(first..stop)` -/
def getRange (first stop : Nat) : Option (List UInt8) :=
  if first ≤ stop ∧ stop ≤ bytes.length then some ((bytes.drop first).take (stop - first)) else none

/-- `option.ok_or(error)` -/
def orError {α : Type} (option : Option α) (error : Error) : Except Error α := match option with
  | some value => .ok value
  | none => .error error

/-- `if condition { return Err(error); }` -/
def refuse (condition : Prop) [Decidable condition] (error : Error) : Except Error Unit :=
  if condition then .error error else .ok ()

/-- `read_u16`. -/
def readU16 (pos : Nat) : Option UInt16 :=
  if pos + 2 ≤ bytes.length then some (loadLe16 (bufferOf bytes) pos) else none

/-- `read_u32`. -/
def readU32 (pos : Nat) : Option UInt32 :=
  if pos + 4 ≤ bytes.length then some (loadLe32 (bufferOf bytes) pos) else none

/-- `read_u64`. -/
def readU64 (pos : Nat) : Option UInt64 :=
  if pos + 8 ≤ bytes.length then some (loadLe64 (bufferOf bytes) pos) else none

/-- `page_down`. -/
def pageDown (value : UInt64) : UInt64 := value &&& ~~~(pageSize - 1)

/-- `page_up`. -/
def pageUp (value : UInt64) : Option UInt64 := (value.checkedAdd (pageSize - 1)).map pageDown

/-- The product of a 16-bit number and 56 does not come near the bound of `saturating_mul`. -/
def tableSize (phnum : UInt16) : UInt64 := phnum.toUInt64 * 56

/-! ## The header -/

/-- `parse_header`. -/
def parseHeader (machine : UInt16) : Except Error Header := do
  refuse (fileSize < 64 ∨ bytes.length < headerSize) .truncated
  let ident ← orError (getRange bytes 0 16) .truncated
  refuse (ident.take 4 ≠ [0x7F, 0x45, 0x4C, 0x46]) .ident
  refuse (ident.getD 4 0 ≠ 2 ∨ ident.getD 5 0 ≠ 1 ∨ ident.getD 6 0 ≠ 1) .ident
  let kind ← orError (readU16 bytes 16) .truncated
  refuse (kind ≠ etExec ∧ kind ≠ etDyn) .kind
  let fileMachine ← orError (readU16 bytes 18) .truncated
  refuse (fileMachine ≠ machine) .machine
  let version ← orError (readU32 bytes 20) .truncated
  refuse (version ≠ 1) .ident
  let entry ← orError (readU64 bytes 24) .truncated
  let phoff ← orError (readU64 bytes 32) .truncated
  let ehsize ← orError (readU16 bytes 52) .truncated
  let phentsize ← orError (readU16 bytes 54) .truncated
  let phnum ← orError (readU16 bytes 56) .truncated
  refuse (ehsize.toNat ≠ headerSize ∨ phentsize.toNat ≠ programSize ∨ phnum = 0) .layout
  let room ← orError (fileSize.checkedSub phoff) .layout
  refuse (tableSize phnum > room) .layout
  return { kind, entry, phoff, phnum }

/-- `header_span`: how many bytes of the file the kernel has to read. -/
def headerSpan (machine : UInt16) : Except Error UInt64 := do
  let header ← parseHeader bytes fileSize machine
  let span ← orError (header.phoff.checkedAdd (tableSize header.phnum)) .layout
  refuse (span > fileSize ∨ span > maxHeaderSpan) .layout
  return span

/-! ## Program headers and segments -/

/-- The program header at an index of the table. -/
def program (index : Nat) : Option Program := do
  let pos := header.phoff.toNat + index * programSize
  let entry ← getRange bytes pos (pos + programSize)
  return {
    kind := ← readU32 entry 0
    flags := ← readU32 entry 4
    offset := ← readU64 entry 8
    vaddr := ← readU64 entry 16
    filesz := ← readU64 entry 32
    memsz := ← readU64 entry 40
    align := ← readU64 entry 48 }

/-- `within_file`. -/
def withinFile (offset size fileSize : UInt64) : Bool := match fileSize.checkedSub offset with
  | some room => size ≤ room
  | none => false

/-- `u64::is_power_of_two` -/
def isPowerOfTwo (value : UInt64) : Bool := (List.range 64).any fun k => value.toNat == 2 ^ k

/-- `check_program`. -/
def checkProgram (program : Program) (fileSize : UInt64) : Except Error Unit := do
  refuse (program.memsz < program.filesz) .program
  refuse (program.filesz ≠ 0 ∧ !withinFile program.offset program.filesz fileSize) .program
  refuse (program.align > 1 ∧ !isPowerOfTwo program.align) .program
  refuse (program.vaddr &&& (pageSize - 1) ≠ program.offset &&& (pageSize - 1)) .program
  let stop ← orError (program.vaddr.checkedAdd program.memsz) .program
  let _ ← orError (pageUp stop) .range

/-- `segment`: where a program goes, inside the limit of the user. -/
def segment (program : Program) (loadBias : UInt64) (target : Target) : Except Error Segment := do
  let address ← orError (program.vaddr.checkedAdd loadBias) .range
  let stop ← orError (address.checkedAdd program.memsz) .range
  refuse (address < lowestAddress ∨ address ≥ target.userLimit) .range
  refuse (program.memsz > target.userLimit.saturatingSub address) .range
  let pageEnd ← orError (pageUp stop) .range
  return {
    address
    fileOffset := program.offset
    fileSize := program.filesz
    memorySize := program.memsz
    pageStart := pageDown address
    pageEnd
    writable := program.flags &&& pfW ≠ 0
    executable := program.flags &&& pfX ≠ 0 }

/-- A file that has passed all checks, with its plan. -/
structure Image where
  bytes : Slice
  header : Header
  plan : Plan
  target : Target

/-- The segments that the kernel maps, in the order of the program headers. -/
def Image.segments (image : Image) : List Segment :=
  (((List.range image.header.phnum.toNat).filterMap (program image.bytes.bytes image.header)).filter
    fun program => program.kind = ptLoad).filterMap
      fun program => (segment program image.plan.loadBias image.target).toOption

/-! ## The plan -/

/-- What the first pass over the program headers keeps. -/
structure Scan where
  lowest : UInt64
  highest : UInt64
  loadCount : UInt16
  interp : Option (UInt64 × UInt64)

/-- The scan before the first program header. -/
def Scan.start : Scan := ⟨0xFFFFFFFFFFFFFFFF, 0, 0, none⟩

/-- One turn of the first pass. -/
def scanProgram (scan : Scan) (program : Program) : Except Error Scan := do
  if program.kind = ptInterp then
    refuse (program.filesz < 2 ∨ program.filesz > maxInterpSize ∨
      !withinFile program.offset program.filesz fileSize) .interp
    refuse (scan.interp.isSome) .interp
    return { scan with interp := some (program.offset, program.filesz) }
  else if program.kind ≠ ptLoad then return scan
  else
    checkProgram program fileSize
    -- The number of segments has 16 bits.
    refuse (scan.loadCount = 0xFFFF) .program
    let stop ← orError ((program.vaddr.checkedAdd program.memsz).bind pageUp) .range
    return { scan with
      loadCount := scan.loadCount + 1
      lowest := min scan.lowest (pageDown program.vaddr)
      highest := max scan.highest stop }

/-- The first pass over the program headers. -/
def scanPrograms : Except Error Scan :=
  (List.range header.phnum.toNat).foldlM (fun scan index => do
    let program ← orError (program bytes header index) .truncated
    scanProgram fileSize scan program) .start

/-- What the second pass keeps: the address of the program headers, and whether the entry point is
    in a segment. -/
structure Placing where
  phdr : UInt64
  entryMapped : Bool

/-- The address of the program headers in a segment, if it holds all of them. -/
def tableAddress (program : Program) (placed : Segment) : Except Error UInt64 :=
  match header.phoff.checkedSub program.offset with
  | none => .ok 0
  | some relative =>
    if relative ≤ program.filesz ∧
      tableSize header.phnum ≤ program.filesz.saturatingSub relative then
      orError (placed.address.checkedAdd relative) .range
    else .ok 0

/-- The first segment that holds the program headers gives their address. -/
def nextPhdr (phdr : UInt64) (program : Program) (placed : Segment) : Except Error UInt64 :=
  if phdr = 0 then tableAddress header program placed else .ok phdr

/-- One turn of the second pass. -/
def placeProgram (loadBias entry : UInt64) (target : Target) (placing : Placing)
    (program : Program) : Except Error Placing := do
  if program.kind ≠ ptLoad then return placing
  else
    let placed ← segment program loadBias target
    let entryMapped := placing.entryMapped || (placed.pageStart ≤ entry ∧ entry < placed.pageEnd)
    let phdr ← nextPhdr header placing.phdr program placed
    return { phdr, entryMapped }

/-- The second pass over the program headers, now with addresses. -/
def placePrograms (loadBias entry : UInt64) (target : Target) : Except Error Placing :=
  (List.range header.phnum.toNat).foldlM (fun placing index => do
    let program ← orError (program bytes header index) .truncated
    placeProgram header loadBias entry target placing program) ⟨0, false⟩

/-- Where an image goes: a program at its own addresses, the others behind `preferredBase`. -/
def chooseLoadBias (lowest preferredBase : UInt64) : Except Error UInt64 :=
  if header.kind = etExec then
    if lowest < lowestAddress then .error .range else .ok 0
  else orError (preferredBase.checkedSub lowest) .range

/-- `plan`. -/
def plan (bytes : Slice) (fileSize preferredBase : UInt64) (target : Target) :
    Except Error Image := do
  let header ← parseHeader bytes.bytes fileSize target.machine
  let span ← headerSpan bytes.bytes fileSize target.machine
  refuse (bytes.bytes.length < span.toNat) .truncated
  let scan ← scanPrograms bytes.bytes header fileSize
  refuse (scan.loadCount = 0 ∨ scan.lowest = 0xFFFFFFFFFFFFFFFF ∨ scan.highest ≤ scan.lowest)
    .program
  refuse (preferredBase &&& (pageSize - 1) ≠ 0) .range
  let loadBias ← chooseLoadBias header scan.lowest preferredBase
  let imageEnd ← orError (scan.highest.checkedAdd loadBias) .range
  refuse (imageEnd > target.userLimit) .range
  let imageStart ← orError (scan.lowest.checkedAdd loadBias) .range
  let entry ← orError (header.entry.checkedAdd loadBias) .entry
  let placing ← placePrograms bytes.bytes header loadBias entry target
  refuse (entry < lowestAddress ∨ entry ≥ target.userLimit ∨ !placing.entryMapped) .entry
  refuse (scan.interp.isSome ∧ placing.phdr = 0) .phdr
  let interp := scan.interp.getD (0, 0)
  return {
    bytes
    header
    plan :=
      { kind := header.kind, phnum := header.phnum, loadCount := scan.loadCount, loadBias, entry,
        phdr := placing.phdr, imageStart, imageEnd, interpOffset := interp.1,
        interpSize := interp.2 }
    target }

end Tunix.Elf
