import Tunix.Kernel.Elf

/-!
# The reference planner

The planner in C that the one in Rust replaced, from `kernel/rust/elf-check/reference.c`, with the
call of it in `kernel/rust/elf-check/src/lib.rs`. Its arithmetic wraps around, and it goes over the
program headers once for each thing it looks for. A failure (-1) is no result.
-/

namespace Tunix.Elf.Reference

open Bytes

/-- `struct elf64_header`, as far as it is used. -/
structure ElfHeader where
  ident : Nat → UInt8
  type : UInt16
  machine : UInt16
  version : UInt32
  entry : UInt64
  phoff : UInt64
  ehsize : UInt16
  phentsize : UInt16
  phnum : UInt16

/-- What the planner in C answers. -/
structure ReferencePlan where
  kind : UInt16
  phnum : UInt16
  loadCount : UInt16
  entryWrapped : UInt16
  loadBias : UInt64
  entry : UInt64
  phdr : UInt64
  imageStart : UInt64
  imageEnd : UInt64
  interpOffset : UInt64
  interpSize : UInt64
  deriving DecidableEq

/-- What is mapped of a program. -/
structure ReferenceSegment where
  pageStart : UInt64
  pageEnd : UInt64
  address : UInt64
  writable : UInt32
  executable : UInt32
  deriving DecidableEq

/-- `align_down`. -/
def alignDown (value alignment : UInt64) : UInt64 := value &&& ~~~(alignment - 1)

/-- `align_up`, which may come round. -/
def alignUp (value alignment : UInt64) : UInt64 := (value + alignment - 1) &&& ~~~(alignment - 1)

/-- `power_of_two`. -/
def powerOfTwo (value : UInt64) : Bool := value ≠ 0 ∧ value &&& (value - 1) = 0

/-- `add_overflows`. -/
def addOverflows (left right : UInt64) : Bool := left > 0xFFFFFFFFFFFFFFFF - right

/-- The header in memory, which is packed and little-endian. -/
def headerAt (b : Buffer) : ElfHeader where
  ident := b
  type := loadLe16 b 16
  machine := loadLe16 b 18
  version := loadLe32 b 20
  entry := loadLe64 b 24
  phoff := loadLe64 b 32
  ehsize := loadLe16 b 52
  phentsize := loadLe16 b 54
  phnum := loadLe16 b 56

/-- `programs[index]` for a table at an offset. -/
def programAt (b : Buffer) (table index : Nat) : Program where
  kind := loadLe32 b (table + index * programSize)
  flags := loadLe32 b (table + index * programSize + 4)
  offset := loadLe64 b (table + index * programSize + 8)
  vaddr := loadLe64 b (table + index * programSize + 16)
  filesz := loadLe64 b (table + index * programSize + 32)
  memsz := loadLe64 b (table + index * programSize + 40)
  align := loadLe64 b (table + index * programSize + 48)

/-- The program headers in their order. -/
def programsAt (b : Buffer) (header : ElfHeader) : List Program :=
  (List.range header.phnum.toNat).map (programAt b header.phoff.toNat)

/-- The size of the table, which is computed in 64 bits. -/
def ElfHeader.tableSize (header : ElfHeader) : UInt64 :=
  header.phnum.toUInt64 * header.phentsize.toUInt64

/-- `valid_header`. -/
def validHeader (header : ElfHeader) (fileSize : UInt64) (machine : UInt16) : Bool :=
  if fileSize < 64 then false
  else if header.ident 0 ≠ 0x7F ∨ header.ident 1 ≠ 0x45 ∨ header.ident 2 ≠ 0x4C ∨
    header.ident 3 ≠ 0x46 then false
  else if header.ident 4 ≠ 2 ∨ header.ident 5 ≠ 1 ∨ header.ident 6 ≠ 1 then false
  else if (header.type ≠ etExec ∧ header.type ≠ etDyn) ∨ header.machine ≠ machine ∨
    header.version ≠ 1 then false
  else if header.ehsize ≠ 64 ∨ header.phentsize ≠ 56 ∨ header.phnum = 0 then false
  else if header.phoff > fileSize then false
  else if header.tableSize > fileSize - header.phoff then false
  else true

/-- One turn of the loop of `validate_programs`; the number of segments is an `int`. -/
def validateProgram (fileSize : UInt64) (state : UInt64 × UInt64 × Nat) (program : Program) :
    Option (UInt64 × UInt64 × Nat) :=
  let (minimum, maximum, loadCount) := state
  if program.kind = ptInterp then
    if program.filesz < 2 ∨ program.filesz > 4096 ∨ program.offset > fileSize ∨
        program.filesz > fileSize - program.offset then none
    else some state
  else if program.kind ≠ ptLoad then some state
  else if program.memsz < program.filesz then none
  else if program.filesz ≠ 0 ∧
    (program.offset > fileSize ∨ program.filesz > fileSize - program.offset) then none
  else if program.align > 1 ∧ !powerOfTwo program.align then none
  else if program.vaddr &&& 0xFFF ≠ program.offset &&& 0xFFF then none
  else if addOverflows program.vaddr program.memsz then none
  else
    let start := alignDown program.vaddr 4096
    let stop := alignUp (program.vaddr + program.memsz) 4096
    some (if start < minimum then start else minimum,
      if stop > maximum then stop else maximum, loadCount + 1)

/-- The lowest and the highest address. -/
def validatePrograms (programs : List Program) (fileSize : UInt64) : Option (UInt64 × UInt64) := do
  let (minimum, maximum, loadCount) ←
    programs.foldlM (validateProgram fileSize) (0xFFFFFFFFFFFFFFFF, 0, 0)
  if loadCount = 0 ∨ minimum = 0xFFFFFFFFFFFFFFFF ∨ maximum ≤ minimum then none
  else some (minimum, maximum)

/-- `choose_load_bias`. -/
def chooseLoadBias (header : ElfHeader) (minimum preferredBase : UInt64) : Option UInt64 :=
  if header.type = etExec then
    if minimum < 0x10000 then none else some 0
  else if preferredBase < minimum then none
  else some (preferredBase - minimum)

/-- `map_segment_pages` succeeds. -/
def mapSegmentPages (program : Program) (loadBias userLimit : UInt64) : Bool :=
  if addOverflows program.vaddr loadBias ∨
    addOverflows (program.vaddr + loadBias) program.memsz then false
  else
    let virtualAddress := program.vaddr + loadBias
    if virtualAddress < 0x10000 ∨ virtualAddress ≥ userLimit ∨
      program.memsz > userLimit - virtualAddress then false
    else true

/-- `program_header_virtual`: where the program headers are in memory. -/
def programHeaderVirtual (header : ElfHeader) (programs : List Program) (loadBias : UInt64) :
    UInt64 :=
  match programs with
  | [] => 0
  | program :: rest =>
    if program.kind ≠ ptLoad then programHeaderVirtual header rest loadBias
    else if header.phoff < program.offset then programHeaderVirtual header rest loadBias
    else
      let relative := header.phoff - program.offset
      if relative ≤ program.filesz ∧ header.tableSize ≤ program.filesz - relative then
        loadBias + program.vaddr + relative
      else programHeaderVirtual header rest loadBias

/-- `page_mapped`: some program covers the page. -/
def pageMapped (programs : List Program) (loadBias address : UInt64) : Bool := match programs with
  | [] => false
  | program :: rest =>
    if program.kind ≠ ptLoad then pageMapped rest loadBias address
    else
      let virtualAddress := program.vaddr + loadBias
      let start := alignDown virtualAddress 4096
      let stop := alignUp (virtualAddress + program.memsz) 4096
      if address ≥ start ∧ address < stop then true else pageMapped rest loadBias address

/-- How many bytes of the file are needed. -/
def referenceHeaderSpan (bytes : List UInt8) (fileSize : UInt64) (machine : UInt16) :
    Option UInt64 :=
  if bytes.length < 64 ∨ fileSize < 64 then none
  else
    let probe := headerAt (bufferOf bytes)
    if !validHeader probe fileSize machine then none
    else
      let span := probe.phoff + probe.tableSize
      if span > fileSize ∨ span > 64 * 1024 then none else some span

/-- What `reference_plan` writes for one segment. -/
def placeSegment (program : Program) (loadBias : UInt64) : ReferenceSegment :=
  let virtualAddress := program.vaddr + loadBias
  { address := virtualAddress
    pageStart := alignDown virtualAddress 4096
    pageEnd := alignUp (virtualAddress + program.memsz) 4096
    writable := if program.flags &&& pfW ≠ 0 then 1 else 0
    executable := if program.flags &&& pfX ≠ 0 then 1 else 0 }

/-- One turn of the loop of `reference_plan` over the segments, with the number of segments so far
    and those that there was room for. -/
def mapProgram (loadBias userLimit : UInt64) (capacity : Nat)
    (state : Nat × List ReferenceSegment) (program : Program) :
    Option (Nat × List ReferenceSegment) :=
  if program.kind ≠ ptLoad then some state
  else if !mapSegmentPages program loadBias userLimit then none
  else
    let segments :=
      if state.1 < capacity then state.2 ++ [placeSegment program loadBias] else state.2
    some (state.1 + 1, segments)

/-- One turn of the search for the interpreter. -/
def findInterp (interp : Option Program) (program : Program) : Option (Option Program) :=
  if program.kind ≠ ptInterp then some interp
  else if interp.isSome then none
  else some (some program)

/-- The plan and the segments written. -/
def referencePlan (bytes : List UInt8) (fileSize : UInt64) (machine : UInt16)
    (preferredBase userLimit : UInt64) (capacity : Nat) :
    Option (ReferencePlan × List ReferenceSegment) := do
  let span ← referenceHeaderSpan bytes fileSize machine
  if bytes.length < span.toNat then none
  else
    let header := headerAt (bufferOf bytes)
    let programs := programsAt (bufferOf bytes) header
    let (minimum, maximum) ← validatePrograms programs fileSize
    let loadBias ← chooseLoadBias header minimum preferredBase
    if addOverflows maximum loadBias ∨ maximum + loadBias > userLimit then none
    else
      let (count, segments) ← programs.foldlM (mapProgram loadBias userLimit capacity) (0, [])
      let entry := header.entry + loadBias
      if entry < 0x10000 ∨ entry ≥ userLimit ∨ !pageMapped programs loadBias entry then none
      else
        let interp ← programs.foldlM findInterp none
        let phdr := programHeaderVirtual header programs loadBias
        if interp.isSome ∧ phdr = 0 then none
        else
          some ({
            kind := header.type
            phnum := header.phnum
            loadCount := UInt16.ofNat count
            entryWrapped := if addOverflows header.entry loadBias then 1 else 0
            loadBias
            entry
            phdr
            imageStart := minimum + loadBias
            imageEnd := maximum + loadBias
            interpOffset := (interp.map Program.offset).getD 0
            interpSize := (interp.map Program.filesz).getD 0 }, segments)

/-- The call of the reference with room for 2048 segments. -/
def oldPlan (bytes : Slice) (fileSize preferredBase : UInt64) (target : Target) :
    Option (ReferencePlan × List ReferenceSegment) := do
  let (plan, segments) ← referencePlan bytes.bytes fileSize target.machine preferredBase
    target.userLimit 2048
  some (plan, segments.take plan.loadCount.toNat)

end Tunix.Elf.Reference
