import Mathlib.Data.List.Basic
import Tunix.Kernel.Elf

/-!
# What the ELF planner accepts

The conditions that the checks of `plan` come to, as conditions on natural numbers, and from them
that every plan is safe to carry out: the segments lie in the image and the image below the user
limit, the entry point and the program headers are in segments, and nothing outside the file is read
(`plan_safe`). The passes over the program headers are described by what they compute from the list
of all of them (`foldlM_scanProgram`, `foldlM_placeProgram`).
-/

namespace Tunix.Elf

open Bytes List Option Except
open UInt64 (toNat_add_of_lt checkedAdd_eq_some le_iff_toNat_le lt_iff_toNat_lt)

/-! ## Results of checks -/

/-- A value that is there passes. -/
theorem orError_eq_ok {α : Type} {option : Option α} {error : Error} {value : α} :
    orError option error = .ok value ↔ option = some value := by
  cases option with
  | none => simp [orError]
  | some other => simp [orError]

/-- A condition that does not hold lets pass. -/
theorem refuse_eq_ok {condition : Prop} [Decidable condition] {error : Error} {u : Unit} :
    refuse condition error = .ok u ↔ ¬ condition := by
  unfold refuse
  split_ifs with h <;> simp [h]

/-! ## Pages -/

/-- Rounding down to a page. -/
theorem toNat_pageDown (value : UInt64) : (pageDown value).toNat = value.toNat / 4096 * 4096 :=
  value.toNat_and_not_mask (k := 12) (by decide) (by decide)

/-- The part of an address inside its page. -/
theorem toNat_and_page (value : UInt64) : (value &&& (pageSize - 1)).toNat = value.toNat % 4096 :=
  value.toNat_and_mask (k := 12) (by decide)

/-- The end of the page that a value lies in, for values with room for it. -/
def roundUp (value : UInt64) : UInt64 := pageDown (value + 4095)

private theorem toNat_roundUp {value : UInt64} (h : value.toNat + 4095 < 2 ^ 64) :
    (roundUp value).toNat = (value.toNat + 4095) / 4096 * 4096 := by
  rw [roundUp, toNat_pageDown, toNat_add_of_lt (by simpa using h)]
  rfl

private theorem pageUp_eq_some {value stop : UInt64} :
    pageUp value = some stop ↔ value.toNat + 4095 < 2 ^ 64 ∧ stop = roundUp value := by
  have hmask : (pageSize - 1 : UInt64).toNat = 4095 := by decide
  simp only [pageUp, map_eq_some_iff, checkedAdd_eq_some, hmask, and_assoc,
    exists_and_left, exists_eq_left]
  exact and_congr_right fun _ => eq_comm

/-! ## One program header -/

/-- What `check_program` asks of a segment. -/
structure Program.Sound (p : Program) (fileSize : UInt64) : Prop where
  filesz : p.filesz.toNat ≤ p.memsz.toNat
  file : p.filesz ≠ 0 → p.offset.toNat + p.filesz.toNat ≤ fileSize.toNat
  align : 1 < p.align.toNat → isPowerOfTwo p.align = true
  congruent : p.vaddr.toNat % 4096 = p.offset.toNat % 4096
  stop : p.vaddr.toNat + p.memsz.toNat + 4095 < 2 ^ 64

variable {fileSize loadBias preferredBase : UInt64} {p : Program} {target : Target}
  {programs : List Program} {header : Header}

/-- The bytes are in the file, without overflow. -/
theorem withinFile_iff {offset size fileSize : UInt64} :
    withinFile offset size fileSize = true ↔ offset.toNat + size.toNat ≤ fileSize.toNat := by
  unfold withinFile
  cases hroom : fileSize.checkedSub offset with
  | none =>
    have hlt : ¬ offset ≤ fileSize := by
      intro hle
      rw [UInt64.checkedSub, if_pos hle] at hroom
      contradiction
    rw [le_iff_toNat_le] at hlt
    simp only [Bool.false_eq_true, false_iff]
    omega
  | some room =>
    rw [UInt64.checkedSub_eq_some] at hroom
    rw [decide_eq_true_eq, le_iff_toNat_le]
    omega

private theorem checkProgram_eq_ok {u : Unit} :
    checkProgram p fileSize = .ok u ↔ p.Sound fileSize := by
  unfold checkProgram
  simp only [bind_eq_ok, refuse_eq_ok, orError_eq_ok, checkedAdd_eq_some,
    pageUp_eq_some, exists_const, Bool.not_eq_true', not_and, not_not, Bool.not_eq_false,
    withinFile_iff, ← UInt64.toNat_inj (a := _ &&& _), toNat_and_page, lt_iff_toNat_lt,
    ne_eq, and_assoc, exists_and_left, exists_eq_left, not_lt]
  constructor
  · intro ⟨hsize, hfile, halign, hcongruent, hstop, hroom, _⟩
    rw [toNat_add_of_lt hstop] at hroom
    exact ⟨hsize, hfile, halign, hcongruent, hroom⟩
  · intro h
    have hstop := h.stop
    have hadd := toNat_add_of_lt (show p.vaddr.toNat + p.memsz.toNat < 2 ^ 64 by omega)
    exact ⟨h.filesz, h.file, h.align, h.congruent, by omega, by rwa [hadd], rfl⟩

/-- What the first pass asks of an interpreter. -/
structure Program.InterpSound (p : Program) (fileSize : UInt64) : Prop where
  least : 2 ≤ p.filesz.toNat
  most : p.filesz.toNat ≤ 4096
  file : p.offset.toNat + p.filesz.toNat ≤ fileSize.toNat

/-- What `segment` asks of the place of a segment. -/
structure Program.Fits (p : Program) (loadBias userLimit : UInt64) : Prop where
  stop : p.vaddr.toNat + loadBias.toNat + p.memsz.toNat + 4095 < 2 ^ 64
  lowest : 0x10000 ≤ p.vaddr.toNat + loadBias.toNat
  start_lt : p.vaddr.toNat + loadBias.toNat < userLimit.toNat
  stop_le : p.vaddr.toNat + loadBias.toNat + p.memsz.toNat ≤ userLimit.toNat

/-- A segment moved by the load bias. -/
def Program.placed (p : Program) (loadBias : UInt64) : Segment where
  address := p.vaddr + loadBias
  fileOffset := p.offset
  fileSize := p.filesz
  memorySize := p.memsz
  pageStart := pageDown (p.vaddr + loadBias)
  pageEnd := roundUp (p.vaddr + loadBias + p.memsz)
  writable := p.flags &&& pfW ≠ 0
  executable := p.flags &&& pfX ≠ 0

namespace Program.Fits

variable {userLimit : UInt64}

section

variable (h : p.Fits loadBias userLimit)

include h

/-- The address of a program that passes does not wrap. -/
theorem toNat_address : (p.vaddr + loadBias).toNat = p.vaddr.toNat + loadBias.toNat :=
  toNat_add_of_lt (by have := h.stop; omega)

private theorem toNat_stop :
    (p.vaddr + loadBias + p.memsz).toNat = p.vaddr.toNat + loadBias.toNat + p.memsz.toNat := by
  have hstop := h.stop
  rw [toNat_add_of_lt (by rw [h.toNat_address]; omega), h.toNat_address]

private theorem toNat_pageEnd : (p.placed loadBias).pageEnd.toNat =
      (p.vaddr.toNat + loadBias.toNat + p.memsz.toNat + 4095) / 4096 * 4096 := by
  rw [placed, toNat_roundUp (by rw [h.toNat_stop]; exact h.stop), h.toNat_stop]

private theorem toNat_pageStart :
    (p.placed loadBias).pageStart.toNat = (p.vaddr.toNat + loadBias.toNat) / 4096 * 4096 := by
  rw [placed, toNat_pageDown, h.toNat_address]

end

end Program.Fits

private theorem segment_eq_ok {s : Segment} : segment p loadBias target = .ok s ↔
      p.Fits loadBias target.userLimit ∧ s = p.placed loadBias := by
  have hlowest : lowestAddress.toNat = 0x10000 := by decide
  unfold segment
  simp only [bind_eq_ok, refuse_eq_ok, orError_eq_ok, checkedAdd_eq_some,
    pageUp_eq_some, exists_const, not_or, lt_iff_toNat_lt, le_iff_toNat_le, ge_iff_le,
    gt_iff_lt, pure_eq_ok, UInt64.toNat_saturatingSub, not_lt, not_le, hlowest,
    and_assoc, exists_and_left, exists_eq_left]
  constructor
  · intro ⟨haddress, hstop, hleast, hlimit, hroom, hfits, hs⟩
    have hvalue := toNat_add_of_lt haddress
    rw [toNat_add_of_lt hstop] at hfits
    exact ⟨⟨by omega, by omega, by omega, by omega⟩, hs.symm⟩
  · intro ⟨hp, hs⟩
    have haddress := hp.toNat_address
    have htotal := hp.toNat_stop
    obtain ⟨hstop, hleast, hstart, hlimit⟩ := hp
    exact ⟨by omega, by omega, by omega, by omega, by omega, by omega, hs.symm⟩

/-! ## The list of program headers -/

/-- A pass that reads the headers one by one, as a pass over the list of them. -/
theorem foldlM_program {σ : Type} {read : Nat → Option Program} {error : Error}
    {step : σ → Program → Except Error σ} {indices : List Nat} {s t : σ} :
    indices.foldlM (fun s index => do
        let program ← orError (read index) error
        step s program) s = .ok t ↔
      (∀ index ∈ indices, (read index).isSome) ∧
        (indices.filterMap read).foldlM step s = .ok t := by
  induction indices generalizing s with
  | nil => simp
  | cons index rest ih =>
    rw [foldlM_cons]
    simp only [bind_eq_ok, orError_eq_ok]
    cases hread : read index with
    | none => simp [hread]
    | some program =>
      rw [filterMap_cons_some hread, foldlM_cons, bind_eq_ok]
      simp only [some.injEq, exists_eq_left', ih, forall_mem_cons, hread, isSome_some, true_and]
      exact ⟨fun ⟨u, hu, hall, hrest⟩ => ⟨hall, u, hu, hrest⟩, fun ⟨hall, u, hu, hrest⟩ =>
        ⟨u, hu, hall, hrest⟩⟩

def loads (programs : List Program) : List Program := programs.filter fun p => p.kind = ptLoad

def interps (programs : List Program) : List Program := programs.filter fun p => p.kind = ptInterp

private theorem filter_concat (kind : UInt32) (programs : List Program) (p : Program) :
    (programs ++ [p]).filter (·.kind = kind) =
      if p.kind = kind then programs.filter (·.kind = kind) ++ [p]
        else programs.filter (·.kind = kind) := by
  split_ifs with h <;> simp [h]

/-- One more program, if it is loaded. -/
theorem loads_concat (programs : List Program) (p : Program) :
    loads (programs ++ [p]) = if p.kind = ptLoad then loads programs ++ [p] else loads programs :=
  filter_concat ..

/-- One more program, if it names the interpreter. -/
theorem interps_concat (programs : List Program) (p : Program) : interps (programs ++ [p]) =
      if p.kind = ptInterp then interps programs ++ [p] else interps programs :=
  filter_concat ..

private theorem forall_filter_concat {kind : UInt32} {P : Program → Prop} :
    (∀ q ∈ (programs ++ [p]).filter (·.kind = kind), P q) ↔
      (∀ q ∈ programs.filter (·.kind = kind), P q) ∧ (p.kind = kind → P p) := by
  rw [filter_concat]
  split_ifs with h <;> simp [h, or_imp, forall_and]

/-- What holds of all programs that are loaded, with one more. -/
theorem forall_loads_concat {P : Program → Prop} :
    (∀ q ∈ loads (programs ++ [p]), P q) ↔ (∀ q ∈ loads programs, P q) ∧ (p.kind = ptLoad → P p) :=
  forall_filter_concat

/-- What holds of all names of an interpreter, with one more. -/
theorem forall_interps_concat {P : Program → Prop} :
    (∀ q ∈ interps (programs ++ [p]), P q) ↔
      (∀ q ∈ interps programs, P q) ∧ (p.kind = ptInterp → P p) :=
  forall_filter_concat

/-- There is at most one name of an interpreter, with one more program. -/
theorem single_interps_concat : (interps (programs ++ [p])).length ≤ 1 ↔
      (interps programs).length ≤ 1 ∧ (p.kind = ptInterp → interps programs = []) := by
  rw [interps_concat, ← length_eq_zero_iff]
  split_ifs with hi
  · simp only [length_append, length_singleton, hi, true_implies]
    omega
  · simp [hi]

/-- Not more programs are loaded than there are. -/
theorem length_loads_le (programs : List Program) :
    (loads programs).length ≤ programs.length := length_filter_le _ _

/-! ## The first pass -/

def lowestOf (programs : List Program) : UInt64 :=
  programs.foldl (fun lowest p => min lowest (pageDown p.vaddr)) 0xFFFFFFFFFFFFFFFF

def highestOf (programs : List Program) : UInt64 :=
  programs.foldl (fun highest p => max highest (roundUp (p.vaddr + p.memsz))) 0

/-- What the first pass comes to. -/
def scanOf (programs : List Program) : Scan where
  lowest := lowestOf (loads programs)
  highest := highestOf (loads programs)
  loadCount := UInt16.ofNat (loads programs).length
  interp := (interps programs).head?.map fun p => (p.offset, p.filesz)

private theorem isSome_interp : (scanOf programs).interp.isSome = true ↔ interps programs ≠ [] := by
  cases h : interps programs <;> simp [scanOf, h]

/-- What the first pass asks of all program headers. -/
structure Checked (programs : List Program) (fileSize : UInt64) : Prop where
  sound : ∀ p ∈ loads programs, p.Sound fileSize
  interpSound : ∀ p ∈ interps programs, p.InterpSound fileSize
  single : (interps programs).length ≤ 1

private theorem checked_concat : Checked (programs ++ [p]) fileSize ↔ Checked programs fileSize ∧
      (p.kind = ptLoad → p.Sound fileSize) ∧
      (p.kind = ptInterp → p.InterpSound fileSize ∧ interps programs = []) := by
  constructor
  · intro ⟨hsound, hinterp, hlength⟩
    obtain ⟨hsound, hload⟩ := forall_loads_concat.mp hsound
    obtain ⟨hinterp, hone⟩ := forall_interps_concat.mp hinterp
    obtain ⟨hlength, hnil⟩ := single_interps_concat.mp hlength
    exact ⟨⟨hsound, hinterp, hlength⟩, hload, fun hi => ⟨hone hi, hnil hi⟩⟩
  · intro ⟨⟨hsound, hinterp, hlength⟩, hload, hone⟩
    exact ⟨forall_loads_concat.mpr ⟨hsound, hload⟩,
      forall_interps_concat.mpr ⟨hinterp, fun hi => (hone hi).1⟩,
      single_interps_concat.mpr ⟨hlength, fun hi => (hone hi).2⟩⟩

/-- One turn of the first pass. -/
theorem scanProgram_eq_ok {s : Scan} (hlength : programs.length < 0xFFFF) :
    scanProgram fileSize (scanOf programs) p = .ok s ↔ (p.kind = ptLoad → p.Sound fileSize) ∧
      (p.kind = ptInterp → p.InterpSound fileSize ∧ interps programs = []) ∧
      s = scanOf (programs ++ [p]) := by
  have hkinds : ptLoad ≠ ptInterp := by decide
  have hmost : maxInterpSize.toNat = 4096 := by decide
  have htwo : (2 : UInt64).toNat = 2 := by decide
  unfold scanProgram
  by_cases hi : p.kind = ptInterp
  · have hl : p.kind ≠ ptLoad := by
      rw [hi]
      exact hkinds.symm
    rw [if_pos hi]
    simp only [bind_eq_ok, refuse_eq_ok, exists_const, not_or, Bool.not_eq_true',
      Bool.not_eq_false, withinFile_iff, isSome_interp, not_not, pure_eq_ok,
      lt_iff_toNat_lt, gt_iff_lt, not_lt, hmost, htwo, hi, hkinds.symm, false_implies,
      true_and, true_implies]
    constructor
    · intro ⟨⟨hleast, hmost, hfile⟩, hnil, hs⟩
      refine ⟨⟨⟨hleast, hmost, hfile⟩, hnil⟩, hs.symm.trans ?_⟩
      simp [scanOf, loads_concat, interps_concat, hi, hnil, hkinds.symm]
    · intro ⟨⟨hinterp, hnil⟩, hs⟩
      refine ⟨⟨hinterp.least, hinterp.most, hinterp.file⟩, hnil, hs.symm ▸ ?_⟩
      simp [scanOf, loads_concat, interps_concat, hi, hnil, hkinds.symm]
  · rw [if_neg hi]
    by_cases hl : p.kind = ptLoad
    · rw [if_neg (not_not.mpr hl)]
      -- There are at most as many programs as headers, so the count is not at its end.
      have hcount : (scanOf programs).loadCount ≠ 0xFFFF := by
        have hle := length_loads_le programs
        rw [ne_eq, ← UInt16.toNat_inj]
        show (UInt16.ofNat (loads programs).length).toNat ≠ 0xFFFF
        rw [UInt16.toNat_ofNat_of_lt' (by show _ < 65536; omega)]
        omega
      have hnext : scanOf (programs ++ [p]) = { scanOf programs with
            loadCount := (scanOf programs).loadCount + 1
            lowest := min (scanOf programs).lowest (pageDown p.vaddr)
            highest := max (scanOf programs).highest (roundUp (p.vaddr + p.memsz)) } := by
        simp only [scanOf, loads_concat, interps_concat, hl, hkinds, if_true, if_false, lowestOf,
          highestOf, foldl_append, foldl_cons, foldl_nil, length_append,
          length_singleton]
        simp
      simp only [bind_eq_ok, refuse_eq_ok, orError_eq_ok, exists_const, checkProgram_eq_ok,
        bind_eq_some_iff, checkedAdd_eq_some, pageUp_eq_some, pure_eq_ok,
        hcount, not_false_eq_true, true_and, hl, true_implies, hkinds, false_implies, hnext,
        and_assoc, exists_and_left, exists_eq_left]
      refine and_congr_right fun hsound => ?_
      have hroom := hsound.stop
      have hadd := toNat_add_of_lt (show p.vaddr.toNat + p.memsz.toNat < 2 ^ 64 by omega)
      rw [hadd, eq_comm]
      exact ⟨fun h => h.2.2, fun hs => ⟨by omega, hroom, hs⟩⟩
    · rw [if_pos hl]
      have hnext : scanOf (programs ++ [p]) = scanOf programs := by
        simp [scanOf, loads_concat, interps_concat, hi, hl]
      simp only [pure_eq_ok, hl, hi, false_implies, true_and, hnext]
      exact eq_comm

/-- The first pass, by what it asks of the program headers and what it computes from them. -/
theorem foldlM_scanProgram {s : Scan} (hlength : programs.length ≤ 0xFFFF) :
    programs.foldlM (scanProgram fileSize) Scan.start = .ok s ↔
      Checked programs fileSize ∧ s = scanOf programs := by
  refine foldlM_eq_pure pure_eq_ok bind_eq_ok scanOf (Checked · fileSize)
    rfl ⟨by simp [loads], by simp [interps], by simp [interps]⟩ fun seen p t hseen => ?_
  have hle := hseen.length_le
  rw [length_append, length_singleton] at hle
  rw [checked_concat, and_assoc, and_assoc]
  exact and_congr_right fun _ => scanProgram_eq_ok (by omega)

/-! ## The second pass -/

/-- The part of a segment that is in the file has the whole table of program headers. -/
def Program.holdsTable (p : Program) (header : Header) : Bool :=
  p.offset.toNat ≤ header.phoff.toNat ∧
    header.phoff.toNat - p.offset.toNat + (tableSize header.phnum).toNat ≤ p.filesz.toNat

/-- Where the table is then. -/
def Program.tableAt (p : Program) (header : Header) (loadBias : UInt64) : UInt64 :=
  p.vaddr + loadBias + (header.phoff - p.offset)

/-- The entry point is in the pages of a segment. -/
def Program.covers (p : Program) (loadBias entry : UInt64) : Bool :=
  (p.placed loadBias).pageStart ≤ entry ∧ entry < (p.placed loadBias).pageEnd

/-- What the second pass comes to. -/
def placingOf (header : Header) (loadBias entry : UInt64) (programs : List Program) : Placing where
  phdr := (((loads programs).find? (·.holdsTable header)).map (·.tableAt header loadBias)).getD 0
  entryMapped := (loads programs).any (·.covers loadBias entry)

section

variable {userLimit : UInt64}

section

variable (hfits : p.Fits loadBias userLimit) (hsound : p.Sound fileSize)
include hfits hsound

/-- The table is in the segment, and so its address does not wrap around and is not 0. -/
theorem toNat_tableAt (htable : p.holdsTable header = true) :
    (p.tableAt header loadBias).toNat = p.vaddr.toNat + loadBias.toNat +
      (header.phoff.toNat - p.offset.toNat) := by
  simp only [Program.holdsTable, decide_eq_true_eq] at htable
  have hsub : (header.phoff - p.offset).toNat = header.phoff.toNat - p.offset.toNat :=
    UInt64.toNat_sub_of_le _ _ (le_iff_toNat_le.mpr htable.1)
  have hsize := hsound.filesz
  have hstop := hfits.stop
  rw [Program.tableAt, toNat_add_of_lt (by rw [hfits.toNat_address, hsub]; omega),
    hfits.toNat_address, hsub]

private theorem tableAt_ne_zero (htable : p.holdsTable header = true) :
    p.tableAt header loadBias ≠ 0 := by
  have hlowest := hfits.lowest
  have hvalue := toNat_tableAt hfits hsound htable
  intro hzero
  rw [hzero] at hvalue
  have hnone : (0 : UInt64).toNat = 0 := rfl
  omega

private theorem tableAddress_eq :
    tableAddress header p (p.placed loadBias) =
      .ok (if p.holdsTable header then p.tableAt header loadBias else 0) := by
  unfold tableAddress UInt64.checkedSub
  by_cases hle : p.offset ≤ header.phoff
  · have hsub := UInt64.toNat_sub_of_le _ _ hle
    -- The saturating difference is not used where it would saturate.
    have hiff : (header.phoff - p.offset ≤ p.filesz ∧ tableSize header.phnum ≤
        p.filesz.saturatingSub (header.phoff - p.offset)) ↔ p.holdsTable header = true := by
      rw [le_iff_toNat_le] at hle
      simp only [Program.holdsTable, decide_eq_true_eq, le_iff_toNat_le,
        UInt64.toNat_saturatingSub, hsub]
      omega
    rw [if_pos hle]
    dsimp only
    by_cases htable : p.holdsTable header = true
    · have hlt := (p.tableAt header loadBias).toNat_lt
      rw [toNat_tableAt hfits hsound htable, ← hfits.toNat_address, ← hsub] at hlt
      rw [if_pos (hiff.mpr htable), if_pos htable, orError_eq_ok, checkedAdd_eq_some]
      exact ⟨hlt, rfl⟩
    · rw [if_neg (fun h => htable (hiff.mp h)), if_neg htable]
  · have hnot : p.holdsTable header = false := by
      rw [le_iff_toNat_le] at hle
      simp [Program.holdsTable, hle]
    rw [if_neg hle, hnot]
    rfl

end

/-- One turn of the second pass. -/
theorem placeProgram_eq_ok {programs : List Program} {entry : UInt64} {target : Target}
    {t : Placing} (hsound : ∀ q ∈ loads (programs ++ [p]), q.Sound fileSize)
    (hfits : ∀ q ∈ loads programs, q.Fits loadBias target.userLimit) :
    placeProgram header loadBias entry target (placingOf header loadBias entry programs) p = .ok t ↔
      (p.kind = ptLoad → p.Fits loadBias target.userLimit) ∧
        t = placingOf header loadBias entry (programs ++ [p]) := by
  rw [loads_concat] at hsound
  unfold placeProgram
  by_cases hl : p.kind = ptLoad
  · rw [if_pos hl] at hsound
    rw [if_neg (not_not.mpr hl)]
    simp only [bind_eq_ok, segment_eq_ok, hl, true_implies]
    -- A table that has been found is kept; one that has not is looked for in this segment.
    have hphdr : ∀ hp : p.Fits loadBias target.userLimit,
        nextPhdr header (placingOf header loadBias entry programs).phdr p (p.placed loadBias) =
          .ok (placingOf header loadBias entry (programs ++ [p])).phdr := by
      intro hp
      have htable : tableAddress header p (p.placed loadBias) = _ :=
        tableAddress_eq hp (hsound p (by simp))
      have hconcat : loads (programs ++ [p]) = loads programs ++ [p] := by
        rw [loads_concat, if_pos hl]
      unfold nextPhdr
      rcases eq_none_or_eq_some ((loads programs).find? (·.holdsTable header)) with
        hfind | ⟨q, hfind⟩
      · have hnone : (placingOf header loadBias entry programs).phdr = 0 := by
          simp [placingOf, hfind]
        rw [if_pos hnone, htable]
        by_cases hholds : p.holdsTable header = true <;>
          simp [placingOf, hconcat, find?_append, hfind, hholds]
      · have hq := mem_of_find?_eq_some hfind
        have hfound :
            (placingOf header loadBias entry programs).phdr = q.tableAt header loadBias := by
          simp [placingOf, hfind]
        have hne := tableAt_ne_zero (hfits q hq) (hsound q (by simp [hq]))
          (find?_some (p := fun q : Program => q.holdsTable header) hfind)
        rw [hfound, if_neg hne]
        simp [placingOf, hconcat, find?_append, hfind]
    have hmapped : (placingOf header loadBias entry (programs ++ [p])).entryMapped =
        ((placingOf header loadBias entry programs).entryMapped ||
          decide ((p.placed loadBias).pageStart ≤ entry ∧
            entry < (p.placed loadBias).pageEnd)) := by
      simp [placingOf, loads_concat, hl, Program.covers]
    constructor
    · intro ⟨placed, ⟨hp, hplaced⟩, phdr, hvalue, ht⟩
      subst hplaced
      rw [hphdr hp, ok.injEq] at hvalue
      refine ⟨hp, ?_⟩
      rw [← pure_eq_ok.mp ht, ← hmapped, ← hvalue]
    · intro ⟨hp, ht⟩
      refine ⟨_, ⟨hp, rfl⟩, _, hphdr hp, ?_⟩
      rw [ht, ← hmapped]
      rfl
  · rw [if_pos hl]
    have hsame :
        placingOf header loadBias entry (programs ++ [p]) =
          placingOf header loadBias entry programs := by
      simp only [placingOf, loads_concat, hl, if_false]
    simp only [pure_eq_ok, hl, false_implies, true_and, hsame]
    exact eq_comm

end

/-- The second pass, by what it asks of the segments and what it computes from them. -/
theorem foldlM_placeProgram {entry : UInt64} {t : Placing}
    (hsound : ∀ p ∈ loads programs, p.Sound fileSize) :
    programs.foldlM (placeProgram header loadBias entry target) ⟨0, false⟩ = .ok t ↔
      (∀ p ∈ loads programs, p.Fits loadBias target.userLimit) ∧
        t = placingOf header loadBias entry programs := by
  refine foldlM_eq_pure pure_eq_ok bind_eq_ok (placingOf header loadBias entry)
    (fun programs => ∀ p ∈ loads programs, p.Fits loadBias target.userLimit) rfl (by simp [loads])
    fun seen p t hseen => ?_
  rw [forall_loads_concat, and_assoc]
  exact and_congr_right (placeProgram_eq_ok fun q hq => hsound q ((hseen.filter _).subset hq))

/-! ## The layout of the image -/

section

/-- The lowest page, with one more program. -/
theorem lowestOf_concat :
    lowestOf (programs ++ [p]) = min (lowestOf programs) (pageDown p.vaddr) := by
  simp [lowestOf]

/-- The highest page, with one more program. -/
theorem highestOf_concat :
    highestOf (programs ++ [p]) = max (highestOf programs) (roundUp (p.vaddr + p.memsz)) := by
  simp [highestOf]

private theorem lowestOf_le (hp : p ∈ programs) :
    (lowestOf programs).toNat ≤ (pageDown p.vaddr).toNat := by
  induction programs using reverseRecOn with
  | nil => exact absurd hp not_mem_nil
  | append_singleton programs q ih =>
    rw [lowestOf_concat, UInt64.toNat_min]
    rcases mem_append.mp hp with hp | hp
    · exact le_trans (min_le_left _ _) (ih hp)
    · rw [mem_singleton.mp hp]
      exact min_le_right _ _

private theorem le_highestOf (hp : p ∈ programs) :
    (roundUp (p.vaddr + p.memsz)).toNat ≤ (highestOf programs).toNat := by
  induction programs using reverseRecOn with
  | nil => exact absurd hp not_mem_nil
  | append_singleton programs q ih =>
    rw [highestOf_concat, UInt64.toNat_max]
    rcases mem_append.mp hp with hp | hp
    · exact le_trans (ih hp) (le_max_left _ _)
    · rw [mem_singleton.mp hp]
      exact le_max_right _ _

/-- The lowest address is the start of a page, if there is a segment. -/
theorem lowestOf_aligned (h : (lowestOf programs).toNat ≠ 2 ^ 64 - 1) :
    (lowestOf programs).toNat % 4096 = 0 := by
  induction programs using reverseRecOn with
  | nil => exact absurd rfl h
  | append_singleton programs q ih =>
    have hpage : (pageDown q.vaddr).toNat % 4096 = 0 := by
      rw [toNat_pageDown, Nat.mul_mod_left]
    rw [lowestOf_concat, UInt64.toNat_min] at h ⊢
    by_cases hle : (lowestOf programs).toNat ≤ (pageDown q.vaddr).toNat
    · rw [min_eq_left hle] at h ⊢
      exact ih h
    · rw [Nat.min_eq_right (by omega)]
      exact hpage

end

/-- The load bias that is chosen for an image from a page on is a multiple of the page size. -/
theorem chooseLoadBias_eq_ok {lowest : UInt64} :
    chooseLoadBias header lowest preferredBase = .ok loadBias ↔
      if header.kind = etExec then 0x10000 ≤ lowest.toNat ∧ loadBias = 0
      else preferredBase.toNat = lowest.toNat + loadBias.toNat := by
  have hlowest : lowestAddress.toNat = 0x10000 := by decide
  unfold chooseLoadBias
  split_ifs with hkind hlow
  · rw [lt_iff_toNat_lt, hlowest] at hlow
    simp only [false_iff, not_and]
    omega
  · rw [lt_iff_toNat_lt, hlowest] at hlow
    rw [ok.injEq]
    exact ⟨fun h => ⟨by omega, h.symm⟩, fun h => h.2.symm⟩
  · rw [orError_eq_ok, UInt64.checkedSub_eq_some]

private theorem chooseLoadBias_aligned {lowest : UInt64}
    (h : chooseLoadBias header lowest preferredBase = .ok loadBias)
    (hlowest : lowest.toNat % 4096 = 0) (hbase : preferredBase.toNat % 4096 = 0) :
    loadBias.toNat % 4096 = 0 := by
  rw [chooseLoadBias_eq_ok] at h
  split_ifs at h
  · rw [h.2]
    rfl
  · omega

/-! ## What is accepted -/

/-- The program headers of a file. -/
def programsOf (bytes : List UInt8) (header : Header) : List Program :=
  (range header.phnum.toNat).filterMap (program bytes header)

private theorem length_programsOf_le (bytes : List UInt8) (header : Header) :
    (programsOf bytes header).length ≤ 0xFFFF := by
  have hle := length_filterMap_le (program bytes header) (range header.phnum.toNat)
  rw [length_range] at hle
  have hlt := header.phnum.toNat_lt
  unfold programsOf
  omega

/-- The checks of `plan` after the header is known and the load bias chosen. -/
structure Accepted (bytes : Slice) (fileSize preferredBase : UInt64) (target : Target)
    (header : Header) (loadBias : UInt64) : Prop where
  parsed : parseHeader bytes.bytes fileSize target.machine = .ok header
  span : ∃ span, headerSpan bytes.bytes fileSize target.machine = .ok span ∧
    span.toNat ≤ bytes.bytes.length
  read : ∀ index < header.phnum.toNat, (program bytes.bytes header index).isSome
  checked : Checked (programsOf bytes.bytes header) fileSize
  lowest_lt : (lowestOf (loads (programsOf bytes.bytes header))).toNat <
    (highestOf (loads (programsOf bytes.bytes header))).toNat
  base : preferredBase.toNat % 4096 = 0
  bias : chooseLoadBias header (lowestOf (loads (programsOf bytes.bytes header)))
    preferredBase = .ok loadBias
  limit : (highestOf (loads (programsOf bytes.bytes header))).toNat + loadBias.toNat ≤
    target.userLimit.toNat
  fits : ∀ p ∈ loads (programsOf bytes.bytes header), p.Fits loadBias target.userLimit
  entry_ge : 0x10000 ≤ header.entry.toNat + loadBias.toNat
  entry_lt : header.entry.toNat + loadBias.toNat < target.userLimit.toNat
  covered : ∃ p ∈ loads (programsOf bytes.bytes header),
    p.covers loadBias (header.entry + loadBias) = true
  phdr : interps (programsOf bytes.bytes header) ≠ [] →
    ∃ p ∈ loads (programsOf bytes.bytes header), p.holdsTable header = true

/-- The plan for a file that is accepted. -/
def planOf (bytes : List UInt8) (header : Header) (loadBias : UInt64) : Plan :=
  let programs := programsOf bytes header
  let interp := ((interps programs).head?.map fun p => (p.offset, p.filesz)).getD (0, 0)
  { kind := header.kind
    phnum := header.phnum
    loadCount := UInt16.ofNat (loads programs).length
    loadBias
    entry := header.entry + loadBias
    phdr := (placingOf header loadBias (header.entry + loadBias) programs).phdr
    imageStart := lowestOf (loads programs) + loadBias
    imageEnd := highestOf (loads programs) + loadBias
    interpOffset := interp.1
    interpSize := interp.2 }

private theorem loadCount_ne_zero (hlength : programs.length ≤ 0xFFFF)
    (h : loads programs ≠ []) : (scanOf programs).loadCount ≠ 0 := by
  have hle := length_loads_le programs
  have hpos := length_pos_iff.mpr h
  rw [ne_eq, ← UInt16.toNat_inj]
  show (UInt16.ofNat (loads programs).length).toNat ≠ 0
  rw [UInt16.toNat_ofNat_of_lt' (by show _ < 65536; omega)]
  omega

/-- The address of the program headers is 0 exactly if no segment holds them. -/
theorem phdr_eq_zero {entry userLimit : UInt64} (hsound : ∀ p ∈ loads programs, p.Sound fileSize)
    (hfits : ∀ p ∈ loads programs, p.Fits loadBias userLimit) :
    (placingOf header loadBias entry programs).phdr = 0 ↔
      ¬ ∃ p ∈ loads programs, p.holdsTable header = true := by
  rcases eq_none_or_eq_some ((loads programs).find? (·.holdsTable header)) with
    hfind | ⟨q, hfind⟩
  · have hnone := find?_eq_none.mp hfind
    simp only [placingOf, hfind, map_none, getD_none, true_iff, not_exists, not_and]
    exact hnone
  · have hq := mem_of_find?_eq_some hfind
    have hholds := find?_some (p := fun q : Program => q.holdsTable header) hfind
    simp only [placingOf, hfind, map_some, getD_some,
      tableAt_ne_zero (hfits q hq) (hsound q hq) hholds, false_iff, not_not]
    exact ⟨q, hq, hholds⟩

/-- There is a segment, and the image is not empty. -/
theorem image_iff : (¬ loads programs = [] ∧ ¬ lowestOf (loads programs) = 0xFFFFFFFFFFFFFFFF ∧
      ¬ highestOf (loads programs) ≤ lowestOf (loads programs)) ↔
    (lowestOf (loads programs)).toNat < (highestOf (loads programs)).toNat := by
  rw [le_iff_toNat_le, not_le]
  refine ⟨fun h => h.2.2, fun h => ⟨fun hnil => ?_, fun hmax => ?_, h⟩⟩
  · rw [hnil] at h
    exact absurd h (by decide)
  · have hlt := (highestOf (loads programs)).toNat_lt
    have hvalue : (0xFFFFFFFFFFFFFFFF : UInt64).toNat = 2 ^ 64 - 1 := by decide
    rw [hmax] at h
    omega

private theorem scanPrograms_eq_ok {bytes : List UInt8} {s : Scan} :
    scanPrograms bytes header fileSize = .ok s ↔
      (∀ index < header.phnum.toNat, (program bytes header index).isSome) ∧
        Checked (programsOf bytes header) fileSize ∧ s = scanOf (programsOf bytes header) := by
  rw [scanPrograms, foldlM_program]
  exact and_congr (by simp) (foldlM_scanProgram (length_programsOf_le ..))

/-- `plan` accepts exactly what meets its conditions. -/
theorem plan_eq_ok {bytes : Slice} {image : Image} :
    plan bytes fileSize preferredBase target = .ok image ↔
      ∃ header loadBias, Accepted bytes fileSize preferredBase target header loadBias ∧
        image = ⟨bytes, header, planOf bytes.bytes header loadBias, target⟩ := by
  have hlowest : lowestAddress.toNat = 0x10000 := by decide
  unfold plan
  simp only [bind_eq_ok, refuse_eq_ok, orError_eq_ok, exists_const, scanPrograms_eq_ok,
    placePrograms, foldlM_program, checkedAdd_eq_some, pure_eq_ok, not_or, not_and,
    and_assoc, exists_and_left, exists_eq_left]
  constructor
  · intro ⟨header, hparsed, span, hspan, hlength, hread, hchecked, hcount, hlow,
      himage, hbase, loadBias,
      hbias, hend, hlimit, _, hentry, _, placing, hplace, hleast, hbelow, hmapped, hphdr, hdone⟩
    -- Every check has passed: what was compared as words is compared as numbers.
    obtain ⟨hfits, rfl⟩ := (foldlM_placeProgram hchecked.sound).mp hplace
    rw [gt_iff_lt, lt_iff_toNat_lt, toNat_add_of_lt hend, not_lt] at hlimit
    rw [lt_iff_toNat_lt, toNat_add_of_lt hentry, hlowest, not_lt] at hleast
    rw [ge_iff_le, le_iff_toNat_le, toNat_add_of_lt hentry, not_le] at hbelow
    rw [phdr_eq_zero hchecked.sound hfits, not_not, isSome_interp] at hphdr
    refine ⟨header, loadBias, ⟨hparsed, ⟨span, hspan, not_lt.mp hlength⟩, hread, hchecked,
      image_iff.mp ⟨fun hnil => hcount (by simp [scanOf, hnil]), hlow, himage⟩, ?_,
        hbias, hlimit, hfits,
      hleast, hbelow, by simpa [placingOf] using hmapped, hphdr⟩, hdone.symm⟩
    rw [← toNat_and_page, not_not.mp hbase]
    rfl
  · intro ⟨header, loadBias, h, hdone⟩
    obtain ⟨span, hspan, hlength⟩ := h.span
    obtain ⟨hne, hlow, himage⟩ := image_iff.mpr h.lowest_lt
    have hlt := h.lowest_lt
    have hlimit := h.limit
    have hentry := h.entry_lt
    have hlimitLt := target.userLimit.toNat_lt
    -- The sums stay below the limit, so no checked addition fails.
    have hend : (highestOf (loads (programsOf bytes.bytes header))).toNat +
        loadBias.toNat < 2 ^ 64 := by
      omega
    have hsum : header.entry.toNat + loadBias.toNat < 2 ^ 64 := by omega
    refine ⟨header, h.parsed, span, hspan, not_lt.mpr hlength, h.read, h.checked,
      loadCount_ne_zero (length_programsOf_le ..) hne, hlow, himage, ?_, loadBias, h.bias, hend, ?_,
      lt_trans (Nat.add_lt_add_right hlt _) hend, hsum, by simpa using h.read, _,
      (foldlM_placeProgram h.checked.sound).mpr ⟨h.fits, rfl⟩, ?_, ?_, ?_,
        fun hsome => ?_, hdone.symm⟩
    · rw [not_not, ← UInt64.toNat_inj, toNat_and_page]
      exact h.base
    · rw [gt_iff_lt, lt_iff_toNat_lt, not_lt]
      exact (toNat_add_of_lt hend).trans_le hlimit
    · rw [lt_iff_toNat_lt, toNat_add_of_lt hsum, hlowest, not_lt]
      exact h.entry_ge
    · rw [ge_iff_le, le_iff_toNat_le, toNat_add_of_lt hsum, not_le]
      exact hentry
    · simpa [placingOf] using h.covered
    · rw [phdr_eq_zero h.checked.sound h.fits, not_not]
      exact h.phdr (isSome_interp.mp hsome)

/-! ## Safety -/

/-- A segment is in the pages of an image, the image is below the limit, and what is read for the
    segment is in the file. All sums are exact. -/
structure Segment.Inside (s : Segment) (plan : Plan) (fileSize userLimit : UInt64) : Prop where
  pageStart_aligned : s.pageStart.toNat % 4096 = 0
  pageEnd_aligned : s.pageEnd.toNat % 4096 = 0
  imageStart_le : plan.imageStart.toNat ≤ s.pageStart.toNat
  pageStart_le : s.pageStart.toNat ≤ s.address.toNat
  stop_le : s.address.toNat + s.memorySize.toNat ≤ s.pageEnd.toNat
  pageEnd_le : s.pageEnd.toNat ≤ plan.imageEnd.toNat
  imageEnd_le : plan.imageEnd.toNat ≤ userLimit.toNat
  lowest : 0x10000 ≤ s.address.toNat
  fileSize_le : s.fileSize.toNat ≤ s.memorySize.toNat
  file : s.fileSize ≠ 0 → s.fileOffset.toNat + s.fileSize.toNat ≤ fileSize.toNat

/-- An image is safe to load. -/
structure Image.Safe (image : Image) (fileSize userLimit : UInt64) : Prop where
  count : image.segments.length = image.plan.loadCount.toNat
  inside : ∀ s ∈ image.segments, s.Inside image.plan fileSize userLimit
  entry : (∃ s ∈ image.segments, s.pageStart ≤ image.plan.entry ∧ image.plan.entry < s.pageEnd) ∧
    image.plan.entry < userLimit
  table : image.plan.phdr ≠ 0 → ∃ s ∈ image.segments, s.address ≤ image.plan.phdr ∧
    image.plan.phdr.toNat + image.plan.phnum.toNat * programSize ≤
      s.address.toNat + s.fileSize.toNat
  interp : image.plan.interpSize ≠ 0 → 2 ≤ image.plan.interpSize.toNat ∧
    image.plan.interpSize.toNat ≤ 4096 ∧
    image.plan.interpOffset.toNat + image.plan.interpSize.toNat ≤ fileSize.toNat ∧
    image.plan.phdr ≠ 0

/-- The size of the program headers does not wrap. -/
theorem toNat_tableSize (phnum : UInt16) : (tableSize phnum).toNat = phnum.toNat * programSize := by
  have hlt := phnum.toNat_lt
  rw [tableSize, UInt64.toNat_mul, UInt16.toNat_toUInt64, Nat.mod_eq_of_lt]
  · rfl
  · show phnum.toNat * 56 < 2 ^ 64
    omega

section

variable {bytes : Slice}

/-- The segments of an accepted image are its loads, moved by the load bias. -/
theorem segments_eq (h : Accepted bytes fileSize preferredBase target header loadBias) :
    Image.segments ⟨bytes, header, planOf bytes.bytes header loadBias, target⟩ =
      (loads (programsOf bytes.bytes header)).map (·.placed loadBias) := by
  refine filterMap_eq_map_iff_forall_eq_some.mpr fun p hp => ?_
  show (segment p loadBias target).toOption = _
  rw [segment_eq_ok.mpr ⟨h.fits p hp, rfl⟩]
  rfl

/-- A segment of an accepted image is inside of it: the load bias moves pages to pages. -/
theorem Accepted.inside
    (h : Accepted bytes fileSize preferredBase target header loadBias) {p : Program}
    (hp : p ∈ loads (programsOf bytes.bytes header)) :
    (p.placed loadBias).Inside (planOf bytes.bytes header loadBias) fileSize target.userLimit := by
  have hfits := h.fits p hp
  have hsound := h.checked.sound p hp
  have hstart := hfits.toNat_pageStart
  have hend := hfits.toNat_pageEnd
  have haddress : (p.placed loadBias).address.toNat = _ := hfits.toNat_address
  have hlimit := h.limit
  have hlt := h.lowest_lt
  have hlimitLt := target.userLimit.toNat_lt
  have hstop := hfits.stop
  have himageStart : (planOf bytes.bytes header loadBias).imageStart.toNat = _ :=
    toNat_add_of_lt
      (show (lowestOf (loads (programsOf bytes.bytes header))).toNat +
        loadBias.toNat < 2 ^ 64 by omega)
  have himageEnd : (planOf bytes.bytes header loadBias).imageEnd.toNat = _ :=
    toNat_add_of_lt (show (highestOf (loads (programsOf bytes.bytes header))).toNat +
      loadBias.toNat < 2 ^ 64 by omega)
  have hbias := chooseLoadBias_aligned h.bias (lowestOf_aligned (by omega)) h.base
  have hlow := lowestOf_le hp
  have htop := le_highestOf hp
  have hsum := toNat_add_of_lt (show p.vaddr.toNat + p.memsz.toNat < 2 ^ 64 by omega)
  rw [toNat_pageDown] at hlow
  rw [toNat_roundUp (by rw [hsum]; exact hsound.stop), hsum] at htop
  -- All bounds are linear in the numbers above.
  constructor
  · omega
  · omega
  · omega
  · omega
  · show (p.placed loadBias).address.toNat + p.memsz.toNat ≤ _
    omega
  · omega
  · omega
  · have hleast := hfits.lowest
    omega
  · exact hsound.filesz
  · exact hsound.file

/-- Every plan is safe to carry out, whatever the file, its size, the base and the limit are. -/
theorem plan_safe {image : Image} (h : plan bytes fileSize preferredBase target = .ok image) :
    image.Safe fileSize target.userLimit := by
  obtain ⟨header, loadBias, haccepted, rfl⟩ := plan_eq_ok.mp h
  have hsegments := segments_eq haccepted
  have hsound := haccepted.checked.sound
  constructor
  -- The number of segments fits into its 16 bits.
  · have hle := length_loads_le (programsOf bytes.bytes header)
    have hmost := length_programsOf_le bytes.bytes header
    rw [hsegments, List.length_map]
    show _ = (UInt16.ofNat (loads (programsOf bytes.bytes header)).length).toNat
    rw [UInt16.toNat_ofNat_of_lt' (by show _ < 65536; omega)]
  · intro s hs
    rw [hsegments] at hs
    obtain ⟨p, hp, rfl⟩ := List.mem_map.mp hs
    exact haccepted.inside hp
  · have hlt := haccepted.entry_lt
    have hlimitLt := target.userLimit.toNat_lt
    obtain ⟨p, hp, hcovers⟩ := haccepted.covered
    rw [Program.covers, decide_eq_true_eq] at hcovers
    refine ⟨⟨p.placed loadBias, ?_, hcovers⟩, ?_⟩
    · rw [hsegments]
      exact List.mem_map_of_mem hp
    · rw [UInt64.lt_iff_toNat_lt]
      show (header.entry + loadBias).toNat < _
      rw [UInt64.toNat_add_of_lt (by omega)]
      exact hlt
  -- The program headers are told only if some segment holds them whole.
  · intro hphdr
    rcases Option.eq_none_or_eq_some
      ((loads (programsOf bytes.bytes header)).find? (·.holdsTable header)) with hfind | ⟨p, hfind⟩
    · simp [planOf, placingOf, hfind] at hphdr
    · have hp := List.mem_of_find?_eq_some hfind
      have hholds := List.find?_some (p := fun q : Program => q.holdsTable header) hfind
      have hfound : (planOf bytes.bytes header loadBias).phdr = p.tableAt header loadBias := by
        simp [planOf, placingOf, hfind]
      have hvalue := toNat_tableAt (haccepted.fits p hp) (hsound p hp) hholds
      have haddress : (p.placed loadBias).address.toNat = _ := (haccepted.fits p hp).toNat_address
      rw [Program.holdsTable, decide_eq_true_eq, toNat_tableSize] at hholds
      refine ⟨p.placed loadBias, ?_, ?_, ?_⟩
      · rw [hsegments]
        exact List.mem_map_of_mem hp
      · rw [UInt64.le_iff_toNat_le, hfound]
        omega
      · rw [hfound]
        show (p.tableAt header loadBias).toNat + header.phnum.toNat * programSize ≤
          (p.placed loadBias).address.toNat + p.filesz.toNat
        omega
  · intro hsize
    cases hinterps : interps (programsOf bytes.bytes header) with
    | nil => simp [planOf, hinterps] at hsize
    | cons p rest =>
      have hinterp := haccepted.checked.interpSound p (by simp [hinterps])
      have hoffset : (planOf bytes.bytes header loadBias).interpOffset = p.offset := by
        simp [planOf, hinterps]
      have hfilesz : (planOf bytes.bytes header loadBias).interpSize = p.filesz := by
        simp [planOf, hinterps]
      have hholds := haccepted.phdr (by simp [hinterps])
      rw [hoffset, hfilesz]
      refine ⟨hinterp.least, hinterp.most, hinterp.file, fun hzero => ?_⟩
      change (placingOf header loadBias (header.entry + loadBias)
        (programsOf bytes.bytes header)).phdr = 0 at hzero
      exact (phdr_eq_zero hsound haccepted.fits).mp hzero hholds

end

/-- The bytes of a little-endian number. -/
def leBytes (count value : Nat) : List UInt8 :=
  (range count).map fun i => UInt8.ofNat (value / 256 ^ i)

/-- A position-independent executable with one segment and an interpreter. -/
def dynamicFile : Slice where
  bytes := [0x7F, 0x45, 0x4C, 0x46, 2, 1, 1, 0, 0, 0, 0, 0, 0, 0, 0, 0] ++
    leBytes 2 3 ++ leBytes 2 62 ++ leBytes 4 1 ++ leBytes 8 0xB0 ++ leBytes 8 64 ++ leBytes 8 0 ++
    leBytes 4 0 ++ leBytes 2 64 ++ leBytes 2 56 ++ leBytes 2 2 ++ leBytes 6 0 ++
    leBytes 4 3 ++ leBytes 4 4 ++ leBytes 8 180 ++ leBytes 8 180 ++ leBytes 8 180 ++ leBytes 8 12 ++
    leBytes 8 12 ++ leBytes 8 1 ++
    leBytes 4 1 ++ leBytes 4 5 ++ leBytes 8 0 ++ leBytes 8 0 ++ leBytes 8 0 ++ leBytes 8 192 ++
    leBytes 8 0x2000 ++ leBytes 8 4096
  length_lt := by decide +kernel

/-- A shared object with an interpreter. -/
theorem dynamicFile_safe :
    ∃ image, plan dynamicFile 192 0x555500000000 ⟨62, 0x800000000000⟩ = .ok image ∧
      image.plan.phdr = 0x555500000040 ∧ image.plan.interpSize = 12 ∧
      image.Safe 192 0x800000000000 := by
  have hplan : (plan dynamicFile 192 0x555500000000 ⟨62, 0x800000000000⟩).toOption.map
      (fun image => (image.plan.phdr, image.plan.interpSize)) = some (0x555500000040, 12) := by
    decide +kernel
  cases h : plan dynamicFile 192 0x555500000000 ⟨62, 0x800000000000⟩ with
  | error e =>
    rw [h] at hplan
    exact absurd hplan nofun
  | ok image =>
    rw [h] at hplan
    have hfields := Prod.mk.inj (Option.some.inj hplan)
    exact ⟨image, rfl, hfields.1, hfields.2, plan_safe h⟩

end Tunix.Elf
