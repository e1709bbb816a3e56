import Tunix.Kernel.ElfReference
import Tunix.Spec.ElfPlan

/-!
# The ELF planner and its reference

The planner accepts the files that the reference accepts, with the same plan and the same segments,
but for those whose entry point wraps around (`oldPlan_eq_plan`). Each pass of the reference is
described by the same functions of the program headers as the passes of the planner. The reference
rounds the end of a segment up without a check; where the user limit is a multiple of the page size,
a segment below it has room for that.
-/

namespace Tunix.Elf.Reference

open Bytes List
open UInt64 (toNat_sub_of_le toNat_inj lt_iff_toNat_lt le_iff_toNat_le toNat_add_of_lt)

variable {fileSize loadBias preferredBase : UInt64} {bytes : List UInt8} {h : ElfHeader}
    {machine : UInt16}
  {programs : List Program}

/-! ## Arithmetic -/

private theorem alignDown_eq (value : UInt64) : alignDown value 4096 = pageDown value := rfl

private theorem alignUp_eq (value : UInt64) : alignUp value 4096 = roundUp value := by
  have hsum : value + 4096 - 1 = value + 4095 := by
    rw [UInt64.sub_eq_add_neg, UInt64.add_assoc]
    rfl
  rw [alignUp, hsum]
  rfl

private theorem powerOfTwo_eq (value : UInt64) : powerOfTwo value = isPowerOfTwo value := by
  rw [Bool.eq_iff_iff]
  have hlt := value.toNat_lt
  have hpower : isPowerOfTwo value = true ↔ value.toNat.isPowerOfTwo := by
    simp only [isPowerOfTwo, any_eq_true, mem_range, beq_iff_eq]
    refine ⟨fun ⟨k, _, hk⟩ => ⟨k, hk⟩, fun ⟨k, hk⟩ => ⟨k, ?_, hk⟩⟩
    rw [hk] at hlt
    exact (Nat.pow_lt_pow_iff_right (by decide)).mp hlt
  rw [hpower, powerOfTwo, decide_eq_true_eq]
  by_cases hzero : value = 0
  · subst hzero
    simp only [ne_eq, not_true_eq_false, false_and, false_iff]
    intro ⟨k, hk⟩
    exact absurd hk.symm (ne_of_gt (Nat.two_pow_pos k))
  · have hne : value.toNat ≠ 0 := fun h => hzero (toNat_inj.mp h)
    have hone : (value - 1).toNat = value.toNat - 1 :=
      toNat_sub_of_le _ _ (le_iff_toNat_le.mpr (Nat.one_le_iff_ne_zero.mpr hne))
    rw [← Nat.and_sub_one_eq_zero_iff_isPowerOfTwo hne, ← toNat_inj, UInt64.toNat_and, hone]
    exact ⟨fun h => h.2, fun h => ⟨hzero, h⟩⟩

private theorem addOverflows_iff {left right : UInt64} :
    addOverflows left right = true ↔ 2 ^ 64 ≤ left.toNat + right.toNat := by
  have hmax : (0xFFFFFFFFFFFFFFFF : UInt64).toNat = 2 ^ 64 - 1 := by decide
  have hright := right.toNat_lt
  have hsub : (0xFFFFFFFFFFFFFFFF - right).toNat = 2 ^ 64 - 1 - right.toNat := by
    rw [toNat_sub_of_le _ _ (le_iff_toNat_le.mpr (by rw [hmax]; omega)), hmax]
  rw [addOverflows, decide_eq_true_eq, gt_iff_lt, lt_iff_toNat_lt, hsub]
  omega

/-- A range of the file in the reference's two comparisons. -/
theorem outside_iff {offset size : UInt64} : (offset > fileSize ∨ size > fileSize - offset) ↔
      fileSize.toNat < offset.toNat + size.toNat := by
  rw [gt_iff_lt, gt_iff_lt, lt_iff_toNat_lt, lt_iff_toNat_lt]
  by_cases hle : offset ≤ fileSize
  · rw [toNat_sub_of_le _ _ hle]
    omega
  · rw [le_iff_toNat_le] at hle
    omega

/-- A range of the file, by what is left of the file behind its start. -/
theorem exists_room_iff {offset size : UInt64} {P : Prop} :
    (∃ room, fileSize.checkedSub offset = some room ∧ ¬ size > room ∧ P) ↔
      offset.toNat + size.toNat ≤ fileSize.toNat ∧ P := by
  rw [← withinFile_iff, withinFile]
  cases fileSize.checkedSub offset <;> simp

/-! ## Reading the headers -/

private theorem bufferOf_range (bytes : List UInt8) {pos size i : Nat} (hi : i < size) :
    bufferOf ((bytes.drop pos).take size) i = bufferOf bytes (pos + i) := by
  simp only [bufferOf, getD_eq_getElem?_getD, getElem?_take, if_pos hi, getElem?_drop]

private theorem loadLe32_range (bytes : List UInt8) {pos size i : Nat} (hi : i + 4 ≤ size) :
    loadLe32 (bufferOf ((bytes.drop pos).take size)) i = loadLe32 (bufferOf bytes) (pos + i) := by
  unfold loadLe32
  rw [bufferOf_range bytes (by omega), bufferOf_range bytes (by omega),
    bufferOf_range bytes (by omega), bufferOf_range bytes (by omega)]
  rfl

private theorem loadLe64_range (bytes : List UInt8) {pos size i : Nat} (hi : i + 8 ≤ size) :
    loadLe64 (bufferOf ((bytes.drop pos).take size)) i = loadLe64 (bufferOf bytes) (pos + i) := by
  unfold loadLe64
  rw [loadLe32_range bytes (by omega), loadLe32_range bytes (by omega)]
  rfl

/-- A program header inside the bytes is read as the reference reads it. -/
theorem program_eq {header : Header} {index : Nat}
    (h : header.phoff.toNat + (index + 1) * programSize ≤ bytes.length) :
    program bytes header index = some (programAt (bufferOf bytes) header.phoff.toNat index) := by
  unfold programSize at h
  have hrange : getRange bytes (header.phoff.toNat + index * programSize)
      (header.phoff.toNat + index * programSize + programSize) =
        some ((bytes.drop (header.phoff.toNat + index * programSize)).take programSize) := by
    unfold getRange programSize
    rw [if_pos (by omega), Nat.add_sub_cancel_left]
  have hlength : ((bytes.drop (header.phoff.toNat + index * programSize)).take
      programSize).length = 56 := by
    unfold programSize
    rw [length_take, length_drop]
    omega
  simp only [program, hrange, readU32, readU64, hlength, Option.bind_eq_bind, Option.bind_some]
  simp only [Nat.reduceAdd, Nat.reduceLeDiff, if_true, Option.bind_some, programAt, Option.pure_def]
  rw [loadLe32_range bytes (by decide), loadLe32_range bytes (by decide),
    loadLe64_range bytes (by decide), loadLe64_range bytes (by decide),
    loadLe64_range bytes (by decide), loadLe64_range bytes (by decide),
    loadLe64_range bytes (by decide)]
  rfl

/-- The header of the planner, out of the one of the reference. -/
def ElfHeader.header (h : ElfHeader) : Header := ⟨h.type, h.entry, h.phoff, h.phnum⟩

private theorem take_four {a b c d : UInt8} (h : 4 ≤ bytes.length) :
    bytes.take 4 = [a, b, c, d] ↔ bufferOf bytes 0 = a ∧ bufferOf bytes 1 = b ∧
      bufferOf bytes 2 = c ∧ bufferOf bytes 3 = d := by
  match bytes, h with
  | _ :: _ :: _ :: _ :: _, _ => simp [bufferOf]

/-- The size of the table, where its entries have the size they must have. -/
theorem tableSize_eq (hsize : h.phentsize = 56) : h.tableSize = Elf.tableSize h.phnum := by
  rw [ElfHeader.tableSize, hsize]
  rfl

private theorem if_false_iff {condition : Prop} [Decidable condition] {x : Bool} :
    (if condition then false else x) = true ↔ ¬ condition ∧ x = true := by
  split_ifs with h <;> simp [h]

private theorem validHeader_iff : validHeader h fileSize machine = true ↔ ¬ fileSize < 64 ∧
      (h.ident 0 = 0x7F ∧ h.ident 1 = 0x45 ∧ h.ident 2 = 0x4C ∧ h.ident 3 = 0x46) ∧
      (h.ident 4 = 2 ∧ h.ident 5 = 1 ∧ h.ident 6 = 1) ∧
      (h.type = etExec ∨ h.type = etDyn) ∧ h.machine = machine ∧ h.version = 1 ∧
      (h.ehsize = 64 ∧ h.phentsize = 56 ∧ h.phnum ≠ 0) ∧
      h.phoff.toNat + (Elf.tableSize h.phnum).toNat ≤ fileSize.toNat := by
  have hroom (hsize : h.phentsize = 56) :
      (¬ h.phoff > fileSize ∧ ¬ h.tableSize > fileSize - h.phoff) ↔
      h.phoff.toNat + (Elf.tableSize h.phnum).toNat ≤ fileSize.toNat := by
    rw [← not_or, outside_iff, not_lt, tableSize_eq hsize]
  unfold validHeader
  simp only [if_false_iff, not_or, not_and, not_not, ne_eq, and_true, and_assoc,
    ← or_iff_not_imp_left]
  simp only [and_congr_right_iff]
  intros
  exact hroom ‹h.phentsize = 56›

private theorem parseHeader_eq_ok {header : Header} :
    parseHeader bytes fileSize machine = .ok header ↔
      64 ≤ bytes.length ∧ validHeader (headerAt (bufferOf bytes)) fileSize machine = true ∧
        header = (headerAt (bufferOf bytes)).header := by
  by_cases hlength : 64 ≤ bytes.length
  · have hrange : getRange bytes 0 16 = some (bytes.take 16) := by
      unfold getRange
      rw [if_pos (by omega)]
      rfl
    have h16 : ∀ pos, pos + 2 ≤ 64 → readU16 bytes pos = some (loadLe16 (bufferOf bytes) pos) :=
      fun pos hpos => if_pos (by omega)
    have h64 : ∀ pos, pos + 8 ≤ 64 → readU64 bytes pos = some (loadLe64 (bufferOf bytes) pos) :=
      fun pos hpos => if_pos (by omega)
    have h32 : readU32 bytes 20 = some (loadLe32 (bufferOf bytes) 20) := if_pos (by omega)
    have hident : ∀ i < 16, (bytes.take 16).getD i 0 = bufferOf bytes i := by
      intro i hi
      simp [bufferOf, hi]
    have htake : (bytes.take 16).take 4 = bytes.take 4 := by
      rw [take_take]
      rfl
    have hlong : ¬ bytes.length < headerSize := not_lt.mpr hlength
    -- The sizes are compared as numbers in Rust and as words in C.
    have hheader (x : UInt16) : x.toNat = headerSize ↔ x = 64 := UInt16.toNat_inj (b := 64)
    have hentry (x : UInt16) : x.toNat = programSize ↔ x = 56 := UInt16.toNat_inj (b := 56)
    unfold parseHeader
    rw [hrange, h16 16 (by decide), h16 18 (by decide), h32, h64 24 (by decide), h64 32 (by decide),
      h16 52 (by decide), h16 54 (by decide), h16 56 (by decide)]
    simp only [Except.bind_eq_ok, refuse_eq_ok, orError_eq_ok, exists_const, Option.some.injEq,
      exists_eq_left', Except.pure_eq_ok, htake, hident 4 (by decide), hident 5 (by decide),
      hident 6 (by decide), ne_eq, take_four (show 4 ≤ bytes.length by omega), exists_room_iff,
      not_or, not_and, not_not, ← or_iff_not_imp_left, validHeader_iff, hlength,
        true_and, and_assoc,
      hlong, not_false_eq_true, hheader, hentry, eq_comm (b := header)]
    rfl
  · constructor
    · intro h
      unfold parseHeader at h
      obtain ⟨_, hrefuse, -⟩ := Except.bind_eq_ok.mp h
      rw [refuse_eq_ok] at hrefuse
      exact absurd (.inr (by unfold headerSize; omega)) hrefuse
    · exact fun h => absurd h.1 hlength

/-- The two planners agree on how much of the file they need. -/
theorem headerSpan_eq_ok {span : UInt64} : headerSpan bytes fileSize machine = .ok span ↔
      referenceHeaderSpan bytes fileSize machine = some span := by
  unfold headerSpan referenceHeaderSpan
  simp only [Except.bind_eq_ok, parseHeader_eq_ok, refuse_eq_ok, orError_eq_ok, exists_const,
    Except.pure_eq_ok, UInt64.checkedAdd_eq_some, Option.ite_none_left_eq_some, Bool.not_eq_true',
    Bool.not_eq_false, and_assoc, exists_and_left, exists_eq_left, not_or, not_lt,
    Option.some.injEq]
  constructor
  · rintro ⟨hlength, hvalid, _, hrest⟩
    obtain ⟨hsize, -, -, -, -, -, ⟨-, hentry, -⟩, -⟩ := validHeader_iff.mp hvalid
    rw [tableSize_eq hentry]
    exact ⟨hlength, hsize, hvalid, hrest⟩
  · rintro ⟨hlength, _, hvalid, hrest⟩
    obtain ⟨-, -, -, -, -, -, ⟨-, hentry, -⟩, htable⟩ := validHeader_iff.mp hvalid
    rw [tableSize_eq hentry] at hrest
    exact ⟨hlength, hvalid, lt_of_le_of_lt htable fileSize.toNat_lt, hrest⟩

/-! ## The passes over the program headers -/

/-- What `validate_programs` asks of a segment: less than `check_program`, which also wants room for
    the end to be rounded up. -/
structure Valid (p : Program) (fileSize : UInt64) : Prop where
  filesz : p.filesz.toNat ≤ p.memsz.toNat
  file : p.filesz ≠ 0 → p.offset.toNat + p.filesz.toNat ≤ fileSize.toNat
  align : 1 < p.align.toNat → isPowerOfTwo p.align = true
  congruent : p.vaddr.toNat % 4096 = p.offset.toNat % 4096
  stop : p.vaddr.toNat + p.memsz.toNat < 2 ^ 64

/-- One turn of `validate_programs`. -/
theorem validateProgram_eq_some {p : Program} {t : UInt64 × UInt64 × Nat} :
    validateProgram fileSize (lowestOf (loads programs), highestOf (loads programs),
        (loads programs).length) p = some t ↔
      (p.kind = ptLoad → Valid p fileSize) ∧ (p.kind = ptInterp → p.InterpSound fileSize) ∧
        t = (lowestOf (loads (programs ++ [p])), highestOf (loads (programs ++ [p])),
          (loads (programs ++ [p])).length) := by
  have hkinds : ptLoad ≠ ptInterp := by decide
  have htwo : (2 : UInt64).toNat = 2 := by decide
  have hmost : (4096 : UInt64).toNat = 4096 := by decide
  unfold validateProgram
  dsimp only
  -- The kinds exclude one another, so at most one of the two checks applies.
  by_cases hi : p.kind = ptInterp
  · have hl : p.kind ≠ ptLoad := by
      rw [hi]
      exact hkinds.symm
    rw [if_pos hi, loads_concat, if_neg hl, Option.ite_none_left_eq_some, or_assoc.symm,
      or_assoc.symm, or_assoc, outside_iff]
    simp only [not_or, lt_iff_toNat_lt, gt_iff_lt, htwo, hmost, not_lt, Option.some.injEq,
      hi, hkinds.symm, false_implies, true_implies, true_and]
    exact ⟨fun ⟨⟨⟨hleast, hlimit⟩, hfile⟩, ht⟩ => ⟨⟨hleast, hlimit, hfile⟩, ht.symm⟩,
      fun ⟨h, ht⟩ => ⟨⟨⟨h.least, h.most⟩, h.file⟩, ht.symm⟩⟩
  · rw [if_neg hi, loads_concat]
    by_cases hl : p.kind = ptLoad
    · rw [if_neg (not_not.mpr hl), if_pos hl]
      have hone : (1 : UInt64).toNat = 1 := rfl
      have hlow : p.vaddr &&& 0xFFF = p.offset &&& 0xFFF ↔
          p.vaddr.toNat % 4096 = p.offset.toNat % 4096 := by
        rw [← toNat_inj]
        exact iff_of_eq (congrArg₂ _ (toNat_and_page p.vaddr) (toNat_and_page p.offset))
      have hmin : (if alignDown p.vaddr 4096 < lowestOf (loads programs) then alignDown p.vaddr 4096
          else lowestOf (loads programs)) = lowestOf (loads programs ++ [p]) := by
        rw [lowestOf_concat, alignDown_eq, ← toNat_inj, UInt64.toNat_min]
        split_ifs with h <;> rw [lt_iff_toNat_lt] at h <;> omega
      have hmax : (if alignUp (p.vaddr + p.memsz) 4096 > highestOf (loads programs) then
          alignUp (p.vaddr + p.memsz) 4096 else highestOf (loads programs)) =
            highestOf (loads programs ++ [p]) := by
        rw [highestOf_concat, alignUp_eq, ← toNat_inj, UInt64.toNat_max]
        split_ifs with h <;> rw [gt_iff_lt, lt_iff_toNat_lt] at h <;> omega
      rw [hmin, hmax]
      simp only [outside_iff]
      simp only [Option.ite_none_left_eq_some, powerOfTwo_eq, ne_eq, not_not, hlow,
        addOverflows_iff, lt_iff_toNat_lt, gt_iff_lt, hone, not_lt, not_le, not_and,
        Bool.not_eq_true', Bool.not_eq_false, Option.some.injEq, hl, hkinds, true_implies,
        false_implies, true_and, length_append, length_singleton]
      exact ⟨fun ⟨h1, h2, h3, h4, h5, ht⟩ => ⟨⟨h1, h2, h3, h4, h5⟩, ht.symm⟩,
        fun ⟨h, ht⟩ => ⟨h.filesz, h.file, h.align, h.congruent, h.stop, ht.symm⟩⟩
    · rw [if_pos hl, if_neg hl]
      simp only [Option.some.injEq, hl, hi, false_implies, true_and]
      exact eq_comm

private theorem foldlM_validateProgram {t : UInt64 × UInt64 × Nat} :
    programs.foldlM (validateProgram fileSize) (0xFFFFFFFFFFFFFFFF, 0, 0) = some t ↔
      ((∀ p ∈ loads programs, Valid p fileSize) ∧ ∀ p ∈ interps programs, p.InterpSound fileSize) ∧
        t = (lowestOf (loads programs), highestOf (loads programs), (loads programs).length) := by
  refine foldlM_eq_pure Option.some_inj Option.bind_eq_some_iff
    (fun programs =>
      (lowestOf (loads programs), highestOf (loads programs), (loads programs).length))
    (fun programs => (∀ p ∈ loads programs, Valid p fileSize) ∧
      ∀ p ∈ interps programs, p.InterpSound fileSize) rfl (by simp [loads, interps])
    fun seen p t _ => ?_
  rw [forall_loads_concat, forall_interps_concat, and_and_and_comm, and_assoc (c := t = _),
    and_assoc (c := t = _)]
  exact and_congr_right fun _ => validateProgram_eq_some

/-- `map_segment_pages`, where the user limit leaves room for the end of a page. -/
theorem mapSegmentPages_iff {p : Program} {userLimit : UInt64}
    (hlimit : userLimit.toNat % 4096 = 0) :
    mapSegmentPages p loadBias userLimit = true ↔ p.Fits loadBias userLimit := by
  have hlow : (0x10000 : UInt64).toNat = 0x10000 := by decide
  have hlt := userLimit.toNat_lt
  unfold mapSegmentPages
  rw [if_false_iff, addOverflows_iff, addOverflows_iff, not_or, not_le]
  dsimp only
  rw [if_false_iff, not_or, not_or, lt_iff_toNat_lt, ge_iff_le, le_iff_toNat_le, gt_iff_lt,
    lt_iff_toNat_lt, hlow]
  -- C compares the size with the room below the limit, which does not overflow.
  constructor
  · intro ⟨⟨hstart, hstop⟩, ⟨hleast, hbelow, hroom⟩, _⟩
    have haddress := toNat_add_of_lt hstart
    have hle : p.vaddr + loadBias ≤ userLimit := by
      rw [le_iff_toNat_le]
      omega
    rw [toNat_sub_of_le _ _ hle] at hroom
    exact ⟨by omega, by omega, by omega, by omega⟩
  · intro h
    have haddress := h.toNat_address
    obtain ⟨hstop, hleast, hstart, hend⟩ := h
    have hle : p.vaddr + loadBias ≤ userLimit := by
      rw [le_iff_toNat_le]
      omega
    rw [toNat_sub_of_le _ _ hle]
    exact ⟨⟨by omega, by omega⟩, ⟨by omega, by omega, by omega⟩, rfl⟩

private theorem foldlM_mapProgram {userLimit : UInt64} {capacity : Nat}
    (hlimit : userLimit.toNat % 4096 = 0) {t : Nat × List ReferenceSegment} :
    programs.foldlM (mapProgram loadBias userLimit capacity) (0, []) = some t ↔
      (∀ p ∈ loads programs, p.Fits loadBias userLimit) ∧ t = ((loads programs).length,
          ((loads programs).map (placeSegment · loadBias)).take capacity) := by
  refine foldlM_eq_pure Option.some_inj Option.bind_eq_some_iff
    (fun programs =>
      ((loads programs).length, ((loads programs).map (placeSegment · loadBias)).take capacity))
    (fun programs => ∀ p ∈ loads programs, p.Fits loadBias userLimit) (by simp [loads])
    (by simp [loads]) fun programs p t _ => ?_
  rw [forall_loads_concat, and_assoc]
  refine and_congr_right fun _ => ?_
  rw [mapProgram, Option.pure_def]
  by_cases hl : p.kind = ptLoad
  · -- A segment is written as long as there is room.
    have hsegments : (if (loads programs).length < capacity then
        ((loads programs).map (placeSegment · loadBias)).take capacity ++ [placeSegment p loadBias]
        else ((loads programs).map (placeSegment · loadBias)).take capacity) =
          ((loads programs ++ [p]).map (placeSegment · loadBias)).take capacity := by
      rw [map_append, take_append, length_map]
      split_ifs with h
      · rw [take_of_length_le (l := [p].map _) (by simp; omega)]
        rfl
      · rw [Nat.sub_eq_zero_of_le (by omega)]
        simp
    rw [if_neg (not_not.mpr hl), Option.ite_none_left_eq_some, loads_concat, if_pos hl, hsegments]
    simp only [Bool.not_eq_true', Bool.not_eq_false, mapSegmentPages_iff hlimit, hl, true_implies,
      Option.some.injEq, length_append, length_singleton, eq_comm (a := t)]
  · rw [if_pos hl, loads_concat, if_neg hl]
    simp only [Option.some.injEq, hl, false_implies, true_and]
    exact eq_comm

private theorem foldlM_findInterp {t : Option Program} : programs.foldlM findInterp none = some t ↔
      (interps programs).length ≤ 1 ∧ t = (interps programs).head? := by
  refine foldlM_eq_pure Option.some_inj Option.bind_eq_some_iff
    (fun programs => (interps programs).head?) (fun programs => (interps programs).length ≤ 1)
    rfl (Nat.zero_le 1) fun programs p t _ => ?_
  rw [single_interps_concat, and_assoc]
  refine and_congr_right fun _ => ?_
  rw [findInterp, Option.pure_def]
  by_cases hi : p.kind = ptInterp
  · rw [if_neg (not_not.mpr hi), interps_concat, if_pos hi]
    cases h : interps programs with
    | nil => simp [hi, eq_comm]
    | cons q rest => simp [hi]
  · rw [if_pos hi, interps_concat, if_neg hi]
    simp only [Option.some.injEq, hi, false_implies, true_and]
    exact eq_comm

private theorem pageMapped_eq (programs : List Program) (loadBias address : UInt64) :
    pageMapped programs loadBias address = (loads programs).any (·.covers loadBias address) := by
  induction programs with
  | nil => rfl
  | cons p rest ih =>
    unfold pageMapped
    by_cases hl : p.kind = ptLoad
    · have hloads : loads (p :: rest) = p :: loads rest := by simp [loads, hl]
      rw [if_neg (not_not.mpr hl), hloads, any_cons, ih]
      dsimp only
      rw [alignDown_eq, alignUp_eq]
      by_cases hcovers : p.covers loadBias address = true
      · rw [hcovers, Bool.true_or]
        rw [Program.covers, decide_eq_true_eq] at hcovers
        exact if_pos hcovers
      · rw [Bool.not_eq_true] at hcovers
        rw [hcovers, Bool.false_or]
        rw [Program.covers, decide_eq_false_iff_not] at hcovers
        exact if_neg hcovers
    · have hloads : loads (p :: rest) = loads rest := by simp [loads, hl]
      rw [if_pos hl, hloads, ih]

/-- The test of the reference for the table. -/
theorem holdsTable_iff (hentry : h.phentsize = 56) {p : Program} :
    p.holdsTable h.header = true ↔ ¬h.phoff < p.offset ∧
      h.phoff - p.offset ≤ p.filesz ∧ h.tableSize ≤ p.filesz - (h.phoff - p.offset) := by
  rw [Program.holdsTable, decide_eq_true_eq, tableSize_eq hentry]
  show p.offset.toNat ≤ h.phoff.toNat ∧
    h.phoff.toNat - p.offset.toNat + (Elf.tableSize h.phnum).toNat ≤ p.filesz.toNat ↔ _
  rw [lt_iff_toNat_lt, not_lt]
  refine and_congr_right fun hle => ?_
  have hrelative := toNat_sub_of_le _ _ (le_iff_toNat_le.mpr hle)
  rw [← hrelative, le_iff_toNat_le, le_iff_toNat_le]
  by_cases hfits : h.phoff - p.offset ≤ p.filesz
  · rw [toNat_sub_of_le _ _ hfits]
    rw [le_iff_toNat_le] at hfits
    omega
  · rw [le_iff_toNat_le] at hfits
    omega

private theorem programHeaderVirtual_eq (hentry : h.phentsize = 56) (programs : List Program)
    (loadBias entry : UInt64) :
    programHeaderVirtual h programs loadBias =
      (placingOf h.header loadBias entry programs).phdr := by
  induction programs with
  | nil => rfl
  | cons p rest ih =>
    unfold programHeaderVirtual
    by_cases hl : p.kind = ptLoad
    · have hloads : loads (p :: rest) = p :: loads rest := by simp [loads, hl]
      rw [if_neg (not_not.mpr hl)]
      simp only [placingOf, hloads]
      -- The first program that holds the headers decides; the others are not looked at.
      by_cases hholds : p.holdsTable h.header = true
      · obtain ⟨hlow, hfits⟩ := (holdsTable_iff hentry).mp hholds
        rw [if_neg hlow, if_pos hfits,
          find?_cons_of_pos (p := fun q : Program => q.holdsTable h.header) hholds,
          UInt64.add_comm loadBias]
        rfl
      · rw [find?_cons_of_neg (p := fun q : Program => q.holdsTable h.header) hholds, ih]
        rw [holdsTable_iff hentry, not_and] at hholds
        split_ifs with hlow hfits
        · rfl
        · exact absurd hfits (hholds hlow)
        · rfl
    · have hloads : loads (p :: rest) = loads rest := by simp [loads, hl]
      rw [if_pos hl, ih]
      simp only [placingOf, hloads]

/-! ## The plans -/

/-- The program headers, if the bytes reach to their end. -/
theorem programsOf_eq (hlength : h.phoff.toNat + h.phnum.toNat * programSize ≤ bytes.length) :
    (∀ index < h.phnum.toNat, (program bytes h.header index).isSome) ∧
      programsOf bytes h.header = programsAt (bufferOf bytes) h := by
  have hread : ∀ index < h.phnum.toNat, program bytes h.header index =
      some (programAt (bufferOf bytes) h.phoff.toNat index) := by
    intro index hindex
    have hmul : (index + 1) * programSize ≤ h.phnum.toNat * programSize :=
      Nat.mul_le_mul_right programSize hindex
    have hin : h.header.phoff.toNat + (index + 1) * programSize ≤ bytes.length := by
      show h.phoff.toNat + (index + 1) * programSize ≤ _
      omega
    exact program_eq hin
  refine ⟨fun index hindex => by rw [hread index hindex]; rfl, ?_⟩
  exact filterMap_eq_map_iff_forall_eq_some.mpr fun index hindex =>
    hread index (mem_range.mp hindex)

/-- A plan in the form of the reference; the entry point of a plan never wraps around. -/
def asReference (image : Image) : ReferencePlan × List ReferenceSegment :=
  ({ kind := image.plan.kind, phnum := image.plan.phnum, loadCount := image.plan.loadCount,
     entryWrapped := 0, loadBias := image.plan.loadBias, entry := image.plan.entry,
     phdr := image.plan.phdr, imageStart := image.plan.imageStart, imageEnd := image.plan.imageEnd,
     interpOffset := image.plan.interpOffset, interpSize := image.plan.interpSize },
   image.segments.map fun s =>
     { pageStart := s.pageStart, pageEnd := s.pageEnd, address := s.address,
       writable := if s.writable then 1 else 0, executable := if s.executable then 1 else 0 })

private theorem chooseLoadBias_eq_some {minimum : UInt64} :
    chooseLoadBias h minimum preferredBase = some loadBias ↔
      Elf.chooseLoadBias h.header minimum preferredBase = .ok loadBias := by
  have hlow : lowestAddress = 0x10000 := rfl
  show (if h.type = etExec then _ else _) = _ ↔ (if h.type = etExec then _ else _) = _
  rw [hlow]
  have hiff : preferredBase < minimum ↔ ¬ minimum ≤ preferredBase := by
    rw [lt_iff_toNat_lt, le_iff_toNat_le, not_le]
  split_ifs with hkind hminimum hbase
  · exact ⟨nofun, nofun⟩
  · simp
  · simp [orError, UInt64.checkedSub, hiff.mp hbase]
  · simp [orError, UInt64.checkedSub, not_not.mp fun h => hbase (hiff.mpr h)]

/-- A header that is accepted has its whole table in the first 64 KiB. -/
theorem referenceHeaderSpan_spec {span : UInt64}
    (h : referenceHeaderSpan bytes fileSize machine = some span) :
    (64 ≤ bytes.length ∧ validHeader (headerAt (bufferOf bytes)) fileSize machine = true) ∧
      (headerAt (bufferOf bytes)).phentsize = 56 ∧
      span.toNat = (headerAt (bufferOf bytes)).phoff.toNat +
        (headerAt (bufferOf bytes)).phnum.toNat * programSize ∧ span.toNat ≤ 65536 := by
  have hmost : (64 * 1024 : UInt64).toNat = 65536 := by decide
  unfold referenceHeaderSpan at h
  simp only [Option.ite_none_left_eq_some, Bool.not_eq_true', Bool.not_eq_false, not_or, not_lt,
    gt_iff_lt, lt_iff_toNat_lt, hmost] at h
  obtain ⟨⟨hlength, -⟩, hvalid, ⟨-, hspan⟩, hdone⟩ := h
  obtain ⟨-, -, -, -, -, -, ⟨-, hentry, -⟩, htable⟩ := validHeader_iff.mp hvalid
  have hsum := toNat_add_of_lt (lt_of_le_of_lt htable fileSize.toNat_lt)
  obtain rfl := Option.some.inj hdone
  refine ⟨⟨hlength, hvalid⟩, hentry, ?_, hspan⟩
  rw [tableSize_eq hentry, hsum, Elf.toNat_tableSize]

/-- There is room for all segments of a header that is accepted. -/
theorem length_loads_programsAt {span : UInt64}
    (hspan : span.toNat = h.phoff.toNat + h.phnum.toNat * programSize) (hmost : span.toNat ≤ 65536)
    (bytes : List UInt8) : (loads (programsAt (bufferOf bytes) h)).length ≤ 2048 := by
  have hle := length_loads_le (programsAt (bufferOf bytes) h)
  have hlength : (programsAt (bufferOf bytes) h).length = h.phnum.toNat := by simp [programsAt]
  unfold programSize at hspan
  omega

/-- The plan of the planner in the form of the reference, by the reference's own functions. -/
theorem asReference_eq {bytes : Slice} {target : Target} (hentry : h.phentsize = 56)
    (haccepted : Accepted bytes fileSize preferredBase target h.header loadBias)
    (hprograms : programsOf bytes.bytes h.header = programsAt (bufferOf bytes.bytes) h)
    (hcount : (loads (programsAt (bufferOf bytes.bytes) h)).length ≤ 2048) :
    asReference ⟨bytes, h.header, planOf bytes.bytes h.header loadBias, target⟩ =
      let programs := programsAt (bufferOf bytes.bytes) h
      let loadCount := UInt16.ofNat (loads programs).length
      ({ kind := h.type, phnum := h.phnum, loadCount, entryWrapped := 0, loadBias,
         entry := h.entry + loadBias, phdr := programHeaderVirtual h programs loadBias,
         imageStart := lowestOf (loads programs) + loadBias,
         imageEnd := highestOf (loads programs) + loadBias,
         interpOffset := ((interps programs).head?.map Program.offset).getD 0,
         interpSize := ((interps programs).head?.map Program.filesz).getD 0 },
       (((loads programs).map (placeSegment · loadBias)).take 2048).take loadCount.toNat) := by
  have hsegments := segments_eq haccepted
  rw [hprograms] at hsegments
  dsimp only
  rw [asReference, hsegments]
  refine Prod.ext ?_ ?_
  · simp only [planOf, hprograms, programHeaderVirtual_eq hentry _ loadBias (h.entry + loadBias)]
    cases (interps (programsAt (bufferOf bytes.bytes) h)).head? <;> rfl
  -- The count fits into 16 bits, so nothing is cut off.
  · rw [UInt16.toNat_ofNat_of_lt' (by show _ < 65536; omega), take_take,
      take_of_length_le (by rw [length_map]; omega), map_map]
    refine map_congr_left fun p _ => ?_
    simp only [Function.comp, placeSegment, Program.placed, alignDown_eq, alignUp_eq]
    congr 1 <;> simp

/-- What the reference accepts without a wrap of the entry point, it plans as the planner does. -/
theorem oldPlan_eq_some {bytes : Slice} {target : Target}
    (hbase : preferredBase.toNat % 4096 = 0) (hlimit : target.userLimit.toNat % 4096 = 0)
    {result : ReferencePlan × List ReferenceSegment} :
    oldPlan bytes fileSize preferredBase target = some result ∧ result.1.entryWrapped = 0 ↔
      ∃ header loadBias, Accepted bytes fileSize preferredBase target header loadBias ∧
        result = asReference ⟨bytes, header, planOf bytes.bytes header loadBias, target⟩ := by
  unfold oldPlan referencePlan validatePrograms
  simp only [Option.bind_eq_bind, Option.bind_eq_some_iff,
    Option.ite_none_left_eq_some, Prod.exists,
    foldlM_validateProgram, foldlM_mapProgram hlimit, foldlM_findInterp, Option.some.injEq,
    Prod.mk.injEq, and_assoc, exists_and_left, exists_eq_left, exists_eq_left', not_or, not_and,
    length_eq_zero_iff, isSome_head?]
  have hleastValue : (0x10000 : UInt64).toNat = 0x10000 := by decide
  have hlt := target.userLimit.toNat_lt
  -- Both planners make the same checks, the one in C on values that may have come round.
  constructor
  · intro ⟨⟨_, _,
      ⟨span, hspan, hlength, hvalid, hinterps, hne, hlow, himage, loadBias, hbias, hover, hend,
      hfits, hleast, hbelow, hmapped, hsingle, hphdr, hold, hwritten⟩, hresult⟩, hwrapped⟩
    subst hold hwritten hresult
    obtain ⟨hheader, hentrySize, hspanValue, hspanMost⟩ := referenceHeaderSpan_spec hspan
    obtain ⟨hread, hprograms⟩ := programsOf_eq (h := headerAt (bufferOf bytes.bytes))
      (show _ ≤ bytes.bytes.length by omega)
    have hparsed := parseHeader_eq_ok.mpr ⟨hheader.1, hheader.2, rfl⟩
    have hspanOk := headerSpan_eq_ok.mpr hspan
    have hcount := length_loads_programsAt hspanValue hspanMost bytes.bytes
    generalize headerAt (bufferOf bytes.bytes) = h at *
    -- Only the flag tells that the entry has come round: C goes on with the wrapped value.
    have hnoWrap : addOverflows h.entry loadBias = false := by
      by_contra hwraps
      simp [hwraps] at hwrapped
    have hroom : h.entry.toNat + loadBias.toNat < 2 ^ 64 := by
      rwa [← Bool.not_eq_true, addOverflows_iff, not_le] at hnoWrap
    have hsound : ∀ p ∈ loads (programsAt (bufferOf bytes.bytes) h), p.Sound fileSize := by
      intro p hp
      have hstop := (hfits p hp).stop
      obtain ⟨hfilesz, hfile, halign, hcongruent, -⟩ := hvalid p hp
      exact ⟨hfilesz, hfile, halign, hcongruent, by omega⟩
    rw [addOverflows_iff, not_le] at hover
    rw [gt_iff_lt, lt_iff_toNat_lt, toNat_add_of_lt hover, not_lt] at hend
    rw [lt_iff_toNat_lt, toNat_add_of_lt hroom, hleastValue, not_lt] at hleast
    rw [ge_iff_le, le_iff_toNat_le, toNat_add_of_lt hroom, not_le] at hbelow
    rw [programHeaderVirtual_eq hentrySize _ loadBias (h.entry + loadBias),
      phdr_eq_zero hsound hfits,
      not_not] at hphdr
    have haccepted : Accepted bytes fileSize preferredBase target h.header loadBias := by
      rw [pageMapped_eq] at hmapped
      rw [← hprograms] at hsound hinterps hsingle hne hlow himage hbias hend hfits hmapped hphdr
      exact ⟨hparsed, ⟨span, hspanOk, not_lt.mp hlength⟩, hread, ⟨hsound, hinterps, hsingle⟩,
        image_iff.mp ⟨hne, hlow, himage⟩, hbase, chooseLoadBias_eq_some.mp hbias,
          hend, hfits, hleast,
        hbelow, by simpa [ElfHeader.header] using hmapped, hphdr⟩
    refine ⟨h.header, loadBias, haccepted, ?_⟩
    rw [asReference_eq hentrySize haccepted hprograms hcount]
    simp only [hnoWrap, Bool.false_eq_true, if_false]
  · intro ⟨header, loadBias, haccepted, hresult⟩
    obtain ⟨-, -, rfl⟩ := parseHeader_eq_ok.mp haccepted.parsed
    obtain ⟨span, hspanOk, hlength⟩ := haccepted.span
    have hspan := headerSpan_eq_ok.mp hspanOk
    obtain ⟨-, hentrySize, hspanValue, hspanMost⟩ := referenceHeaderSpan_spec hspan
    obtain ⟨-, hprograms⟩ := programsOf_eq (h := headerAt (bufferOf bytes.bytes))
      (show _ ≤ bytes.bytes.length by omega)
    have hcount := length_loads_programsAt hspanValue hspanMost bytes.bytes
    rw [asReference_eq hentrySize haccepted hprograms hcount] at hresult
    obtain ⟨-, -, -, hchecked, hlowest, -, hbias, hlimitEnd, hfits, hleast, hbelow, hcovered,
        hphdr⟩ := haccepted
    rw [hprograms] at hchecked hlowest hbias hlimitEnd hfits hcovered hphdr
    obtain ⟨hne, hlow, himage⟩ := image_iff.mpr hlowest
    generalize headerAt (bufferOf bytes.bytes) = h at *
    have hroom : h.entry.toNat + loadBias.toNat < 2 ^ 64 := hbelow.trans hlt
    have hend := lt_of_le_of_lt hlimitEnd hlt
    have hnoWrap : addOverflows h.entry loadBias = false := by
      rw [← Bool.not_eq_true, addOverflows_iff, not_le]
      exact hroom
    refine ⟨⟨_, _,
      ⟨span, hspan, not_lt.mpr hlength, fun p hp => ?_, hchecked.interpSound, hne, hlow,
      himage, loadBias, chooseLoadBias_eq_some.mpr hbias, ?_, ?_, hfits, ?_, ?_,
        ?_, hchecked.single,
      fun hinterp => ?_, rfl, rfl⟩, ?_⟩, ?_⟩
    · obtain ⟨hfilesz, hfile, halign, hcongruent, hstop⟩ := hchecked.sound p hp
      exact ⟨hfilesz, hfile, halign, hcongruent, by omega⟩
    · rw [addOverflows_iff, not_le]
      exact hend
    · rw [gt_iff_lt, lt_iff_toNat_lt, toNat_add_of_lt hend, not_lt]
      exact hlimitEnd
    · rw [lt_iff_toNat_lt, toNat_add_of_lt hroom, hleastValue, not_lt]
      exact hleast
    · rw [ge_iff_le, le_iff_toNat_le, toNat_add_of_lt hroom, not_le]
      exact hbelow
    · simpa [pageMapped_eq, ElfHeader.header] using hcovered
    · rw [programHeaderVirtual_eq hentrySize _ loadBias (h.entry + loadBias),
        phdr_eq_zero hchecked.sound hfits, not_not]
      exact hphdr hinterp
    · simp only [hnoWrap, Bool.false_eq_true, if_false]
      exact hresult.symm
    · rw [hresult]

/-- The planner is the reference. For a page-aligned base and limit the planner returns a plan
    exactly if the reference does and the entry point does not wrap around; then all fields of the
    plan and all segments agree, in their order. What the reference does not write for a segment, it
    takes from the program header, and so does the planner. -/
theorem oldPlan_eq_plan (bytes : Slice) (fileSize preferredBase : UInt64) (target : Target)
    (hbase : preferredBase.toNat % 4096 = 0) (hlimit : target.userLimit.toNat % 4096 = 0) :
    (oldPlan bytes fileSize preferredBase target).filter (fun result => result.1.entryWrapped = 0) =
        (plan bytes fileSize preferredBase target).toOption.map asReference ∧
      ∀ image, plan bytes fileSize preferredBase target = .ok image →
        image.segments.map (fun s => (s.memorySize, s.fileOffset, s.fileSize)) =
          (loads (programsAt (bufferOf bytes.bytes) (headerAt (bufferOf bytes.bytes)))).map
            fun p => (p.memsz, p.offset, p.filesz) := by
  constructor
  · refine Option.ext fun result => ?_
    rw [Option.filter_eq_some_iff, decide_eq_true_eq, oldPlan_eq_some hbase hlimit,
      Option.map_eq_some_iff]
    constructor
    · intro ⟨header, loadBias, haccepted, hresult⟩
      refine ⟨_, ?_, hresult.symm⟩
      rw [plan_eq_ok.mpr ⟨header, loadBias, haccepted, rfl⟩]
      rfl
    · intro ⟨image, himage, hresult⟩
      obtain ⟨header, loadBias, haccepted, rfl⟩ := plan_eq_ok.mp (Except.eq_ok_of_toOption himage)
      exact ⟨header, loadBias, haccepted, hresult.symm⟩
  · intro image hplan
    obtain ⟨header, loadBias, haccepted, rfl⟩ := plan_eq_ok.mp hplan
    obtain ⟨-, -, rfl⟩ := parseHeader_eq_ok.mp haccepted.parsed
    obtain ⟨span, hspan, hlength⟩ := haccepted.span
    obtain ⟨-, -, hvalue, -⟩ := referenceHeaderSpan_spec (headerSpan_eq_ok.mp hspan)
    rw [segments_eq haccepted, List.map_map, (programsOf_eq (by omega)).2]
    rfl

/-- On a shared object with an interpreter both planners say the same. -/
theorem dynamicFile_agrees :
    (oldPlan dynamicFile 192 0x555500000000 ⟨62, 0x800000000000⟩).isSome = true ∧
      (oldPlan dynamicFile 192 0x555500000000 ⟨62, 0x800000000000⟩).filter
        (fun result => result.1.entryWrapped = 0) =
          (plan dynamicFile 192 0x555500000000 ⟨62, 0x800000000000⟩).toOption.map asReference :=
  ⟨by decide +kernel,
    (oldPlan_eq_plan dynamicFile 192 0x555500000000 ⟨62, 0x800000000000⟩ (by decide) (by decide)).1⟩

end Tunix.Elf.Reference
