import Tunix.Kernel.Seccomp

/-!
# What the checker of filter programs promises

A program that `bpf_check` accepts has only operations that the interpreter knows, its jumps stay
inside and its last instruction returns, so a run goes forward until it returns
(`checked_step`). Two bounds of the interpreter are not checked: those of absolute loads, and those
of stores to scratch memory, for which the mode is asked although stores have none. A run of an
accepted program returns by an instruction of the program exactly when it comes to no such
instruction with an operand out of bounds (`bpfRun_ret_iff`).
-/

namespace Tunix.Seccomp

open Bytes

variable {pc : Nat} {op : SockFilter}

/-! ## Codes -/

private theorem Opcode.mem_all (o : Opcode) : o ∈ Opcode.all := by
  cases o with
  | alu op src => cases op <;> cases src <;> decide
  | jump test src => cases test <;> cases src <;> decide
  | _ => decide

/-- No two cases of the switch have the same label. -/
theorem Opcode.code_injective {o o' : Opcode} (h : o.code = o'.code) : o = o' := by
  have hall : ∀ o ∈ Opcode.all, ∀ o' ∈ Opcode.all, o.code = o'.code → o = o' := by decide
  exact hall o o.mem_all o' o'.mem_all h

private theorem decode_eq_some {code : UInt16} {o : Opcode} :
    decode code = some o ↔ o.code = code := by
  constructor
  · intro h
    simpa using List.find?_some h
  · rintro rfl
    cases hfind : decode o.code with
    | none =>
      have hne := List.find?_eq_none.mp hfind o o.mem_all
      simp at hne
    | some o' =>
      have hcode : o'.code = o.code := by simpa using List.find?_some hfind
      rw [Opcode.code_injective hcode]

/-- The checker's list has the labels of the interpreter's switch. -/
theorem decode_of_validOpcode {code : UInt16} (h : validOpcode code) :
    ∃ o, decode code = some o := by
  have hall : validOpcodes.all (fun code => Opcode.all.any fun o => o.code == code) =
      true := by decide
  have hany := List.all_eq_true.mp hall code (by simpa [validOpcode] using h)
  obtain ⟨o, -, ho⟩ := List.any_eq_true.mp hany
  exact ⟨o, decode_eq_some.mpr (eq_of_beq ho)⟩

private theorem Opcode.ret_of_class {o : Opcode} (h : bpfClass o.code = bpfRet) :
    o = .retK ∨ o = .retA := by
  have hall : ∀ o ∈ Opcode.all, bpfClass o.code = bpfRet → o = .retK ∨ o = .retA := by decide
  exact hall o o.mem_all h

/-! ## One instruction -/

/-- The operands that the interpreter bounds and the checker does not. -/
def SockFilter.InBounds (op : SockFilter) : Prop :=
  (op.code = bpfLd ||| bpfW ||| bpfAbs → op.k ≤ dataSize - 4 ∧ op.k &&& 3 = 0) ∧
  (op.code = bpfSt ∨ op.code = bpfStx → op.k < bpfMemwords)

instance (op : SockFilter) : Decidable op.InBounds := inferInstanceAs (Decidable (_ ∧ _))

/-- What an instruction at `pc` does in a program of the given length if all is well: it returns, or
    the program goes forward and stays inside. -/
def Outcome.Forward (length pc : Nat) (op : SockFilter) (outcome : Outcome) : Prop :=
  (bpfClass op.code = bpfRet ∧ ∃ value, outcome = .exit (.ret pc value)) ∨
    ∃ pc' r', outcome = .next pc' r' ∧ pc < pc' ∧ pc' < length

private theorem forward_advance {length : Nat} (offset : Nat) (r : Regs)
    (hlength : length ≤ bpfMaxinsns) (hoffset : pc + offset + 1 < length) :
    Outcome.Forward length pc op (.next ((pc + offset + 1) % 2 ^ 16) r) := by
  have hmax : bpfMaxinsns < 2 ^ 16 := by decide
  exact .inr ⟨_, _, rfl, by omega, by omega⟩

/-- A checked instruction with operands in bounds goes forward. -/
theorem checked_step {length left : Nat} (data : Buffer) (r : Regs)
    (hlength : length ≤ bpfMaxinsns) (hleft : pc + left + 1 = length) (hop : checkOp left op)
    (hlast : left = 0 → bpfClass op.code = bpfRet) (hbounds : op.InBounds) :
    (bpfStep data op pc r).Forward length pc op := by
  simp only [checkOp, Bool.and_eq_true, Bool.not_eq_true', decide_eq_false_iff_not] at hop
  obtain ⟨⟨hvalid, hjump⟩, hmem⟩ := hop
  obtain ⟨o, ho⟩ := decode_of_validOpcode hvalid
  have hcode : op.code = o.code := (decode_eq_some.mp ho).symm
  rw [hcode] at hjump hmem hlast
  -- only the last instruction has none behind it, and that one returns
  have hnext : o ≠ .retK → o ≠ .retA → ∀ r',
      Outcome.Forward length pc op (.next ((pc + 0 + 1) % 2 ^ 16) r') := by
    intro hk ha r'
    have hpos : left ≠ 0 := by
      intro hzero
      rcases Opcode.ret_of_class (hlast hzero) with h | h
      · exact hk h
      · exact ha h
    exact forward_advance 0 r' hlength (by omega)
  rw [bpfStep, ho]
  have hscratch : ∀ {o' : Opcode}, o = o' →
      (bpfClass o'.code = bpfLd ∨ bpfClass o'.code = bpfLdx) → bpfMode o'.code = bpfMem →
      ¬ op.k ≥ bpfMemwords := by
    rintro o' rfl hclass hmode hk
    exact hmem ⟨hclass.elim .inl fun h => .inr (.inl h), hmode, hk⟩
  cases o with
  | ldAbs =>
    obtain ⟨hk, halign⟩ := hbounds.1 hcode
    rw [if_neg (by
      rintro (h | h)
      · exact absurd hk (UInt32.not_le.mpr h)
      · exact h halign)]
    exact hnext (by decide) (by decide) _
  | ldMem =>
    rw [if_neg (hscratch rfl (by decide) (by decide))]
    exact hnext (by decide) (by decide) _
  | ldxMem =>
    dsimp only
    rw [if_neg (hscratch rfl (by decide) (by decide))]
    exact hnext (by decide) (by decide) _
  | st =>
    dsimp only
    rw [if_neg (UInt32.not_le.mpr (hbounds.2 (.inl hcode)))]
    exact hnext (by decide) (by decide) _
  | stx =>
    dsimp only
    rw [if_neg (UInt32.not_le.mpr (hbounds.2 (.inr hcode)))]
    exact hnext (by decide) (by decide) _
  | ja =>
    rw [if_pos (by decide), if_pos (by decide), decide_eq_true_eq] at hjump
    exact forward_advance _ r hlength (by omega)
  | jump test src =>
    have hclass : bpfClass (Opcode.jump test src).code = bpfJmp := by
      cases test <;> cases src <;> decide
    have hne : (Opcode.jump test src).code ≠ bpfJmp ||| bpfJa := by
      cases test <;> cases src <;> decide
    rw [if_pos hclass, if_neg hne] at hjump
    simp only [Bool.and_eq_true, decide_eq_true_eq] at hjump
    dsimp only
    refine forward_advance _ r hlength ?_
    split_ifs <;> omega
  | retK => exact .inl ⟨by rw [hcode]; decide, _, rfl⟩
  | retA => exact .inl ⟨by rw [hcode]; decide, _, rfl⟩
  | _ => exact hnext (by simp) (by simp) _

/-- An operand out of bounds ends the run by the interpreter's own exit. -/
theorem step_out_of_bounds (data : Buffer) (pc : Nat) (r : Regs) (hbounds : ¬ op.InBounds) :
    ∃ e, bpfStep data op pc r = .exit e ∧ ∀ pc value, e ≠ .ret pc value := by
  rw [SockFilter.InBounds, not_and_or] at hbounds
  rcases hbounds with h | h
  · rw [Classical.not_imp] at h
    obtain ⟨hcode, hk⟩ := h
    have ho : decode op.code = some .ldAbs := decode_eq_some.mpr hcode.symm
    refine ⟨.badLoad, ?_, nofun⟩
    rw [bpfStep, ho]
    dsimp only
    rw [if_pos]
    rw [not_and_or] at hk
    exact hk.imp UInt32.not_le.mp id
  · rw [Classical.not_imp] at h
    obtain ⟨hcode, hk⟩ := h
    refine ⟨.badScratch, ?_, nofun⟩
    rcases hcode with hcode | hcode
    · have ho : decode op.code = some .st := decode_eq_some.mpr hcode.symm
      rw [bpfStep, ho]
      exact if_pos (UInt32.not_lt.mp hk)
    · have ho : decode op.code = some .stx := decode_eq_some.mpr hcode.symm
      rw [bpfStep, ho]
      exact if_pos (UInt32.not_lt.mp hk)

/-! ## Runs -/

/-- The run of a program comes to an instruction. -/
inductive Comes (program : List SockFilter) (data : Buffer) : Nat → Regs → Prop
  | start : Comes program data 0 Regs.init
  | next {pc pc' : Nat} {r r' : Regs} {op : SockFilter} : Comes program data pc r →
      program[pc]? = some op → bpfStep data op pc r = .next pc' r' → Comes program data pc' r'

/-- The run ends with a return by an instruction of the program, after at most as many turns as the
    program has instructions. -/
def ReturnsByRet (program : List SockFilter) (data : Buffer) : Prop :=
  ∃ pc op value, program[pc]? = some op ∧ bpfClass op.code = bpfRet ∧
    ∀ turns ≥ program.length, bpfRun program data turns 0 Regs.init = some (.ret pc value)

private theorem checkOps_get {program : List SockFilter} (h : checkOps program)
    (hop : program[pc]? = some op) :
    ∃ left, pc + left + 1 = program.length ∧ checkOp left op ∧
      (left = 0 → bpfClass op.code = bpfRet) := by
  induction program generalizing pc with
  | nil => simp at hop
  | cons first rest ih =>
    cases rest with
    | nil =>
      simp only [checkOps, Bool.and_eq_true, decide_eq_true_eq] at h
      cases pc with
      | zero =>
        obtain rfl := Option.some.inj hop
        exact ⟨0, rfl, h.1, fun _ => h.2⟩
      | succ pc => simp at hop
    | cons second rest =>
      simp only [checkOps, Bool.and_eq_true] at h
      cases pc with
      | zero =>
        obtain rfl := Option.some.inj hop
        exact ⟨(second :: rest).length, by simp, h.1, nofun⟩
      | succ pc =>
        obtain ⟨left, hleft, hcheck⟩ := ih h.2 hop
        exact ⟨left, by rw [List.length_cons, ← hleft]; omega, hcheck⟩

section Checked

variable {program : List SockFilter} {data : Buffer}

/-- What the check says of one instruction: it goes forward and stays inside. -/
theorem checked_get (data : Buffer) (h : bpfCheck program) (hop : program[pc]? = some op)
    (hbounds : op.InBounds) (r : Regs) :
    (bpfStep data op pc r).Forward program.length pc op := by
  simp only [bpfCheck, Bool.and_eq_true, decide_eq_true_eq] at h
  obtain ⟨left, hleft, hcheck, hlast⟩ := checkOps_get h.2 hop
  exact checked_step data r h.1.2 hleft hcheck hlast hbounds

/-- The run of a checked program stays inside. -/
theorem Comes.lt (h : bpfCheck program) {r : Regs} (hcomes : Comes program data pc r) :
    pc < program.length := by
  cases hcomes with
  | start =>
    simp only [bpfCheck, Bool.and_eq_true, decide_eq_true_eq] at h
    omega
  | @next pc₀ _ r₀ _ op _ hop hstep =>
    -- the step would not go on with an operand out of bounds
    have hbounds : op.InBounds := by
      by_contra hbounds
      obtain ⟨e, he, -⟩ := step_out_of_bounds data pc₀ r₀ hbounds
      rw [he] at hstep
      cases hstep
    rcases checked_get data h hop hbounds r₀ with ⟨-, value, hret⟩ | ⟨pc', r', hnext, -, hlt⟩
    · rw [hret] at hstep
      cases hstep
    · rw [hnext] at hstep
      cases hstep
      exact hlt

/-- The run goes on from wherever it comes to. -/
theorem bpfRun_of_comes {r : Regs} (hcomes : Comes program data pc r) :
    ∃ n, ∀ turns, bpfRun program data (n + turns) 0 Regs.init = bpfRun program data turns pc r := by
  induction hcomes with
  | start => exact ⟨0, fun turns => by rw [zero_add]⟩
  | @next pc pc' r r' op _ hop hstep ih =>
    obtain ⟨n, hn⟩ := ih
    refine ⟨n + 1, fun turns => ?_⟩
    rw [add_assoc, hn, add_comm 1 turns, bpfRun]
    simp only [hop, hstep]

/-- If all operands it comes to are in bounds, the run returns: every turn goes forward. -/
theorem returns_from (h : bpfCheck program)
    (hbounds : ∀ pc r op, Comes program data pc r → program[pc]? = some op → op.InBounds)
    (pc : Nat) (r : Regs) (hcomes : Comes program data pc r) :
    ∃ pc' op value, program[pc']? = some op ∧ bpfClass op.code = bpfRet ∧
      ∀ turns ≥ program.length - pc, bpfRun program data turns pc r = some (.ret pc' value) := by
  have hlt := hcomes.lt h
  have hop : program[pc]? = some program[pc] := List.getElem?_eq_getElem hlt
  rcases checked_get data h hop (hbounds pc r _ hcomes hop) r with
    ⟨hclass, value, hret⟩ | ⟨pc₁, r₁, hnext, hforward, -⟩
  · refine ⟨pc, program[pc], value, hop, hclass, fun turns hturns => ?_⟩
    obtain ⟨turns, rfl⟩ : ∃ m, turns = m + 1 := ⟨turns - 1, by omega⟩
    rw [bpfRun]
    simp only [hop, hret]
  · obtain ⟨pc', op, value, hop', hclass, hrun⟩ :=
      returns_from h hbounds pc₁ r₁ (hcomes.next hop hnext)
    refine ⟨pc', op, value, hop', hclass, fun turns hturns => ?_⟩
    obtain ⟨turns, rfl⟩ : ∃ m, turns = m + 1 := ⟨turns - 1, by omega⟩
    rw [bpfRun]
    simp only [hop, hnext]
    exact hrun turns (by omega)
termination_by program.length - pc
decreasing_by omega

/-- A run that comes to an operand out of bounds does not return by an instruction. -/
theorem not_returns_of_out_of_bounds {r : Regs} (hcomes : Comes program data pc r)
    (hop : program[pc]? = some op) (hbounds : ¬ op.InBounds) :
    ¬ ReturnsByRet program data := by
  rintro ⟨pc', op', value, -, -, hrun⟩
  obtain ⟨n, hn⟩ := bpfRun_of_comes hcomes
  obtain ⟨e, he, hret⟩ := step_out_of_bounds data pc r hbounds
  have hend := hrun (n + (program.length + 1)) (by omega)
  rw [hn, bpfRun] at hend
  simp only [hop, he] at hend
  exact hret pc' value (Option.some.inj hend)

end Checked

/-- The run of an accepted program stays inside and returns by an instruction of the program,
    exactly when no absolute load and no store that it comes to has an operand out of bounds. -/
theorem bpfRun_ret_iff (program : List SockFilter) (data : Buffer) (hcheck : bpfCheck program) :
    (ReturnsByRet program data ∧ ∀ pc r, Comes program data pc r → pc < program.length) ↔
      ∀ pc r op, Comes program data pc r → program[pc]? = some op → op.InBounds := by
  constructor
  · rintro ⟨hreturns, -⟩ pc r op hcomes hop
    by_contra hbounds
    exact not_returns_of_out_of_bounds hcomes hop hbounds hreturns
  · intro hbounds
    refine ⟨?_, fun pc r hcomes => hcomes.lt hcheck⟩
    obtain ⟨pc, op, value, hop, hclass, hrun⟩ := returns_from hcheck hbounds 0 Regs.init .start
    exact ⟨pc, op, value, hop, hclass, fun turns hturns => hrun turns (by omega)⟩

/-- A filter that looks at the number of the system call. -/
def numberFilter : List SockFilter :=
  [⟨bpfLd ||| bpfW ||| bpfAbs, 0, 0, 0⟩, ⟨bpfJmp ||| bpfJeq ||| bpfK, 0, 1, 110⟩,
   ⟨bpfRet ||| bpfK, 0, 0, 0x30000⟩, ⟨bpfRet ||| bpfK, 0, 0, 0x7FFF0000⟩]

/-- A filter on the number of the system call. -/
theorem numberFilter_returns : bpfCheck numberFilter ∧
    ReturnsByRet numberFilter zeros ∧ ∀ pc r, Comes numberFilter zeros pc r → pc < 4 :=
  have hcheck : bpfCheck numberFilter := by decide
  have hall : ∀ op ∈ numberFilter, op.InBounds := by decide
  ⟨hcheck, (bpfRun_ret_iff numberFilter zeros hcheck).mpr fun _ _ op _ hop =>
    hall op (List.mem_of_getElem? hop)⟩

/-- A store to a scratch word that does not exist. -/
def storeFilter : List SockFilter := [⟨bpfSt, 0, 0, 16⟩, ⟨bpfRet ||| bpfK, 0, 0, 0x7FFF0000⟩]

/-- The checker accepts the store, and the interpreter kills the process. -/
theorem storeFilter_not_returns : bpfCheck storeFilter ∧ ¬ ReturnsByRet storeFilter zeros ∧
    bpfRun storeFilter zeros 2 0 Regs.init = some .badScratch :=
  ⟨by decide, not_returns_of_out_of_bounds .start (rfl : storeFilter[0]? = some _)
    (by decide), by decide⟩

end Tunix.Seccomp
