import Tunix.ForStd.Bytes

/-!
# The filter programs of seccomp

The interpreter `bpf_run` and the checker `bpf_check`, from `kernel/core/seccomp.c`. The case labels
of the interpreter's switch are the codes of the operations in `Opcode`; the checker has a list of
its own (`validOpcodes`). The interpreter's exits are kept apart: `Exit.ret` is a return by an
instruction of the program, all others are the interpreter's own.
-/

namespace Tunix.Seccomp

open Bytes

/-- `struct sock_filter`. -/
structure SockFilter where
  code : UInt16
  jt : UInt8
  jf : UInt8
  k : UInt32

/-- `BPF_MEMWORDS`: the words of the scratch memory. -/
def bpfMemwords : UInt32 := 16
/-- `BPF_MAXINSNS`: the longest program. -/
def bpfMaxinsns : Nat := 4096

/-- The size of `struct seccomp_data`. -/
def dataSize : UInt32 := 64

/-- `SECCOMP_RET_KILL_PROCESS`. -/
def seccompRetKillProcess : UInt32 := 0x80000000

/-! ## Codes -/

/-- `BPF_CLASS`. -/
def bpfClass (code : UInt16) : UInt16 := code &&& 0x07
/-- `BPF_LD`. -/
def bpfLd : UInt16 := 0x00
/-- `BPF_LDX`. -/
def bpfLdx : UInt16 := 0x01
/-- `BPF_ST`. -/
def bpfSt : UInt16 := 0x02
/-- `BPF_STX`. -/
def bpfStx : UInt16 := 0x03
/-- `BPF_ALU`. -/
def bpfAlu : UInt16 := 0x04
/-- `BPF_JMP`. -/
def bpfJmp : UInt16 := 0x05
/-- `BPF_RET`. -/
def bpfRet : UInt16 := 0x06
/-- `BPF_MISC`. -/
def bpfMisc : UInt16 := 0x07

/-- `BPF_W`. -/
def bpfW : UInt16 := 0x00

/-- `BPF_MODE`. -/
def bpfMode (code : UInt16) : UInt16 := code &&& 0xe0
/-- `BPF_IMM`. -/
def bpfImm : UInt16 := 0x00
/-- `BPF_ABS`. -/
def bpfAbs : UInt16 := 0x20
/-- `BPF_MEM`. -/
def bpfMem : UInt16 := 0x60
/-- `BPF_LEN`. -/
def bpfLen : UInt16 := 0x80

/-- `BPF_ADD`. -/
def bpfAdd : UInt16 := 0x00
/-- `BPF_SUB`. -/
def bpfSub : UInt16 := 0x10
/-- `BPF_MUL`. -/
def bpfMul : UInt16 := 0x20
/-- `BPF_DIV`. -/
def bpfDiv : UInt16 := 0x30
/-- `BPF_OR`. -/
def bpfOr : UInt16 := 0x40
/-- `BPF_AND`. -/
def bpfAnd : UInt16 := 0x50
/-- `BPF_LSH`. -/
def bpfLsh : UInt16 := 0x60
/-- `BPF_RSH`. -/
def bpfRsh : UInt16 := 0x70
/-- `BPF_NEG`. -/
def bpfNeg : UInt16 := 0x80
/-- `BPF_MOD`. -/
def bpfMod : UInt16 := 0x90
/-- `BPF_XOR`. -/
def bpfXor : UInt16 := 0xa0
/-- `BPF_JA`. -/
def bpfJa : UInt16 := 0x00
/-- `BPF_JEQ`. -/
def bpfJeq : UInt16 := 0x10
/-- `BPF_JGT`. -/
def bpfJgt : UInt16 := 0x20
/-- `BPF_JGE`. -/
def bpfJge : UInt16 := 0x30
/-- `BPF_JSET`. -/
def bpfJset : UInt16 := 0x40

/-- `BPF_K`. -/
def bpfK : UInt16 := 0x00
/-- `BPF_X`. -/
def bpfX : UInt16 := 0x08
/-- `BPF_A`. -/
def bpfA : UInt16 := 0x10
/-- `BPF_TAX`. -/
def bpfTax : UInt16 := 0x00
/-- `BPF_TXA`. -/
def bpfTxa : UInt16 := 0x80

/-! ## The operations of the interpreter -/

/-- The operations of `BPF_ALU` on the accumulator and an operand. -/
inductive Arith
  | add | sub | mul | div | mod | and | or | xor | lsh | rsh
  deriving DecidableEq

/-- The conditions of `BPF_JMP`. -/
inductive Test
  | jeq | jgt | jge | jset
  deriving DecidableEq

/-- Where the second operand comes from. -/
inductive Source
  | k | x
  deriving DecidableEq

/-- The opcodes that the interpreter knows. -/
inductive Opcode
  | ldAbs | ldLen | ldImm | ldMem
  | ldxLen | ldxImm | ldxMem
  | st | stx
  | alu (op : Arith) (src : Source)
  | neg
  | ja
  | jump (test : Test) (src : Source)
  | retK | retA
  | tax | txa
  deriving DecidableEq

/-- The code of an operation, without class and source. -/
def Arith.code : Arith → UInt16
  | .add => bpfAdd
  | .sub => bpfSub
  | .mul => bpfMul
  | .div => bpfDiv
  | .mod => bpfMod
  | .and => bpfAnd
  | .or => bpfOr
  | .xor => bpfXor
  | .lsh => bpfLsh
  | .rsh => bpfRsh

/-- The code of a condition, without class and source. -/
def Test.code : Test → UInt16
  | .jeq => bpfJeq
  | .jgt => bpfJgt
  | .jge => bpfJge
  | .jset => bpfJset

/-- The bit that chooses the operand. -/
def Source.code : Source → UInt16
  | .k => bpfK
  | .x => bpfX

/-- The case labels of `bpf_run`. -/
def Opcode.code : Opcode → UInt16
  | .ldAbs => bpfLd ||| bpfW ||| bpfAbs
  | .ldLen => bpfLd ||| bpfW ||| bpfLen
  | .ldImm => bpfLd ||| bpfImm
  | .ldMem => bpfLd ||| bpfMem
  | .ldxLen => bpfLdx ||| bpfW ||| bpfLen
  | .ldxImm => bpfLdx ||| bpfImm
  | .ldxMem => bpfLdx ||| bpfMem
  | .st => bpfSt
  | .stx => bpfStx
  | .alu op src => bpfAlu ||| op.code ||| src.code
  | .neg => bpfAlu ||| bpfNeg
  | .ja => bpfJmp ||| bpfJa
  | .jump test src => bpfJmp ||| test.code ||| src.code
  | .retK => bpfRet ||| bpfK
  | .retA => bpfRet ||| bpfA
  | .tax => bpfMisc ||| bpfTax
  | .txa => bpfMisc ||| bpfTxa

/-- Both operands. -/
def Source.all : List Source := [.k, .x]

/-- Every operation. -/
def Arith.all : List Arith := [.add, .sub, .mul, .div, .mod, .and, .or, .xor, .lsh, .rsh]

/-- Every condition. -/
def Test.all : List Test := [.jeq, .jgt, .jge, .jset]

/-- The opcodes of `BPF_ALU` with an operand. -/
def Opcode.alus : List Opcode := Source.all.flatMap fun src => Arith.all.map fun op => .alu op src

/-- The conditional jumps. -/
def Opcode.jumps : List Opcode :=
  Source.all.flatMap fun src => Test.all.map fun test => .jump test src

/-- The opcodes without an operation, a condition or a source. -/
def Opcode.simple : List Opcode :=
  [.ldAbs, .ldLen, .ldImm, .ldMem, .ldxLen, .ldxImm, .ldxMem, .st, .stx, .neg, .ja, .retK,
    .retA, .tax, .txa]

/-- Every opcode. -/
def Opcode.all : List Opcode := Opcode.simple ++ Opcode.alus ++ Opcode.jumps

/-- The case of the switch that a code comes to. -/
def decode (code : UInt16) : Option Opcode := Opcode.all.find? fun op => op.code = code

/-- The new accumulator. A division by zero has been caught before. -/
def Arith.eval (a v : UInt32) : Arith → UInt32
  | .add => a + v
  | .sub => a - v
  | .mul => a * v
  | .div => if v ≠ 0 then a / v else 0
  | .mod => if v ≠ 0 then a % v else 0
  | .and => a &&& v
  | .or => a ||| v
  | .xor => a ^^^ v
  | .lsh => if v < 32 then a <<< v else 0
  | .rsh => if v < 32 then a >>> v else 0

/-- Whether the jump goes to `jt`. -/
def Test.eval (a v : UInt32) : Test → Bool
  | .jeq => a = v
  | .jgt => a > v
  | .jge => a ≥ v
  | .jset => a &&& v ≠ 0

/-! ## The interpreter -/

/-- The accumulator, the index register and the scratch memory. -/
structure Regs where
  a : UInt32
  x : UInt32
  mem : Nat → UInt32

/-- The registers at the start of a program. -/
def Regs.init : Regs := ⟨0, 0, fun _ => 0⟩

/-- The value of the operand. -/
def Source.eval (r : Regs) (k : UInt32) : Source → UInt32
  | .k => k
  | .x => r.x

/-- How a program ends. -/
inductive Exit
  /-- The instruction at `pc` returned the value. -/
  | ret (pc : Nat) (value : UInt32)
  | badLoad
  | badScratch
  | badOpcode
  | ranOff
  deriving DecidableEq

/-- What `bpf_run` returns. -/
def Exit.value : Exit → UInt32
  | .ret _ value => value
  | _ => seccompRetKillProcess

/-- What an instruction leads to. -/
inductive Outcome
  | next (pc : Nat) (r : Regs)
  | exit (e : Exit)

/-- One turn of the loop; the 16-bit `pc` is advanced by the turn and by the loop. -/
def bpfStep (data : Buffer) (op : SockFilter) (pc : Nat) (r : Regs) : Outcome :=
  let advance (offset : Nat) (r : Regs) : Outcome := .next ((pc + offset + 1) % 2 ^ 16) r
  match decode op.code with
  | none => .exit .badOpcode
  | some .ldAbs =>
    if op.k > dataSize - 4 ∨ op.k &&& 3 ≠ 0 then .exit .badLoad
    else advance 0 { r with a := loadLe32 data op.k.toNat }
  | some .ldLen => advance 0 { r with a := dataSize }
  | some .ldImm => advance 0 { r with a := op.k }
  | some .ldMem =>
    if op.k ≥ bpfMemwords then .exit .badScratch
    else advance 0 { r with a := r.mem op.k.toNat }
  | some .ldxLen => advance 0 { r with x := dataSize }
  | some .ldxImm => advance 0 { r with x := op.k }
  | some .ldxMem =>
    if op.k ≥ bpfMemwords then .exit .badScratch
    else advance 0 { r with x := r.mem op.k.toNat }
  | some .st =>
    if op.k ≥ bpfMemwords then .exit .badScratch
    else advance 0 { r with mem := Function.update r.mem op.k.toNat r.a }
  | some .stx =>
    if op.k ≥ bpfMemwords then .exit .badScratch
    else advance 0 { r with mem := Function.update r.mem op.k.toNat r.x }
  | some (.alu arith src) => advance 0 { r with a := arith.eval r.a (src.eval r op.k) }
  | some .neg => advance 0 { r with a := -r.a }
  | some .ja => advance (op.k.toNat % 2 ^ 16) r
  | some (.jump test src) =>
    advance (if test.eval r.a (src.eval r op.k) then op.jt.toNat else op.jf.toNat) r
  | some .retK => .exit (.ret pc op.k)
  | some .retA => .exit (.ret pc r.a)
  | some .tax => advance 0 { r with x := r.a }
  | some .txa => advance 0 { r with a := r.x }

/-- The loop of `bpf_run`. A program that has not been checked may go on for ever, so the turns are
    limited; there is no exit when they run out. -/
def bpfRun (program : List SockFilter) (data : Buffer) : Nat → Nat → Regs → Option Exit
  | 0, _, _ => none
  | turns + 1, pc, r =>
    match program[pc]? with
    | none => some .ranOff
    | some op =>
      match bpfStep data op pc r with
      | .exit e => some e
      | .next pc r => bpfRun program data turns pc r

/-! ## The checker -/

/-- The cases of `valid_opcode`, class by class. -/
def validLoads : List UInt16 :=
  [bpfLd ||| bpfW ||| bpfAbs, bpfLd ||| bpfW ||| bpfLen, bpfLd ||| bpfImm, bpfLd ||| bpfMem,
   bpfLdx ||| bpfW ||| bpfLen, bpfLdx ||| bpfImm, bpfLdx ||| bpfMem]

/-- The opcodes of `BPF_ALU` with a constant that `bpf_check` lets pass. -/
def validAluK : List UInt16 :=
  [bpfAlu ||| bpfAdd ||| bpfK, bpfAlu ||| bpfSub ||| bpfK, bpfAlu ||| bpfMul ||| bpfK,
   bpfAlu ||| bpfDiv ||| bpfK, bpfAlu ||| bpfMod ||| bpfK, bpfAlu ||| bpfAnd ||| bpfK,
   bpfAlu ||| bpfOr ||| bpfK, bpfAlu ||| bpfXor ||| bpfK, bpfAlu ||| bpfLsh ||| bpfK,
   bpfAlu ||| bpfRsh ||| bpfK]

/-- The opcodes of `BPF_ALU` with the index register that `bpf_check` lets pass. -/
def validAluX : List UInt16 :=
  [bpfAlu ||| bpfAdd ||| bpfX, bpfAlu ||| bpfSub ||| bpfX, bpfAlu ||| bpfMul ||| bpfX,
   bpfAlu ||| bpfDiv ||| bpfX, bpfAlu ||| bpfMod ||| bpfX, bpfAlu ||| bpfAnd ||| bpfX,
   bpfAlu ||| bpfOr ||| bpfX, bpfAlu ||| bpfXor ||| bpfX, bpfAlu ||| bpfLsh ||| bpfX,
   bpfAlu ||| bpfRsh ||| bpfX]

/-- The jumps that `bpf_check` lets pass. -/
def validJumps : List UInt16 := [bpfJmp ||| bpfJa,
   bpfJmp ||| bpfJeq ||| bpfK, bpfJmp ||| bpfJgt ||| bpfK, bpfJmp ||| bpfJge ||| bpfK,
   bpfJmp ||| bpfJset ||| bpfK,
   bpfJmp ||| bpfJeq ||| bpfX, bpfJmp ||| bpfJgt ||| bpfX, bpfJmp ||| bpfJge ||| bpfX,
   bpfJmp ||| bpfJset ||| bpfX]

/-- The opcodes that `bpf_check` lets pass. -/
def validOpcodes : List UInt16 :=
  validLoads ++ [bpfSt, bpfStx] ++ validAluK ++ validAluX ++ [bpfAlu ||| bpfNeg] ++ validJumps ++
    [bpfRet ||| bpfK, bpfRet ||| bpfA, bpfMisc ||| bpfTax, bpfMisc ||| bpfTxa]

/-- The opcode is one that `bpf_check` lets pass. -/
def validOpcode (code : UInt16) : Bool := validOpcodes.contains code

/-- The checks of one instruction; `left` is `length - pc - 1`. -/
def checkOp (left : Nat) (op : SockFilter) : Bool := validOpcode op.code &&
  (if bpfClass op.code = bpfJmp then
    if op.code = bpfJmp ||| bpfJa then op.k.toNat < left
    else op.jt.toNat < left && op.jf.toNat < left
  else true) &&
  !((bpfClass op.code = bpfLd ∨ bpfClass op.code = bpfLdx ∨ op.code = bpfSt ∨ op.code = bpfStx) ∧
    bpfMode op.code = bpfMem ∧ op.k ≥ bpfMemwords)

/-- The loop of `bpf_check`, which ends with the check of the last instruction. -/
def checkOps : List SockFilter → Bool
  | [] => false
  | [op] => checkOp 0 op && bpfClass op.code = bpfRet
  | op :: rest => checkOp rest.length op && checkOps rest

/-- `bpf_check`: the program may be attached. -/
def bpfCheck (program : List SockFilter) : Bool :=
  program.length ≠ 0 && program.length ≤ bpfMaxinsns && checkOps program

end Tunix.Seccomp
