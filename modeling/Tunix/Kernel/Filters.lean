import Tunix.Kernel.Seccomp

/-!
# The filters of processes

The rest of `kernel/core/seccomp.c`: how filters are attached to a process, inherited, released and
asked, with the callers in `kernel/core/process.c` as far as they matter here. A filter is memory at
an address; `allocated` are the addresses that are in use. Filters of one process are linked by
`prev`, and processes share the tails of their chains.
-/

namespace Tunix.Seccomp

open Bytes

/-- `SECCOMP_RET_KILL_THREAD`. -/
def seccompRetKillThread : UInt32 := 0x00000000
/-- `SECCOMP_RET_TRAP`. -/
def seccompRetTrap : UInt32 := 0x00030000
/-- `SECCOMP_RET_ERRNO`. -/
def seccompRetErrno : UInt32 := 0x00050000
/-- `SECCOMP_RET_USER_NOTIF`. -/
def seccompRetUserNotif : UInt32 := 0x7fc00000
/-- `SECCOMP_RET_TRACE`. -/
def seccompRetTrace : UInt32 := 0x7ff00000
/-- `SECCOMP_RET_LOG`. -/
def seccompRetLog : UInt32 := 0x7ffc0000
/-- `SECCOMP_RET_ALLOW`. -/
def seccompRetAllow : UInt32 := 0x7fff0000
/-- `SECCOMP_RET_ACTION_FULL`: the bits of a result that are its action. -/
def seccompRetActionFull : UInt32 := 0xffff0000

/-- `TSYNC`, `LOG`, `SPEC_ALLOW` and `TSYNC_ESRCH`. -/
def seccompFilterFlags : UInt32 := 0x17

/-- `AUDIT_ARCH_X86_64`. -/
def auditArchX8664 : UInt32 := 0xC000003E

/-- `seccomp_mode`. -/
inductive Mode where
  | disabled
  | strict
  | filter
deriving DecidableEq

/-- `struct seccomp_filter`: a program, and the filter it was attached on top of. -/
structure Filter where
  prev : Option Nat
  refs : UInt32
  program : List SockFilter

/-- What a process has of seccomp. -/
structure Task where
  mode : Mode
  filters : Option Nat

/-- The filters of all processes. -/
structure Tasks where
  /-- The processes that have not exited. -/
  live : List Nat
  task : Nat → Task
  filter : Nat → Filter
  allocated : List Nat

/-- The parts of a system call that filters see. -/
structure SyscallFrame where
  ip : UInt64
  args : Nat → UInt64

/-- A byte of a word in memory. -/
def byteOf (v : UInt64) (i : Nat) : UInt8 := (v >>> UInt64.ofNat (8 * i)).toUInt8

/-- `struct seccomp_data` for a call. -/
def seccompData (frame : SyscallFrame) (nr : UInt64) : Buffer := fun i =>
  if i < 4 then byteOf nr i
  else if i < 8 then byteOf auditArchX8664.toUInt64 (i - 4)
  else if i < 16 then byteOf frame.ip (i - 8)
  else byteOf (frame.args ((i - 16) / 8)) ((i - 16) % 8)

/-- `bpf_run` for a program that was checked. -/
def bpfResult (program : List SockFilter) (data : Buffer) : UInt32 :=
  match bpfRun program data program.length 0 Regs.init with
  | some exit => exit.value
  | none => seccompRetKillProcess

/-- The rank of an action; the result with the highest one wins. -/
def seccompRank (result : UInt32) : Nat :=
  let action := result &&& seccompRetActionFull
  if action = seccompRetKillProcess then 7
  else if action = seccompRetKillThread then 6
  else if action = seccompRetTrap then 5
  else if action = seccompRetErrno then 4
  else if action = seccompRetUserNotif then 3
  else if action = seccompRetTrace then 2
  else if action = seccompRetLog then 1
  else if action = seccompRetAllow then 0
  else 6

/-- The addresses that a walk along `prev` comes to. -/
def walkChain (filter : Nat → Filter) : Nat → Option Nat → List Nat
  | 0, _ => []
  | _, none => []
  | turns + 1, some a => a :: walkChain filter turns (filter a).prev

variable (s : Tasks)

/-- The chain of a process. No chain has more filters than there are. -/
def Tasks.chain (pid : Nat) : List Nat := walkChain s.filter s.allocated.length (s.task pid).filters

/-- `strict_allows`: the system calls of the strict mode. -/
def strictAllows (nr : UInt64) : Bool := nr == 0 || nr == 1 || nr == 60 || nr == 231 || nr == 15

/-- One turn of the loop in `seccomp_decide`. -/
def strictest (best : UInt32) (result : UInt32) : UInt32 :=
  if seccompRank best < seccompRank result then result else best

/-- `seccomp_decide`. -/
def Tasks.seccompDecide (pid : Nat) (frame : SyscallFrame) (nr : UInt64) : UInt32 :=
  match (s.task pid).mode with
  | .disabled => seccompRetAllow
  | .strict => if strictAllows nr then seccompRetAllow else seccompRetKillProcess
  | .filter =>
    let data := seccompData frame nr
    ((s.chain pid).map fun a => bpfResult (s.filter a).program data).foldl strictest seccompRetAllow

/-! ## Calls -/

/-- `-EINVAL`. -/
def einval : Int := -22
/-- `-EACCES`. -/
def eacces : Int := -13

/-- `attach_filter` for a filter at a new address. -/
def Tasks.attachFilter (pid a : Nat) (program : List SockFilter) : Int × Tasks :=
  if (s.task pid).mode = .strict then (einval, s)
  else (0, { s with
    task := Function.update s.task pid ⟨.filter, some a⟩
    filter := Function.update s.filter a ⟨(s.task pid).filters, 1, program⟩
    allocated := a :: s.allocated })

/-- `seccomp_set_mode_filter`. The process may attach filters if it is privileged or has
    `no_new_privs`; `user` is what can be copied from its memory and `memory` what `kmalloc`
    answers. -/
def Tasks.seccompSetModeFilter (pid : Nat) (flags : UInt32) (allowed : Bool)
    (user : Option (List SockFilter)) (memory : Option Nat) : Int × Tasks :=
  if flags &&& ~~~seccompFilterFlags ≠ 0 then (einval, s)
  else if !allowed then (eacces, s)
  else
    match user, memory with
    | some program, some a => if bpfCheck program then s.attachFilter pid a program else (einval, s)
    | _, _ => (einval, s)

/-- `seccomp_set_mode_strict`. -/
def Tasks.seccompSetModeStrict (pid : Nat) : Int × Tasks :=
  if (s.task pid).mode = .filter then (einval, s)
  else (0, { s with task := Function.update s.task pid { s.task pid with mode := .strict } })

/-- A reference of each filter of a chain is counted. -/
def refChain (filter : Nat → Filter) (chain : List Nat) : Nat → Filter :=
  chain.foldl (fun filter a =>
    Function.update filter a { filter a with refs := (filter a).refs + 1 }) filter

/-- `seccomp_inherit`: the child gets a reference to each filter. -/
def Tasks.seccompInherit (child parent : Nat) : Tasks := { s with
    task := Function.update s.task child (s.task parent)
    filter := refChain s.filter (s.chain parent) }

/-- One turn of the loop in `seccomp_release`. -/
def Tasks.unref (a : Nat) : Tasks :=
  let refs := (s.filter a).refs - 1
  { s with
    filter := Function.update s.filter a { s.filter a with refs := refs }
    allocated := if refs = 0 then s.allocated.erase a else s.allocated }

/-- `seccomp_release`. -/
def Tasks.seccompRelease (pid : Nat) : Tasks :=
  (s.chain pid).foldl Tasks.unref { s with task := Function.update s.task pid ⟨.disabled, none⟩ }

/-- What a process does with its filters. -/
inductive TaskCall where
  | setModeFilter (pid : Nat) (flags : UInt32) (allowed : Bool) (user : Option (List SockFilter))
      (memory : Option Nat)
  | setModeStrict (pid : Nat)
  /-- A fork or a new thread that comes to `seccomp_inherit`; what comes after that may fail, and
      the new process is then given up by `free_process_struct`. -/
  | fork (parent child : Nat) (completes : Bool)
  | exit (pid : Nat)

/-- A call of a process. It is made by one that has not exited, a new process has a new number, and
    `kmalloc` gives no memory that is in use. -/
def Tasks.step : TaskCall → Option Tasks
  | .setModeFilter pid flags allowed user memory =>
    if pid ∈ s.live ∧ ∀ a ∈ memory, a ∉ s.allocated then
      some (s.seccompSetModeFilter pid flags allowed user memory).2
    else none
  | .setModeStrict pid => if pid ∈ s.live then some (s.seccompSetModeStrict pid).2 else none
  | .fork parent child completes =>
    if parent ∈ s.live ∧ child ∉ s.live then
      let s := s.seccompInherit child parent
      some (if completes then { s with live := child :: s.live } else s)
    else none
  | .exit pid =>
    if pid ∈ s.live then
      let s := s.seccompRelease pid
      some { s with live := s.live.erase pid }
    else none

end Tunix.Seccomp
