import Mathlib.Algebra.Group.Nat.Defs
import Mathlib.Data.List.Basic
import Mathlib.Logic.Function.Basic

/-!
# System V semaphores

`kernel/ipc/sysvsem.c`: one semaphore set, the calls of `semop` on it, and what else changes it. A
section under `sem_lock` is one step, with the wake in it; going to sleep is a step, and so is the
comparison of the generations before it. What the kernel answers meanwhile (permissions, memory,
time, signals) is an input.
-/

namespace Tunix.SysvSem

/-- `SEM_VALUE_MAX`. -/
def semValueMax : Int := 32767

/-- `SEM_ADJ_MAX`. -/
def semAdjMax : Int := 32767

/-- `SEM_OPS_MAX`. -/
def semOpsMax : Nat := 500

/-- `struct sem`. -/
structure Sem where
  value : Int
  pid : Int
  waitingLess : Nat
  waitingZero : Nat

/-- `struct sem_set`. Its number of semaphores is the length of `sems`. -/
structure SemSet where
  removed : Bool
  /-- The memory of the set has been given back. -/
  freed : Bool
  /-- A 32-bit number. -/
  generation : Nat
  sleepers : Nat
  sems : List Sem

/-- `struct sem_undo`, of this set. -/
structure Undo where
  tgid : Int
  adjust : List Int

/-- `struct sembuf_user`, with the two bits of its flags. -/
structure Op where
  num : Nat
  op : Int
  undo : Bool
  nowait : Bool

/-- The values of the semaphores. -/
def SemSet.values (set : SemSet) : List Int := set.sems.map Sem.value

/-! ## The operations of a call -/

/-- What the first pass over the operations comes to. -/
inductive Staged
  | blocked (index : Nat)
  | range
  | done (staged : List Int)

/-- The first loop of `try_operations`, from an index on. -/
def stage : List Op → Nat → List Int → Staged
  | [], _, staged => .done staged
  | op :: rest, index, staged =>
    let value := staged.getD op.num 0
    if op.op < 0 then
      if value + op.op < 0 then .blocked index
      else stage rest (index + 1) (staged.set op.num (value + op.op))
    else if op.op = 0 then
      if value ≠ 0 then .blocked index else stage rest (index + 1) staged
    else if semValueMax < value + op.op then .range
    else stage rest (index + 1) (staged.set op.num (value + op.op))

variable (undos : List Undo)

/-- `undo_for`: the records with one for the group. `memory` says that `kmalloc` succeeds. -/
def undoFor (tgid : Int) (count : Nat) (memory : Bool) : Option (List Undo) :=
  if undos.any (·.tgid = tgid) then some undos
  else if memory then some (⟨tgid, List.replicate count 0⟩ :: undos)
  else none

/-- `undo->adjust[num]` of the first record of the group. -/
def adjustOf (tgid : Int) (num : Nat) : Int := match undos.find? (·.tgid = tgid) with
  | none => 0
  | some undo => undo.adjust.getD num 0

/-- The second loop of `try_operations`: the records, and the error it returns. -/
def checkUndos (tgid : Int) (count : Nat) (memory : Bool) :
    List Op → List Undo → List Undo × Option Int
  | [], undos => (undos, none)
  | op :: rest, undos =>
    if op.undo ∧ op.op ≠ 0 then
      match undoFor undos tgid count memory with
      | none => (undos, some (-12))
      | some undos =>
        let adjusted := adjustOf undos tgid op.num - op.op
        if semAdjMax < adjusted ∨ adjusted < -semAdjMax then (undos, some (-34))
        else checkUndos tgid count memory rest undos
    else checkUndos tgid count memory rest undos

/-- A step of the third loop: the first record of the group is adjusted, in 16 bits. -/
def noteUndo (tgid : Int) (op : Op) : List Undo → List Undo
  | [] => []
  | undo :: rest =>
    if undo.tgid = tgid then
      { undo with adjust :=
        undo.adjust.set op.num ((undo.adjust.getD op.num 0 - op.op).bmod (2 ^ 16)) } :: rest
    else undo :: noteUndo tgid op rest

/-- The third loop of `try_operations`. -/
def noteUndos (tgid : Int) (ops : List Op) (undos : List Undo) : List Undo :=
  ops.foldl (fun undos op => if op.undo ∧ op.op ≠ 0 then noteUndo tgid op undos else undos) undos

/-- The values are stored, and the pids of the semaphores that the call names. -/
def commit (sems : List Sem) (staged : List Int) (ops : List Op) (pid : Int) : List Sem :=
  (List.zipWith (fun sem value => { sem with value := value }) sems staged).mapIdx fun index sem =>
    if ops.any (·.num = index) then { sem with pid := pid } else sem

/-- What an attempt comes to. -/
inductive Outcome
  | blocked (index : Nat)
  | failed (errno : Int) (undos : List Undo)
  | done (sems : List Sem) (changed : Bool) (undos : List Undo)

/-- `try_operations`. -/
def tryOperations (set : SemSet) (undos : List Undo) (ops : List Op) (tgid : Int) (memory : Bool) :
    Outcome :=
  match stage ops 0 set.values with
  | .blocked index => .blocked index
  | .range => .failed (-34) undos
  | .done staged =>
    match checkUndos tgid set.sems.length memory ops undos with
    | (undos, some errno) => .failed errno undos
    | (undos, none) =>
      .done (commit set.sems staged ops tgid) (staged ≠ set.values) (noteUndos tgid ops undos)

/-! ## Calls -/

/-- Where a process is. -/
inductive Pc
  | idle
  /-- Before the first section. -/
  | start
  /-- It has to wait, before `process_prepare_wait_interruptible`. -/
  | entering
  /-- Before the section in which the generations are compared. -/
  | recheck
  /-- Before or in `process_wait`. -/
  | waiting
  /-- Before the section that goes on with the call. -/
  | resume
deriving DecidableEq

/-- A process in `sysvsem_op`. -/
structure Call where
  pc : Pc
  ops : List Op
  tgid : Int
  timed : Bool
  blockedAt : Nat
  generation : Nat
  /-- `process_prepare_wait_interruptible` returned zero. -/
  prepared : Bool
  ready : Bool
  /-- The state is `PROCESS_BLOCKED`, with the set as the channel. -/
  blocked : Bool
  result : Int
  /-- The changes of the set up to the evaluation that told the call to wait. It is not in the
      kernel's state. -/
  seen : Nat

/-- A set of semaphores with the calls on it. -/
structure State where
  set : SemSet
  undos : List Undo
  calls : Nat → Call
  /-- How often the set has been changed. It is not in the kernel's state. -/
  changes : Nat

/-- No call. -/
def Call.initial : Call := ⟨.idle, [], 0, false, 0, 0, false, false, false, 0, 0⟩

/-- A set that `sysvsem_get` has made. -/
def State.initial (count : Nat) : State :=
  ⟨⟨false, false, 0, 0, List.replicate count ⟨0, 0, 0, 0⟩⟩, [], fun _ => Call.initial, 0⟩

variable (s : State)

/-- A call is replaced. -/
def State.setCall (p : Nat) (call : Call) : State :=
  { s with calls := Function.update s.calls p call }

/-- The call returns. -/
def State.finish (p : Nat) (result : Int) : State :=
  s.setCall p { s.calls p with pc := .idle, result := result }

/-- The generation goes up and all that sleep on the set are woken. -/
def State.changed (set : SemSet) : State := { s with
    set := { set with generation := (set.generation + 1) % 2 ^ 32 }
    calls := fun p => { s.calls p with blocked := false }
    changes := s.changes + 1 }

/-- `destroy`. -/
def destroy : State :=
  let s := { s with undos := [] }.changed { s.set with removed := true }
  if s.set.sleepers = 0 then { s with set := { s.set with freed := true } } else s

/-- What the kernel answers in a section. -/
structure Answers where
  permitted : Bool
  memory : Bool
  /-- The deadline has passed. -/
  expired : Bool
  /-- A signal interrupts the call. -/
  signal : Bool

/-- `waited->waiting_zero` or `waited->waiting_less` changes. -/
def count (f : Nat → Nat) (op : Op) (sems : List Sem) : List Sem := sems.modify op.num fun sem =>
    if op.op = 0 then { sem with waitingZero := f sem.waitingZero }
    else { sem with waitingLess := f sem.waitingLess }

/-- The operation that a call waits for. -/
def Call.waited (call : Call) : Op := call.ops.getD call.blockedAt ⟨0, 0, false, false⟩

/-- The call is counted among the sleepers. -/
def enter (p index : Nat) : State :=
  let call := { s.calls p with
    pc := .entering, blockedAt := index, generation := s.set.generation, seen := s.changes }
  { s with set := { s.set with
      sems := count (· + 1) call.waited s.set.sems, sleepers := s.set.sleepers + 1 } }.setCall p
        call

/-- A turn of the loop of `sysvsem_op`, up to where it waits. -/
def evaluate (p : Nat) (a : Answers) : State :=
  let call := s.calls p
  match tryOperations s.set s.undos call.ops call.tgid a.memory with
  | .done sems changed undos =>
    let s := { s with undos := undos }
    let set := { s.set with sems := sems }
    (if changed then s.changed set else { s with set := set }).finish p 0
  | .failed errno undos => { s with undos := undos }.finish p errno
  | .blocked index =>
    if (call.ops.getD index ⟨0, 0, false, false⟩).nowait then s.finish p (-11)
    else if call.timed ∧ a.expired then s.finish p (-11)
    else enter s p index

/-- The first section of `sysvsem_op`. -/
def start (p : Nat) (a : Answers) : State :=
  if s.set.removed then s.finish p (-22)
  else if (s.calls p).ops.any fun op => s.set.sems.length ≤ op.num then s.finish p (-27)
  else if ¬a.permitted then s.finish p (-13)
  else evaluate s p a

/-- The section after the wait. -/
def resume (p : Nat) (a : Answers) : State :=
  let call := s.calls p
  let s := { s with set := { s.set with
    sleepers := s.set.sleepers - 1, sems := count (· - 1) call.waited s.set.sems } }
  if s.set.removed then (if s.set.sleepers = 0 then destroy s else s).finish p (-43)
  else if ¬call.prepared ∨ a.signal then s.finish p (-4)
  else evaluate s p a

/-- The call sleeps in `process_wait`. -/
def Call.asleep (call : Call) : Bool :=
  decide (call.pc = .waiting) && call.prepared && !call.ready && call.blocked

/-- The next step of a call. -/
def advance (p : Nat) (a : Answers) : State :=
  let call := s.calls p
  match call.pc with
  | .idle => s
  | .start => start s p a
  | .entering =>
    s.setCall p { call with pc := .recheck, prepared := !a.signal, blocked := !a.signal }
  | .recheck =>
    s.setCall p { call with
      pc := .waiting
      ready := !call.prepared || s.set.generation != call.generation || s.set.removed }
  | .waiting => if call.asleep then s else s.setCall p { call with pc := .resume, blocked := false }
  | .resume => resume s p a

/-- `sysvsem_op` up to its first section. -/
def sysvsemOp (p : Nat) (ops : List Op) (tgid : Int) (timed : Bool) : State :=
  if ops = [] then s.finish p (-22)
  else if semOpsMax < ops.length then s.finish p (-7)
  else s.setCall p { s.calls p with pc := .start, ops := ops, tgid := tgid, timed := timed }

/-! ## Other changes -/

/-- `clear_undo_slot`. -/
def clearUndoSlot (num : Nat) : List Undo :=
  undos.map fun undo => { undo with adjust := undo.adjust.set num 0 }

/-- `SETVAL`. -/
def setVal (num : Nat) (value tgid : Int) (permitted : Bool) : State × Int :=
  if s.set.removed then (s, -22)
  else if s.set.sems.length ≤ num then (s, -22)
  else if value < 0 ∨ semValueMax < value then (s, -34)
  else if ¬permitted then (s, -13)
  else
    ({ s with undos := clearUndoSlot s.undos num }.changed { s.set with
        sems := s.set.sems.modify num fun sem => { sem with value := value, pid := tgid } }, 0)

/-- `SETALL`, of values that have been copied in. -/
def setAll (values : List Nat) (tgid : Int) (permitted : Bool) : State × Int :=
  if s.set.removed ∨ s.set.sems.length ≠ values.length then (s, -22)
  else if ¬permitted then (s, -13)
  else if values.any fun value => semValueMax < value then (s, -34)
  else
    ({ s with undos := (List.range values.length).foldl clearUndoSlot s.undos }.changed { s.set with
        sems := List.zipWith
          (fun (sem : Sem) (value : Nat) => { sem with value := value, pid := tgid })
          s.set.sems values }, 0)

/-- `IPC_RMID`. -/
def rmid (owner : Bool) : State × Int :=
  if s.set.removed then (s, -22) else if ¬owner then (s, -1) else (destroy s, 0)

/-- A record of a group that exits is applied. -/
def exitUndo (undo : Undo) : State :=
  if s.set.removed then s
  else if (undo.adjust.take s.set.sems.length).any (· ≠ 0) then
    s.changed { s.set with sems := s.set.sems.mapIdx fun index sem =>
      let adjust := undo.adjust.getD index 0
      if adjust = 0 then sem
      else { sem with value := min (max (sem.value + adjust) 0) semValueMax, pid := undo.tgid } }
  else s

/-- `sysvsem_exit`. -/
def sysvsemExit (tgid : Int) : State :=
  { (s.undos.filter (·.tgid = tgid)).foldl exitUndo s with undos := s.undos.filter (·.tgid ≠ tgid) }

/-- What happens to the set. -/
inductive Event
  | semop (p : Nat) (ops : List Op) (tgid : Int) (timed : Bool)
  | advance (p : Nat) (answers : Answers)
  | setVal (num : Nat) (value tgid : Int) (permitted : Bool)
  | setAll (values : List Nat) (tgid : Int) (permitted : Bool)
  | rmid (owner : Bool)
  | exit (tgid : Int)
  /-- A sleeping call is made ready by its deadline or a signal. -/
  | stir (p : Nat)

/-- The set after an event. -/
def step : Event → State
  | .semop p ops tgid timed => if (s.calls p).pc = .idle then sysvsemOp s p ops tgid timed else s
  | .advance p answers => advance s p answers
  | .setVal num value tgid permitted => (setVal s num value tgid permitted).1
  | .setAll values tgid permitted => (setAll s values tgid permitted).1
  | .rmid owner => (rmid s owner).1
  | .exit tgid => sysvsemExit s tgid
  | .stir p => s.setCall p { s.calls p with blocked := false }

end Tunix.SysvSem
