import Mathlib.Logic.Function.Basic

/-!
# Sleeping mutexes

`kernel/locking/mutex.c`: one mutex and the processes that use it. A section under the guard lock is
one step; so is every load of a flag, every part of going to sleep, and the wake after the guard is
released. A process that can not sleep spins. The record that a process waits with stands on its
stack, so it is kept with the process here; the queue holds the processes.
-/

namespace Tunix.Mutex

/-- `STEALS_BEFORE_HANDOFF`. -/
def stealsBeforeHandoff : Nat := 4

/-- Where a process is. -/
inductive Pc
  /-- In no operation on the mutex. -/
  | outside
  /-- In `mutex_lock`, before the section under the guard. `woken` says that the process has been
      woken and has not tried since. -/
  | entry (woken : Bool)
  /-- After it saw that the owner runs, before it looks at the time. -/
  | spin
  /-- Before the second section of the turn. -/
  | recheck
  /-- Before the load of `woken` at the head of the loop. -/
  | waitTest
  /-- Before `process_prepare_wait`. -/
  | preparing
  /-- Before the second load of `woken`. -/
  | prepared
  /-- In `process_wait`. -/
  | sleeping
  /-- Before the `process_finish_wait` at the end of the loop. -/
  | finishing
  /-- After the loop, before the load of `granted`. -/
  | leaving
  /-- In `mutex_unlock`, before the section under the guard. -/
  | unlocking
  /-- In `mutex_unlock`, before `process_wake_one` of the address of the waiter `next`. -/
  | waking (next channel : Nat)
deriving DecidableEq

/-- A process, with its `struct mutex_waiter`. -/
structure Task where
  pc : Pc
  /-- It is a process that may sleep. -/
  canSleep : Bool
  /-- The address of its `struct mutex_waiter`, which is the channel that it sleeps on. -/
  waiter : Nat
  lost : Nat
  woken : Bool
  granted : Bool
  /-- Its state is `PROCESS_BLOCKED`, with its waiter for the channel. -/
  blocked : Bool
  /-- How often it has locked the mutex and not unlocked it. This and the next field are not in the
      kernel's state. -/
  holds : Nat
  /-- How often the call was woken without being granted the mutex. -/
  ungranted : Nat

/-- A task outside of all calls. -/
def Task.initial : Task := ⟨.outside, false, 0, 0, false, false, false, 0, 0⟩

/-- `struct mutex`. -/
structure State where
  owner : Option Nat
  /-- A `uint32_t` of the source. Each level is a call on the stack of the owner, which has no room
      for 2^32. -/
  depth : Nat
  queue : List Nat
  tasks : Nat → Task

/-- The mutex as it is made. -/
def State.initial : State := ⟨none, 0, [], fun _ => Task.initial⟩

variable (s : State) (p : Nat)

/-- A task is replaced. -/
def State.setTask (task : Task) : State := { s with tasks := Function.update s.tasks p task }

/-- A task goes on at another place. -/
def State.goto (pc : Pc) : State := s.setTask p { s.tasks p with pc := pc }

/-- The mutex is free and is taken; the operation returns. -/
def take : State :=
  { s with owner := some p, depth := 1 }.setTask p { s.tasks p with pc := .outside, holds := 1 }

/-- `mutex_trylock`. -/
def mutexTrylock : State :=
  if s.owner = some p then
    { s with depth := s.depth + 1 }.setTask p { s.tasks p with holds := (s.tasks p).holds + 1 }
  else if s.owner = none then take s p else s

/-- `mutex_lock`, up to its loop. -/
def mutexLock (canSleep : Bool) (waiter : Nat) : State :=
  if s.owner = some p then
    { s with depth := s.depth + 1 }.setTask p { s.tasks p with holds := (s.tasks p).holds + 1 }
  else s.setTask p { s.tasks p with
    pc := .entry false, canSleep := canSleep, waiter := waiter, lost := 0, woken := false,
    granted := false, ungranted := 0 }

/-- The waiter is linked, at the front if it has lost before. -/
def enqueue : State :=
  { s with queue := if 0 < (s.tasks p).lost then p :: s.queue else s.queue ++ [p] }.setTask p
    { s.tasks p with pc := .waitTest, granted := false, woken := false }

/-- `mutex_unlock`, up to its section. -/
def mutexUnlock : State :=
  if s.owner ≠ some p then s
  else
    let s := { s with depth := s.depth - 1 }
    let task := { s.tasks p with holds := (s.tasks p).holds - 1 }
    s.setTask p { task with pc := if s.depth ≠ 0 then .outside else .unlocking }

/-- The section of `mutex_unlock`. -/
def release : State := match s.queue with
  | [] => { s with owner := none }.goto p .outside
  | next :: rest =>
    let waiter := s.tasks next
    let s := { s with queue := rest }
    let s :=
      if stealsBeforeHandoff ≤ waiter.lost then
        { s with owner := some next, depth := 1 }.setTask
          next { waiter with granted := true, woken := true }
      else { s with owner := none }.setTask
        next { waiter with woken := true, ungranted := waiter.ungranted + 1 }
    s.goto p (.waking next waiter.waiter)

/-- The next step of a process in an operation. `ownerRunning` and `late` are what `owner_running`
    and the comparison with `spin_until` give. -/
def advance (ownerRunning late : Bool) : State :=
  let task := s.tasks p
  match task.pc with
  | .outside => s
  | .entry _ =>
    if s.owner = none then take s p
    else if ¬task.canSleep then s.goto p (.entry false)
    else if (s.queue = [] ∨ 0 < task.lost) ∧ ownerRunning then s.goto p .spin
    else enqueue s p
  | .spin => s.goto p (if late then .recheck else .entry false)
  | .recheck => if s.owner = none then s.goto p (.entry false) else enqueue s p
  | .waitTest => s.goto p (if task.woken then .leaving else .preparing)
  | .preparing => s.setTask p { task with pc := .prepared, blocked := true }
  | .prepared =>
    if task.woken then s.setTask p { task with pc := .leaving, blocked := false }
      else s.goto p .sleeping
  | .sleeping => if task.blocked then s else s.goto p .finishing
  | .finishing => s.setTask p { task with pc := .waitTest, blocked := false }
  | .leaving =>
    if task.granted then s.setTask p { task with pc := .outside, holds := 1 }
    else s.setTask p { task with pc := .entry true, lost := task.lost + 1 }
  | .unlocking => release s p
  | .waking next channel =>
    -- The process may have left this call since, and sleep with another record.
    let s := if (s.tasks next).waiter = channel then
      s.setTask next { s.tasks next with blocked := false } else s
    s.goto p .outside

/-- What the tasks do, one at a time. -/
inductive Event
  | lock (p : Nat) (canSleep : Bool) (waiter : Nat)
  | trylock (p : Nat)
  | unlock (p : Nat)
  | advance (p : Nat) (ownerRunning late : Bool)
  /-- A sleeping process is made ready for another reason. -/
  | stir (p : Nat)

/-- A step of a process. An operation begins when the process is in no other one. -/
def step : Event → State
  | .lock p canSleep waiter =>
    if (s.tasks p).pc = .outside then mutexLock s p canSleep waiter else s
  | .trylock p => if (s.tasks p).pc = .outside then mutexTrylock s p else s
  | .unlock p => if (s.tasks p).pc = .outside then mutexUnlock s p else s
  | .advance p ownerRunning late => advance s p ownerRunning late
  | .stir p => s.setTask p { s.tasks p with blocked := false }

/-- The mutex after some events. -/
def run (events : List Event) : State := events.foldl step s

/-! ## What is asked of a run -/

/-- The process is in the loop in which `mutex_lock` waits. -/
def Task.waiting (task : Task) : Bool := match task.pc with
  | .waitTest | .preparing | .prepared | .sleeping | .finishing => true
  | _ => false

/-- A waiter that has been woken without the mutex and has not tried since. -/
def Task.toRetry (task : Task) : Bool := match task.pc with
  | .entry woken => woken
  | .waitTest | .preparing | .prepared | .sleeping | .finishing => task.woken && !task.granted
  | .leaving => !task.granted
  | _ => false

end Tunix.Mutex
