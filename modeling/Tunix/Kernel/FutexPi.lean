import Mathlib.Logic.Function.Basic

/-!
# Futexes with an owner

`process_futex_lock_pi` and `process_futex_unlock_pi` of `kernel/core/process.c` on one word that
all threads can write. A load, a compare-exchange, a store and a section under the scheduler lock
are one step each; what a thread does between them on its own belongs to the step before. All calls
name the word in the same way (`shared`), so that a wake finds every thread that sleeps in
`pi_sleep`: `INT32_MAX` is more than there are.
-/

namespace Tunix.FutexPi

/-- `FUTEX_WAITERS`: some thread waits in the kernel. -/
def futexWaiters : UInt32 := 0x80000000
/-- `FUTEX_OWNER_DIED`. -/
def futexOwnerDied : UInt32 := 0x40000000
/-- `FUTEX_TID_MASK`: the bits with the owner. -/
def futexTidMask : UInt32 := 0x3FFFFFFF

/-- The owner that a value of the word names, 0 for none. -/
def owner (value : UInt32) : UInt32 := value &&& futexTidMask

/-- The arguments of `process_futex_lock_pi`. -/
structure Lock where
  trylock : Bool
  /-- There is a deadline. -/
  timed : Bool
  deriving DecidableEq

/-- Where a thread is. -/
inductive Pc
  /-- In user mode, with what the last call has returned. -/
  | user (status : Int)
  | lockLoad (call : Lock)
  /-- Before the compare-exchange that takes the lock. -/
  | lockTake (call : Lock) (value : UInt32)
  /-- Before the section that looks for the holder. -/
  | lockHolder (call : Lock) (value : UInt32)
  /-- Before the compare-exchange that sets `FUTEX_WAITERS`. -/
  | lockWaiters (call : Lock) (value : UInt32)
  /-- Before `pi_sleep` with the value that it expects. -/
  | lockSleep (call : Lock) (value : UInt32)
  | asleep (call : Lock)
  | unlockLoad
  | unlockStore (value : UInt32)
  /-- Before the section of `process_futex_wake`. -/
  | unlockWake
  deriving DecidableEq

/-- The word and the threads. `holds` is not kept by the code: a thread holds the lock from the
    compare-exchange that takes it to the store that gives it up. -/
structure State (T : Type*) where
  word : UInt32
  pc : T → Pc
  holds : T → Bool

/-- The pids of the threads as the word has them. -/
structure Tids (T : Type*) where
  tid : T → UInt32
  owner_tid : ∀ t, owner (tid t) = tid t
  ne_zero : ∀ t, tid t ≠ 0
  injective : Function.Injective tid

variable {T : Type*} [DecidableEq T]

/-- A thread goes on at another place. -/
def State.goto (s : State T) (t : T) (pc : Pc) : State T :=
  { s with pc := Function.update s.pc t pc }

/-- What a thread that is woken does next: the call starts again. -/
def Pc.woken : Pc → Pc
  | .asleep call => .lockLoad call
  | pc => pc

/-- The next step of a thread. The answer is whether the holder is alive, or whether the deadline
    has come. -/
def State.advance (ids : Tids T) (s : State T) (t : T) (answer : Bool) : State T :=
  match s.pc t with
  | .user _ => s
  | .lockLoad call =>
    if owner s.word = 0 then s.goto t (.lockTake call s.word)
    else if owner s.word = ids.tid t then s.goto t (.user (-35))
    else s.goto t (.lockHolder call s.word)
  | .lockTake call value =>
    if s.word = value then
      { s.goto t (.user 0) with
        word := ids.tid t ||| (value &&& (futexWaiters ||| futexOwnerDied))
        holds := Function.update s.holds t true }
    else s.goto t (.lockLoad call)
  | .lockHolder call value =>
    if answer = false then s.goto t (.user (-3))
    else if call.trylock then s.goto t (.user (-11))
    else if value &&& futexWaiters = 0 then s.goto t (.lockWaiters call value)
    else s.goto t (.lockSleep call value)
  | .lockWaiters call value =>
    if s.word = value then
      { s.goto t (.lockSleep call (value ||| futexWaiters)) with word := value ||| futexWaiters }
    else s.goto t (.lockLoad call)
  | .lockSleep call value =>
    if call.timed && answer then s.goto t (.user (-110))
    else if s.word ≠ value then s.goto t (.lockLoad call)
    else s.goto t (.asleep call)
  | .asleep _ => s
  | .unlockLoad =>
    if owner s.word ≠ ids.tid t then s.goto t (.user (-1)) else s.goto t (.unlockStore s.word)
  | .unlockStore value =>
    { s.goto t (if value &&& futexWaiters ≠ 0 then .unlockWake else .user 0) with
      word := 0
      holds := Function.update s.holds t false }
  | .unlockWake => { s with pc := Function.update (fun u => (s.pc u).woken) t (.user 0) }

/-- What the threads do, one at a time. -/
inductive Event (T : Type*)
  | lock (t : T) (call : Lock)
  | unlock (t : T)
  | advance (t : T) (answer : Bool)
  /-- A signal or the deadline ends the sleep: the call starts again, or the thread first does
      something else. -/
  | interrupt (t : T) (restart : Bool)

/-- The state after an event. -/
def State.step (ids : Tids T) (s : State T) : Event T → Option (State T)
  | .lock t call =>
    match s.pc t with
    | .user _ => some (s.goto t (.lockLoad call))
    | _ => none
  | .unlock t =>
    match s.pc t with
    | .user _ => some (s.goto t .unlockLoad)
    | _ => none
  | .advance t answer => some (s.advance ids t answer)
  | .interrupt t restart =>
    match s.pc t with
    | .asleep call => some (s.goto t (if restart then .lockLoad call else .user (-4)))
    | _ => none

end Tunix.FutexPi
