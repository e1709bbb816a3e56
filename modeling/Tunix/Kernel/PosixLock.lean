import Mathlib.Algebra.Group.Nat.Defs
import Mathlib.Init

/-!
# Record locks

`kernel/fs/posix_lock.c`: the byte ranges that the owners of a file have locked. A request changes
the list of locks of its owner under `posix_lock_mutex`; a request that has to wait sleeps without
the mutex and tries again. The two records that a request may need are allocated before, and using
one that is not there has no result.

The locks are those of one file. A sleeping call is known by its record in the list of waiters,
which stands on the stack of the call; there it carries the request.
-/

namespace Tunix.PosixLock

/-- `POSIX_LOCK_END`. -/
def lockEnd : Nat := 2 ^ 64 - 1

/-- `DEADLOCK_SEARCH_DEPTH`. -/
def deadlockSearchDepth : Nat := 10

/-- The types of a lock, and of a request. -/
inductive LockType
  | read
  | write
  | unlock
deriving DecidableEq

/-- `struct posix_lock_request`; the callers pass ranges with at least one byte. -/
structure Request where
  type : LockType
  start : Nat
  end_ : Nat
  owner : Nat
  pid : Int
  start_le : start ≤ end_
  end_le : end_ ≤ lockEnd

/-- `struct posix_lock`. -/
structure Lock where
  owner : Nat
  pid : Int
  type : LockType
  start : Nat
  end_ : Nat
deriving DecidableEq

/-- `x + 1U` and `x - 1U` in 64 bits. -/
def next (x : Nat) : Nat := (x + 1) % 2 ^ 64
/-- `x - 1` on 64 bits. -/
def previous (x : Nat) : Nat := (x + (2 ^ 64 - 1)) % 2 ^ 64

/-- `overlaps`. -/
def overlaps (start end_ : Nat) (lock : Lock) : Bool := start ≤ lock.end_ ∧ lock.start ≤ end_

/-- `touches`: the ranges overlap or follow one another. -/
def touches (start end_ : Nat) (lock : Lock) : Bool :=
  let before := lock.end_ ≠ lockEnd ∧ next lock.end_ < start
  let after := end_ ≠ lockEnd ∧ next end_ < lock.start
  ¬before ∧ ¬after

/-- `find_conflict`. -/
def findConflict (locks : List Lock) (request : Request) : Option Lock := locks.find? fun lock =>
    lock.owner ≠ request.owner ∧ overlaps request.start request.end_ lock ∧
      (lock.type = .write ∨ request.type = .write)

/-! ## Applying a request -/

/-- What the loop of `apply` leaves: the locks, the range that the new lock gets, and the spare
    records. -/
structure Applied where
  locks : List Lock
  start : Nat
  end_ : Nat
  spare : Nat

/-- The loop goes on with these locks kept. -/
def Applied.keep (a : Applied) (locks : List Lock) : Applied := { a with locks := locks ++ a.locks }

/-- The loop of `apply`. -/
def applyLoop (request : Request) : List Lock → Nat → Nat → Nat → Option Applied
  | [], start, end_, spare => some ⟨[], start, end_, spare⟩
  | lock :: rest, start, end_, spare =>
    if lock.owner ≠ request.owner then
      (applyLoop request rest start end_ spare).map (·.keep [lock])
    else if request.type ≠ .unlock ∧ lock.type = request.type ∧ touches start end_ lock then
      applyLoop request rest (if lock.start < start then lock.start else start)
        (if end_ < lock.end_ then lock.end_ else end_) spare
    else if ¬overlaps request.start request.end_ lock then
      (applyLoop request rest start end_ spare).map (·.keep [lock])
    else if lock.start < request.start ∧ request.end_ < lock.end_ then
      match spare with
      | 0 => none
      | spare + 1 => (applyLoop request rest start end_ spare).map
          (·.keep [{ lock with end_ := previous request.start },
            { lock with start := next request.end_ }])
    else if lock.start < request.start then
      (applyLoop request rest start end_ spare).map
        (·.keep [{ lock with end_ := previous request.start }])
    else if request.end_ < lock.end_ then
      (applyLoop request rest start end_ spare).map
        (·.keep [{ lock with start := next request.end_ }])
    else applyLoop request rest start end_ spare

/-- `apply`, with the two spare records. -/
def apply (request : Request) (locks : List Lock) : Option (List Lock) :=
  (applyLoop request locks request.start request.end_ 2).bind fun a =>
    if request.type = .unlock then some a.locks
    else match a.spare with
      | 0 => none
      | _ + 1 => some (⟨request.owner, request.pid, request.type, a.start, a.end_⟩ :: a.locks)

/-! ## Calls -/

/-- `struct lock_waiter` of a sleeping call. -/
structure Waiter where
  call : Nat
  request : Request
  blocker : Nat

/-- The locks of a file, those who wait, and the requests that have succeeded. -/
structure State where
  locks : List Lock
  waiters : List Waiter
  /-- The requests that succeeded, in order; not part of the kernel's state. -/
  granted : List Request

/-- A file that nobody has locked. -/
def State.initial : State := ⟨[], [], []⟩

/-- `would_deadlock`. -/
def wouldDeadlock (waiters : List Waiter) (owner : Nat) : Nat → Nat → Bool
  | 0, _ => false
  | depth + 1, blocker =>
    if blocker = owner then true
    else match waiters.find? fun w => w.request.owner = blocker with
      | none => false
      | some w => wouldDeadlock waiters owner depth w.blocker

/-- Why a lock is not set. -/
inductive Errno
  | ENOLCK
  | EAGAIN
  | EDEADLK
  | EINTR
deriving DecidableEq

/-- What a section under the mutex ends with. -/
inductive Outcome
  | granted
  | failed (error : Errno)
  | sleeps
  /-- The call does not exist, or has nothing to return. -/
  | nothing
deriving DecidableEq

/-- A turn of the loop of `posix_lock_set`, up to its end or to `process_wait`. `prepared` says that
    `process_prepare_wait_interruptible` returned 0. -/
def attempt (s : State) (call : Nat) (request : Request) (wait prepared : Bool) :
    Option (State × Outcome) :=
  match (if request.type = .unlock then none else findConflict s.locks request) with
  | none => (apply request s.locks).map fun locks =>
      ({ s with locks := locks, granted := s.granted ++ [request] }, .granted)
  | some blocker =>
    if ¬wait then some (s, .failed .EAGAIN)
    else if request.owner % 2 = 0 ∧
      wouldDeadlock s.waiters request.owner deadlockSearchDepth blocker.owner then
      some (s, .failed .EDEADLK)
    else if prepared then
      some ({ s with waiters := ⟨call, request, blocker.owner⟩ :: s.waiters }, .sleeps)
    else some (s, .failed .EINTR)

/-- `forget_waiter`. -/
def forgetWaiter (waiters : List Waiter) (call : Nat) : List Waiter :=
  waiters.eraseP fun w => w.call = call

/-- What happens to the locks of a file. -/
inductive Event
  /-- `posix_lock_set` begins; `kmalloc` says that it got both spare records. -/
  | set (call : Nat) (request : Request) (wait kmalloc prepared : Bool)
  /-- A sleeping call has the mutex again. -/
  | resume (call : Nat) (interrupted prepared : Bool)
  /-- `posix_lock_release_owner`, with the process that closes the file. -/
  | release (owner : Nat) (pid : Int)

/-- The request to unlock everything. -/
def unlockAll (owner : Nat) (pid : Int) : Request where
  type := .unlock
  start := 0
  end_ := lockEnd
  owner := owner
  pid := pid
  start_le := Nat.zero_le _
  end_le := Nat.le_refl _

/-- A section under the mutex. -/
def perform (s : State) : Event → Option (State × Outcome)
  | .set call request wait kmalloc prepared =>
    if s.waiters.any fun w => w.call = call then some (s, .nothing)
    else if ¬kmalloc then some (s, .failed .ENOLCK)
    else attempt s call request wait prepared
  | .resume call interrupted prepared =>
    match s.waiters.find? fun w => w.call = call with
    | none => some (s, .nothing)
    | some waiter =>
      let s := { s with waiters := forgetWaiter s.waiters call }
      if interrupted then some (s, .failed .EINTR)
      else attempt s call waiter.request true prepared
  | .release owner pid =>
    some ({ s with
      locks := s.locks.filter fun lock => lock.owner ≠ owner
      granted := s.granted ++ [unlockAll owner pid] }, .granted)

/-- The locks after an event. -/
def step (s : State) (event : Event) : Option State := (perform s event).map (·.1)

/-! ## What the locks mean -/

/-- The lock is one of the owner and covers the byte. -/
def Lock.holds (lock : Lock) (owner byte : Nat) : Bool :=
  lock.owner = owner ∧ lock.start ≤ byte ∧ byte ≤ lock.end_

/-- What an owner holds on a byte. -/
def held (locks : List Lock) (owner byte : Nat) : LockType :=
  match locks.find? (·.holds owner byte) with
  | none => .unlock
  | some lock => lock.type

/-- A request is about a byte of an owner. -/
def Request.covers (request : Request) (place : Nat × Nat) : Bool :=
  request.owner = place.1 ∧ request.start ≤ place.2 ∧ place.2 ≤ request.end_

end Tunix.PosixLock
