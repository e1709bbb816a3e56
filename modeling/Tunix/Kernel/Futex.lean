import Mathlib.Algebra.Group.Nat.Defs
import Mathlib.Logic.Function.Basic

/-!
# Futexes

The wait and the wake of `kernel/core/process.c`. A system call samples the wake counter when it
enters; a wait then reads the word, computes the key, and decides in a section under the scheduler
lock. A wake holds that lock from the increment of the counter to the end of its two walks, and
other processes sample, read and store meanwhile. A blocked process stands in the bucket of what it
waits for, a futex waiter under its address and, if the word is shared, under its key in a second
table.
-/

namespace Tunix.Futex

/-- `USER_ADDRESS_LIMIT`. -/
def userAddressLimit : Nat := 0x0000800000000000

/-- `wait_bucket_of`. -/
def waitBucketOf (value : Nat) : Nat := value * 0x9E3779B97F4A7C15 % 2 ^ 64 / 2 ^ 54 % 1024

/-- What `vmm_translate` says of a user address: `physical` and the bit `PAGE_SHARED`. The first
    frames are reserved, so that no user page has the physical address zero. -/
structure Mapping where
  physical : Nat
  shared : Bool
  pos : 0 < physical

/-- The mapping of each address space. -/
abbrev Translate := Nat → Nat → Option Mapping

/-- The arguments of `process_futex_wait`. -/
structure Wait where
  address : Nat
  expected : UInt32
  timeoutNs : Int
  bitset : UInt32
  shared : Bool

/-- The arguments of `process_futex_wake`. -/
structure Wake where
  address : Nat
  maximum : Int
  bitset : UInt32
  shared : Bool

/-- Where a process is. -/
inductive Pc
  /-- In user mode, or in another system call. -/
  | user
  /-- After the sample, before the read of the word. -/
  | entered (call : Wait)
  /-- After the read, before the key. -/
  | checked (call : Wait)
  /-- Before the section of the wait. -/
  | keyed (call : Wait) (key : Nat)
  /-- At the start of `process_futex_wake`. -/
  | wakeEntered (call : Wake)
  /-- Before the section of the wake. -/
  | wakeKeyed (call : Wake) (key : Nat)
  /-- In the section of the wake, after `wake_bump`. -/
  | walking (call : Wake) (key : Nat)

/-- What a process has to do with futexes. -/
structure Process where
  memory : Nat
  pc : Pc
  /-- The state is `PROCESS_BLOCKED`. -/
  blocked : Bool
  wakeSnapshot : Nat
  futexWaitActive : Bool
  futexWaitAddress : Nat
  futexWaitKey : Nat
  futexWaitBitset : UInt32
  /-- `wait_hash_value`, while `on_wait_list`. -/
  waitHashValue : Option Nat
  /-- `key_hash_value`, while `on_key_list`. -/
  keyHashValue : Option Nat
  /-- What the last call returned. -/
  ret : Int
  /-- The call that the process sleeps in. It is not in the kernel's state. -/
  waiting : Option Wait

/-- The processes, the words in memory and the two tables of waiters. -/
structure State where
  wakeSequence : Nat
  word : Nat → UInt32
  waitBuckets : Nat → List Nat
  keyBuckets : Nat → List Nat
  processes : Nat → Process
  /-- A process that keeps the scheduler lock between two steps. -/
  holder : Option Nat

/-- A process in user mode. -/
def Process.initial (memory : Nat) : Process :=
  ⟨memory, .user, false, 0, false, 0, 0, 0, none, none, 0, none⟩

/-- Nobody is in a call. -/
def State.initial (memory : Nat → Nat) (word : Nat → UInt32) : State :=
  ⟨0, word, fun _ => [], fun _ => [], fun p => Process.initial (memory p), none⟩

variable (translate : Translate) (s : State) (p : Nat)

/-- A process is replaced. -/
def State.set (process : Process) : State :=
  { s with processes := Function.update s.processes p process }

/-- The call of a process returns. -/
def State.returns (ret : Int) : State := s.set p { s.processes p with pc := .user, ret := ret }

/-- A process goes on at another place. -/
def State.goto (pc : Pc) : State := s.set p { s.processes p with pc := pc }

/-! ## The two tables -/

/-- `wait_link`. -/
def waitLink (value : Nat) : State :=
  if (s.processes p).waitHashValue.isSome then s
  else
    let bucket := waitBucketOf value
    { s with waitBuckets := Function.update s.waitBuckets bucket (p :: s.waitBuckets bucket) }.set p
      { s.processes p with waitHashValue := some value }

/-- `key_link`. -/
def keyLink (key : Nat) : State :=
  if (s.processes p).keyHashValue.isSome ∨ key = 0 then s
  else
    let bucket := waitBucketOf key
    { s with keyBuckets := Function.update s.keyBuckets bucket (p :: s.keyBuckets bucket) }.set p
      { s.processes p with keyHashValue := some key }

/-- A table without the process that stands in it under a value. -/
def unlink (buckets : Nat → List Nat) (p : Nat) : Option Nat → Nat → List Nat
  | none => buckets
  | some value =>
    Function.update buckets (waitBucketOf value) ((buckets (waitBucketOf value)).erase p)

/-- `waits_unlink`. -/
def waitsUnlink : State := { s with
    waitBuckets := unlink s.waitBuckets p (s.processes p).waitHashValue
    keyBuckets := unlink s.keyBuckets p (s.processes p).keyHashValue }.set p
    { s.processes p with waitHashValue := none, keyHashValue := none }

/-- `wake_to_ready` of a blocked process. -/
def wakeToReady : State :=
  let s := waitsUnlink s p
  s.set p { s.processes p with blocked := false, waiting := none }

/-- `wake_to_ready` of a futex waiter, with its futex fields cleared before. -/
def wakeWaiter (ret : Int) : State := wakeToReady (s.set p { s.processes p with
  futexWaitActive := false, futexWaitAddress := 0, futexWaitKey := 0, ret := ret }) p

/-! ## Waiting -/

/-- `futex_shared_key`. -/
def futexSharedKey (memory address : Nat) : Nat := match translate memory address with
  | none => 0
  | some mapping => if mapping.shared then mapping.physical else 0

/-- `shared ? futex_shared_key(address) : 0`. -/
def keyOf (memory address : Nat) (shared : Bool) : Nat :=
  if shared then futexSharedKey translate memory address else 0

/-- `process_futex_wait` up to its read of the word. -/
def check (call : Wait) : State :=
  if call.address % 4 ≠ 0 ∨ userAddressLimit ≤ call.address then s.returns p (-22)
  else
    match translate (s.processes p).memory call.address with
    | none => s.returns p (-14)
    | some mapping =>
      if s.word mapping.physical ≠ call.expected then s.returns p (-11)
      else if call.timeoutNs = 0 then s.returns p (-110)
      else s.goto p (.checked call)

/-- The process is blocked and linked. When it runs again it is in user mode, with zero as the
    result. -/
def sleep (call : Wait) (key : Nat) : State :=
  let s := s.set p { s.processes p with
    pc := .user, blocked := true, futexWaitActive := true, futexWaitAddress := call.address,
    futexWaitKey := key, futexWaitBitset := call.bitset, ret := 0, waiting := some call }
  keyLink (waitLink s p call.address) p key

/-- The section of the wait. -/
def waitSection (call : Wait) (key : Nat) (interrupted : Bool) : State :=
  if interrupted then s.returns p (-4)
  else if s.wakeSequence ≠ (s.processes p).wakeSnapshot then s.returns p 0
  else sleep s p call key

/-! ## Waking -/

/-- The test of `futex_wake_list`. -/
def named (item : Process) (memory : Nat) (call : Wake) (key : Nat) : Prop :=
  (key ≠ 0 ∧ item.futexWaitKey = key) ∨
    (item.memory = memory ∧ item.futexWaitAddress = call.address)

instance (item : Process) (memory : Nat) (call : Wake) (key : Nat) :
    Decidable (named item memory call key) := by
  unfold named
  infer_instance

/-- The process is one that the wake is for. -/
def wanted (item : Process) (memory : Nat) (call : Wake) (key : Nat) : Prop :=
  item.blocked = true ∧ item.futexWaitActive = true ∧ named item memory call key ∧
    item.futexWaitBitset &&& call.bitset ≠ 0

instance (item : Process) (memory : Nat) (call : Wake) (key : Nat) :
    Decidable (wanted item memory call key) := by
  unfold wanted
  infer_instance

/-- `futex_wake_list`, from the number of processes woken before. The successor of an item is read
    before the item is unlinked, so the walk is over the bucket as it was. -/
def futexWakeList (memory : Nat) (call : Wake) (key : Nat) : List Nat → State → Nat → State × Nat
  | [], s, woken => (s, woken)
  | item :: rest, s, woken =>
    if (woken : Int) < call.maximum then
      if wanted (s.processes item) memory call key then
        futexWakeList memory call key rest (wakeWaiter s item 0) (woken + 1)
      else futexWakeList memory call key rest s woken
    else (s, woken)

/-- The walks of `process_futex_wake`: over the bucket of the address, then over that of the key. -/
def walk (memory : Nat) (call : Wake) (key : Nat) : State × Nat :=
  let r := futexWakeList memory call key (s.waitBuckets (waitBucketOf call.address)) s 0
  if key ≠ 0 ∧ (r.2 : Int) < call.maximum then
    futexWakeList memory call key (r.1.keyBuckets (waitBucketOf key)) r.1 r.2
  else r

/-- The end of the section of the wake. -/
def finish (call : Wake) (key : Nat) : State :=
  let r := walk s (s.processes p).memory call key
  { r.1 with holder := none }.returns p r.2

/-! ## Steps -/

/-- The next step of a process in a call. `interrupted` is what `process_signal_interrupts_wait`
    gives. -/
def advance (interrupted : Bool) : State :=
  match (s.processes p).pc with
  | .user => s
  | .entered call => check translate s p call
  | .checked call =>
    s.goto p (.keyed call (keyOf translate (s.processes p).memory call.address call.shared))
  | .keyed call key => if s.holder.isSome then s else waitSection s p call key interrupted
  | .wakeEntered call =>
    if call.maximum ≤ 0 ∨ call.bitset = 0 then s.returns p 0
    else s.goto p
      (.wakeKeyed call (keyOf translate (s.processes p).memory call.address call.shared))
  | .wakeKeyed call key =>
    if s.holder.isSome then s
    else { s with wakeSequence := s.wakeSequence + 1, holder := some p }.goto p (.walking call key)
  | .walking call key => finish s p call key

/-- What the processes do, one at a time. -/
inductive Event
  | wait (p : Nat) (call : Wait)
  | wake (p : Nat) (call : Wake)
  | advance (p : Nat) (interrupted : Bool)
  /-- A store of a user program. -/
  | store (physical : Nat) (value : UInt32)
  /-- A process sleeps on a channel of the kernel. -/
  | sleepOn (p channel : Nat)
  /-- A blocked process is made ready by a deadline or a signal, which clear the futex fields. -/
  | leave (p : Nat) (ret : Int)
  /-- A blocked process is made ready by a wake of its channel, or by a child
      (`wake_waiting_parent`), and its futex fields stay as they are. -/
  | ready (p : Nat)
  /-- Any other wake of the kernel. -/
  | bump

/-- The process can begin something. -/
def Process.idle (process : Process) : Bool := match process.pc with
  | .user => !process.blocked
  | _ => false

/-- The state after an event. -/
def step : Event → State
  | .wait p call =>
    if (s.processes p).idle then
      s.set p { s.processes p with pc := .entered call, wakeSnapshot := s.wakeSequence }
    else s
  | .wake p call =>
    if (s.processes p).idle then
      s.set p { s.processes p with pc := .wakeEntered call, wakeSnapshot := s.wakeSequence }
    else s
  | .advance p interrupted => advance translate s p interrupted
  | .store physical value => { s with word := Function.update s.word physical value }
  | .sleepOn p channel =>
    if (s.processes p).idle ∧ s.holder = none then
      waitLink (s.set p { s.processes p with blocked := true }) p channel
    else s
  | .leave p ret => if (s.processes p).blocked ∧ s.holder = none then wakeWaiter s p ret else s
  | .ready p => if (s.processes p).blocked ∧ s.holder = none then wakeToReady s p else s
  | .bump => { s with wakeSequence := s.wakeSequence + 1 }

/-- The state after some events. -/
def run (events : List Event) : State := events.foldl (step translate) s

/-! ## What is asked of a run -/

/-- Who is made ready from elsewhere, with the futex fields as they are, has none set. -/
def State.Spares : Event → Prop
  | .ready p => (s.processes p).futexWaitActive = false
  | _ => True

/-- No step of a run makes a futex waiter ready and leaves its fields set. -/
def Undisturbed (translate : Translate) : State → List Event → Prop
  | _, [] => True
  | s, event :: events => s.Spares event ∧ Undisturbed translate (step translate s event) events

/-- The process has sampled the counter for a wait and has not reached the end of its section. -/
def Pc.inWait : Pc → Bool
  | .entered _ | .checked _ | .keyed _ _ => true
  | _ => false

/-- A wait and a wake are on the same word: at one address of one memory, or both on a shared word
    at addresses that have the same mapping. -/
def SameWord (waiter : Nat) (wait : Wait) (waker : Nat) (wake : Wake) : Prop :=
  (waiter = waker ∧ wait.address = wake.address) ∨
  (wait.shared = true ∧ wake.shared = true ∧ ∃ mapping : Mapping, mapping.shared = true ∧
    translate waiter wait.address = some mapping ∧ translate waker wake.address = some mapping)

end Tunix.Futex
