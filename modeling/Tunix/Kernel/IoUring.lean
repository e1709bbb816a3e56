import Tunix.ForStd.Bytes

/-!
# Submission and completion rings

`kernel/ipc/io_uring.c`: `io_uring_create`, `io_uring_submit`, `io_uring_run` with `step` and
`post`, `io_uring_completions_ready` and `io_uring_poll`. The ring memory is shared with user space,
so before each single access of the kernel user space may have stored anything in it; an access
outside the pages of the ring has no result, and neither has the use of an operation that was freed.

An operation is named by its address, which stands for the pointers `next`, `after` and `guard`; the
addresses of new operations grow, so that the address of a freed one does not come back. The fields
of `struct io_uring_context` that nothing changes after `io_uring_create` are a `Shape`.
-/

namespace Tunix.IoUring

open Bytes

/-- `RING_PAGE`: the size of a page of the ring. -/
def ringPage : UInt64 := 4096
/-- `RING_MAX_ENTRIES`: the largest submission ring. -/
def ringMaxEntries : UInt32 := 32768
/-- `RING_MAX_CQ_ENTRIES`: the largest completion ring. -/
def ringMaxCqEntries : UInt32 := 2 * ringMaxEntries

/-- `SETUP_CQSIZE`: the caller gives the size of the completion ring. -/
def setupCqsize : UInt32 := 0x8
/-- `SETUP_CLAMP`: sizes that are too large are cut down. -/
def setupClamp : UInt32 := 0x10
/-- `SETUP_ATTACH_WQ`. -/
def setupAttachWq : UInt32 := 0x20
/-- `SETUP_SUBMIT_ALL`, taken and not read. -/
def setupSubmitAll : UInt32 := 0x80
/-- `SETUP_COOP_TASKRUN`. -/
def setupCoopTaskrun : UInt32 := 0x100
/-- `SETUP_TASKRUN_FLAG`. -/
def setupTaskrunFlag : UInt32 := 0x200
/-- `SETUP_SINGLE_ISSUER`. -/
def setupSingleIssuer : UInt32 := 0x1000
/-- `SETUP_DEFER_TASKRUN`. -/
def setupDeferTaskrun : UInt32 := 0x2000
/-- `SETUP_NO_SQARRAY`: the entries are taken in order, without the index array. -/
def setupNoSqarray : UInt32 := 0x10000
/-- `SETUP_SUPPORTED`: every other bit is refused. -/
def setupSupported : UInt32 :=
  setupCqsize ||| setupClamp ||| setupAttachWq ||| setupSubmitAll ||| setupCoopTaskrun |||
    setupTaskrunFlag ||| setupSingleIssuer ||| setupDeferTaskrun ||| setupNoSqarray

/-- `FEAT_SINGLE_MMAP`. -/
def featSingleMmap : UInt32 := 0x1
/-- `FEAT_NODROP`. -/
def featNodrop : UInt32 := 0x2
/-- `FEAT_SUBMIT_STABLE`. -/
def featSubmitStable : UInt32 := 0x4
/-- `FEAT_RW_CUR_POS`. -/
def featRwCurPos : UInt32 := 0x8
/-- `FEAT_CUR_PERSONALITY`. -/
def featCurPersonality : UInt32 := 0x10
/-- `FEAT_POLL_32BITS`. -/
def featPoll32bits : UInt32 := 0x40
/-- `FEAT_EXT_ARG`. -/
def featExtArg : UInt32 := 0x100

/-- `SQ_CQ_OVERFLOW`: the flag of the ring that says that completions wait in the kernel. -/
def sqCqOverflow : UInt32 := 0x2

/-- `SQE_FIXED_FILE`. -/
def sqeFixedFile : UInt8 := 0x1
/-- `SQE_IO_DRAIN`: the entry waits until all before it are done. -/
def sqeIoDrain : UInt8 := 0x2
/-- `SQE_IO_LINK`: the next entry waits for this one. -/
def sqeIoLink : UInt8 := 0x4
/-- `SQE_IO_HARDLINK`: as `SQE_IO_LINK`, also if this entry fails. -/
def sqeIoHardlink : UInt8 := 0x8
/-- `SQE_ASYNC`. -/
def sqeAsync : UInt8 := 0x10
/-- `SQE_CQE_SKIP_SUCCESS`: a success is not posted. -/
def sqeCqeSkipSuccess : UInt8 := 0x40
/-- `SQE_SUPPORTED`: an entry with another flag is refused. -/
def sqeSupported : UInt8 :=
  sqeFixedFile ||| sqeIoDrain ||| sqeIoLink ||| sqeIoHardlink ||| sqeAsync ||| sqeCqeSkipSuccess

/-- `TIMEOUT_ABS`: the time is a point, not a span. -/
def timeoutAbs : UInt32 := 0x1
/-- `TIMEOUT_UPDATE`. -/
def timeoutUpdate : UInt32 := 0x2
/-- `TIMEOUT_BOOTTIME`. -/
def timeoutBoottime : UInt32 := 0x4
/-- `TIMEOUT_REALTIME`. -/
def timeoutRealtime : UInt32 := 0x8
/-- `TIMEOUT_ETIME_SUCCESS`, taken and not read. -/
def timeoutEtimeSuccess : UInt32 := 0x20

/-- `CANCEL_ALL`: every operation that matches, not the first only. -/
def cancelAll : UInt32 := 0x1
/-- `CANCEL_FD`: operations are found by their descriptor. -/
def cancelFd : UInt32 := 0x2
/-- `CANCEL_ANY`: every operation matches. -/
def cancelAny : UInt32 := 0x4
/-- `CANCEL_USERDATA`. -/
def cancelUserdata : UInt32 := 0x10
/-- `CANCEL_OP`: operations are found by their opcode. -/
def cancelOp : UInt32 := 0x20

/-- `POLL_UPDATE_EVENTS`. -/
def pollUpdateEvents : UInt32 := 0x2
/-- `POLL_UPDATE_USER_DATA`. -/
def pollUpdateUserData : UInt32 := 0x4

/-! Where the fields of the two rings are. -/

/-- `SQ_HEAD`, moved by the kernel. -/
def sqHead : UInt32 := 0
/-- `SQ_TAIL`, moved by the user. -/
def sqTail : UInt32 := 4
/-- `SQ_MASK`. -/
def sqMask : UInt32 := 8
/-- `SQ_ENTRIES`. -/
def sqEntries : UInt32 := 12
/-- `SQ_FLAGS`. -/
def sqFlags : UInt32 := 16
/-- `SQ_DROPPED`. -/
def sqDropped : UInt32 := 20
/-- `CQ_HEAD`, moved by the user. -/
def cqHead : UInt32 := 64
/-- `CQ_TAIL`, moved by the kernel. -/
def cqTail : UInt32 := 68
/-- `CQ_MASK`. -/
def cqMask : UInt32 := 72
/-- `CQ_ENTRIES`. -/
def cqEntries : UInt32 := 76
/-- `CQ_OVERFLOW`. -/
def cqOverflow : UInt32 := 80
/-- `CQ_FLAGS`. -/
def cqFlags : UInt32 := 84
/-- `CQ_CQES`: where the completions start. -/
def cqCqes : UInt32 := 128

/-- `ENOENT`. -/
def enoent : Int32 := 2
/-- `EBADF`. -/
def ebadf : Int32 := 9
/-- `ENOMEM`. -/
def enomem : Int32 := 12
/-- `EFAULT`. -/
def efault : Int32 := 14
/-- `EBUSY`. -/
def ebusy : Int32 := 16
/-- `EINVAL`. -/
def einval : Int32 := 22
/-- `ETIME`. -/
def etime : Int32 := 62
/-- `ECANCELED`. -/
def ecanceled : Int32 := 125

/-! The opcodes that the ring itself tells apart. -/

/-- `IORING_OP_NOP`. -/
def opNop : UInt8 := 0
/-- `IORING_OP_POLL_ADD`. -/
def opPollAdd : UInt8 := 6
/-- `IORING_OP_POLL_REMOVE`. -/
def opPollRemove : UInt8 := 7
/-- `IORING_OP_TIMEOUT`. -/
def opTimeout : UInt8 := 11
/-- `IORING_OP_TIMEOUT_REMOVE`. -/
def opTimeoutRemove : UInt8 := 12
/-- `IORING_OP_ASYNC_CANCEL`. -/
def opAsyncCancel : UInt8 := 14
/-- `IORING_OP_LINK_TIMEOUT`. -/
def opLinkTimeout : UInt8 := 15

/-- `io_uring_op_supported`, with the numbers of the opcodes it lists. -/
def ioUringOpSupported (opcode : UInt8) : Bool :=
  opcode.toNat ∈ [0, 1, 2, 3, 6, 7, 8, 9, 10, 11, 12, 13, 14, 15, 16, 17, 18, 19,
    21, 22, 23, 24, 25,
    26, 27, 29, 34, 35, 36, 37, 38, 39]

/-! ## Operations -/

/-- `OP_WAITING`, `OP_PENDING` and `OP_DONE`. -/
inductive OpState
  | waiting
  | pending
  | done
deriving DecidableEq, Inhabited

/-- `struct io_uring_op`. -/
structure Op where
  after : Option Nat
  guard : Option Nat
  userData : UInt64
  off : UInt64
  addr : UInt64
  addr3 : UInt64
  space : UInt64
  deadlineNs : UInt64
  target : UInt64
  fd : Int32
  len : UInt32
  opFlags : UInt32
  watch : UInt32
  attempts : UInt32
  opcode : UInt8
  sqeFlags : UInt8
  state : OpState
  cancelled : Bool
  settled : Bool
  result : Int32
deriving DecidableEq, Inhabited

/-- `finish`: the operation is done, with this result. -/
def Op.finish (op : Op) (result : Int32) : Op := { op with state := .done, result := result }

/-- `cancel`: an operation that is not done ends as cancelled. -/
def Op.cancel (op : Op) : Op :=
  if op.state = .done then op else { op with cancelled := true }.finish (-ecanceled)

/-- What `execute` answers: its result, and what it leaves in the two fields it sets. -/
structure Execution where
  result : Int64
  watch : UInt32
  attempts : UInt32

/-- `IO_URING_PENDING`: the answer of a handler that has to be asked again. -/
def ioUringPending : Int64 := Int64.minValue

/-- The pages of the ring, by index. -/
abbrev Pages := Nat → Buffer

/-- What happens outside the ring's code, at each time. -/
structure World where
  /-- What the ring memory is after the stores of user space up to then. -/
  user : Nat → Pages → Pages
  kmalloc : Nat → Bool
  /-- The seconds and nanoseconds that `copy_from_user` finds at an address. -/
  timespec : Nat → UInt64 → Option (Int64 × Int64)
  timeUptimeNs : Nat → UInt64
  timeRealtimeNs : Nat → UInt64
  execute : Nat → Op → Execution

/-- What `io_uring_create` fixes for good: the pages of the ring and the sizes in it. -/
structure Shape where
  pageCount : UInt64
  ringBytes : UInt64
  sqesOffset : UInt64
  sqesBytes : UInt64
  sqEntries : UInt32
  cqEntries : UInt32
  setupFlags : UInt32
  opLimit : UInt32
deriving DecidableEq

/-- The fields of `struct io_uring_context` that change, and the memory they point to. -/
structure Context where
  memory : Pages
  /-- The operations by address, those of `queue` being allocated. -/
  ops : Nat → Op
  /-- The list from `head` to `tail`. -/
  queue : List Nat
  nextAddress : Nat
  linkLast : Option Nat
  opCount : UInt32
  posted : UInt64
  /-- How often the world was asked or let in. -/
  clock : Nat

/-- A computation on the context that has no result after an access outside the ring. -/
abbrev RingM := StateT Context Option

/-- The moment of the next access, at which user space may have stored something else. -/
def tick : RingM Nat := do
  let c ← get
  modify fun c => { c with clock := c.clock + 1 }
  pure c.clock

/-! ## Ring memory -/

/-- A pointer into the page with an index. -/
structure Pointer where
  page : UInt64
  offset : UInt64

/-- `at`. -/
def atOffset (offset : UInt64) : Pointer := ⟨offset / ringPage, offset % ringPage⟩

/-- A field of the ring by its byte offset. -/
def field (offset : UInt32) : Pointer := atOffset offset.toUInt64

/-- `size` bytes from the pointer on lie in a page of the ring. -/
def Shape.Holds (shape : Shape) (p : Pointer) (size : Nat) : Prop :=
  p.page < shape.pageCount ∧ p.offset.toNat + size ≤ ringPage.toNat

instance (shape : Shape) (p : Pointer) (size : Nat) : Decidable (shape.Holds p size) :=
  inferInstanceAs (Decidable (_ ∧ _))

section

variable (shape : Shape) (world : World)

/-- One access of the kernel: user space was there before it, and outside the ring's pages there is
    no result. -/
def access (p : Pointer) (size : Nat) : RingM PUnit := do
  let time ← tick
  modify fun c => { c with memory := world.user time c.memory }
  if shape.Holds p size then pure ⟨⟩ else failure

/-- A byte of the ring, as user space left it at this moment. -/
def load8 (p : Pointer) : RingM UInt8 := do
  access shape world p 1
  let c ← get
  pure (c.memory p.page.toNat p.offset.toNat)

/-- A word of the ring, as user space left it at this moment. -/
def load32 (p : Pointer) : RingM UInt32 := do
  access shape world p 4
  let c ← get
  pure (loadLe32 (c.memory p.page.toNat) p.offset.toNat)

/-- Changes one page. -/
def Context.setPage (c : Context) (page : Nat) (f : Buffer → Buffer) : Context :=
  { c with memory := fun i => if i = page then f (c.memory i) else c.memory i }

/-- A word is stored into the ring. -/
def store32 (p : Pointer) (value : UInt32) : RingM PUnit := do
  access shape world p 4
  modify fun c => c.setPage p.page.toNat fun b => storeLe32 b p.offset.toNat value

/-- Eight bytes are stored into the ring. -/
def store64 (p : Pointer) (value : UInt64) : RingM PUnit := do
  access shape world p 8
  modify fun c => c.setPage p.page.toNat fun b => storeLe64 b p.offset.toNat value

/-- `memcpy` of bytes behind a pointer, which user space can change between two of them. -/
def copyBytes (p : Pointer) : Nat → RingM Buffer
  | 0 => pure zeros
  | n + 1 => do
    let copied ← copyBytes p n
    let byte ← load8 shape world ⟨p.page, p.offset + UInt64.ofNat n⟩
    pure (storeByte copied n byte)

end

/-! ## Creation -/

/-- `round_pow2`: a result that is shifted out of 64 bits stays 0 and the loop does not end. -/
def roundPow2From (value : UInt64) : Nat → UInt64 → Option UInt64
  | 0, _ => none
  | turns + 1, result =>
    if result < value then roundPow2From value turns (result <<< 1) else some result

/-- `round_pow2`: the next power of two, if it is one of 64 bits. -/
def roundPow2 (value : UInt64) : Option UInt64 := roundPow2From value 65 1

/-- `align_to`, for an alignment that is a power of two. -/
def alignTo (value alignment : UInt64) : UInt64 := (value + alignment - 1) &&& ~~~(alignment - 1)

/-- Where the index array starts: behind the completions, on a new cache line. -/
def arrayOffset (cqEntries : UInt32) : UInt64 :=
  alignTo (cqCqes.toUInt64 + cqEntries.toUInt64 * 16) 64

/-- The offsets of the submission ring that the caller is told. -/
structure SqOffsets where
  head : UInt32
  tail : UInt32
  ringMask : UInt32
  ringEntries : UInt32
  flags : UInt32
  dropped : UInt32
  array : UInt32
deriving DecidableEq

/-- The offsets of the completion ring that the caller is told. -/
structure CqOffsets where
  head : UInt32
  tail : UInt32
  ringMask : UInt32
  ringEntries : UInt32
  overflow : UInt32
  cqes : UInt32
  flags : UInt32
deriving DecidableEq

/-- `struct tunix_io_uring_params`, with the fields that `io_uring_create` uses. -/
structure Params where
  sqEntries : UInt32
  cqEntries : UInt32
  flags : UInt32
  features : UInt32
  resv : UInt32 × UInt32 × UInt32
  sqOff : SqOffsets
  cqOff : CqOffsets
deriving DecidableEq

/-- What the allocators answer to `io_uring_create`. -/
structure Allocation where
  context : Bool
  object : Bool
  pages : Bool
  truncate : Bool
  /-- `memfd_page_ensure` finds a page for an index, with some contents. -/
  page : Nat → Option Buffer

/-- The checks of `io_uring_create` on the number of entries. -/
def submissionEntries (entries flags : UInt32) : Except Int32 UInt32 :=
  if entries = 0 then .error (-einval)
  else if ringMaxEntries < entries then
    if flags &&& setupClamp = 0 then .error (-einval) else .ok ringMaxEntries
  else .ok entries

/-- The size that `SETUP_CQSIZE` asks for, before it is rounded. -/
def completionEntries (params : Params) : Except Int32 UInt64 :=
  if params.cqEntries = 0 then .error (-einval)
  else if ringMaxCqEntries < params.cqEntries then
    if params.flags &&& setupClamp = 0 then .error (-einval) else .ok ringMaxCqEntries.toUInt64
  else .ok params.cqEntries.toUInt64

/-- The sizes of the two rings, or the error for what was asked. It has no result where rounding
    does not end. -/
def ringEntries (entries : UInt32) (params : Params) : Option (Except Int32 (UInt64 × UInt64)) :=
  let flags := params.flags
  if flags &&& ~~~setupSupported ≠ 0 then some (.error (-einval))
  else if flags &&& setupDeferTaskrun ≠ 0 ∧
    flags &&& setupSingleIssuer = 0 then some (.error (-einval))
  else if params.resv ≠ (0, 0, 0) then some (.error (-einval))
  else match submissionEntries entries flags with
    | .error e => some (.error e)
    | .ok entries => (roundPow2 entries.toUInt64).bind fun sqEntries =>
      if flags &&& setupCqsize = 0 then some (.ok (sqEntries, sqEntries * 2))
      else match completionEntries params with
        | .error e => some (.error e)
        | .ok cqEntries => (roundPow2 cqEntries).map fun cqEntries =>
          if cqEntries < sqEntries then .error (-einval) else .ok (sqEntries, cqEntries)

/-- Where the parts of the ring memory are. -/
def layout (sqEntries cqEntries : UInt64) (flags : UInt32) : Shape :=
  let array := arrayOffset cqEntries.toUInt32
  let ringBytes := if flags &&& setupNoSqarray ≠ 0 then array else array + sqEntries * 4
  let sqesOffset := alignTo ringBytes ringPage
  let sqesBytes := sqEntries * 64
  let total := sqesOffset + alignTo sqesBytes ringPage
  { pageCount := total / ringPage
    ringBytes := ringBytes
    sqesOffset := sqesOffset
    sqesBytes := sqesBytes
    sqEntries := sqEntries.toUInt32
    cqEntries := cqEntries.toUInt32
    setupFlags := flags
    opLimit := cqEntries.toUInt32 * 16 }

/-- What `io_uring_create` writes back. -/
def Shape.params (shape : Shape) (params : Params) : Params := { params with
  sqEntries := shape.sqEntries
  cqEntries := shape.cqEntries
  features := featSingleMmap ||| featNodrop ||| featSubmitStable ||| featRwCurPos |||
    featCurPersonality ||| featPoll32bits ||| featExtArg
  sqOff := {
    head := sqHead
    tail := sqTail
    ringMask := sqMask
    ringEntries := IoUring.sqEntries
    flags := sqFlags
    dropped := sqDropped
    array := if shape.setupFlags &&& setupNoSqarray ≠ 0 then 0
      else (arrayOffset shape.cqEntries).toUInt32 }
  cqOff := {
    head := cqHead
    tail := cqTail
    ringMask := cqMask
    ringEntries := IoUring.cqEntries
    overflow := cqOverflow
    cqes := cqCqes
    flags := cqFlags } }

/-- A new ring whose pages are those the object gave. -/
def newContext (pages : Nat → Option Buffer) : Context where
  memory := fun i => (pages i).getD zeros
  ops := fun _ => default
  queue := []
  nextAddress := 0
  linkLast := none
  opCount := 0
  posted := 0
  clock := 0

/-- The fields that `io_uring_create` fills in. -/
def fillFields (shape : Shape) (world : World) : RingM PUnit := do
  store32 shape world (field sqMask) (shape.sqEntries - 1)
  store32 shape world (field sqEntries) shape.sqEntries
  store32 shape world (field cqMask) (shape.cqEntries - 1)
  store32 shape world (field cqEntries) shape.cqEntries

/-- `io_uring_create`. -/
def ioUringCreate (world : World) (entries : UInt32) (params : Params) (memory : Allocation) :
    Option (Except Int32 (Shape × Params × Context)) :=
  (ringEntries entries params).bind fun
    | .error e => some (.error e)
    | .ok (sqEntries, cqEntries) =>
      let shape := layout sqEntries cqEntries params.flags
      if ¬memory.context ∨ ¬memory.object ∨ ¬memory.pages ∨ ¬memory.truncate ∨
          ¬(List.range shape.pageCount.toNat).all fun i => (memory.page i).isSome then
        some (.error (-enomem))
      else (fillFields shape world (newContext memory.page)).map fun filled =>
        .ok (shape, shape.params params, filled.2)

/-! ## Submission -/

/-- The operation behind an address, which has no result once it is freed. -/
def deref (address : Nat) : RingM Op := do
  let c ← get
  if address ∈ c.queue then pure (c.ops address) else failure

/-- The operation at an address becomes another. -/
def Context.setOp (c : Context) (address : Nat) (op : Op) : Context :=
  { c with ops := fun i => if i = address then op else c.ops i }

/-- A sum that stops at the largest value. -/
def saturatingAdd (a b : UInt64) : UInt64 :=
  if 0xFFFFFFFFFFFFFFFF - a < b then 0xFFFFFFFFFFFFFFFF else a + b

/-- The nanoseconds of a time given in seconds and nanoseconds. -/
def spanNs (sec nsec : Int64) : UInt64 :=
  let span := if 0xFFFFFFFFFFFFFFFF / 1000000000 < sec.toUInt64 then 0xFFFFFFFFFFFFFFFF
    else sec.toUInt64 * 1000000000
  saturatingAdd span nsec.toUInt64

/-- `read_deadline`: the time of a timeout, copied from the user. -/
def readDeadline (world : World) (userTime : UInt64) (flags : UInt32) :
    RingM (Except Int32 UInt64) := do
  let time ← tick
  match if userTime = 0 then none else world.timespec time userTime with
  | none => pure (.error (-efault))
  | some (sec, nsec) =>
    if sec < 0 ∨ nsec < 0 then pure (.error (-einval))
    else do
      let span := spanNs sec nsec
      let time ← tick
      let now := world.timeUptimeNs time
      if flags &&& timeoutAbs = 0 then pure (.ok (saturatingAdd now span))
      else if flags &&& timeoutRealtime ≠ 0 then do
        let time ← tick
        let real := world.timeRealtimeNs time
        pure (.ok (if span ≤ real then now else saturatingAdd now (span - real)))
      else pure (.ok span)

/-- The entry of the submission queue that was copied, as an operation. -/
def Op.ofSqe (sqe : Buffer) (space : UInt64) : Op := { (default : Op) with
  opcode := sqe 0
  sqeFlags := sqe 1
  fd := (loadLe32 sqe 4).toInt32
  off := loadLe64 sqe 8
  addr := loadLe64 sqe 16
  len := loadLe32 sqe 24
  opFlags := loadLe32 sqe 28
  userData := loadLe64 sqe 32
  addr3 := loadLe64 sqe 48
  space := space
  state := .waiting }

/-- The part of `prepare` that links the operation to the one before it. -/
def Op.link (op : Op) (linkLast : Option Nat) : Op := match linkLast with
  | none => op
  | some last =>
    if op.opcode = opLinkTimeout then { op with guard := some last }
      else { op with after := some last }

/-- The operation that the next one is linked to. -/
def Op.nextLink (op : Op) (address : Nat) (linkLast : Option Nat) : Option Nat :=
  if op.opcode = opLinkTimeout then linkLast
  else if op.sqeFlags &&& (sqeIoLink ||| sqeIoHardlink) ≠ 0 then some address else none

/-- An entry that `prepare` refuses whatever its opcode means. -/
def Op.refused (op : Op) (sqe : Buffer) : Option Int32 :=
  if op.sqeFlags &&& ~~~sqeSupported ≠ 0 then some (-einval)
  else if op.sqeFlags &&& sqeFixedFile ≠ 0 then some (-ebadf)
  else if ¬ioUringOpSupported op.opcode ∨ loadLe16 sqe 40 ≠ 0 ∨
    loadLe16 sqe 42 ≠ 0 then some (-einval)
  else if op.opcode = opLinkTimeout ∧ op.guard = none then some (-einval)
  else none

/-- A timeout that `prepare` refuses for its length or its flags. -/
def Op.badTimeout (op : Op) : Bool :=
  let allowed := timeoutAbs ||| timeoutBoottime ||| timeoutRealtime ||| timeoutEtimeSuccess
  op.len ≠ 1 ∨ op.opFlags &&& ~~~allowed ≠ 0 ∨
    (op.opFlags &&& timeoutBoottime ≠ 0 ∧ op.opFlags &&& timeoutRealtime ≠ 0)

/-- The number of completions at which a timeout ends. -/
def Op.timeoutTarget (op : Op) (posted : UInt64) : UInt64 :=
  if op.opcode = opTimeout ∧ op.off ≠ 0 then posted + op.off else op.target

/-- The timeouts of `prepare`; only the two of the first case have a deadline of their own. -/
def prepareTimeout (world : World) (op : Op) : RingM Op := do
  let c ← get
  if op.opcode = opTimeout ∨ op.opcode = opLinkTimeout then
    if op.badTimeout then pure (op.finish (-einval))
    else do
      match ← readDeadline world op.addr op.opFlags with
      | .error status => pure (op.finish status)
      | .ok deadline =>
        pure { op with deadlineNs := deadline, target := op.timeoutTarget c.posted }
  else if op.opcode = opTimeoutRemove then
    if op.opFlags &&&
      ~~~(timeoutUpdate ||| timeoutAbs ||| timeoutBoottime ||| timeoutRealtime) ≠ 0 then
      pure (op.finish (-einval))
    else if op.opFlags &&& timeoutUpdate ≠ 0 then do
      match ← readDeadline world op.off op.opFlags with
      | .error status => pure (op.finish status)
      | .ok deadline => pure { op with deadlineNs := deadline }
    else pure op
  else if op.opcode = opPollAdd ∧ op.len &&& (pollUpdateEvents ||| pollUpdateUserData) ≠ 0 then
    pure (op.finish (-einval))
  else pure op

/-- `prepare`, for the operation at a new address. -/
def prepare (world : World) (sqe : Buffer) (address : Nat) (space : UInt64) : RingM Op := do
  let c ← get
  let op := (Op.ofSqe sqe space).link c.linkLast
  modify fun c => { c with linkLast := op.nextLink address c.linkLast }
  match op.refused sqe with
  | some status => pure (op.finish status)
  | none => prepareTimeout world op

/-- `append`. -/
def append (address : Nat) (op : Op) : RingM PUnit := modify fun c => { c.setOp address op with
    queue := c.queue ++ [address]
    nextAddress := address + 1
    opCount := c.opCount + 1 }

section

variable (shape : Shape) (world : World)

/-- Where the next entry is, as user space says or as the ring has no array. -/
def submissionIndex (head : UInt32) : RingM UInt32 :=
  let mask := shape.sqEntries - 1
  if shape.setupFlags &&& setupNoSqarray ≠ 0 then pure (head &&& mask)
  else load32 shape world (atOffset (arrayOffset shape.cqEntries + (head &&& mask).toUInt64 * 4))

/-- The loop of `io_uring_submit`, with the steps still to make, the head and the number submitted.
    The result says whether it was blocked. -/
def submitLoop (space : UInt64) : Nat → UInt32 → Int64 → RingM (UInt32 × Int64 × Bool)
  | 0, head, submitted => pure (head, submitted, false)
  | steps + 1, head, submitted => do
    let c ← get
    if shape.opLimit ≤ c.opCount then pure (head, submitted, true)
    else do
      let index ← submissionIndex shape world head
      if shape.sqEntries ≤ index then do
        let dropped ← load32 shape world (field sqDropped)
        store32 shape world (field sqDropped) (dropped + 1)
        submitLoop space steps (head + 1) submitted
      else do
        let sqe ← copyBytes shape world (atOffset (shape.sqesOffset + index.toUInt64 * 64)) 64
        let time ← tick
        if world.kmalloc time then do
          let c ← get
          let op ← prepare world sqe c.nextAddress space
          append c.nextAddress op
          submitLoop space steps (head + 1) (submitted + 1)
        else pure (head, submitted, true)

/-- The next entry starts a chain of its own. -/
def clearLink : RingM PUnit := modify fun c => { c with linkLast := none }

/-- `io_uring_submit`. -/
def ioUringSubmit (toSubmit : UInt32) (space : UInt64) : RingM Int64 := do
  let head ← load32 shape world (field sqHead)
  let tail ← load32 shape world (field sqTail)
  let available := if shape.sqEntries < tail - head then shape.sqEntries else tail - head
  let wanted := if toSubmit < available then toSubmit else available
  clearLink
  let (head, submitted, blocked) ← submitLoop shape world space wanted.toNat head 0
  clearLink
  store32 shape world (field sqHead) head
  pure (if submitted = 0 ∧ blocked then -ebusy.toInt64 else submitted)

end

/-! ## Running -/

variable (c : Context)

/-- `older_unfinished`. -/
def Context.olderUnfinished (address : Nat) : Bool :=
  (c.queue.takeWhile (· ≠ address)).any fun i => (c.ops i).state ≠ .done

/-- The first half of a turn of `settle_links`: the operation no longer waits. -/
def Op.settleAfter (op : Op) (done : Nat) (cancelled : Bool) : Op :=
  if op.after = some done then
    { op with after := none, cancelled := op.cancelled || cancelled } else op

/-- The second half: a timeout whose operation is done ends. -/
def Op.settleGuard (op : Op) (done : Nat) : Op :=
  if op.guard = some done then
    if op.state = .done then { op with guard := none }
      else { op with guard := none }.finish (-ecanceled)
  else op

/-- One turn of the loop of `settle_links`. -/
def Context.settleItem (done : Nat) (failed : Bool) (item : Nat) : Context :=
  c.setOp item (((c.ops item).settleAfter done (failed || (c.ops done).cancelled)).settleGuard done)

/-- `settle_links`. -/
def Context.settleLinks (done : Nat) : Context :=
  let op := c.ops done
  let failed := op.result < 0 && op.sqeFlags &&& sqeIoHardlink == 0
  if op.opcode = opLinkTimeout then c
  else ((c.queue.dropWhile (· ≠ done)).drop 1).foldl (fun c item => c.settleItem done failed item) c

/-- The operation at an address is cancelled. -/
def Context.cancel (c : Context) (address : Nat) : Context := c.setOp address (c.ops address).cancel

/-- `cancel_matches`. -/
def Context.cancelMatches (request item : Nat) : Bool :=
  let r := c.ops request
  let op := c.ops item
  if item = request ∨ op.state = .done then false
  else if r.opFlags &&& cancelAny ≠ 0 then true
  else if r.opFlags &&& (cancelFd ||| cancelOp) ≠ 0 then
    if r.opFlags &&& cancelFd ≠ 0 ∧ op.fd ≠ r.fd then false
    else if r.opFlags &&& cancelOp ≠ 0 ∧ op.opcode.toUInt32 ≠ r.len then false
    else if r.opFlags &&& cancelUserdata ≠ 0 ∧ op.userData ≠ r.addr then false
    else true
  else op.userData = r.addr

/-- The loop of `run_cancel` from an operation on, with the number cancelled before. -/
def Context.cancelFrom (request : Nat) : List Nat → Int32 → Context → Int32 × Context
  | [], count, c => (count, c)
  | item :: rest, count, c =>
    if ¬c.cancelMatches request item then cancelFrom request rest count c
    else if (c.ops request).opFlags &&& (cancelAll ||| cancelAny) = 0 then
      (count + 1, c.cancel item)
    else cancelFrom request rest (count + 1) (c.cancel item)

/-- `run_cancel`. -/
def Context.runCancel (request : Nat) : Int32 × Context :=
  let (count, after) := Context.cancelFrom request c.queue 0 c
  if count = 0 then (-enoent, after)
  else (if (c.ops request).opFlags &&& (cancelAll ||| cancelAny) ≠ 0 then count else 0, after)

/-- The operation of an opcode that a request names by its user data. -/
def Context.findTarget (request : Nat) (opcode : UInt8) : Option Nat :=
  c.queue.find? fun item => item ≠ request ∧ (c.ops item).state ≠ .done ∧
    (c.ops item).opcode = opcode ∧ (c.ops item).userData = (c.ops request).addr

/-- `run_timeout_remove`. -/
def Context.runTimeoutRemove (request : Nat) : Int32 × Context :=
  match c.findTarget request opTimeout with
  | none => (-enoent, c)
  | some item =>
    if (c.ops request).opFlags &&& timeoutUpdate ≠ 0 then
      (0, c.setOp item { c.ops item with deadlineNs := (c.ops request).deadlineNs })
    else (0, c.cancel item)

/-- `run_poll_remove`. -/
def Context.runPollRemove (request : Nat) :
    Int32 × Context :=
  match c.findTarget request opPollAdd with
  | none => (-enoent, c)
  | some item => (0, c.cancel item)

/-- The operation at an address is done. -/
def Context.finish (c : Context) (address : Nat) (result : Int32) : Context :=
  c.setOp address ((c.ops address).finish result)

/-- `finish(op, f(context, op))` for a request that changes other operations. -/
def finishRequest (address : Nat) (f : Context → Nat → Int32 × Context) : RingM PUnit :=
  modify fun c => (f c address).2.finish address (f c address).1

/-- The time is read at most once in a round; 0 says that it was not read. -/
def readNow (world : World) (now : UInt64) : RingM UInt64 := do
  if now ≠ 0 then pure now
  else do
    let time ← tick
    pure (world.timeUptimeNs time)

/-- The operation at an address waits to be tried again. -/
def setPending (address : Nat) : RingM PUnit :=
  modify fun c => c.setOp address { c.ops address with state := .pending }

section

variable (shape : Shape) (world : World)

/-- `IORING_OP_TIMEOUT` in `step`. -/
def stepTimeout (address : Nat) (op : Op) (now : UInt64) : RingM (Bool × UInt64) := do
  let c ← get
  if op.target ≠ 0 ∧ op.target ≤ c.posted then do
    modify fun c => c.finish address 0
    pure (true, now)
  else do
    let now ← readNow world now
    if op.deadlineNs ≤ now then do
      modify fun c => c.finish address (-etime)
      pure (true, now)
    else do
      setPending address
      pure (false, now)

/-- `IORING_OP_LINK_TIMEOUT` in `step`, where the guarded operation is used through its pointer. -/
def stepLinkTimeout (address : Nat) (op : Op) (now : UInt64) : RingM (Bool × UInt64) := do
  let waits ← match op.guard with
    | none => pure false
    | some guarded => do
      let target ← deref guarded
      pure target.after.isSome
  if waits then pure (false, now)
  else do
    let now ← readNow world now
    if op.deadlineNs ≤ now then do
      match op.guard with
      | none => pure ⟨⟩
      | some guarded => do
        let _ ← deref guarded
        modify fun c => c.cancel guarded
      modify fun c => c.finish address (-etime)
      pure (true, now)
    else do
      setPending address
      pure (false, now)

/-- The end of `step`, for the operations that `execute` carries out. -/
def stepExecute (address : Nat) (op : Op) (space : UInt64) : RingM Bool := do
  if op.space ≠ space then pure false
  else do
    let time ← tick
    let answer := world.execute time op
    modify fun c => c.setOp address { op with watch := answer.watch, attempts := answer.attempts }
    if answer.result = ioUringPending then do
      setPending address
      pure false
    else do
      let result :=
        if Int32.maxValue.toInt64 < answer.result then Int32.maxValue.toInt64 else answer.result
      modify fun c => c.finish address result.toInt32
      pure true

/-- `step`, with the time of the round; the result says whether the operation got on. -/
def step (address : Nat) (space now : UInt64) : RingM (Bool × UInt64) := do
  let op ← deref address
  let c ← get
  if op.state = .done ∨ op.after.isSome then pure (false, now)
  else if op.cancelled then do
    modify fun c => c.finish address (-ecanceled)
    pure (true, now)
  else if op.sqeFlags &&& sqeIoDrain ≠ 0 ∧ c.olderUnfinished address then pure (false, now)
  else if op.opcode = opNop then do
    modify fun c => c.finish address 0
    pure (true, now)
  else if op.opcode = opTimeout then stepTimeout world address op now
  else if op.opcode = opLinkTimeout then stepLinkTimeout world address op now
  else if op.opcode = opTimeoutRemove then do
    finishRequest address Context.runTimeoutRemove
    pure (true, now)
  else if op.opcode = opAsyncCancel then do
    finishRequest address Context.runCancel
    pure (true, now)
  else if op.opcode = opPollRemove then do
    finishRequest address Context.runPollRemove
    pure (true, now)
  else do
    let progressed ← stepExecute world address op space
    pure (progressed, now)

/-- The first loop of a round: a step of each operation. -/
def stepAll (space : UInt64) : List Nat → Bool → UInt64 → RingM Bool
  | [], progressed, _ => pure progressed
  | address :: rest, progressed, now => do
    let (moved, now) ← step world address space now
    stepAll space rest (progressed || moved) now

/-- The second loop of a round: what is done is settled. -/
def settleAll : List Nat → Bool → RingM Bool
  | [], progressed => pure progressed
  | address :: rest, progressed => do
    let op ← deref address
    if op.state ≠ .done ∨ op.settled then settleAll rest progressed
    else do
      modify fun c => (c.setOp address { op with settled := true }).settleLinks address
      settleAll rest true

/-- A posted operation leaves the list. -/
def Context.retire (c : Context) (address : Nat) : Context := { c with
  queue := c.queue.erase address
  posted := if (c.ops address).opcode = opTimeout then c.posted else c.posted + 1
  opCount := c.opCount - 1 }

/-- An entry of the completion queue is written. -/
def storeCqe (tail : UInt32) (op : Op) : RingM PUnit := do
  let mask := shape.cqEntries - 1
  let p := atOffset (cqCqes.toUInt64 + (tail &&& mask).toUInt64 * 16)
  store64 shape world p op.userData
  store32 shape world ⟨p.page, p.offset + 8⟩ op.result.toUInt32
  store32 shape world ⟨p.page, p.offset + 12⟩ 0

/-- The loop of `post`, over what is left of the list; the result is the tail and whether the
    completion queue overflowed. -/
def postLoop (head : UInt32) : List Nat → UInt32 → RingM (UInt32 × Bool)
  | [], tail => pure (tail, false)
  | address :: rest, tail => do
    let op ← deref address
    if op.state ≠ .done ∨ ¬op.settled then postLoop head rest tail
    else if op.sqeFlags &&& sqeCqeSkipSuccess ≠ 0 ∧ 0 ≤ op.result then do
      modify fun c => c.retire address
      postLoop head rest tail
    else if shape.cqEntries ≤ tail - head then pure (tail, true)
    else do
      storeCqe shape world tail op
      modify fun c => c.retire address
      postLoop head rest (tail + 1)

/-- `post`. -/
def post : RingM PUnit := do
  let head ← load32 shape world (field cqHead)
  let tail ← load32 shape world (field cqTail)
  let c ← get
  let (tail, overflow) ← postLoop shape world head c.queue tail
  store32 shape world (field cqTail) tail
  let flags ← load32 shape world (field sqFlags)
  store32 shape world (field sqFlags)
    (if overflow then flags ||| sqCqOverflow else flags &&& ~~~sqCqOverflow)

/-- The rounds of `io_uring_run`. -/
def runRounds (space : UInt64) : Nat → RingM PUnit
  | 0 => pure ⟨⟩
  | rounds + 1 => do
    let c ← get
    let moved ← stepAll world space c.queue false 0
    let c ← get
    let progressed ← settleAll c.queue moved
    let before ← get
    post shape world
    let c ← get
    if ¬progressed ∧ c.posted = before.posted then pure ⟨⟩ else runRounds space rounds

/-- `io_uring_run`. -/
def ioUringRun (space : UInt64) : RingM PUnit := runRounds shape world space 8

/-! ## Polling -/

/-- `io_uring_completions_ready`. -/
def ioUringCompletionsReady : RingM UInt32 := do
  let tail ← load32 shape world (field cqTail)
  let head ← load32 shape world (field cqHead)
  pure (tail - head)

/-- `io_uring_poll`. -/
def ioUringPoll (requested : UInt32) : RingM UInt32 := do
  let flags ← load32 shape world (field sqFlags)
  let ready ← ioUringCompletionsReady shape world
  let input : UInt32 := if ready ≠ 0 ∨ flags &&& sqCqOverflow ≠ 0 then 0x001 else 0
  let tail ← load32 shape world (field sqTail)
  let head ← load32 shape world (field sqHead)
  let output : UInt32 := if tail - head < shape.sqEntries then 0x004 else 0
  pure ((input ||| output) &&& requested)

/-! ## Calls -/

/-- What the kernel does with a ring. -/
inductive Call
  | submit (toSubmit : UInt32) (space : UInt64)
  | run (space : UInt64)
  | post
  | completionsReady
  | poll (requested : UInt32)
deriving DecidableEq

/-- What a system call on the ring runs. -/
def Call.body : Call → RingM PUnit
  | submit toSubmit space => do let _ ← ioUringSubmit shape world toSubmit space
  | run space => ioUringRun shape world space
  | post => IoUring.post shape world
  | completionsReady => do let _ ← ioUringCompletionsReady shape world
  | poll requested => do let _ ← ioUringPoll shape world requested

/-- A call as a step of the ring. -/
def perform (c : Context) (call : Call) : Option Context := (call.body shape world c).map (·.2)

end

end Tunix.IoUring
