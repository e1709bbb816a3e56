import Tunix.Kernel.Cred

/-!
# Paths of system calls, and `open`

The functions of `kernel/core/syscall.c` that make an absolute path without `.` and `..` of the path
of a system call, and `open_at`. What `open_at` does with descriptors is not part of the model:
whether the path is one of the process's own descriptors (`reopen_own_descriptor`) and what opening
the node comes to are inputs.
-/

namespace Tunix.Core

open Fs

/-! ## Paths -/

/-- `process_root_prefix`: the path of the root of the process, with a slash at its end. -/
def processRootPrefix (s : Vfs) (p : Process) : Name :=
  if p.root = vfsRoot then ['/']
  else match s.nodePath p.root with
    | none => ['/']
    | some [] => ['/']
    | some path => stripSlashes path

/-- The buffer with a text from a place on. -/
def overwrite (buffer : Name) (out : Nat) (text : Name) : Name :=
  buffer.take out ++ text ++ buffer.drop (out + text.length)

/-- The end of the output without its last component, but not before `floor`. -/
def popComponent (buffer : Name) (floor out : Nat) : Nat :=
  if out > floor then
    let out := if buffer[out - 1]? = some '/' then out - 1 else out
    let kept := ((buffer.take out).drop floor).reverse.dropWhile (!isSlash ·)
    floor + kept.length
  else out

/-- A component of the path behind the output so far. -/
def pushComponent (buffer : Name) (out : Nat) (component : Name) : Except Errno (Name × Nat) :=
  let slash := out > 1 ∧ buffer[out - 1]? ≠ some '/'
  let buffer := if slash then overwrite buffer out ['/'] else buffer
  let out := if slash then out + 1 else out
  if out + component.length + 1 > vfsPathMax then .error .nameTooLong
  else .ok (overwrite buffer out component, out + component.length)

/-- The loop of `normalize_path`. -/
def normalizeLoop (floor : Nat) : Nat → Name → Nat → Name → Except Errno (Name × Nat)
  | _, buffer, out, [] => .ok (buffer, out)
  | 0, buffer, out, _ => .ok (buffer, out)
  | turns + 1, buffer, out, cursor =>
    match nextComponent cursor with
    | none => .error .nameTooLong
    | some (component, rest) =>
      if component = [] then .ok (buffer, out)
      else if component = ['.'] then normalizeLoop floor turns buffer out rest
      else if component = ['.', '.'] then
        normalizeLoop floor turns buffer (popComponent buffer floor out) rest
      else match pushComponent buffer out component with
        | .error error => .error error
        | .ok (buffer, out) => normalizeLoop floor turns buffer out rest

/-- What `normalize_path` puts in front of the input. -/
def normalizeBase (s : Vfs) (p : Process) (base : Nat) (input : Name) : Except Errno Name :=
  let path := if input.head? = some '/' then some (processRootPrefix s p) else s.nodePath base
  match path with
  | none => .error .inval
  | some path => .ok (if path.getLast? = some '/' then path else path ++ ['/'])

/-- `normalize_path`. -/
def normalizePath (s : Vfs) (p : Process) (memory : Bool) (base : Nat) (input : Name) :
    Except Errno Name := do
  if input = [] then .error .noEnt
  else if !memory then .error .noMem
  else
    let start := processRootPrefix s p
    let floor := start.length
    let front ← normalizeBase s p base input
    if front.length + input.length + 1 > 2 * vfsPathMax then .error .nameTooLong
    else
      let combined := front ++ input
      let (buffer, out) ← normalizeLoop floor combined.length (overwrite start 0 ['/']) 1 combined
      let out := if out > 1 ∧ buffer[out - 1]? = some '/' then out - 1 else out
      .ok (buffer.take (max out floor))

/-! ## Open -/

/-- `O_ACCMODE`. -/
def oAccmode : UInt64 := 3
/-- `O_RDONLY`. -/
def oRdonly : UInt64 := 0
/-- `O_WRONLY`. -/
def oWronly : UInt64 := 1
/-- `O_RDWR`. -/
def oRdwr : UInt64 := 2
/-- `O_CREAT`. -/
def oCreat : UInt64 := 0o100
/-- `O_EXCL`. -/
def oExcl : UInt64 := 0o200
/-- `O_NOCTTY`. -/
def oNoctty : UInt64 := 0o400
/-- `O_TRUNC`. -/
def oTrunc : UInt64 := 0o1000
/-- `O_APPEND`. -/
def oAppend : UInt64 := 0o2000
/-- `O_NONBLOCK`. -/
def oNonblock : UInt64 := 0o4000
/-- `O_DSYNC`. -/
def oDsync : UInt64 := 0o10000
/-- `O_ASYNC`. -/
def oAsync : UInt64 := 0o20000
/-- `O_DIRECT`. -/
def oDirect : UInt64 := 0o40000
/-- `O_LARGEFILE`. -/
def oLargefile : UInt64 := 0o100000
/-- `O_DIRECTORY`. -/
def oDirectory : UInt64 := 0o200000
/-- `O_NOFOLLOW`. -/
def oNofollow : UInt64 := 0o400000
/-- `O_CLOEXEC`. -/
def oCloexec : UInt64 := 0o2000000
/-- `O_NOATIME`. -/
def oNoatime : UInt64 := 0o1000000
/-- `O_PATH`. -/
def oPath : UInt64 := 0o10000000
/-- `O_TMPFILE`. -/
def oTmpfile : UInt64 := 0o20200000
/-- `O_SYNC`. -/
def oSync : UInt64 := 0o4010000

/-- The flags that opening a file knows; the others are dropped. -/
def oSupported : UInt64 :=
  oAccmode ||| oCreat ||| oExcl ||| oNoctty ||| oTrunc ||| oAppend ||| oNonblock |||
    oDsync ||| oAsync |||
    oDirect ||| oLargefile ||| oDirectory ||| oNofollow ||| oCloexec |||
      oNoatime ||| oPath ||| oSync

/-- Some bit of the two is the same. -/
def meets (flags mask : UInt64) : Bool := flags &&& mask ≠ 0

/-- What an open of an existing node wants. -/
def openWant (flags : UInt64) : UInt32 :=
  if meets flags oPath then 0
  else
    let mode := flags &&& oAccmode
    (if mode = oRdonly ∨ mode = oRdwr then credRead else 0) |||
      (if mode = oWronly ∨ mode = oRdwr then credWrite else 0) |||
      (if meets flags oTrunc then credWrite else 0)

/-- What `open_at` is told by the functions that are not modelled. -/
structure OpenInput where
  /-- `reopen_own_descriptor` -/
  reopen : Name → Option (Except Errno Nat)
  /-- Whether there is memory for `normalize_path` and for a new node. -/
  normalizeMemory : Bool
  createMemory : Memory
  /-- `vfs_node_is_swapfile` and `vfs_truncate` -/
  swapfile : Nat → Bool
  truncates : Nat → Bool
  /-- The descriptor that a node is opened as. -/
  install : Nat → Except Errno Nat

/-- The rest of `open_at`, for the node that was found or made. -/
def openNode (input : OpenInput) (tree : Vfs) (x : Nat) (flags : UInt64) : Except Errno Nat :=
  let node := tree.node x
  let plain := !meets flags oPath
  let truncate := plain && meets flags oTrunc && node.kind = .file
  if meets flags oNofollow ∧ node.kind = .symlink ∧ plain then .error .loop
  else if meets flags oDirectory ∧ node.kind ≠ .directory then .error .notDir
  else if plain ∧ node.kind = .directory ∧ flags &&& oAccmode ≠ oRdonly then .error .isDir
  else if plain ∧ node.readonly ∧
    (flags &&& oAccmode ≠ oRdonly ∨ meets flags oTrunc) then .error .rofs
  else if truncate ∧ input.swapfile x then .error .txtBsy
  else if truncate ∧ !input.truncates x then .error .io
  else input.install x

/-- The part of `open_at` behind the path. -/
def View.openResolved (v : View) (input : OpenInput) (path : Name) (flags : UInt64) :
    Except Errno Nat :=
  let followFinal := !meets flags oNofollow
  match v.lookup .path path followFinal with
  | .error _ =>
    if !meets flags oCreat then
      .error (match v.lookup .missing path followFinal with
        | .error error => LookupError.errno error
        | .ok _ => .noEnt)
    else if meets flags oDirectory then .error .inval
    else match v.lookup .missing path followFinal with
      | .error .notDirectory => .error .notDir
      | .error .nameTooLong => .error .nameTooLong
      | .error .loop => .error .loop
      | _ =>
        if path.length > 1 ∧ path.getLast? = some '/' then .error .isDir
        else do
          v.mayWriteParent path
          match v.tree.createFileNode v.process input.createMemory path with
          | (none, _) => .error .noEnt
          | (some x, tree) => openNode input tree x flags
  | .ok x =>
    if meets flags oCreat ∧ meets flags oExcl then .error .exist
    else do
      v.mayPath path x (openWant flags)
      openNode input v.tree x flags

/-- The directory that a path starts from; there is none if the descriptor is not one of a
    directory. -/
def pathBase (base : Option Nat) (path : Name) : Option Nat :=
  if path.head? = some '/' then some vfsRoot else base

/-- `open_at` with the directory of the descriptor, if it is one, and the path of the process. -/
def View.openAt (v : View) (input : OpenInput) (base : Option Nat) (path : Name) (flags : UInt64) :
    Except Errno Nat :=
  if flags &&& oTmpfile = oTmpfile then .error .opNotSupp
  else
    let flags := flags &&& oSupported
    if meets flags oPath ∧ meets flags (oCreat ||| oExcl ||| oTrunc) then .error .inval
    else match pathBase base path with
      | none => .error .badF
      | some base => do
        let path ← normalizePath v.tree v.process input.normalizeMemory base path
        match input.reopen path with
        | some reopened => reopened
        | none => v.openResolved input path flags

end Tunix.Core
