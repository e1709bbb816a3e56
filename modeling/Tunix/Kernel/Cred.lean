import Tunix.Kernel.Vfs

/-!
# Credentials

The functions of `kernel/core/cred.c` and `acl_permission` of `kernel/fs/acl.c`. The setters for
user and group ids are the same functions of four ids; what differs is which ids they change, and
that in both cases the effective user id says whether the process is privileged. There always is a
current process.
-/

namespace Tunix.Core

open Fs

/-- The error numbers of the checks. -/
inductive Errno
  | perm
  | noEnt
  | io
  | badF
  | noMem
  | acces
  | exist
  | notDir
  | isDir
  | inval
  | txtBsy
  | rofs
  | nameTooLong
  | loop
  | opNotSupp
  deriving DecidableEq

/-! ## Identities -/

/-- `CRED_UNCHANGED`: the number stays as it is. -/
def credUnchanged : UInt32 := 0xFFFFFFFF

/-- The user ids of a process, or its group ids. -/
structure Ids where
  real : UInt32
  effective : UInt32
  saved : UInt32
  fs : UInt32
  deriving DecidableEq

/-- The numbers of a process, and its further groups. -/
structure Credentials where
  user : Ids
  group : Ids
  groups : List UInt32
  deriving DecidableEq

variable (cred : Credentials)

/-- The process acts as the superuser. -/
def Credentials.privileged : Bool := cred.user.effective = 0

/-- An id, or the one that is there if it is to stay. -/
def orKept (value kept : UInt32) : UInt32 := if value ≠ credUnchanged then value else kept

/-- The number is one that the process has. -/
def Ids.oneOf (ids : Ids) (value : UInt32) : Bool :=
  value = ids.real || value = ids.effective || value = ids.saved

/-- `cred_set_uid` or `cred_set_gid`, on the numbers they are about. -/
def Ids.set (ids : Ids) (privileged : Bool) (id : UInt32) : Except Errno Ids :=
  if id = credUnchanged then .error .inval
  else if privileged then .ok { real := id, effective := id, saved := id, fs := id }
  else if id ≠ ids.real ∧ id ≠ ids.saved then .error .perm
  else .ok { ids with effective := id, fs := id }

/-- `cred_set_reuid` or `cred_set_regid`, on the numbers they are about. -/
def Ids.setRe (ids : Ids) (privileged : Bool) (real effective : UInt32) : Except Errno Ids :=
  if !privileged ∧ real ≠ credUnchanged ∧ real ≠ ids.real ∧ real ≠ ids.effective then .error .perm
  else if !privileged ∧ effective ≠ credUnchanged ∧ !ids.oneOf effective then .error .perm
  else
    let next := orKept effective ids.effective
    let takesOver := real ≠ credUnchanged ∨ (effective ≠ credUnchanged ∧ effective ≠ ids.real)
    .ok {
      real := orKept real ids.real
      effective := next
      saved := if takesOver then next else ids.saved
      fs := next }

/-- `cred_set_resuid` or `cred_set_resgid`, on the numbers they are about. -/
def Ids.setRes (ids : Ids) (privileged : Bool) (real effective saved : UInt32) : Except Errno Ids :=
  if !privileged ∧
    [real, effective, saved].any (fun value => value ≠ credUnchanged && !ids.oneOf value) then
    .error .perm
  else
    .ok {
      real := orKept real ids.real
      effective := orKept effective ids.effective
      saved := orKept saved ids.saved
      fs := orKept effective ids.effective }

/-- The previous id is returned in any case. -/
def Ids.setFs (ids : Ids) (privileged : Bool) (fs : UInt32) : UInt32 × Ids :=
  (ids.fs, if privileged || ids.oneOf fs || fs = ids.fs then { ids with fs } else ids)

/-- The credentials with other user ids. -/
def Credentials.withUser (user : Ids) : Credentials := { cred with user }

/-- The credentials with other group ids. -/
def Credentials.withGroup (group : Ids) : Credentials := { cred with group }

/-- `cred_set_uid`. -/
def Credentials.setUid (uid : UInt32) : Except Errno Credentials :=
  (cred.user.set cred.privileged uid).map cred.withUser

/-- `cred_set_gid`. -/
def Credentials.setGid (gid : UInt32) : Except Errno Credentials :=
  (cred.group.set cred.privileged gid).map cred.withGroup

/-- `cred_set_reuid`. -/
def Credentials.setReuid (ruid euid : UInt32) : Except Errno Credentials :=
  (cred.user.setRe cred.privileged ruid euid).map cred.withUser

/-- `cred_set_regid`. -/
def Credentials.setRegid (rgid egid : UInt32) : Except Errno Credentials :=
  (cred.group.setRe cred.privileged rgid egid).map cred.withGroup

/-- `cred_set_resuid`. -/
def Credentials.setResuid (ruid euid suid : UInt32) : Except Errno Credentials :=
  (cred.user.setRes cred.privileged ruid euid suid).map cred.withUser

/-- `cred_set_resgid`. -/
def Credentials.setResgid (rgid egid sgid : UInt32) : Except Errno Credentials :=
  (cred.group.setRes cred.privileged rgid egid sgid).map cred.withGroup

/-- `cred_set_fsuid`, which answers the old number. -/
def Credentials.setFsuid (fsuid : UInt32) : UInt32 × Credentials :=
  (cred.user.setFs cred.privileged fsuid).map id cred.withUser

/-- `cred_set_fsgid`, which answers the old number. -/
def Credentials.setFsgid (fsgid : UInt32) : UInt32 × Credentials :=
  (cred.group.setFs cred.privileged fsgid).map id cred.withGroup

/-! ## Permissions -/

/-- `CRED_EXEC`: to run a file or to search a directory. -/
def credExec : UInt32 := 1
/-- `CRED_WRITE`. -/
def credWrite : UInt32 := 2
/-- `CRED_READ`. -/
def credRead : UInt32 := 4

/-- `MODE_STICKY`: an entry is removed by an owner only. -/
def modeSticky : UInt32 := 0o1000

/-- The tags of the entries with a number. -/
inductive AclTag
  | user
  | group
  deriving DecidableEq

/-- An entry for a user or a group by number. -/
structure AclEntry where
  tag : AclTag
  perm : UInt32
  id : UInt32

/-- `struct acl`: what the mode of the file does not hold. -/
structure Acl where
  groupObj : UInt32
  entries : List AclEntry

/-- What the permission checks read of a node, besides its kind. -/
structure Access where
  uid : UInt32
  gid : UInt32
  mode : UInt32
  acl : Option Acl

/-- `in_file_group`. -/
def Credentials.inFileGroup (gid : UInt32) : Bool :=
  cred.group.fs = gid || cred.groups.contains gid

/-- All bits that are wanted are allowed. -/
def covers (allowed want : UInt32) : Bool := allowed &&& want = want

/-- `acl_permission` where it decides. -/
def Acl.permits (acl : Acl) (access : Access) (cred : Credentials) (want : UInt32) : Bool :=
  let mask := (access.mode >>> 3) &&& 7
  match acl.entries.find? fun entry => entry.tag = .user && entry.id = cred.user.fs with
  | some entry => covers (entry.perm &&& mask) want
  | none =>
    let groups := acl.entries.filter fun entry => entry.tag = .group && cred.inFileGroup entry.id
    let owning := cred.inFileGroup access.gid
    if owning && covers (acl.groupObj &&& mask) want then true
    else if groups.any fun entry => covers (entry.perm &&& mask) want then true
    else if owning || !groups.isEmpty then false
    else covers (access.mode &&& 7) want

/-- `acl_permission`, where the list decides. -/
def Access.aclPermission (access : Access) (cred : Credentials) (want : UInt32) : Option Bool :=
  if cred.user.fs = access.uid then none
  else access.acl.map fun acl => acl.permits access cred want

/-- The bits of `cred_may` before the rules for the root. -/
def Access.allowed (access : Access) (cred : Credentials) (want : UInt32) : UInt32 :=
  match access.aclPermission cred want with
  | some granted => if granted then want else 0
  | none =>
    if cred.user.fs = access.uid then (access.mode >>> 6) &&& 7
    else if cred.inFileGroup access.gid then (access.mode >>> 3) &&& 7
    else access.mode &&& 7

/-- `cred_may`. -/
def credMay (kind : NodeKind) (access : Access) (want : UInt32) : Except Errno Unit :=
  if want = 0 then .ok ()
  else if covers (access.allowed cred want) want then .ok ()
  else if cred.user.fs = 0 ∧
    (want &&& credExec = 0 ∨ kind = .directory ∨ access.mode &&& 0o111 ≠ 0) then .ok ()
  else .error .acces

/-! ## Permissions along a path -/

/-- The lookups of a check and of the call that it is for. -/
inductive LookupSite
  | path
  | upTo (index : Nat)
  | missing
  | parent

/-- The tree, the process with its credentials, and what memory the lookups get. -/
structure View where
  tree : Vfs
  process : Process
  cred : Credentials
  access : Nat → Access
  buffer : LookupSite → Bool
  spare : LookupSite → Nat → Bool

variable (v : View)

/-- The error number of a lookup. -/
def LookupError.errno : LookupError → Errno
  | .noEntry => .noEnt
  | .notDirectory => .notDir
  | .nameTooLong => .nameTooLong
  | .loop => .loop

/-- `cred_may` for a node of the tree. -/
def View.may (x : Nat) (want : UInt32) : Except Errno Unit :=
  credMay v.cred (v.tree.node x).kind (v.access x) want

/-- A lookup with the memory that is there for it. -/
def View.lookup (site : LookupSite) (path : Name) (followFinal : Bool) : Except LookupError Nat :=
  v.tree.lookupInternal v.process (v.spare site) path followFinal

/-- `missing`: the error for a path that leads to nothing. -/
def View.missing (v : View) (path : Name) : Errno := match v.lookup .missing path true with
  | .error error => LookupError.errno error
  | .ok _ => .noEnt

/-- The places of the slashes behind the first character: where a directory's name ends. -/
def slashes (path : Name) : List Nat :=
  (List.range path.length).filter fun index => 0 < index && path[index]? = some '/'

/-- A turn of the loop of `cred_may_search`. -/
def View.maySearchUpTo (path : Name) (index : Nat) : Except Errno Unit :=
  match v.lookup (.upTo index) (path.take index) true with
  | .error _ => .error (v.missing path)
  | .ok directory => v.may directory credExec

/-- `cred_may_search`: every directory on the path may be searched. -/
def View.maySearch (path : Name) : Except Errno Unit :=
  if v.cred.user.fs = 0 ∨ path.head? ≠ some '/' then .ok ()
  else if path.length ≥ vfsPathMax then .error .nameTooLong
  else if !v.buffer .path then .error .noMem
  else (slashes path).forM (v.maySearchUpTo path)

/-- `cred_may_path`. -/
def View.mayPath (path : Name) (x : Nat) (want : UInt32) : Except Errno Unit := do
  v.maySearch path
  v.may x want

/-- The path of the directory. -/
def parentText (path : Name) : Name := match stripSlashes path with
  | [] => []
  | first :: rest => first :: (rest.reverse.dropWhile (!isSlash ·)).reverse.dropLast

/-- `parent_of` of `cred.c` -/
def View.parentOf (path : Name) : Except Errno Nat :=
  if !v.buffer .parent ∨ path.length ≥ vfsPathMax then .error .noEnt
  else match v.lookup .parent (parentText path) true with
    | .error _ => .error (v.missing (parentText path))
    | .ok parent => if (v.tree.node parent).kind ≠ .directory then .error .notDir else .ok parent

/-- `cred_may_write_parent`. -/
def View.mayWriteParent (path : Name) : Except Errno Unit := do
  v.maySearch path
  let parent ← v.parentOf path
  if (v.tree.node parent).readonly then .error .rofs
  else if v.cred.user.fs = 0 then .ok ()
  else v.may parent (credWrite ||| credExec)

/-- `cred_may_remove`. -/
def View.mayRemove (path : Name) (x : Nat) : Except Errno Unit := do
  v.mayWriteParent path
  if v.cred.user.fs = 0 then .ok ()
  else match v.parentOf path with
    | .error _ => .ok ()
    | .ok parent =>
      if (v.access parent).mode &&& modeSticky = 0 then .ok ()
      else if v.cred.user.fs = (v.access x).uid ∨ v.cred.user.fs = (v.access parent).uid then .ok ()
      else .error .perm

end Tunix.Core
