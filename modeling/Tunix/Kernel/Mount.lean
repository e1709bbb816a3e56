import Tunix.Kernel.Vfs

/-!
# Mounts and mount namespaces

`vfs_mount`, `vfs_umount` and `vfs_node_mount` of `kernel/fs/vfs.c`, and the overrides of
`kernel/core/namespace.c`. The table of mounts is one for all namespaces. Of the tree that a file
system brings with it only the root is modelled. The source and type texts, ids and device numbers
of the table are left out, and so is the writing back of pages before an unmount.
-/

namespace Tunix.Fs

/-- `VFS_MS_RDONLY`. -/
def vfsMsRdonly : UInt32 := 0x0001
/-- `VFS_MS_NOSUID`. -/
def vfsMsNosuid : UInt32 := 0x0002
/-- `VFS_MS_NODEV`. -/
def vfsMsNodev : UInt32 := 0x0004
/-- `VFS_MS_NOEXEC`. -/
def vfsMsNoexec : UInt32 := 0x0008
/-- `VFS_MS_REMOUNT`. -/
def vfsMsRemount : UInt32 := 0x0020
/-- `VFS_MS_BIND`. -/
def vfsMsBind : UInt32 := 0x1000

/-- `VFS_MS_SUPPORTED`. -/
def vfsMsSupported : UInt32 :=
  vfsMsRdonly ||| vfsMsNosuid ||| vfsMsNodev ||| vfsMsNoexec ||| vfsMsRemount ||| vfsMsBind

/-- synchronous, mandlock, dirsync, nosymfollow, noatime, nodiratime, silent, posixacl, relatime,
    strictatime, lazytime -/
def vfsMsIgnored : UInt32 :=
  0x10 ||| 0x40 ||| 0x80 ||| 0x100 ||| 0x400 ||| 0x800 ||| 0x8000 ||| 0x10000 ||| 0x200000 |||
    0x1000000 ||| 0x2000000

/-- An entry of the table of mounts. -/
structure MountEntry where
  target : Name
  flags : UInt32
  mountpoint : Option Nat
  root : Nat
  ownsRoot : Bool

/-- What a namespace has at a node instead of what is mounted there: another tree, or, if the mount
    is masked, the node itself. -/
structure MountOverride where
  place : Nat
  root : Option Nat

/-- The tree, the table of mounts and what each namespace puts over it. -/
structure Mounts where
  tree : Vfs
  table : List MountEntry
  /-- The overrides of each namespace but the first one. -/
  overrides : Nat → List MountOverride

/-- A process; the first namespace has no number. -/
structure MountProcess where
  root : Nat
  mntNs : Option Nat

/-- The error numbers of the calls. -/
inductive MountError
  | perm
  | noEnt
  | noMem
  | busy
  | noDev
  | notDir
  | inval
  | io
  deriving DecidableEq

/-! ## Namespaces -/

/-- What a list of overrides says about a node. -/
def resolveIn (overrides : List MountOverride) (x : Nat) : Option Nat :=
  (overrides.find? fun o => o.place = x).map fun o => o.root.getD x

variable (m : Mounts)

/-- `mnt_ns_resolve`: what the namespace of a process has mounted on a node. -/
def Mounts.mntNsResolve (p : MountProcess) (x : Nat) : Option Nat :=
  p.mntNs.bind fun ns => resolveIn (m.overrides ns) x

/-- The process as lookups see it. -/
def Mounts.view (p : MountProcess) : Process := { root := p.root, resolve := m.mntNsResolve p }

/-- The overrides with the one for a node replaced, if there is one. -/
def replaceOverride (o : MountOverride) : List MountOverride → Option (List MountOverride)
  | [] => none
  | other :: rest =>
    if other.place = o.place then some (o :: rest) else (replaceOverride o rest).map (other :: ·)

/-- What `mnt_ns_add` and `mnt_ns_remove` share. -/
def putOverride (memory : Bool) (o : MountOverride) (overrides : List MountOverride) :
    Option (List MountOverride) :=
  match replaceOverride o overrides with
  | some overrides => some overrides
  | none => if memory then some (o :: overrides) else none

/-- An entry of a namespace is set, in its old place if it has one. -/
def Mounts.putOverride (m : Mounts) (memory : Bool) (ns : Nat) (o : MountOverride) :
    Option Mounts :=
  (Fs.putOverride memory o (m.overrides ns)).map fun overrides =>
    { m with overrides := Function.update m.overrides ns overrides }

/-- `mnt_ns_add`. -/
def Mounts.mntNsAdd (memory : Bool) (ns place root : Nat) : Option Mounts :=
  m.putOverride memory ns { place, root := some root }

/-- `mnt_ns_remove`: the namespace sees nothing on the node. -/
def Mounts.mntNsRemove (memory : Bool) (ns place : Nat) : Option Mounts :=
  m.putOverride memory ns { place, root := none }

/-! ## The table -/

/-- `mount_at`. -/
def Mounts.mountAt (target : Name) : Option MountEntry :=
  m.table.find? fun entry => entry.target = target

/-- `mount_rooted_at`. -/
def Mounts.mountRootedAt (x : Nat) : Option MountEntry := m.table.find? fun entry => entry.root = x

/-- `vfs_node_mount`, with a bound for the walk along the parents. -/
def Mounts.nodeMount (m : Mounts) : Nat → Nat → Option MountEntry
  | 0, _ => none
  | turns + 1, walk =>
    if walk = vfsRoot then m.mountRootedAt vfsRoot
    else match m.mountRootedAt walk with
      | some entry => some entry
      | none =>
        match (m.tree.node walk).parent with
        | some parent => m.nodeMount turns parent
        | none => m.mountRootedAt vfsRoot

/-- `mount_insert`: the root stays first. -/
def mountInsert (entry : MountEntry) (table : List MountEntry) : List MountEntry :=
  if entry.target = ['/'] then entry :: table else table ++ [entry]

/-- The table with other flags for the first entry of a target. -/
def setFlags (target : Name) (flags : UInt32) : List MountEntry → List MountEntry
  | [] => []
  | entry :: rest =>
    if entry.target = target then { entry with flags } :: rest
      else entry :: setFlags target flags rest

/-- The last entry of a target. -/
def Mounts.lastMountAt (target : Name) : Option MountEntry :=
  m.table.reverse.find? fun entry => entry.target = target

/-- The table without the last entry of a target. -/
def dropLastMount (target : Name) (table : List MountEntry) : List MountEntry :=
  (table.reverse.eraseP fun entry => entry.target = target).reverse

/-! ## Trees -/

/-- A node and what is below it. -/
def Vfs.treeNodes (s : Vfs) : Nat → Nat → List Nat
  | 0, x => [x]
  | turns + 1, x => x :: (s.childList x).flatMap (s.treeNodes turns)

/-- A node that is freed; its entry for another body goes with it. -/
def Vfs.freeNode (s : Vfs) (x : Nat) : Vfs := (s.destroyNode x).set x fun _ => newNode [] .file

/-- `free_tree`: every node of a tree is freed. -/
def Vfs.freeTree (s : Vfs) (top : Nat) : Vfs := (s.treeNodes s.nextNode top).foldl Vfs.freeNode s

/-- Someone holds a node of the tree, has it mapped, or has something mounted on it. -/
def Vfs.treeBusy (s : Vfs) (mapped : Nat → Bool) (top : Nat) : Bool :=
  (s.treeNodes s.nextNode top).any fun x =>
    let node := s.node x
    node.refs > (if node.links > 1 then node.links - 1 else 0) || mapped x || node.mounted.isSome

/-! ## Mounting -/

/-- The file systems, by what `vfs_mount` does for them. -/
inductive MountType
  | tmpfs
  | fat
  | ext
  | cgroup
  | pseudo
  | other
  deriving DecidableEq

/-- What memory a call gets, for its buffers, its lookups, a new root, its entry and an override,
    and what the file system says about its source. -/
structure MountInput where
  buffer : Nat → Bool
  spare : Nat → Nat → Bool
  node : Bool
  entry : Bool
  override : Bool
  source : Except MountError Unit
  mapped : Nat → Bool
  cgroupBusy : Bool

section Mount

variable (m : Mounts) (p : MountProcess) (input : MountInput)

/-- A lookup as the process sees the tree. -/
def Mounts.lookup (site : Nat) (path : Name) : Option Nat :=
  m.tree.lookup (m.view p) (input.spare site) path

/-- `canonical_target` -/
def Mounts.canonicalTarget (target : Name) : Option Name := do
  let node ← m.tree.lookupNofollow (m.view p) (input.spare 0) target
  let stripped := stripSlashes target
  let name := (stripped.reverse.takeWhile (!isSlash ·)).reverse
  let slash := stripped.length - name.length
  if (m.tree.node node).kind = .symlink ∨ !validComponent name ∨ slash = 0 then
    (m.lookup p input 1 target).bind m.tree.nodePath
  else if !input.buffer 1 then none
  else
    let parent ← m.lookup p input 2 (target.take slash)
    let path ← m.tree.nodePath parent
    let path := if path.length > 1 then path ++ ['/'] else path
    if path.length + name.length + 1 > vfsPathMax then none else some (path ++ name)

/-- The target as the table has it. -/
def Mounts.tableTarget (target : Name) : Name :=
  if input.buffer 0 ∧ target.head? = some '/' then (m.canonicalTarget p input target).getD target
  else target

/-- The top of what is mounted on a node for all. -/
def Vfs.topMount (s : Vfs) : Nat → Nat → Nat
  | 0, x => x
  | turns + 1, x =>
    match (s.node x).mounted with
    | some root => s.topMount turns root
    | none => x

/-- The root of what is to be mounted, and whether it is a new tree. -/
def Mounts.mountRoot (place : Nat) (source : Option Name) (type : MountType) (flags : UInt32) :
    Except MountError (Nat × Bool) :=
  if flags &&& vfsMsBind ≠ 0 then
    match source with
    | some ('/' :: rest) =>
      match m.lookup p input 4 ('/' :: rest) with
      | none => .error .noEnt
      | some root =>
        if (m.tree.node root).kind ≠ .directory then .error .notDir
        else if root = place then .error .busy
        else .ok (root, false)
    | _ => .error .inval
  else match type with
    | .tmpfs => if input.node then .ok (m.tree.nextNode, true) else .error .noMem
    | .fat | .ext | .cgroup => input.source.map fun _ => (m.tree.nextNode, true)
    | .pseudo => .error .busy
    | .other => .error .noDev

/-- The tree with the root of a new file system, under the name and parent of the mount point. -/
def Vfs.addRoot (s : Vfs) (place : Nat) : Vfs :=
  s.allocNode { newNode (s.node place).name .directory with parent := (s.node place).parent }

/-- The root takes the place of the mount point: in the namespace of the process, or for all. -/
def Mounts.cover (m : Mounts) (place root : Nat) : Option Mounts := match p.mntNs with
  | some ns => m.mntNsAdd input.override ns place root
  | none => some { m with tree := m.tree.set place ({ · with mounted := some root }) }

/-- The last part of `vfs_mount`. -/
def Mounts.mountOver (target : Name) (flags : UInt32) (place root : Nat) (ownsRoot : Bool) :
    Except MountError Mounts :=
  if !input.entry then .error .noMem
  else
    let tree := if ownsRoot then m.tree.addRoot place else m.tree
    match Mounts.cover p input { m with tree } place root with
    | none => .error .noMem
    | some covered =>
      let target := target.take (vfsPathMax - 1)
      .ok { covered with
        table := mountInsert
          { target, flags, mountpoint := some place, root, ownsRoot } covered.table }

/-- `vfs_mount`. -/
def Mounts.mount (source : Option Name) (target : Name) (type : MountType) (flags : UInt32) :
    Except MountError Mounts :=
  let target := m.tableTarget p input target
  if target.head? ≠ some '/' then .error .inval
  else if flags &&& ~~~(vfsMsSupported ||| vfsMsIgnored) ≠ 0 then .error .inval
  else
    let flags := flags &&& ~~~vfsMsIgnored
    let existing := m.mountAt target
    if flags &&& vfsMsRemount ≠ 0 then
      if existing.isNone then .error .inval
      else .ok { m with table := setFlags target (flags &&& ~~~vfsMsRemount) m.table }
    else if existing.any (·.mountpoint.isNone) then .error .busy
    else match m.lookup p input 3 target with
      | none => .error .noEnt
      | some place =>
        if (m.tree.node place).kind ≠ .directory then .error .notDir
        else if place = vfsRoot then .error .busy
        else
          let place := m.tree.topMount m.tree.nextNode place
          match m.mountRoot p input place source type flags with
          | .error error => .error error
          | .ok (root, ownsRoot) => m.mountOver p input target flags place root ownsRoot

/-! ## Unmounting -/

/-- The mount point without what covers it: in the namespace of the process, if it has an override
    there, or for all. -/
def Mounts.uncover (place : Nat) : Mounts := match p.mntNs with
  | some ns =>
    if (m.mntNsResolve p place).isSome then (m.mntNsRemove input.override ns place).getD m
    else { m with tree := m.tree.set place ({ · with mounted := none }) }
  | none => { m with tree := m.tree.set place ({ · with mounted := none }) }

/-- `vfs_umount`. -/
def Mounts.umount (target : Name) (detach : Bool) : Except MountError Mounts :=
  let target := m.tableTarget p input target
  match m.lastMountAt target with
  | none => .error .inval
  | some entry =>
    match entry.mountpoint with
    | none => .error .perm
    | some place =>
      let busy := entry.ownsRoot && m.tree.treeBusy input.mapped entry.root
      if busy ∧ !detach then .error .busy
      else if input.cgroupBusy then .error .busy
      else
        let m := m.uncover p input place
        .ok { m with
          table := dropLastMount target m.table
          tree := if entry.ownsRoot ∧ !busy then m.tree.freeTree entry.root else m.tree }

end Mount

end Tunix.Fs
