import Mathlib.Data.List.Basic
import Tunix.ForStd.Table

/-!
# The name tree of the VFS

The functions of `kernel/fs/vfs.c` that look names up and change the tree. Nodes are kept by their
address; the address of a node that was freed is not used again. A hash chain of a directory's index
is kept as a list. Times, permissions, file contents and the hooks of the file systems are not part
of the model. Whether an allocation succeeds is an input: `Memory` has an answer for each place in a
call where memory is asked for.
-/

namespace Tunix.Fs

open Table

/-- A name or a path. -/
abbrev Name := List Char

/-- `VFS_PATH_MAX`. -/
def vfsPathMax : Nat := 4096
/-- `VFS_NAME_MAX`. -/
def vfsNameMax : Nat := 255
/-- `VFS_SYMLINK_MAX_DEPTH`: how many links one lookup follows. -/
def vfsSymlinkMaxDepth : Nat := 40
/-- `VFS_MOUNT_MAX_DEPTH`: how many mounts on one another are crossed. -/
def vfsMountMaxDepth : Nat := 16

/-- The types of a node. -/
inductive NodeKind
  | file
  | directory
  | charDevice
  | blockDevice
  | pipe
  | symlink
  | socket
  deriving DecidableEq

/-- The hash table over the children of a directory. -/
structure ChildIndex where
  buckets : Nat
  slot : Nat → List Nat

/-- `struct vfs_node`, with addresses for pointers. -/
structure VfsNode where
  name : Name
  kind : NodeKind
  readonly : Bool
  orphaned : Bool
  parent : Option Nat
  children : Option Nat
  next : Option Nat
  prev : Option Nat
  lastChild : Option Nat
  childIndex : Option ChildIndex
  childCount : Nat
  linkTarget : Option Nat
  links : Nat
  mounted : Option Nat
  refs : Nat
  /-- The target of a symbolic link. -/
  data : Option Name

/-- The nodes of the tree. -/
structure Vfs where
  node : Nat → VfsNode
  /-- Where the next node will be. -/
  nextNode : Nat

/-- The address of the root, which `vfs_init` makes first. -/
def vfsRoot : Nat := 0

/-- The places in a call where memory is asked for: the buffers for the `n`-th path that is taken
    apart and for the `n`-th lookup, those of the `n`-th turn of `vfs_mkdir_p`, and the ones for a
    new node, its contents, its place in the index of its directory and a new name. -/
inductive MemorySite
  | parentPath (n : Nat)
  | spare (n followed : Nat)
  | linkPath (n : Nat)
  | directory (n : Nat)
  | directoryIndex (n : Nat)
  | node
  | data
  | name
  | index (n : Nat)

/-- Whether memory is there, for each place that asks for it. -/
abbrev Memory := MemorySite → Bool

/-- What a lookup takes from the process it is made for. -/
structure Process where
  /-- `process_get_root` -/
  root : Nat
  /-- `mnt_ns_resolve` -/
  resolve : Nat → Option Nat

variable (s : Vfs) (p : Process) (memory : Memory)

/-- A node is changed. -/
def Vfs.set (x : Nat) (change : VfsNode → VfsNode) : Vfs :=
  { s with node := modify s.node x change }

/-- A node is changed, if there is one. -/
def Vfs.setAt (x : Option Nat) (change : VfsNode → VfsNode) : Vfs :=
  { s with node := modifyAt s.node x change }

/-! ## Children -/

/-- `name_hash`. -/
def nameHash (name : Name) : UInt32 :=
  name.foldl (fun hash c => (hash ^^^ UInt32.ofNat (c.toNat % 256)) * 16777619) 2166136261

/-- The bucket of a name. -/
def ChildIndex.bucketOf (index : ChildIndex) (name : Name) : Nat :=
  (nameHash name &&& (UInt32.ofNat index.buckets - 1)).toNat

/-- A child is put at the head of its chain. -/
def ChildIndex.insert (index : ChildIndex) (name : Name) (child : Nat) : ChildIndex :=
  { index with slot := modify index.slot (index.bucketOf name) (child :: ·) }

/-- A child is taken out of the chain of a name. -/
def ChildIndex.remove (index : ChildIndex) (name : Name) (child : Nat) : ChildIndex :=
  { index with slot := modify index.slot (index.bucketOf name) (·.erase child) }

/-- The children from a pointer on; `turns` bounds the walk. -/
def Vfs.childWalk (s : Vfs) : Nat → Option Nat → List Nat
  | turns + 1, some child => child :: s.childWalk turns (s.node child).next
  | _, _ => []

/-- The children of a directory, in the order of its list. -/
def Vfs.childList (directory : Nat) : List Nat := s.childWalk s.nextNode (s.node directory).children

/-- The number of buckets for so many children. -/
def indexSize (childCount : Nat) : Nat → Nat → Nat
  | 0, buckets => buckets
  | turns + 1, buckets =>
    if buckets < childCount then indexSize childCount turns (buckets * 2) else buckets

/-- `index_rebuild`: a new index with all children, if there is memory for it. -/
def Vfs.indexRebuild (memory : Bool) (directory : Nat) : Vfs :=
  if !memory then s
  else
    let d := s.node directory
    let empty : ChildIndex :=
      { buckets := indexSize d.childCount d.childCount 64, slot := fun _ => [] }
    let index := (s.childList directory).foldl (fun index child =>
      index.insert (s.node child).name child) empty
    s.set directory ({ · with childIndex := some index })

/-- `vfs_find_entry`: through the index if there is one, along the list otherwise. -/
def Vfs.findEntry (directory : Nat) (name : Name) : Option Nat :=
  let d := s.node directory
  if d.kind ≠ .directory then none
  else match d.childIndex with
    | some index => (index.slot (index.bucketOf name)).find? fun child => (s.node child).name = name
    | none => (s.childList directory).find? fun child => (s.node child).name = name

/-- `cross_mounts`: the root of what is mounted on a node, and on that root again. -/
def Vfs.crossMounts (s : Vfs) (p : Process) : Nat → Nat → Nat
  | 0, x => x
  | depth + 1, x =>
    match p.resolve x with
    | some cover => if cover = x then x else s.crossMounts p depth cover
    | none =>
      match (s.node x).mounted with
      | some root => s.crossMounts p depth root
      | none => x

/-- `vfs_find_child`: the node that a name in a directory leads to. -/
def Vfs.findChild (directory : Nat) (name : Name) : Option Nat :=
  (s.findEntry directory name).map fun entry =>
    s.crossMounts p vfsMountMaxDepth ((s.node entry).linkTarget.getD entry)

/-! ## Nodes -/

/-- A node as it is made, with its name cut to the longest one. -/
def newNode (name : Name) (kind : NodeKind) : VfsNode :=
  { name := name.take vfsNameMax, kind, readonly := false, orphaned := false, parent := none
    children := none, next := none, prev := none, lastChild := none, childIndex := none
    childCount := 0, linkTarget := none, links := 1, mounted := none, refs := 0, data := none }

/-- The tree after `vfs_init`. -/
def vfsInit : Vfs :=
  { node := Function.update (fun _ => newNode [] .file) vfsRoot
      { newNode ['/'] .directory with parent := some vfsRoot }
    nextNode := 1 }

/-- A new node gets the next address. -/
def Vfs.allocNode (node : VfsNode) : Vfs :=
  { node := Function.update s.node s.nextNode node, nextNode := s.nextNode + 1 }

/-- The index of a directory that has got a child. -/
def Vfs.indexAttached (memory : Bool) (parent child : Nat) : Vfs :=
  let d := s.node parent
  let rebuild := if d.childCount > 32 then s.indexRebuild memory parent else s
  match d.childIndex with
  | some index =>
    if d.childCount ≤ index.buckets * 2 then
      s.set parent ({ · with childIndex := some (index.insert (s.node child).name child) })
    else rebuild
  | none => rebuild

/-- The links of a child that comes last. -/
def Vfs.linkChild (parent child : Nat) : Vfs :=
  let last := (s.node parent).lastChild
  let s := s.set child ({ · with parent := some parent, next := none, prev := last })
  let s := s.setAt last ({ · with next := some child })
  s.set parent fun d => { d with
    children := if last = none then some child else d.children
    lastChild := some child
    childCount := d.childCount + 1 }

/-- The tree with the child, unless the parent is no directory or has a child of that name. -/
def Vfs.attach (memory : Bool) (parent child : Nat) : Option Vfs :=
  if (s.node parent).kind ≠ .directory then none
  else if (s.findChild p parent (s.node child).name).isSome then none
  else some ((s.linkChild parent child).indexAttached memory parent child)

/-- The links without a child. -/
def Vfs.unlinkChild (parent child : Nat) : Vfs :=
  let before := (s.node child).prev
  let behind := (s.node child).next
  let s := s.setAt before ({ · with next := behind })
  let s := s.setAt behind ({ · with prev := before })
  let s := s.set parent fun d => { d with
    children := if before = none then behind else d.children
    lastChild := if behind = none then before else d.lastChild
    childCount := d.childCount - 1 }
  s.set child ({ · with next := none, prev := none, parent := none })

/-- `detach_child`. -/
def Vfs.detachChild (parent child : Nat) : Option Vfs :=
  if (s.node child).parent ≠ some parent then none
  else
    let s := s.set parent fun d => { d with
      childIndex := d.childIndex.map fun index => index.remove (s.node child).name child }
    some (s.unlinkChild parent child)

/-- `vfs_node_ref`. -/
def Vfs.nodeRef (x : Nat) : Vfs := s.set x fun d => { d with refs := d.refs + 1 }

/-- The node goes with its last reference if it has no name; nothing of that is left to see. -/
def Vfs.nodeUnref (x : Nat) : Vfs := s.set x fun d => { d with refs := d.refs - 1 }

/-- `destroy_node`. -/
def Vfs.destroyNode (x : Nat) : Vfs := match (s.node x).linkTarget with
  | some target =>
    let s := s.set x ({ · with linkTarget := none })
    (s.set target fun d => { d with links := d.links - 1 }).nodeUnref target
  | none =>
    s.set x fun d => { d with
      links := d.links - 1
      orphaned := d.orphaned || d.refs ≠ 0 }

/-! ## Paths -/

/-- The character between the components of a path. -/
def isSlash (c : Char) : Bool := c = '/'

/-- The first component of a path and what comes behind it. -/
def nextComponent (path : Name) : Option (Name × Name) :=
  let path := path.dropWhile isSlash
  let component := path.takeWhile (!isSlash ·)
  if component.length > vfsNameMax then none
  else some (component, (path.dropWhile (!isSlash ·)).dropWhile isSlash)

/-- The names from the root to a node, in front of a text. -/
def Vfs.pathText (s : Vfs) : Nat → Nat → Name → Option Name
  | 0, _, _ => none
  | turns + 1, walk, text =>
    if walk = vfsRoot then some text
    else
      let text := '/' :: ((s.node walk).name ++ text)
      if text.length + 1 > vfsPathMax then none
      else match (s.node walk).parent with
        | some parent => s.pathText turns parent text
        | none => none

/-- `vfs_node_path` into a buffer of `VFS_PATH_MAX` bytes. -/
def Vfs.nodePath (x : Nat) : Option Name :=
  if x = vfsRoot then some ['/'] else s.pathText vfsPathMax x []

/-- A text behind another, if both fit into a buffer. -/
def appendText (output text : Name) : Option Name :=
  if output.length + text.length + 1 > vfsPathMax then none else some (output ++ text)

/-- A path without the slashes at its end. -/
def stripSlashes (path : Name) : Name := match path with
  | [] => []
  | first :: rest => first :: (rest.reverse.dropWhile isSlash).reverse

/-- What `symlink_path` puts in front of the target. -/
def Vfs.symlinkBase (directory : Nat) (target : Name) : Option Name :=
  if target.head? = some '/' then
    if p.root = vfsRoot then some []
    else (s.nodePath p.root).map fun path =>
      if (stripSlashes path).length = 1 then [] else stripSlashes path
  else do
    let path ← s.nodePath directory
    if path.length > 1 then appendText path ['/'] else some path

/-- The path that goes on behind a symbolic link. -/
def Vfs.symlinkPath (directory : Nat) (target rest : Name) : Option Name := do
  let base ← s.symlinkBase p directory target
  let path ← appendText base target
  if rest = [] then some path
  else
    let path ← if path = [] ∨ path.getLast? ≠ some '/' then appendText path ['/'] else some path
    appendText path rest

/-! ## Lookup -/

/-- Why a lookup finds nothing. -/
inductive LookupError
  | noEntry
  | notDirectory
  | nameTooLong
  | loop
  deriving DecidableEq

/-- Where the walk along a path comes to: a node, with whether it has to be a directory, or a
    symbolic link in a directory, with what comes behind it. -/
inductive WalkEnd
  | node (x : Nat) (directoryRequired : Bool)
  | failed (error : LookupError)
  | link (directory : Nat) (target rest : Name) (directoryRequired : Bool)

/-- `..` from a node. -/
def Vfs.dotDot (current : Nat) : Nat :=
  if current = p.root then current else (s.node current).parent.getD current

/-- What a turn of the loop of `lookup_internal` comes to: an end, or the place and the path of the
    next turn. -/
inductive WalkStep
  | stop (walkEnd : WalkEnd)
  | go (current : Nat) (cursor : Name) (directoryRequired : Bool)

/-- The part of a turn that is about a component with a name. -/
def Vfs.enter (followFinal : Bool) (current : Nat) (component rest : Name) (required : Bool) :
    WalkStep :=
  match s.findChild p current component with
  | none => .stop (.failed .noEntry)
  | some next =>
    if (s.node next).kind = .symlink ∧ (followFinal || rest ≠ [] || required) then
      match (s.node next).data with
      | none => .stop (.failed .noEntry)
      | some [] => .stop (.failed .noEntry)
      | some target => .stop (.link current target rest required)
    else .go next rest required

/-- A turn of the loop of `lookup_internal`. -/
def Vfs.walkStep (followFinal : Bool) (current : Nat) (cursor : Name) (required : Bool) :
    WalkStep :=
  match nextComponent cursor with
  | none => .stop (.failed .nameTooLong)
  | some ([], rest) => .go current rest required
  | some (component, rest) =>
    if (s.node current).kind ≠ .directory then .stop (.failed .notDirectory)
    else
      let required := required || (rest = [] && cursor.getLast? = some '/')
      if component = ['.'] then .go current rest required
      else if component = ['.', '.'] then .go (s.dotDot p current) rest required
      else s.enter p followFinal current component rest required

/-- The loop of `lookup_internal` up to the first symbolic link that is followed. -/
def Vfs.walk (s : Vfs) (p : Process) (followFinal : Bool) : Nat → Nat → Name → Bool → WalkEnd
  | _, current, [], required => .node current required
  | 0, current, _, required => .node current required
  | turns + 1, current, cursor, required =>
    match s.walkStep p followFinal current cursor required with
    | .stop walkEnd => walkEnd
    | .go current cursor required => s.walk p followFinal turns current cursor required

/-- The loop of `lookup_internal`; `links` is how many symbolic links may still be followed. -/
def Vfs.follow (s : Vfs) (p : Process) (memory : Nat → Bool) (followFinal : Bool) :
    Nat → Name → Bool → Except LookupError Nat
  | links, path, required =>
    match s.walk p followFinal path.length
      (s.crossMounts p vfsMountMaxDepth vfsRoot) path required with
    | .failed error => .error error
    | .node x required =>
      if required ∧ (s.node x).kind ≠ .directory then .error .notDirectory else .ok x
    | .link directory target rest required =>
      match links with
      | 0 => .error .loop
      | links + 1 =>
        -- the two buffers are taken with the first two links
        let followed := vfsSymlinkMaxDepth - 1 - links
        if followed < 2 ∧ !memory followed then .error .noEntry
        else match s.symlinkPath p directory target rest with
          | none => .error .nameTooLong
          | some path => s.follow p memory followFinal links path required

/-- `lookup_internal`. -/
def Vfs.lookupInternal (memory : Nat → Bool) (path : Name) (followFinal : Bool) :
    Except LookupError Nat :=
  if path.head? ≠ some '/' then .error .noEntry
  else s.follow p memory followFinal vfsSymlinkMaxDepth path false

/-- `vfs_lookup` -/
def Vfs.lookup (memory : Nat → Bool) (path : Name) : Option Nat :=
  (s.lookupInternal p memory path true).toOption

/-- `vfs_lookup_nofollow` -/
def Vfs.lookupNofollow (memory : Nat → Bool) (path : Name) : Option Nat :=
  (s.lookupInternal p memory path false).toOption

/-- `valid_component`: a name that a new entry may have. -/
def validComponent (name : Name) : Bool := name ≠ [] && name ≠ ['.'] && name ≠ ['.', '.']

/-- The path of the directory and the name of the entry. -/
def splitParent (path : Name) : Option (Name × Name) :=
  if path.head? ≠ some '/' then none
  else
    let path := stripSlashes path
    let name := (path.reverse.takeWhile (!isSlash ·)).reverse
    let slash := path.length - name.length
    if name = [] ∨ name.length > vfsNameMax ∨ !validComponent name then none
    else if slash ≤ 1 then some (['/'], name)
    else if slash - 1 ≥ vfsPathMax then none
    else some (path.take (slash - 1), name)

/-- `parent_of` for a directory that is there. -/
def Vfs.parentOf (n : Nat) (path : Name) : Option (Nat × Name) := do
  if !memory (.parentPath n) then none
  else
    let (parentPath, name) ← splitParent path
    let parent ← s.lookup p (fun followed => memory (.spare n followed)) parentPath
    some (parent, name)

/-! ## Calls that change the tree -/

/-- A directory that is there already: the node of that name, or what it links to. -/
def Vfs.mkdirFound (n next : Nat) : Option Nat :=
  if (s.node next).kind = .symlink then
    if !memory (.linkPath n) then none
    else (s.nodePath next).bind (s.lookup p fun followed => memory (.spare n followed))
  else some next

/-- A turn of the loop of `vfs_mkdir_p`, for a component with a name. -/
def Vfs.mkdirStep (n current : Nat) (component : Name) : Option Nat × Vfs :=
  match s.findChild p current component with
  | none =>
    if !memory (.directory n) then (none, s)
    else
      let made := s.allocNode (newNode component .directory)
      match made.attach p (memory (.directoryIndex n)) current s.nextNode with
      | none => (none, made)
      | some attached => (some s.nextNode, attached)
  | some next => ((s.mkdirFound p memory n next).filter fun x => (s.node x).kind = .directory, s)

/-- The loop of `vfs_mkdir_p`. -/
def Vfs.mkdirLoop (p : Process) (memory : Memory) : Nat → Nat → Vfs → Nat → Name → Option Nat × Vfs
  | _, _, s, current, [] => (some current, s)
  | 0, _, s, current, _ => (some current, s)
  | turns + 1, n, s, current, cursor =>
    match nextComponent cursor with
    | none => (none, s)
    | some (component, rest) =>
      if component = [] then (some current, s)
      else if !validComponent component then mkdirLoop p memory turns (n + 1) s current rest
      else match s.mkdirStep p memory n current component with
        | (none, s) => (none, s)
        | (some next, s) => mkdirLoop p memory turns (n + 1) s next rest

/-- `vfs_mkdir_p`. -/
def Vfs.mkdirP (path : Name) : Option Nat × Vfs :=
  if path.head? ≠ some '/' then (none, s)
  else mkdirLoop p memory path.length 0 s vfsRoot path

/-- `parent_of` with the directories made that are missing. -/
def Vfs.parentOfCreate (path : Name) : Option (Nat × Name) × Vfs :=
  if !memory (.parentPath 0) then (none, s)
  else match splitParent path with
    | none => (none, s)
    | some (parentPath, name) =>
      let result := s.mkdirP p memory parentPath
      (result.1.map fun parent => (parent, name), result.2)

/-- A new node in a directory; `node` makes it from its name, and `data` says whether it needs more
    memory. -/
def Vfs.createAt (parent : Nat) (name : Name) (node : Name → VfsNode) (data : Bool) :
    Option Nat × Vfs :=
  if (s.findChild p parent name).isSome then (none, s)
  else if !memory .node then (none, s)
  else
    let made := s.allocNode (node name)
    if data ∧ !memory .data then (none, made)
    else match made.attach p (memory (.index 0)) parent s.nextNode with
      | none => (none, made)
      | some attached => (some s.nextNode, attached)

/-- What the functions share that make a node in a directory that has to be there. -/
def Vfs.createIn (path : Name) (node : Name → VfsNode) : Option Nat × Vfs :=
  match s.parentOf p memory 0 path with
  | none => (none, s)
  | some (parent, name) =>
    if (s.node parent).kind ≠ .directory then (none, s)
    else s.createAt p memory parent name node false

/-- What the functions share that make the directory too. -/
def Vfs.createBelow (path : Name) (node : Name → VfsNode) (data : Bool) : Option Nat × Vfs :=
  match s.parentOfCreate p memory path with
  | (none, s) => (none, s)
  | (some (parent, name), s) => s.createAt p memory parent name node data

/-- `vfs_create_file`. -/
def Vfs.createFile (path : Name) (length : Nat) (readonly : Bool) : Option Nat × Vfs :=
  s.createBelow p memory path (fun name => { newNode name .file with readonly }) (length ≠ 0)

/-- `vfs_create_symlink`. -/
def Vfs.createSymlink (path target : Name) (readonly : Bool) : Option Nat × Vfs :=
  if target = [] then (none, s)
  else s.createBelow p memory path
    (fun name => { newNode name .symlink with readonly, data := some target }) true

/-- `vfs_create_file_node`. -/
def Vfs.createFileNode (path : Name) : Option Nat × Vfs :=
  s.createIn p memory path fun name => newNode name .file

/-- `vfs_create_directory`. -/
def Vfs.createDirectory (path : Name) : Option Nat × Vfs :=
  s.createIn p memory path fun name => newNode name .directory

/-- `vfs_create_fifo`. -/
def Vfs.createFifo (path : Name) : Option Nat × Vfs :=
  s.createIn p memory path fun name => newNode name .pipe

/-- `vfs_create_device`. -/
def Vfs.createDevice (path : Name) (kind : NodeKind) : Option Nat × Vfs :=
  if kind ≠ .charDevice ∧ kind ≠ .blockDevice then (none, s)
  else s.createIn p memory path fun name => newNode name kind

/-- `vfs_create_socket_node`. -/
def Vfs.createSocketNode (path : Name) : Option Nat × Vfs :=
  s.createIn p memory path fun name => newNode name .socket

/-- `vfs_attach_link`: another name for a node that is not a directory. -/
def Vfs.attachLink (parent : Nat) (name : Name) (target : Nat) : Option Nat × Vfs :=
  let target := (s.node target).linkTarget.getD target
  if (s.node target).kind = .directory then (none, s)
  else if !memory .node then (none, s)
  else
    let made := s.allocNode { newNode name (s.node target).kind with linkTarget := some target }
    match made.attach p (memory (.index 0)) parent s.nextNode with
    | none => (none, made)
    | some attached =>
      (some s.nextNode,
        (attached.set target fun d => { d with links := d.links + 1 }).nodeRef target)

/-- The tree after `vfs_link`. -/
def Vfs.link (target : Nat) (path : Name) : Vfs :=
  let target := (s.node target).linkTarget.getD target
  if (s.node target).kind = .directory ∨ (s.node target).readonly then s
  else match s.parentOf p memory 0 path with
    | none => s
    | some (parent, name) =>
      if (s.node parent).kind ≠ .directory then s
      else if (s.findEntry parent name).isSome then s
      else (s.attachLink p memory parent name target).2

/-- The body of an entry. -/
def Vfs.body (x : Nat) : VfsNode := s.node ((s.node x).linkTarget.getD x)

/-- The tree after `vfs_remove`. -/
def Vfs.remove (path : Name) (removeDirectory : Bool) : Vfs :=
  match s.parentOf p memory 0 path with
  | none => s
  | some (parent, name) =>
    match s.findEntry parent name with
    | none => s
    | some x =>
      if (s.body x).readonly then s
      else if (removeDirectory ∧ ((s.node x).kind ≠ .directory ∨ (s.node x).children.isSome)) ∨
          (!removeDirectory ∧ (s.node x).kind = .directory) then s
      else match s.detachChild parent x with
        | none => s
        | some detached => detached.destroyNode x

/-- What `vfs_rename` does with an entry that has the new name: the tree without it, unless it has
    to stay. -/
def Vfs.displace (parent existing x : Nat) : Option Vfs :=
  if (s.body existing).readonly then none
  else if ((s.node existing).kind = .directory) ≠ ((s.node x).kind = .directory) then none
  else if (s.node existing).kind = .directory ∧ (s.node existing).children.isSome then none
  else (s.detachChild parent existing).map fun detached => detached.destroyNode existing

/-- The last part of `vfs_rename`. -/
def Vfs.move (oldParent x newParent : Nat) (name : Name) : Vfs :=
  match s.detachChild oldParent x with
  | none => s
  | some detached =>
    if !memory .name then
      (detached.attach p (memory (.index 0)) oldParent x).getD detached
    else
      let named := detached.set x ({ · with name := name.take vfsNameMax })
      (named.attach p (memory (.index 1)) newParent x).getD named

/-- The tree after `vfs_rename`. -/
def Vfs.rename (oldPath newPath : Name) : Vfs :=
  match s.parentOf p memory 0 oldPath, s.parentOf p memory 1 newPath with
  | some (oldParent, oldName), some (newParent, newName) =>
    if (s.node oldParent).kind ≠ .directory ∨ (s.node newParent).kind ≠ .directory then s
    else match s.findEntry oldParent oldName with
      | none => s
      | some x =>
        if (s.body x).readonly then s
        else
          let existing := (s.findEntry newParent newName).filter (· ≠ x)
          let displaced := match existing with
            | some existing => s.displace newParent existing x
            | none => some s
          match displaced with
          | none => s
          | some displaced =>
            if oldParent = newParent ∧ oldName = newName then displaced
            else displaced.move p memory oldParent x newParent newName
  | _, _ => s

end Tunix.Fs
