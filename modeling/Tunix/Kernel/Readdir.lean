import Tunix.Kernel.Vfs

/-!
# Directory listings

`vfs_readdir` with its cursor and `sys_getdents64`, from `kernel/fs/vfs.c` and
`kernel/core/syscall.c`, over the children of one directory. The lock of the file system is held for
one entry at a time, so other calls change the directory, and move the cursor, between two turns of
the loop of `sys_getdents64`.
-/

namespace Tunix.Fs

/-- A node in the list of children, under a name that `valid_component` has let pass. -/
structure Child where
  node : Nat
  name : Name
  length_le : name.length ≤ vfsNameMax
  deriving DecidableEq

/-- A directory, with the place where its last listing stopped. -/
structure Directory where
  children : List Child
  /-- `cursor_node` and `cursor_index`, while `cursor_directory` is this directory. -/
  cursor : Option (Nat × Nat)

variable (d : Directory)

/-- `vfs_attach` -/
def Directory.attach (child : Child) : Directory :=
  if d.children.any (·.name = child.name) then d else { d with children := d.children ++ [child] }

/-- `detach_child` -/
def Directory.detach (node : Nat) : Directory :=
  if d.children.any (·.node = node) then ⟨d.children.eraseP (·.node = node), none⟩ else d

/-- The list from a node on, as the links give it. -/
def Directory.listFrom (node : Nat) : List Child := d.children.dropWhile (·.node ≠ node)

/-- What `vfs_readdir` comes to: the list from the index on. -/
def Directory.seek (index : Nat) : List Child := match d.cursor with
  | none => d.children.drop index
  | some (node, cursorIndex) =>
    if index = cursorIndex + 1 ∧ d.children.any (·.node = node) then (d.listFrom node).tail
    else if index = cursorIndex ∧ d.children.any (·.node = node) then d.listFrom node
    else d.children.drop index

/-- `vfs_readdir`. What the `refresh` of a directory of a pseudo file system does to its children
    are attaches and detaches of their own (`ListingEvent`). -/
def Directory.readdir (index : Nat) : Option Child × Directory := match (d.seek index).head? with
  | none => (none, d)
  | some child => (some child, { d with cursor := some (child.node, index) })

/-- The two entries that `sys_getdents64` makes up, and the children. -/
inductive Dirent
  | self
  | parent
  | child (c : Child)
  deriving DecidableEq

/-- The length of the name. -/
def Dirent.nameLength : Dirent → Nat
  | .self => 1
  | .parent => 2
  | .child c => c.name.length

/-- The length of the record, rounded up to eight bytes. -/
def Dirent.recordLength (entry : Dirent) : Nat := (19 + (entry.nameLength + 1) + 7) / 8 * 8

/-- An open directory and the call of `sys_getdents64` that is going on. -/
structure Listing where
  directory : Directory
  /-- `file->offset` -/
  offset : Nat
  /-- `length` and `written` of the call. -/
  call : Option (Nat × Nat)
  /-- The records that have been copied out. -/
  returned : List Dirent
  /-- A call has returned 0. -/
  finished : Bool

variable (s : Listing)

/-- The entry at the offset. -/
def Listing.entry : Option Dirent × Directory :=
  if s.offset = 0 then (some .self, s.directory)
  else if s.offset = 1 then (some .parent, s.directory)
  else
    let (child, directory) := s.directory.readdir (s.offset - 2)
    (child.map .child, directory)

/-- `return (int64_t)written` -/
def Listing.leave (written : Nat) : Listing := { s with call := none, finished := written = 0 }

/-- One turn of the loop; `copied` is whether `copy_to_user` succeeds. -/
def Listing.turn (copied : Bool) (length written : Nat) : Listing :=
  if length < written + 24 then s.leave written
  else
    let (entry, directory) := s.entry
    let s := { s with directory }
    match entry with
    | none => s.leave written
    | some entry =>
      if length < written + entry.recordLength then s.leave written
      else if !copied then { s with call := none }
      else { s with
        call := some (length, written + entry.recordLength)
        offset := s.offset + 1
        returned := s.returned ++ [entry] }

/-- What happens under one hold of the lock. A new entry is attached and a removed one detached; a
    rename detaches the entry that has the new name, detaches the node and attaches it again. -/
inductive ListingEvent
  | attach (child : Child)
  | detach (node : Nat)
  /-- Another directory takes the cursor. -/
  | elsewhere
  | enter (length : Nat)
  | turn (copied : Bool)

/-- A step until a call returns 0. A node that is attached is new or was detached before. -/
def Listing.step (event : ListingEvent) : Option Listing :=
  if s.finished then none
  else match event, s.call with
    | .attach child, _ =>
      if s.directory.children.any (·.node = child.node) then none
      else some { s with directory := s.directory.attach child }
    | .detach node, _ => some { s with directory := s.directory.detach node }
    | .elsewhere, _ => some { s with directory := { s.directory with cursor := none } }
    | .enter length, none => some { s with call := some (length, 0) }
    | .turn copied, some (length, written) => some (s.turn copied length written)
    | _, _ => none

end Tunix.Fs
