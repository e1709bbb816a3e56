import Mathlib.Data.List.Sort
import Tunix.ForStd.Bytes
import Tunix.Kernel.Cred

/-!
# Access control lists

`apply` of `kernel/fs/acl.c`: an attribute's value is checked and becomes the mode and the list of
named entries of a node. What a list with named entries then allows is in `Kernel.Cred`. The named
entries are collected at the front of the array that is read; the front never overtakes the reader,
so they are a list of their own here.
-/

namespace Tunix.Core

open Bytes

/-- `ACL_VERSION`. -/
def aclVersion : UInt32 := 2
/-- `ACL_MAX_ENTRIES`. -/
def aclMaxEntries : Nat := 64

/-- `struct acl_entry`. -/
structure RawEntry where
  tag : UInt16
  perm : UInt16
  id : UInt32

/-- The entries that a list has at most once. -/
inductive Single
  | userObj
  | groupObj
  | mask
  | other
  deriving DecidableEq

/-- The tags of entries: each of the single ones once, the others with a number. -/
inductive Tag
  | single (which : Single)
  | named (tag : AclTag)
  deriving DecidableEq

/-- The tag of a code. -/
def Tag.ofCode (code : UInt16) : Option Tag :=
  if code = 0x01 then some (.single .userObj)
  else if code = 0x02 then some (.named .user)
  else if code = 0x04 then some (.single .groupObj)
  else if code = 0x08 then some (.named .group)
  else if code = 0x10 then some (.single .mask)
  else if code = 0x20 then some (.single .other)
  else none

/-- The entries behind the version. -/
def rawEntries (value : Buffer) (total : Nat) : List RawEntry := (List.range total).map fun index =>
    ⟨loadLe16 value (4 + 8 * index), loadLe16 value (6 + 8 * index), loadLe32 value (8 + 8 * index)⟩

/-- What the loop over the entries has found. -/
structure Scan where
  single : Single → Option UInt32
  named : List AclEntry

/-- The scan before the first entry. -/
def Scan.empty : Scan := ⟨fun _ => none, []⟩

/-- One turn of the loop, if the entry is accepted. -/
def Scan.add (scan : Scan) (entry : RawEntry) : Option Scan :=
  if 7 < entry.perm then none
  else
    match Tag.ofCode entry.tag with
    | none => none
    | some (.single which) =>
      if (scan.single which).isSome then none
      else some { scan with single := Function.update scan.single which (some entry.perm.toUInt32) }
    | some (.named tag) =>
      some { scan with named := scan.named ++ [⟨tag, entry.perm.toUInt32, entry.id⟩] }

/-- The code of a tag, by which entries are ordered. -/
def AclTag.code : AclTag → Nat
  | .user => 0x02
  | .group => 0x08

/-- `entry_before`: by tag and then by number. -/
def entryBefore (a b : AclEntry) : Bool :=
  if a.tag ≠ b.tag then a.tag.code < b.tag.code else a.id < b.id

/-- The insertion sort of the named entries. What is sorted already is kept with its last entry
    first, since an entry sinks from there. -/
def sortEntries (named : List AclEntry) : List AclEntry :=
  (named.foldl
    (fun front key => front.orderedInsert (fun a b => entryBefore a b = false) key) []).reverse

/-- Two entries next to each other have the same tag and id. -/
def hasTwins : List AclEntry → Bool
  | a :: b :: rest => (b.tag = a.tag && b.id = a.id) || hasTwins (b :: rest)
  | _ => false

/-- `apply`. `memory` says whether the new list can be allocated. -/
def Access.apply (access : Access) (value : Buffer) (size : Nat) (memory : Bool) :
    Except Errno Access :=
  if size < 4 ∨ (size - 4) % 8 ≠ 0 then .error .inval
  else if loadLe32 value 0 ≠ aclVersion then .error .inval
  else
    let total := (size - 4) / 8
    if total < 3 ∨ aclMaxEntries < total then .error .inval
    else
      match (rawEntries value total).foldlM Scan.add Scan.empty with
      | none => .error .inval
      | some scan =>
        match scan.single .userObj, scan.single .groupObj, scan.single .other with
        | some userObj, some groupObj, some other =>
          if scan.named ≠ [] ∧ scan.single .mask = none then .error .inval
          else
            let entries := sortEntries scan.named
            if hasTwins entries then .error .inval
            else if entries ≠ [] ∧ memory = false then .error .noMem
            else
              let groupBits := if entries ≠ [] then (scan.single .mask).getD 0 else groupObj
              .ok { access with
                mode := (access.mode &&& ~~~(0o777 : UInt32)) ||| (userObj <<< 6) |||
                  (groupBits <<< 3) ||| other
                acl := if entries ≠ [] then some ⟨groupObj, entries⟩ else none }
        | _, _, _ => .error .inval

end Tunix.Core
