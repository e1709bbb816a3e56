import Mathlib.Algebra.Group.Nat.Defs
import Mathlib.Order.Nat
import Tunix.ForStd.Treap

/-!
# The memory areas of a process

`kernel/core/process.c`, from `area_alloc` to `process_protect_area`. The areas of a process are
kept twice: in a search tree by start, which is a heap on their priorities, and in a list. The
pointers of an area are kept field by field, as functions of its address; what it says about memory
is its `VmArea`. The references that an area holds on its file are left out.

`kmalloc` answers a request with a block that is not in use, or not at all. What it answers may
depend on anything, so a call is given all its answers, by the number of the request.
-/

namespace Tunix.Core

open PointerTree (Links)

/-- `struct vm_area`: what its pages are, apart from the links. -/
structure VmArea where
  start : Nat
  end_ : Nat
  pageFlags : UInt64
  kind : UInt32
  file : Option Nat
  offset : UInt64
  priority : Nat
deriving DecidableEq

/-- The areas of a process, in a tree and in a list. -/
structure AreaSet where
  area : Nat → VmArea
  /-- `left`, `right` and `parent` of the areas, and `area_root`. -/
  tree : Links Nat
  next : Nat → Option Nat
  prev : Nat → Option Nat
  areas : Option Nat
  /-- The blocks in use. -/
  live : List Nat
  /-- The number of requests to `kmalloc` so far. -/
  requests : Nat

/-- The allocator of areas, which gives no address that is in use. -/
structure Kmalloc where
  answer : Nat → List Nat → Option Nat
  unused : ∀ request live x, answer request live = some x → x ∉ live

/-- The priority is a hash of the address. -/
def areaPriority (address : Nat) : Nat := (address >>> 4 * 0x9E3779B97F4A7C15 % 2 ^ 64) >>> 32

variable (s : AreaSet) (m : Kmalloc)

/-- `area_alloc`. -/
def AreaSet.areaAlloc (start end_ : Nat) (pageFlags : UInt64) (kind : UInt32)
    (file : Option Nat) (offset : UInt64) : Option Nat × AreaSet :=
  let answer := m.answer s.requests s.live
  let s := { s with requests := s.requests + 1 }
  match answer with
  | none => (none, s)
  | some x =>
    (some x, { s with
      area := Function.update s.area x ⟨start, end_, pageFlags, kind, file, offset, areaPriority x⟩
      tree := { s.tree with
        left := Function.update s.tree.left x none
        right := Function.update s.tree.right x none
        parent := Function.update s.tree.parent x none }
      next := Function.update s.next x none
      prev := Function.update s.prev x none
      live := x :: s.live })

/-- `area_free`. -/
def AreaSet.areaFree (x : Nat) : AreaSet := { s with live := s.live.erase x }

/-- `area_at_or_before`: the last area that starts no later. -/
def AreaSet.areaAtOrBefore (address : Nat) : Option Nat :=
  s.tree.lastUpTo (fun x => (s.area x).start ≤ address) s.live.length none s.tree.root

/-- `area_first_ending_after`. -/
def AreaSet.areaFirstEndingAfter (address : Nat) : Option Nat := match s.areaAtOrBefore address with
  | none => s.areas
  | some x => if (s.area x).end_ > address then some x else s.next x

/-- The part of `area_insert` that puts the area into the tree. -/
def AreaSet.treeInsert (x : Nat) : AreaSet :=
  let goesLeft := fun y => decide ((s.area x).start < (s.area y).start)
  let link := s.tree.descend goesLeft s.live.length none s.tree.root
  { s with tree :=
    Links.siftUp (fun y => (s.area y).priority) x s.live.length (s.tree.attach link x) }

/-- The part of `area_insert` that puts the area into the list, behind `before`. -/
def AreaSet.listInsert (x : Nat) (before : Option Nat) : AreaSet :=
  let next := match before with
    | some b => s.next b
    | none => s.areas
  let s := { s with prev := Function.update s.prev x before, next := Function.update s.next x next }
  let s := match next with
    | some n => { s with prev := Function.update s.prev n (some x) }
    | none => s
  match before with
  | some b => { s with next := Function.update s.next b (some x) }
  | none => { s with areas := some x }

/-- `area_insert`: into the tree, and into the list behind the area before it. -/
def AreaSet.areaInsert (x : Nat) : AreaSet :=
  let s := s.treeInsert x
  let start := (s.area x).start
  s.listInsert x (if start = 0 then none else s.areaAtOrBefore (start - 1))

/-- The part of `area_remove` that takes the area out of the tree. -/
def AreaSet.treeRemove (x : Nat) : AreaSet :=
  { s with tree := (Links.sink (fun y => (s.area y).priority) x s.live.length s.tree).detach x }

/-- The part of `area_remove` that takes the area out of the list. -/
def AreaSet.listRemove (x : Nat) : AreaSet :=
  let s' := match s.prev x with
    | some b => { s with next := Function.update s.next b (s.next x) }
    | none => { s with areas := s.next x }
  let s' := match s.next x with
    | some n => { s' with prev := Function.update s'.prev n (s.prev x) }
    | none => s'
  { s' with next := Function.update s'.next x none, prev := Function.update s'.prev x none }

/-- `area_remove`. -/
def AreaSet.areaRemove (x : Nat) : AreaSet := (s.treeRemove x).listRemove x

/-- What an area says about memory is changed in place. -/
def AreaSet.setArea (x : Nat) (a : VmArea) : AreaSet :=
  { s with area := Function.update s.area x a }

/-- `area_split_at`: the part from `cut` on becomes an area of its own. -/
def AreaSet.areaSplitAt (x cut : Nat) : Option Nat × AreaSet :=
  let a := s.area x
  match s.areaAlloc m cut a.end_ a.pageFlags a.kind
    a.file (a.offset + UInt64.ofNat (cut - a.start)) with
  | (none, s) => (none, s)
  | (some tail, s) => (some tail, (s.setArea x { s.area x with end_ := cut }).areaInsert tail)

/-- The loop of `process_unmap_area`. -/
def AreaSet.unmapLoop (m : Kmalloc) (start end_ : Nat) : Nat → AreaSet → Option Nat → AreaSet
  | 0, s, _ => s
  | _ + 1, s, none => s
  | turns + 1, s, some x =>
    let a := s.area x
    if a.start < end_ then
      let next := s.next x
      if start ≤ a.start ∧ a.end_ ≤ end_ then
        unmapLoop m start end_ turns ((s.areaRemove x).areaFree x) next
      else if a.start < start ∧ end_ < a.end_ then
        let s := (s.areaSplitAt m x end_).2
        s.setArea x { s.area x with end_ := start }
      else if a.start < start then
        unmapLoop m start end_ turns (s.setArea x { a with end_ := start }) next
      else
        let offset := a.offset + UInt64.ofNat (end_ - a.start)
        unmapLoop m start end_ turns (s.setArea x { a with offset := offset, start := end_ }) next
    else s

/-- `process_unmap_area`. -/
def AreaSet.processUnmapArea (start end_ : Nat) : AreaSet :=
  if end_ ≤ start then s
  else unmapLoop m start end_ (s.live.length + 1) s (s.areaFirstEndingAfter start)

/-- `process_map_area`. -/
def AreaSet.processMapArea (start end_ : Nat) (pageFlags : UInt64)
    (kind : UInt32) (file : Option Nat) (offset : UInt64) : Int × AreaSet :=
  if end_ ≤ start then (-1, s)
  else
    let s := s.processUnmapArea m start end_
    match s.areaAlloc m start end_ pageFlags kind file offset with
    | (none, s) => (-1, s)
    | (some x, s) => (0, s.areaInsert x)

/-- The loop of `process_protect_area`. -/
def AreaSet.protectLoop (m : Kmalloc) (start end_ : Nat) (pageFlags : UInt64) :
    Nat → AreaSet → Option Nat → AreaSet
  | 0, s, _ => s
  | _ + 1, s, none => s
  | turns + 1, s, some x =>
    let a := s.area x
    if a.start < end_ then
      if a.start < start ∨ end_ < a.end_ then
        match s.areaSplitAt m x (if a.start < start then start else end_) with
        | (none, s) => protectLoop m start end_ pageFlags turns s (s.next x)
        | (some tail, s) =>
          if (s.area x).start < start then protectLoop m start end_ pageFlags turns s (some tail)
          else
            let s := s.setArea x { s.area x with pageFlags := pageFlags }
            protectLoop m start end_ pageFlags turns s (s.next x)
      else
        let s := s.setArea x { a with pageFlags := pageFlags }
        protectLoop m start end_ pageFlags turns s (s.next x)
    else s

/-- `process_protect_area`. -/
def AreaSet.processProtectArea (start end_ : Nat) (pageFlags : UInt64) : AreaSet :=
  if end_ ≤ start then s
  else protectLoop m start end_ pageFlags (s.live.length + 3) s (s.areaFirstEndingAfter start)

/-- A process has no areas at first. -/
def noAreas : AreaSet :=
  { area := fun _ => ⟨0, 0, 0, 0, none, 0, 0⟩
    tree := { left := fun _ => none, right := fun _ => none, parent := fun _ => none, root := none }
    next := fun _ => none
    prev := fun _ => none
    areas := none
    live := []
    requests := 0 }

end Tunix.Core
