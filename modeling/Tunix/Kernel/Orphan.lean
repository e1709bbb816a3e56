import Mathlib.Logic.Function.Basic

/-!
# Orphans

`kernel/fs/ext4/orphan.c`: the inodes without a name that are still open, as a volume records them
so that the next mount frees them. The record has a slot in the orphan file or, if no slot is free,
a place in a list that starts in the superblock and goes on in the `i_dtime` of the inodes. All
blocks can be read and written; the checksums of the orphan file and its flag, which the mount does
not look at, are left out.
-/

namespace Tunix.Orphan

/-- What the functions read and change of a volume. -/
structure Volume where
  /-- `s_inodes_count`. -/
  inodesCount : Nat
  /-- The slots of the orphan file, block after block. -/
  slots : List Nat
  /-- `s_last_orphan`. -/
  lastOrphan : Nat
  /-- `i_dtime` of each inode. -/
  dtime : Nat → Nat

/-- The deletion time of an inode, which also links the list. -/
def Volume.setDtime (v : Volume) (ino time : Nat) : Volume :=
  { v with dtime := Function.update v.dtime ino time }

/-- The loops over the slots: the first slot with one value gets another one. -/
def replaceSlot (old new : Nat) : List Nat → Option (List Nat)
  | [] => none
  | slot :: rest =>
    if slot ≠ old then (replaceSlot old new rest).map (slot :: ·) else some (new :: rest)

/-- `orphan_add`: into a free slot, or else at the head of the list. -/
def orphanAdd (v : Volume) (ino : Nat) : Volume := match replaceSlot 0 ino v.slots with
  | some slots => { v with slots }
  | none => { v.setDtime ino v.lastOrphan with lastOrphan := ino }

/-- The walk of `orphan_remove` to the inode before `ino`, with the turns that are left; -1 is
    `none`. When the turns are used up, the walk has an inode and the function goes on. -/
def unlinkWalk (v : Volume) (ino following : Nat) : Nat → Nat → Option Volume
  | 0, walk => if walk = 0 then none else some v
  | guard + 1, walk =>
    if walk = 0 then none
    else if walk > v.inodesCount then none
    else if v.dtime walk = ino then some (v.setDtime walk following)
    else unlinkWalk v ino following guard (v.dtime walk)

/-- `orphan_remove`; -1, with nothing changed, is `none`. -/
def orphanRemove (v : Volume) (ino : Nat) : Option Volume := match replaceSlot ino 0 v.slots with
  | some slots => some { v with slots }
  | none =>
    let following := v.dtime ino
    let unlinked :=
      if v.lastOrphan = ino then some { v with lastOrphan := following }
      else unlinkWalk v ino following 4096 v.lastOrphan
    unlinked.map (·.setDtime ino 0)

/-- The loop over the list in `orphans_replay`: the inodes given to `settle_one`, which leaves
    another time in the inode. -/
def replayList (settled : Nat → Nat) : Volume → Nat → Nat → List Nat
  | _, 0, _ => []
  | v, guard + 1, next =>
    if next = 0 ∨ next > v.inodesCount then []
    else next :: replayList settled (v.setDtime next (settled next)) guard (v.dtime next)

/-- `orphans_replay`: the inodes given to `settle_one`. -/
def orphansReplay (settled : Nat → Nat) (v : Volume) : List Nat :=
  replayList settled v v.inodesCount v.lastOrphan ++
    v.slots.filter fun ino => ino ≠ 0 ∧ ino ≤ v.inodesCount

end Tunix.Orphan
