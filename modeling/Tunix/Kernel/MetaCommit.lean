import Tunix.Kernel.Jbd2

/-!
# Committing the metadata of a volume

Model of `commit_prepare`, `commit_write` and `commit_volume` in `kernel/fs/ext4/super.c`: the
dirty buffers are copied, sorted by their blocks and handed to the journal, or written to their
places on a volume without one. The buffers are those of the cache once `stage_groups` and
`stage_superblock` have put their data into them; memory is available. What `commit_finish` does
to the flags of the buffers does not reach the device and is left out.
-/

namespace Tunix.MetaCommit

open Jbd2

/-- A cached block of metadata. -/
structure MetaBuffer where
  block : UInt64
  data : Block
  dirty : Bool

/-- The journal, the device and the cached blocks. -/
structure Volume where
  journal : Option Journal
  dev : Dev
  blockSize : Nat
  /-- From `lru_head` on. -/
  buffers : List MetaBuffer

/-! ## The plan -/

/-- The inner loop of `sort_blocks`: the entry at `at_` moves down in steps of `gap` while the one
    below it has a larger target. The source keeps it in its hands and shifts the others up. -/
def sift (gap : Nat) : Nat → Nat → Array Entry → Array Entry
  | 0, _, xs => xs
  | fuel + 1, at_, xs =>
    if h : at_ < xs.size then
      if gap ≤ at_ ∧ (xs[at_ - gap]).1 > (xs[at_]).1 then
        sift gap fuel (at_ - gap) (xs.swap at_ (at_ - gap))
      else xs
    else xs

/-- The outer loop of `sort_blocks`; the gap halves, so as many rounds as blocks are enough. -/
def sortGaps : Nat → Nat → Array Entry → Array Entry
  | 0, _, xs => xs
  | fuel + 1, gap, xs =>
    if gap = 0 then xs
    else
      sortGaps fuel (gap / 2)
        ((List.range' gap (xs.size - gap)).foldl (fun xs index => sift gap (index + 1) index xs) xs)

/-- `sort_blocks`. -/
def sortBlocks (xs : Array Entry) : Array Entry := sortGaps xs.size (xs.size / 2) xs

/-- The dirty buffers in the order of the cache. -/
def dirtyEntries (v : Volume) : List Entry :=
  (v.buffers.filter MetaBuffer.dirty).map fun b => (b.block, b.data)

/-- The blocks of the plan that `commit_prepare` makes. -/
def commitPrepare (v : Volume) : List Entry := (sortBlocks (dirtyEntries v).toArray).toList

/-! ## Writing it -/

/-- `EXT4_RUN_BYTES`, with the largest block of ext4 that of the journal. -/
def runBytes : Nat := 32 * maxBlockSize

/-- The blocks from the first on that lie behind one another, at most `perRun` of them. -/
def runLength (perRun : Nat) : List Entry → Nat
  | [] => 0
  | e :: rest =>
    ((rest.zipIdx 1).takeWhile fun (f, run) => run < perRun ∧
      f.1 = e.1 + UInt64.ofNat run).length + 1

/-- The loop of `commit_write` on a volume without a journal. -/
def writeRuns (perRun : Nat) : Nat → List Entry → Dev → Bool × Dev
  | 0, _, d => (true, d)
  | fuel + 1, plan, d =>
    if plan = [] then (true, d)
    else
      match d.write (plan.take (runLength perRun plan)) with
      | (false, d) => (false, d)
      | (true, d) => writeRuns perRun fuel (plan.drop (runLength perRun plan)) d

/-- `commit_write`: the planned blocks go to the device. -/
def commitWrite (v : Volume) (plan : List Entry) (now : Nat → UInt64) : Bool × Volume :=
  if plan = [] then (true, v)
  else
    match v.journal with
    | some journal =>
      let (ok, s) := journalCommit ⟨journal, v.dev⟩ plan now
      (ok, { v with journal := some s.journal, dev := s.dev })
    | none =>
      let (ok, dev) := writeRuns (runBytes / v.blockSize) plan.length plan v.dev
      (ok, { v with dev })

/-- `commit_volume`. -/
def commitVolume (v : Volume) (now : Nat → UInt64) : Bool × Volume :=
  commitWrite v (commitPrepare v) now

end Tunix.MetaCommit
