import Tunix.ForStd.Run
import Tunix.Spec.Balloc

/-!
# Deferred frees

`free_block` queues the blocks it is given, so that they are not allocated again before the commit
that records their release is on disk. The system here is a volume together with the blocks that
wait for such a commit; a commit is in flight between `commit_prepare` and `commit_finish`, and
while it is, the volume can be used. The queue is emptied by `commit_prepare` already, so waiting
blocks are safe only as long as they are queued (`fresh_of_queued`).
-/

namespace Tunix.Ext4

open Bytes Steps

/-! ## The system -/

structure Deferred where
  volume : Volume
  /-- A commit is between `commit_prepare` and `commit_finish`. -/
  committing : Bool
  /-- The blocks given to `free_block` that no commit has taken up. -/
  since : List Nat
  /-- The blocks whose release the commit in flight records. -/
  carried : List Nat

/-- The blocks whose release is not recorded on the disk yet. -/
def Deferred.awaiting (s : Deferred) : List Nat := s.since ++ s.carried

/-- The sections that run under the lock of the volumes. -/
inductive Section
  | alloc (goal : Nat) (below4g : Bool)
  | free (block : Nat)
  /-- `commit_prepare`, which may fail after it has emptied the queue. -/
  | prepare (ok : Bool)
  /-- `commit_finish`, with the outcome of `commit_write`. -/
  | finish (ok : Bool)

def Deferred.step (s : Deferred) : Section → Option Deferred
  | .alloc goal below4g => some { s with volume := (allocBlock s.volume goal below4g).2 }
  | .free block =>
    some { s with
      volume := freeBlock s.volume block
      since := if s.volume.geometry.contains block then block :: s.since else s.since }
  | .prepare ok =>
    -- the lock for commits is held until `commit_finish`
    if s.committing then none
    else
      let volume := applyPendingFrees s.volume
      some (if ok then ⟨volume, true, [], s.awaiting⟩ else { s with volume })
  | .finish ok =>
    if s.committing then
      some { s with
        committing := false
        since := if ok then s.since else s.awaiting
        carried := [] }
    else none

/-- A volume that has just been mounted, with its bitmaps on different blocks. -/
structure Deferred.Mounted (s : Deferred) : Prop where
  bitmaps : s.volume.bitmapBlocks.Nodup
  queue : s.volume.pendingFree = []
  awaiting : s.awaiting = []
  idle : s.committing = false

/-- An allocation gives no block that waits for its commit. -/
def Deferred.Fresh (s : Deferred) : Section → Prop
  | .alloc goal below4g =>
    (allocBlock s.volume goal below4g).1 = 0 ∨ (allocBlock s.volume goal below4g).1 ∉ s.awaiting
  | _ => True

/-- Allocations are made only while all blocks that wait are queued, and a block that is freed is in
    use, is not queued and holds no bitmap. -/
def Deferred.Queued (s : Deferred) : Section → Prop
  | .alloc _ _ => ∀ block ∈ s.awaiting, block ∈ s.volume.pendingFree
  | .free block => s.volume.geometry.contains block →
    (s.volume.inUse block ∧ block ∉ s.volume.pendingFree) ∧ block ∉ s.volume.bitmapBlocks
  | _ => True

instance (s : Deferred) : DecidablePred s.Fresh
  | .alloc _ _ => inferInstanceAs (Decidable (_ ∨ _))
  | .free _ => isTrue trivial
  | .prepare _ => isTrue trivial
  | .finish _ => isTrue trivial

instance (s : Deferred) : DecidablePred s.Queued
  | .alloc _ _ => inferInstanceAs (Decidable (∀ _ ∈ s.awaiting, _))
  | .free _ => inferInstanceAs (Decidable (_ → _))
  | .prepare _ => isTrue trivial
  | .finish _ => isTrue trivial

/-! ## The queue -/

/-- The queued blocks are blocks of the volume, and in use. -/
def Volume.QueueInUse (v : Volume) : Prop :=
  ∀ block ∈ v.pendingFree, v.geometry.contains block ∧ v.inUse block

private theorem Volume.QueueInUse.alloc {v : Volume} (h : v.QueueInUse) (goal : Nat)
    (below4g : Bool) :
    (allocBlock v goal below4g).2.QueueInUse := by
  intro block hblock
  rcases allocBlock_spec v goal below4g with ⟨-, hsame⟩ | htaken
  · rw [hsame.pendingFree] at hblock
    rw [hsame.geometry, hsame.inUse]
    exact h block hblock
  · rw [htaken.pendingFree] at hblock
    obtain ⟨hcontains, hused⟩ := h block hblock
    rw [htaken.geometry, htaken.inUse block hcontains, hused, Bool.or_true]
    exact ⟨hcontains, rfl⟩

/-- A block that is freed joins the queue, or is released at once when there is no memory. -/
theorem freeBlock_spec {v : Volume} {block : Nat} (hcontains : v.geometry.contains block) :
    ((freeBlock v block).pendingFree = v.pendingFree ++ [block] ∧
      (freeBlock v block).geometry = v.geometry ∧
      ∀ other, (freeBlock v block).inUse other = v.inUse other) ∨
    Released v block (freeBlock v block) := by
  have htake : SameBitmaps v v.takeMalloc.2 := ⟨rfl, rfl, fun _ => rfl⟩
  unfold freeBlock
  rw [hcontains, if_neg (by decide)]
  split_ifs
  · split
    next w hmalloc =>
      rw [hmalloc] at htake
      obtain ⟨hgeometry, hqueue, hused⟩ := releaseBlockNow_spec w block
      refine .inr ⟨hgeometry.trans htake.geometry, hqueue.trans htake.pendingFree,
        fun other hother hne => ?_⟩
      rw [hused other (htake.geometry ▸ hother) hne, htake.inUse]
    next w hmalloc =>
      rw [hmalloc] at htake
      exact .inl ⟨congrArg (· ++ [block]) htake.pendingFree, htake.geometry, htake.inUse⟩
  · exact .inl ⟨rfl, rfl, fun _ => rfl⟩

private theorem Volume.QueueInUse.free {v : Volume} (h : v.QueueInUse) {block : Nat}
    (hfree : v.geometry.contains block → v.inUse block ∧ block ∉ v.pendingFree) :
    (freeBlock v block).QueueInUse := by
  by_cases hcontains : v.geometry.contains block
  · obtain ⟨hused, hnew⟩ := hfree hcontains
    intro other hother
    rcases freeBlock_spec hcontains with ⟨hqueue, hgeometry, hsame⟩ | hreleased
    · rw [hgeometry, hsame]
      rw [hqueue, List.mem_append, List.mem_singleton] at hother
      rcases hother with hother | rfl
      · exact h other hother
      · exact ⟨hcontains, hused⟩
    · -- the block released is not one of those that are queued
      rw [hreleased.pendingFree] at hother
      obtain ⟨hother', hused'⟩ := h other hother
      rw [hreleased.geometry, hreleased.inUse other hother' fun heq => hnew (heq ▸ hother)]
      exact ⟨hother', hused'⟩
  · have hsame : freeBlock v block = v := by
      unfold freeBlock
      rw [if_pos (by simpa using hcontains)]
    rwa [hsame]

private theorem queueInUse_applyPendingFrees (v : Volume) : (applyPendingFrees v).QueueInUse :=
  fun _ hblock => absurd hblock List.not_mem_nil

/-! ## Runs -/

/-- A section keeps the queue in use if it is entered as `Queued` asks. -/
theorem Deferred.step_queueInUse (s : Deferred) (a : Section) (t : Deferred)
    (h : s.volume.QueueInUse) (hq : s.Queued a) (hstep : s.step a = some t) :
    t.volume.QueueInUse := by
  cases a with
  | alloc goal below4g =>
    obtain rfl := Option.some.inj hstep
    exact h.alloc goal below4g
  | free block =>
    obtain rfl := Option.some.inj hstep
    exact h.free fun hcontains => (hq hcontains).1
  | prepare ok =>
    simp only [Deferred.step] at hstep
    split_ifs at hstep
    all_goals
      obtain rfl := Option.some.inj hstep
      exact queueInUse_applyPendingFrees s.volume
  | finish ok =>
    simp only [Deferred.step] at hstep
    split_ifs at hstep
    all_goals
      obtain rfl := Option.some.inj hstep
      exact h

/-- An allocation takes a block that is not in use, and the blocks that wait are in use as long as
    they are queued. -/
theorem Deferred.fresh_of_queueInUse (s : Deferred) (a : Section) (h : s.volume.QueueInUse)
    (hq : s.Queued a) : s.Fresh a := by
  cases a with
  | alloc goal below4g =>
    rcases allocBlock_spec s.volume goal below4g with ⟨hnone, -⟩ | htaken
    · exact .inl hnone
    refine .inr fun hwaits => ?_
    have hused := (h _ (hq _ hwaits)).2
    rw [htaken.free] at hused
    exact Bool.false_ne_true hused
  | free block => trivial
  | prepare ok => trivial
  | finish ok => trivial

/-- A volume of eight blocks, all of them in use. -/
def fullVolume : Volume where
  geometry :=
    { blockSize := 1024, groupCount := 1, firstDataBlock := 1, blocksPerGroup := 8,
      blocksCount := 9, inodesPerGroup := 8, inodesPerBlock := 8, gdPerBlock := 32, gdBlocks := 1,
      reservedGdtBlocks := 0, firstMetaBg := 0, backupBgs := (0, 0), wideDesc := false,
      has64Bit := false, hasMetaBg := false, hasSparseSuper2 := false, hasSparseSuper := true,
      hasGroupCsum := false }
  groups := fun _ =>
    { blockBitmap := 3, inodeBitmap := 4, inodeTable := 5, freeBlocks := 0, blockUninit := false }
  bitmaps := fun _ _ => 0xFF
  groupDirty := fun _ => 0
  sbFreeBlocks := 0
  blockCursorGroup := 0
  blockCursorBit := 0
  pendingFree := []
  pendingFreeCapacity := 0
  reads := []
  mallocs := []

def fullMounted : Deferred := ⟨fullVolume, false, [], []⟩

end Tunix.Ext4
