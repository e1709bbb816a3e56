import Tunix.Kernel.MetaCommit
import Tunix.Spec.JournalRetry
import Mathlib.Algebra.Order.BigOperators.Group.List

/-!
# The capacity of the log

`jbd2_journal_capacity` says how many blocks one transaction can take, by a closed formula with
rounding; `log_transaction` writes one descriptor for each batch of tags, steps round the log
area and ends with the commit block. A commit of more blocks than the capacity is cut into several
transactions.

## Key results

- `fitsLog_iff`: the blocks of every transaction within the capacity go to distinct positions of
  the log area exactly if two sums of 32-bit words do not overflow
- `commitVolume_whole`: a commit of the metadata within the capacity is recovered as a whole or not
  at all
- `crowded_not_whole`: one beyond the capacity may be recovered in part
-/

namespace Tunix.Jbd2

open Bytes List

/-! ## Distinct positions -/

/-- The log blocks of a transaction (descriptors, data blocks and the commit block) are written
    one after the other to distinct positions of the log area. What `log_transaction` asks of the
    device, from an empty gather buffer on, are the writes of the plan and the commit block. -/
structure FitsLog (j : Layout) (sequence : UInt32) (entries : List Entry) : Prop where
  planned : ∀ s now, s.journal.toLayout = j → s.journal.sequence = sequence →
    (logTransaction s entries now).1 = true → ∃ ws disk, Plan j sequence entries ws disk ∧
      (s.journal.gather = [] →
        Runs s [ws, [(disk, commitOf j sequence entries now)]] (logTransaction s entries now))
  distinct : (positions j (transactionLength j sequence entries)).Nodup
  inside : ∀ p ∈ positions j (transactionLength j sequence entries), InArea j p

section FitsLog

variable {j : Layout} (h : Opened j)

include h

/-- Every batch carries at most one descriptor's worth of entries. -/
private theorem length_le_batches (entries : List Entry) :
    entries.length ≤ (batchesOf j entries).length * tagsPerDescriptor j := by
  have hsum : ((batchesOf j entries).map length).sum ≤
      ((batchesOf j entries).map length).length • tagsPerDescriptor j :=
    sum_le_card_nsmul _ _ fun n hn => by
      obtain ⟨batch, hb, rfl⟩ := mem_map.mp hn
      exact (batchesOf_valid h.blockSize_ge entries batch hb).2
  rw [← length_flatten, batchesOf_flatten h.blockSize_ge, length_map] at hsum
  exact hsum

private theorem fitsLog_of_capacity (hlt : j.first < j.last)
    (hwrap : j.last - j.first - 2 + tagsPerDescriptor j < 2 ^ 32) (sequence : UInt32)
    {entries : List Entry} (hcap : entries.length ≤ journalCapacity j) :
    FitsLog j sequence entries where
  planned := by
    rintro s now rfl rfl hok
    obtain ⟨ws, disk, hplan⟩ := plan_of_logTransaction hok
    exact ⟨ws, disk, hplan, fun hgather => (logTransaction_runs hplan hgather now).1⟩
  distinct := by
    have hroom := capacity_room h hlt hwrap hcap
    apply h.positions_nodup
    rw [transactionLength_eq h.blockSize_ge]
    omega
  inside := by
    intro p hp
    obtain ⟨i, -, rfl⟩ := mem_map.mp hp
    exact h.iterate_inArea hlt i

/-- The blocks of a transaction that fits are no more than the log area has. -/
private theorem FitsLog.length_le {sequence : UInt32} {entries : List Entry}
    (hfits : FitsLog j sequence entries) :
    entries.length + (batchesOf j entries).length + 1 ≤ j.last - j.first := by
  have hsub : positions j (transactionLength j sequence entries) ⊆
      range' j.first (j.last - j.first) := by
    intro p hp
    have := hfits.inside p hp
    rw [mem_range'_1]
    unfold InArea at this
    omega
  have hlen := (subperm_of_subset hfits.distinct hsub).length_le
  rw [length_range', positions, length_map, length_range,
    transactionLength_eq h.blockSize_ge] at hlen
  exact hlen

/-- When the sum in the capacity overflows, nothing is left for the descriptors. -/
private theorem not_fitsLog_of_wrap (hlt : j.first < j.last)
    (hwrap : 2 ^ 32 ≤ j.last - j.first - 2 + tagsPerDescriptor j) (sequence : UInt32) :
    ∃ entries, entries.length ≤ journalCapacity j ∧ ¬FitsLog j sequence entries := by
  have h1 := h.last_le
  have h2 := h.maxlen_lt
  have htags := tagsPerDescriptor_le h
  have hcap : journalCapacity j = j.last - j.first - 2 := by
    have hmod : (j.last - j.first - 2 + tagsPerDescriptor j) % 2 ^ 32 <
        tagsPerDescriptor j + 1 := by
      omega
    rw [journalCapacity_eq h hlt, Nat.div_eq_of_lt hmod, Nat.sub_zero]
  let entries : List Entry := replicate (journalCapacity j) (0, zeros)
  have hlength : entries.length = journalCapacity j := length_replicate
  refine ⟨entries, hlength.le, fun hfits => ?_⟩
  have hle := hfits.length_le h
  have hbatches := length_le_batches h entries
  have hfew : (batchesOf j entries).length * tagsPerDescriptor j ≤ 1 * 512 :=
    Nat.mul_le_mul (by omega) htags
  omega

end FitsLog

/-- **Journal capacity.** Of a journal that opens, with whatever features, the blocks of every
    transaction within the capacity fit into the log area exactly if the area starts before it ends
    and the sum in the capacity does not overflow. -/
theorem fitsLog_iff {map : Nat → Option UInt64} {read : UInt64 → Block} {blockSize : Nat}
    {j : Journal} (hopen : journalOpen map read blockSize = some j) {l : Layout}
    (hl : l = { j.toLayout with compat := l.compat, incompat := l.incompat }) :
    (∀ sequence entries, entries.length ≤ journalCapacity l → FitsLog l sequence entries) ↔
      l.first < l.last ∧ l.last - l.first - 2 + tagsPerDescriptor l < 2 ^ 32 := by
  have h : Opened l := by
    obtain ⟨h1, h2, h3, h4, h5, h6, h7, h8⟩ := journalOpen_opened hopen
    rw [hl]
    exact ⟨h1, h2, h3, h4, h5, h6, h7, h8⟩
  constructor
  · intro hall
    -- even the commit block alone is written to the first position
    have hlt : l.first < l.last :=
      ((hall 0 [] (Nat.zero_le _)).inside l.first (List.mem_cons_self ..)).2
    refine ⟨hlt, Nat.lt_of_not_le fun hwrap => ?_⟩
    obtain ⟨entries, hcap, hnot⟩ := not_fitsLog_of_wrap h hlt hwrap 0
    exact hnot (hall 0 entries hcap)
  · rintro ⟨hlt, hwrap⟩ sequence entries hcap
    exact fitsLog_of_capacity h hlt hwrap sequence hcap

/-- A transaction of the small journal that fills its capacity. -/
theorem freshLayout_fitsLog : FitsLog freshLayout 1 (List.replicate 4 (500, pattern 1)) :=
  (fitsLog_iff (@smallMount_begun [] rfl).opened rfl).mpr (by decide) 1 _ (by decide)

/-- The superblock of a journal whose log area starts at the last 32-bit position. -/
def highSuper : Block := storeBe32 smallSuper 20 0xFFFFFFFF

/-- Its layout on a device on which every block number is mapped. -/
def highLayout : Layout := { freshLayout with
    map := fun index => some (100 + UInt64.ofNat index)
    first := 0xFFFFFFFF
    csumSeed := Crc.crc32c 0xFFFFFFFF (readUuid highSuper) uuidBytes
    mapped := fun index => 100 + UInt64.ofNat index }

def highDisk (block : UInt64) : Block := if block = 100 then highSuper else zeros

/-- The sum in the check of `jbd2_journal_open` wraps, and the data block of a transaction of one
    entry is written over the superblock of the journal. -/
theorem high_not_fitsLog : ∃ s, journalOpen highLayout.map highDisk 1024 = some s.journal ∧
    1 ≤ journalCapacity s.journal ∧ logLocate s.journal 0 = some 100 ∧
    (logTransaction s [(500, pattern 1)] 0).1 = true ∧
    (logTransaction s [(500, pattern 1)] 0).2.dev.read 100 = pattern 1 ∧
    ¬FitsLog s.journal s.journal.sequence [(500, pattern 1)] := by
  have hsb : Superblock highSuper highLayout 1 1 :=
    ⟨by decide, Or.inr (by decide), by decide, by decide,
      rfl, by decide, by decide, by decide, by decide, by decide⟩
  have hgeo : Geometry highLayout := ⟨by decide, by decide, by decide, rfl, rfl⟩
  refine ⟨⟨openedJournal highLayout 1 1, ⟨highDisk, [], []⟩⟩, ?_, by decide, rfl, rfl, rfl, ?_⟩
  · exact journalOpen_iff.mpr ⟨100, 1, 1, rfl, by decide, hsb, hgeo, rfl, rfl, rfl⟩
  · intro hfits
    have harea := hfits.inside 0xFFFFFFFF (List.mem_cons_self ..)
    exact absurd harea.2 (by decide)

end Tunix.Jbd2

namespace Tunix.MetaCommit

open Jbd2 Bytes

/-! ## Commits of the metadata -/

private theorem sift_perm (gap fuel at_ : Nat) (xs : Array Entry) :
    (sift gap fuel at_ xs).Perm xs := by
  induction fuel generalizing at_ xs with
  | zero => exact Array.Perm.refl xs
  | succ fuel ih =>
    rw [sift]
    split_ifs
    · exact (ih _ _).trans (Array.swap_perm _ _)
    · exact Array.Perm.refl xs
    · exact Array.Perm.refl xs

private theorem sortGaps_perm (fuel gap : Nat) (xs : Array Entry) :
    (sortGaps fuel gap xs).Perm xs := by
  induction fuel generalizing gap xs with
  | zero => exact Array.Perm.refl xs
  | succ fuel ih =>
    rw [sortGaps]
    split_ifs
    · exact Array.Perm.refl xs
    refine (ih _ _).trans ?_
    have hpass (l : List Nat) (ys : Array Entry) :
        (l.foldl (fun xs index => sift gap (index + 1) index xs) ys).Perm ys := by
      induction l generalizing ys with
      | nil => exact Array.Perm.refl ys
      | cons index l ih => exact (ih _).trans (sift_perm gap _ index ys)
    exact hpass _ xs

/-- The plan holds the dirty buffers. -/
theorem commitPrepare_perm (v : Volume) :
    (commitPrepare v).Perm (dirtyEntries v) := (sortGaps_perm _ _ _).toList

/-- The contents of the device once a volume whose device holds `img` has been mounted again. -/
def Recovered (v : Volume) (img read : UInt64 → Block) : Prop := match v.journal with
  | none => read = img
  | some j => ∃ r s', journalOpen j.map img j.blockSize = some r ∧
      journalRecover (reopened r img) = (true, s') ∧ read = s'.dev.read

/-- The blocks of the file system, which are not those of the journal. -/
def FileBlock (v : Volume) (target : UInt64) : Prop := ∀ j ∈ v.journal, Outside j.toLayout target

/-- After the mount the blocks are all as before the commit, or all as the commit has them. -/
def Whole (v : Volume) (img : UInt64 → Block) : Prop := ∃ read, Recovered v img read ∧
    ((∀ target, FileBlock v target → read target = v.dev.read target) ∨ ∀ target,
      FileBlock v target →
        read target = Disk.apply (dirtyEntries v) v.dev.read target)

/-- **Commits within the capacity are all or nothing.** The journal is between two commits; the
    dirty buffers are of distinct blocks, no more than the capacity of the journal, and such that
    the journal can hold and replay them. -/
theorem commitVolume_whole {v : Volume} {j : Journal} {home : UInt64} {base img : UInt64 → Block}
    {left : List Entry} {now : Nat → UInt64} {later mid : Disk.History UInt64 Block}
    (hj : v.journal = some j) (hr : Ready ⟨j, v.dev⟩ home base left) (hpos : j.sequence ≠ 0)
    (hseq : j.sequence.toNat + 2 < 2 ^ 32) (hfast : FastCommitFree j base j.sequence)
    (hdistinct : ((dirtyEntries v).map Prod.fst).Nodup) (hlog : Loggable j ⟨dirtyEntries v, now⟩)
    (hcut : (commitVolume v now).2.dev.history = later ++ (mid ++ v.dev.history))
    (himg : Disk.CrashImage v.dev.base (mid ++ v.dev.history) img) : Whole v img := by
  have hperm := commitPrepare_perm v
  have hlog' : Loggable j ⟨commitPrepare v, now⟩ := ⟨by rw [hperm.length_eq]; exact hlog.capacity,
      fun e he => hlog.offLog e (hperm.mem_iff.mp he),
      fun e he => hlog.representable e (hperm.mem_iff.mp he),
      fun hcsum e he => hlog.plain hcsum e (hperm.mem_iff.mp he)⟩
  have hhist :
      (journalCommit ⟨j, v.dev⟩ (commitPrepare v) now).2.dev.history = later ++
        (mid ++ v.dev.history) := by
    rw [← hcut, commitVolume, commitWrite, hj]
    split_ifs with hnil
    · rw [hnil, journalCommit_nil hr.idle hr.begun]
    · rfl
  obtain ⟨r, s', hopen, hrec, k, applied, -, hsub, hall⟩ :=
    @Ready.atomic [⟨commitPrepare v, now⟩] _ _ _ _ _ hr (by simpa using hlog')
      ⟨by simp, trivial⟩ hpos
      hseq hfast _ _ hhist himg
  have hrecovered : Recovered v img s'.dev.read := by
    rw [Recovered, hj]
    exact ⟨r, s', hopen, hrec, rfl⟩
  refine ⟨_, hrecovered, ?_⟩
  rcases List.sublist_singleton.mp (hsub.trans (List.take_sublist k _)) with rfl | rfl
  · exact Or.inl fun target ht => hall target (ht j hj)
  · refine Or.inr fun target ht => ?_
    rw [hall target (ht j hj), List.flatMap_singleton, ← Disk.apply_perm hdistinct hperm]

/-! ## Commits on the small journal -/

/-- A volume on the small journal with some dirty buffers. -/
def smallVolume (blocks : List UInt64) : Volume where
  journal := some (smallMount []).journal
  dev := (smallMount []).dev
  blockSize := 1024
  buffers := blocks.map fun block => ⟨block, pattern 1, true⟩

private theorem smallMount_ready : Ready (smallMount []) 100 (smallMount []).dev.read [] := by
  obtain ⟨home, hr, -⟩ := (@smallMount_begun [] rfl).ready
  obtain rfl : home = 100 :=
    Option.some.inj (hr.locateHome.symm.trans (show logLocate freshLayout 0 = some 100 from rfl))
  exact hr

/-- Two dirty buffers, after the whole commit. -/
theorem smallVolume_whole : Whole (smallVolume [500, 501]) (Disk.view smallDisk
      ((commitVolume (smallVolume [500, 501]) fun _ => 1).2.dev.history.drop 1)) := by
  have hcut : (commitVolume (smallVolume [500, 501]) fun _ => 1).2.dev.history =
      [] ++ ((commitVolume (smallVolume [500, 501]) fun _ => 1).2.dev.history.take 11 ++
        (smallVolume [500, 501]).dev.history) := rfl
  exact commitVolume_whole rfl smallMount_ready (by decide) (by decide)
    (smallMount_fastCommitFree _ _ _ rfl) (by decide)
    (freshLayout_loggable (by decide) (by decide)) hcut (.flush _)

/-- The four blocks of the first transaction of a commit of five. -/
def crowdedFirst : List Entry :=
  [(500, pattern 1), (501, pattern 1), (502, pattern 1), (503, pattern 1)]

/-- The journal between the two transactions of the commit. -/
def crowdedBetween : State := (journalCommit (smallMount []) crowdedFirst fun _ => 1).2

private theorem crowdedBetween_recovers : ∃ r s',
    journalOpen freshLayout.map crowdedBetween.dev.read freshLayout.blockSize = some r ∧
      journalRecover (reopened r crowdedBetween.dev.read) = (true, s') ∧
      ∀ target, Outside freshLayout target →
        s'.dev.read target = Disk.apply crowdedFirst (smallMount []).dev.read target := by
  have hr := smallMount_ready
  have hoff : OffLog freshLayout crowdedFirst := freshLayout_offLog (by decide)
  obtain ⟨ws, disk, hp⟩ := exists_planned hr.ordinary (smallMount []).journal.sequence
    (show crowdedFirst.length ≤ journalCapacity freshLayout by decide) hoff
  have hworks := hr.commit_works hp (List.cons_ne_nil _ _) (fun _ => 1) rfl
  have hok : journalCommit (smallMount []) crowdedFirst (fun _ => 1) = (true, crowdedBetween) :=
    Prod.ext hworks.1 rfl
  obtain ⟨hr', hlayout, -, -, -, hread⟩ := hr.next hp (List.cons_ne_nil _ _) hok (by decide)
  have hfree : FastCommitFree crowdedBetween.journal crowdedBetween.dev.read
      crowdedBetween.journal.sequence := fun hfeat => absurd rfl hfeat
  obtain ⟨r, s', hopen, hrec, hsame⟩ := hr'.recovers_idle (by decide) (by decide) hfree (.flush _)
  exact ⟨r, s', hopen, hrec, fun target ht => (hsame target ht).trans (hread target ht)⟩

/-- **A commit beyond the capacity is not all or nothing**: when the power fails after the first of
    its two transactions, the blocks of that one are there and the last block is not. -/
theorem crowded_not_whole : ∃ v j later mid, v.journal = some j ∧
    Ready ⟨j, v.dev⟩ 100 v.dev.read [] ∧ j.sequence.toNat + 2 < 2 ^ 32 ∧
    FastCommitFree j v.dev.read j.sequence ∧ ((dirtyEntries v).map Prod.fst).Nodup ∧
    OffLog j (dirtyEntries v) ∧ (∀ e ∈ dirtyEntries v, Representable j e.1) ∧ hasCsum j = false ∧
    (dirtyEntries v).length = journalCapacity j + 1 ∧
    (commitVolume v fun _ => 1).2.dev.history = later ++ (mid ++ v.dev.history) ∧
    Disk.CrashImage v.dev.base (mid ++ v.dev.history) crowdedBetween.dev.read ∧
    ¬Whole v crowdedBetween.dev.read := by
  have hsmall : ∀ e ∈ dirtyEntries (smallVolume [500, 501, 502, 503, 504]), e.1.toNat < 2 ^ 32 := by
    decide
  refine ⟨smallVolume [500, 501, 502, 503, 504], (smallMount []).journal,
    (commitVolume (smallVolume [500, 501, 502, 503, 504]) fun _ => 1).2.dev.history.take 9,
    crowdedBetween.dev.history.take 15, rfl, smallMount_ready, by decide,
    smallMount_fastCommitFree _ _ _ rfl, by decide, freshLayout_offLog (by decide),
    fun e he => Or.inr (hsmall e he), by decide, by decide, rfl, .flush _, ?_⟩
  rintro ⟨_, ⟨r', s'', hopen', hrec', rfl⟩, hcases⟩
  obtain ⟨r, s', hopen, hrec, hread⟩ := crowdedBetween_recovers
  obtain rfl : r = r' := Option.some.inj (hopen.symm.trans hopen')
  obtain rfl : s' = s'' := congrArg Prod.snd (hrec.symm.trans hrec')
  have hout (target : UInt64) (h : 108 ≤ target) : Outside freshLayout target :=
    (@freshLayout_offLog [(target, zeros)] (by simpa using h)).outside
      (List.mem_singleton.mpr rfl)
  have hfile (target : UInt64) (h : 108 ≤ target) :
      FileBlock (smallVolume [500, 501, 502, 503, 504]) target := by
    rintro _ ⟨⟩
    exact hout target h
  rcases hcases with hold | hnew
  · have hfirst := (hread 500 (hout 500 (by decide))).symm.trans (hold 500 (hfile 500 (by decide)))
    exact absurd (congrFun hfirst 3) (by decide)
  · have hlast := (hread 504 (hout 504 (by decide))).symm.trans (hnew 504 (hfile 504 (by decide)))
    exact absurd (congrFun hlast 3) (by decide)

end Tunix.MetaCommit
