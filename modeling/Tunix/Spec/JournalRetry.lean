import Tunix.Spec.JournalBoundary

/-!
# Commits that fail

A commit whose device requests fail is tried again under the same sequence number, from the start
of the log. As long as the failed attempts had not come to their commit blocks, this is harmless:
what they have left in the log is part of no committed transaction (`Ready.retry`).

## Key results

- `recovery_after_crash`: after a power cut anywhere in a run of attempts, recovery leaves the
  blocks as some of the attempts, each of them as a whole, have written them
- `retry_not_atomic`: this is lost when an attempt follows one that failed at its commit block
-/

namespace Tunix.Jbd2

open Bytes List Disk

/-! ## Recovery after a power cut -/

/-- The fast commit area holds nothing for transactions from `sequence` on. -/
def FastCommitFree (l : Layout) (read : UInt64 → Block) (sequence : UInt32) : Prop :=
  l.incompat &&& incompatFastCommit ≠ 0 → ∀ scratch, logRead l read l.last = some scratch →
    ¬(loadLe16 scratch 0 = fcTagHead ∧ loadLe16 scratch 2 ≥ 8 ∧
      sequence.toNat ≤ (loadLe32 scratch 8).toNat)

variable {img base : UInt64 → Block} {sequence : UInt32} {l : Layout} {home : UInt64}

private theorem FastCommitFree.check {l : Layout} {img : UInt64 → Block}
    {sequence sequence' next : UInt32}
    (h : FastCommitFree l img sequence) (hle : sequence.toNat ≤ next.toNat) :
    checkFastCommit (reopened (journalAt l sequence') img) next = false := by
  unfold checkFastCommit
  split_ifs with hfeat
  · rfl
  split
  · rfl
  rename_i scratch hread
  have hno := h hfeat scratch hread
  refine decide_eq_false ?_
  rintro (⟨htag, hlen, rfl⟩ | hpending)
  · exact hno ⟨htag, hlen, hle⟩
  · exact absurd hpending (by simp [reopened, openedJournal])

private theorem FastCommitFree.mono {read : UInt64 → Block} {sequence' : UInt32}
    (h : FastCommitFree l read sequence) (hle : sequence.toNat ≤ sequence'.toNat) :
    FastCommitFree l read sequence' := fun hfeat scratch hread hbad =>
  h hfeat scratch hread ⟨hbad.1, hbad.2.1, le_trans hle hbad.2.2⟩

/-- The block behind the log area is no block of a transaction. -/
theorem outside_last (hord : Ordinary l) (hinj : LogInjective l) {disk : UInt64}
    (hloc : logLocate l l.last = some disk) : Outside l disk := by
  constructor
  · rintro ⟨position, harea, hp⟩
    exact absurd (hinj _ _ _ hp hloc) (ne_of_lt harea.2)
  · intro h0
    have hzero := hinj _ _ _ h0 hloc
    have := hord.first_lt_last
    omega

private theorem FastCommitFree.congr {read read' : UInt64 → Block}
    (h : FastCommitFree l read sequence)
    (heq : ∀ disk, logLocate l l.last = some disk → read' disk = read disk) :
    FastCommitFree l read' sequence := by
  intro hfeat scratch hread
  obtain ⟨disk, hdisk, rfl⟩ := Option.map_eq_some_iff.mp hread
  rw [heq disk hdisk]
  exact h hfeat _ (by simp [logRead, hdisk])

/-- A block that is logged is outside of the journal. -/
theorem OffLog.outside {entries : List Entry} (h : OffLog l entries) {e : Entry}
    (he : e ∈ entries) : Outside l e.1 := ⟨h.not_area he, h e he 0⟩

/-- A block of the file system that no attempt names is as it was. -/
theorem Outcome.unchanged {j : Layout} {disk : UInt64} {entries : List Entry} {commit : Block}
    (h : Outcome j home sequence base entries disk commit img) {target : UInt64}
    (ht : Outside j target) (hne : ∀ e ∈ entries, e.1 ≠ target) : img target = base target := by
  rcases h with ⟨-, -, hsame⟩ | ⟨-, -, -, -, hsame⟩ | ⟨-, -, hsame⟩
  · exact hsame target ht
  · exact hsame target ht hne
  · rw [hsame target ht, apply_of_not_mem hne]

section Recover

variable (hord : Ordinary l) (hhome : logLocate l 0 = some home) (hpos : sequence ≠ 0)
  (hnext : sequence.toNat + 1 < 2 ^ 32) (hfast : FastCommitFree l img sequence)

include hord hhome hpos hnext hfast

private theorem reopened_recoverable : Recoverable (reopened (journalAt l sequence) img) where
  start := by
    intro h0
    have hstart : (journalAt l sequence).start.toNat = l.first := journalAt_start hord
    rw [show (journalAt l sequence).start = 0 from h0] at hstart
    have := hord.first_pos
    simp at hstart
    omega
  answers := rfl
  noFastCommit := by
    intro next hn
    rw [reopened_sequence hpos] at hn
    refine hfast.check ?_
    rcases hn with rfl | rfl
    · exact le_refl _
    · rw [UInt32.toNat_add, UInt32.toNat_one, Nat.mod_eq_of_lt hnext]
      omega
  home := ⟨home, hhome⟩

/-- A log without a committed transaction is recovered by leaving everything alone. -/
theorem recovers_stale (hstale : Stale l img sequence) :
    ∃ s', journalRecover (reopened (journalAt l sequence) img) = (true, s') ∧
      ∀ target, Outside l target → s'.dev.read target = img target := by
  have hscan := walkLog_scan_stale (s := recovering (reopened (journalAt l sequence) img)) hord
    (by show Stale l img (reopened (journalAt l sequence) img).journal.sequence
        rw [reopened_sequence hpos]
        exact hstale)
    (by show InArea l (reopened (journalAt l sequence) img).journal.start.toNat
        rw [reopened_start hord]
        exact hord.first_inArea)
  have hrec := recoversWith_nothing (reopened_recoverable hord hhome hpos hnext hfast) (hscan _)
  obtain ⟨s', hs', hread⟩ := hrec.read hhome
  exact ⟨s', hs', fun target ht => hread target fun heq => ht.2 (heq ▸ hhome)⟩

omit hord hhome hpos hnext hfast in
/-- What the passes of a recovery see of a transaction is what any walk sees. -/
theorem HoldsTransaction.recovering {s : State} {batches : List (List Entry)} {commit : Block}
    (h : HoldsTransaction s batches commit) :
    HoldsTransaction (recovering s) batches commit :=
  ⟨h.blockSize, h.valid, h.offLog, h.holds, h.header, h.ends, h.guard⟩

/-- A committed transaction is recovered by writing all of its blocks. -/
theorem recovers_committed {entries : List Entry} {now : UInt64}
    (hcap : entries.length ≤ journalCapacity l) (hoff : OffLog l entries)
    (hrep : ∀ e ∈ entries, Representable l e.1)
    (hplain : hasCsum l = true → ∀ e ∈ entries, needsEscape e.2 = false)
    (hholds : Holds l img l.first
      (logBlocks l sequence entries ++ [commitOf l sequence entries now]))
    (hupTo : UpTo l img sequence) :
    ∃ s', journalRecover (reopened (journalAt l sequence) img) = (true, s') ∧
      ∀ target, Outside l target → s'.dev.read target = apply entries img target := by
  have hsame := @reopened_sequence l sequence img hpos
  have htx := holdsTransaction_of_holds hord hpos hnext hcap hoff hholds hupTo
  have hrec := recoversWith_transaction (reopened_recoverable hord hhome hpos hnext hfast)
    htx.recovering (by rw [batchesOf_flatten hord.blockSize_ge]; exact hrep)
    (by rw [hsame]; exact commitValid_commitBlock ..)
  -- no image differs from its tag
  have hall : entries.filter (intact l sequence) = entries := by
    exact filter_eq_self.mpr fun e he =>
      (intact_iff hord.toOpened sequence e).mpr fun hcsum => hplain hcsum e he
  rw [batchesOf_flatten hord.blockSize_ge, hsame,
    show (reopened (journalAt l sequence) img).journal.toLayout = l from rfl, hall] at hrec
  obtain ⟨s', hs', hread⟩ := hrec.read hhome
  exact ⟨s', hs', fun target ht => hread target fun heq => ht.2 (heq ▸ hhome)⟩

end Recover

/-! ## Runs of attempts -/

/-- Recovery from `img` leaves the blocks outside the journal as some first attempts of the run
    have written them, each as a whole or not at all; those that have succeeded are among them. -/
def Atomic (s : State) (attempts : List Commit) (img : UInt64 → Block) : Prop :=
  ∃ r s', journalOpen s.journal.map img s.journal.blockSize = some r ∧
    journalRecover (reopened r img) = (true, s') ∧
    ∃ k applied, (succeeded (attempts.take k) s).Sublist applied ∧
      applied.Sublist (attempts.take k) ∧
      ∀ target, Outside s.journal target →
        s'.dev.read target = apply (applied.flatMap Commit.entries) s.dev.read target

/-- A commit that the journal can hold and replay exactly. -/
structure Loggable (j : Layout) (c : Commit) : Prop where
  capacity : c.entries.length ≤ journalCapacity j
  offLog : OffLog j c.entries
  representable : ∀ e ∈ c.entries, Representable j e.1
  plain : hasCsum j = true → ∀ e ∈ c.entries, needsEscape e.2 = false

/-- Recovery after a power cut during an attempt. -/
theorem Outcome.recovers {disk : UInt64} {c : Commit} {commit : Block}
    (h : Outcome l home sequence base c.entries disk commit img) (hord : Ordinary l)
    (hgeo : Geometry l) (hinj : LogInjective l) (hhome : logLocate l 0 = some home)
    (hpos : sequence ≠ 0) (hnext : sequence.toNat + 2 < 2 ^ 32) (hc : Loggable l c)
    (hcommit : commit = commitOf l sequence c.entries (c.now 0))
    (hfast : FastCommitFree l base sequence) :
    ∃ r s', journalOpen l.map img l.blockSize = some r ∧
      journalRecover (reopened r img) = (true, s') ∧
      ((∀ target, Outside l target → s'.dev.read target = base target) ∨
        ∀ target, Outside l target → s'.dev.read target = apply c.entries base target) := by
  have hfast' : FastCommitFree l img sequence := hfast.congr fun a ha =>
    h.unchanged (outside_last hord hinj ha) fun e he heq => hc.offLog e he l.last (heq ▸ ha)
  rcases h with ⟨hsb, hstale, hsame⟩ | ⟨hsb, hholds, -, hupTo, hsame⟩ | ⟨hsb, hupTo, hsame⟩
  · obtain ⟨s', hrec, hread⟩ := recovers_stale hord hhome hpos (by omega) hfast' hstale
    exact ⟨_, s', journalOpen_superblock hgeo hhome hsb, hrec,
      Or.inl fun target ht => (hread target ht).trans (hsame target ht)⟩
  · rw [hcommit] at hholds
    obtain ⟨s', hrec, hread⟩ := recovers_committed hord hhome hpos (by omega) hfast' hc.capacity
      hc.offLog hc.representable hc.plain hholds hupTo
    refine ⟨_, s', journalOpen_superblock hgeo hhome hsb, hrec, Or.inr fun target ht => ?_⟩
    rw [hread target ht]
    exact apply_congr fun hne => hsame target ht hne
  · have hadd : (sequence + 1).toNat = sequence.toNat + 1 := by
      rw [UInt32.toNat_add, UInt32.toNat_one, Nat.mod_eq_of_lt (by omega)]
    obtain ⟨s', hrec, hread⟩ := recovers_stale hord hhome (succ_ne_zero (by omega)) (by omega)
      (hfast'.mono (by omega)) (hupTo.stale_succ (by omega))
    exact ⟨_, s', journalOpen_superblock hgeo hhome hsb, hrec,
      Or.inr fun target ht => (hread target ht).trans (hsame target ht)⟩

/-- A power cut between two attempts. -/
theorem Ready.recovers_idle {s : State}
    {left : List Entry} (hr : Ready s home base left) (hpos : s.journal.sequence ≠ 0)
    (hnext : s.journal.sequence.toNat + 1 < 2 ^ 32)
    (hfast : FastCommitFree s.journal base s.journal.sequence)
    (himg : CrashImage s.dev.base s.dev.history img) :
    ∃ r s', journalOpen s.journal.map img s.journal.blockSize = some r ∧
      journalRecover (reopened r img) = (true, s') ∧
      ∀ target, Outside s.journal target → s'.dev.read target = base target := by
  obtain ⟨hsb, hstale, hsame⟩ := hr.crash_idle himg
  have hfast' : FastCommitFree s.journal img s.journal.sequence := hfast.congr fun a ha =>
    hsame a (outside_last hr.ordinary hr.injective ha).1
  obtain ⟨s', hrec, hread⟩ := recovers_stale hr.ordinary hr.locateHome hpos hnext hfast' hstale
  exact ⟨_, s', journalOpen_superblock hr.geometry hr.locateHome hsb, hrec,
    fun target ht => (hread target ht).trans (hsame target ht.1)⟩

/-- Recovery writes the blocks of the attempt in which the power has failed, or none. -/
theorem Cut.recovers {s t : State} {durable : UInt64 → Block} {left : List Entry}
    {attempts done : List Commit}
    (h : Cut s home base attempts img done t durable left)
    (hlog : ∀ c ∈ attempts, Loggable s.journal c) (hpos : t.journal.sequence ≠ 0)
    (hseq : t.journal.sequence.toNat + (attempts.length - done.length) + 1 < 2 ^ 32)
    (hfast : FastCommitFree t.journal durable t.journal.sequence) :
    ∃ r s' last, journalOpen s.journal.map img s.journal.blockSize = some r ∧
      journalRecover (reopened r img) = (true, s') ∧ done ++ last <+: attempts ∧
      ∀ target, Outside s.journal target →
        s'.dev.read target = apply (last.flatMap Commit.entries) durable target := by
  have hr := h.ready
  rw [← h.layout] at hlog ⊢
  rcases h.power with himg | ⟨c, later, mid, hbegins, hne, hcut, himg⟩
  · obtain ⟨r, s', hopen, hrec, hread⟩ := hr.recovers_idle hpos (by omega) hfast himg
    exact ⟨r, s', [], hopen, hrec, by rw [append_nil]; exact h.begins, hread⟩
  have hc := hlog c (hbegins.subset (by simp))
  have hlen := hbegins.length_le
  rw [length_append, length_singleton] at hlen
  obtain ⟨ws, disk, hp⟩ := exists_planned hr.ordinary t.journal.sequence hc.capacity hc.offLog
  obtain ⟨r, s', hopen, hrec, hnone | hall⟩ := (hr.outcome hp hne c.now hcut himg).recovers
    hr.ordinary hr.geometry hr.injective hr.locateHome hpos (by omega) hc rfl hfast
  · exact ⟨r, s', [], hopen, hrec, by rw [append_nil]; exact h.begins, hnone⟩
  · exact ⟨r, s', [c], hopen, hrec, hbegins, by simpa using hall⟩

/-- Atomicity from a state between two attempts on. -/
theorem Ready.atomic {attempts : List Commit} {s : State} {home : UInt64}
    {base img : UInt64 → Block} {left : List Entry} (hr : Ready s home base left)
    (hlog : ∀ c ∈ attempts, Loggable s.journal c) (hearly : FailsEarly attempts s)
    (hpos : s.journal.sequence ≠ 0)
    (hseq : s.journal.sequence.toNat + attempts.length + 1 < 2 ^ 32)
    (hfast : FastCommitFree s.journal base s.journal.sequence)
    {later mid : History UInt64 Block}
    (hcut : (runAttempts attempts s).dev.history = later ++ (mid ++ s.dev.history))
    (himg : CrashImage s.dev.base (mid ++ s.dev.history) img) : Atomic s attempts img := by
  have hfits : Fits s.journal attempts := fun c hc => ⟨(hlog c hc).capacity, (hlog c hc).offLog⟩
  obtain ⟨done, t, durable, left', hc⟩ := (hr.cut hfits hearly (by omega)).2 hcut himg
  obtain ⟨n, hn, hnext, hpos'⟩ := hc.toNat_sequence hpos (by omega)
  have hdone := hc.begins.length_le
  have hfast' : FastCommitFree t.journal durable t.journal.sequence := by
    rw [hc.layout]
    refine (hfast.mono (by omega)).congr fun a ha => ?_
    rw [hc.written a (outside_last hr.ordinary hr.injective ha)]
    refine apply_of_not_mem fun e he heq => ?_
    -- no attempt writes to the block behind the log area
    obtain ⟨c, hmem, he⟩ := mem_flatMap.mp he
    have hall := hc.begins.subset ((succeeded_sublist done s).subset hmem)
    exact (hlog c hall).offLog e he s.journal.last (heq ▸ ha)
  obtain ⟨r, s', last, hopen, hrec, hbegins, hread⟩ := hc.recovers hlog hpos' (by omega) hfast'
  refine ⟨r, s', hopen, hrec, (done ++ last).length, succeeded done s ++ last, ?_, ?_,
    fun target ht => ?_⟩
  · rw [← prefix_iff_eq_take.mp hbegins, succeeded_append]
    exact (succeeded_sublist last _).append_left _
  · rw [← prefix_iff_eq_take.mp hbegins]
    exact (succeeded_sublist done s).append_right _
  · rw [hread target ht, flatMap_append, apply_append]
    refine apply_congr fun _ => (hc.written target ht).trans ?_
    exact apply_congr fun _ => (hr.read_outside ht).symm

/-- **Atomicity with device errors.** In a run of attempts in which each but the last succeeds or
    fails before its commit block, recovery after a power cut anywhere leaves the blocks as some of
    the attempts have written them, each as a whole. -/
theorem recovery_after_crash {map : Nat → Option UInt64} {base : UInt64 → Block} {blockSize : Nat}
    {j : Journal} {s : State} {attempts : List Commit} {later mid : Disk.History UInt64 Block}
    {img : UInt64 → Block} (h : Begun map base blockSize j s)
    (hfast : FastCommitFree s.journal s.dev.read s.journal.sequence)
    (hlog : ∀ c ∈ attempts, Loggable s.journal c)
    (hseq : j.sequence.toNat + attempts.length + 1 < 2 ^ 32) (hearly : FailsEarly attempts s)
    (hcut : (runAttempts attempts s).dev.history = later ++ (mid ++ s.dev.history))
    (himg : Disk.CrashImage base (mid ++ s.dev.history) img) : Atomic s attempts img := by
  obtain ⟨home, hr, rfl, hsame, -, -, hpos⟩ := h.ready
  rw [← hsame] at hpos hseq
  exact hr.atomic hlog hearly hpos hseq hfast hcut himg

/-! ## Attempts on the small journal -/

/-- The small journal has no fast commits. -/
theorem smallMount_fastCommitFree (answers : List Answer) (read : UInt64 → Block)
    (sequence : UInt32) (hlayout : (smallMount answers).journal.toLayout = freshLayout) :
    FastCommitFree (smallMount answers).journal read sequence := by
  intro hfeat
  rw [hlayout] at hfeat
  exact absurd rfl hfeat

/-- What the small journal has room for. -/
theorem freshLayout_loggable {c : Commit} (hlen : c.entries.length ≤ 4)
    (htargets : ∀ e ∈ c.entries, 108 ≤ e.1 ∧ e.1.toNat < 2 ^ 32) : Loggable freshLayout c where
  capacity := le_trans hlen (by decide)
  offLog := freshLayout_offLog fun e he => (htargets e he).1
  representable := fun e he => Or.inr (htargets e he).2
  plain := fun hcsum => absurd hcsum (by decide)

private theorem smallMount_loggable {answers : List Answer}
    (hlayout : (smallMount answers).journal.toLayout = freshLayout) :
    ∀ c ∈ [wrapFirst, wrapLast], Loggable (smallMount answers).journal c := by
  intro c hc
  rw [hlayout]
  rcases mem_pair.mp hc with rfl | rfl <;>
    exact freshLayout_loggable (by decide) (by decide)

/-- The first log write fails, with one of its blocks written; the second attempt succeeds. -/
def earlyAnswers : List Answer := [.ok, .ok, .fail [true]]

/-- After a failure before the commit block, the next attempt is atomic: here the power fails when
    its log blocks have been flushed. -/
theorem smallMount_retry_atomic :
    Atomic (smallMount earlyAnswers) [wrapFirst, wrapLast] (Disk.view smallDisk
      ((runAttempts [wrapFirst, wrapLast] (smallMount earlyAnswers)).dev.history.drop 8)) := by
  have hearly : FailsEarly [wrapFirst, wrapLast] (smallMount earlyAnswers) :=
    ⟨fun _ => Or.inr rfl, fun h => absurd rfl h, trivial⟩
  have hcut : (runAttempts [wrapFirst, wrapLast] (smallMount earlyAnswers)).dev.history =
      (runAttempts [wrapFirst, wrapLast] (smallMount earlyAnswers)).dev.history.take 7 ++
        (((runAttempts [wrapFirst, wrapLast] (smallMount earlyAnswers)).dev.history.drop 7).take
          5 ++
          (smallMount earlyAnswers).dev.history) := rfl
  have himg : Disk.CrashImage smallDisk
      (((runAttempts [wrapFirst, wrapLast] (smallMount earlyAnswers)).dev.history.drop 7).take 5 ++
        (smallMount earlyAnswers).dev.history)
      (Disk.view smallDisk
        ((runAttempts [wrapFirst, wrapLast] (smallMount earlyAnswers)).dev.history.drop 8)) :=
    .flush _
  exact recovery_after_crash (@smallMount_begun earlyAnswers rfl)
    (smallMount_fastCommitFree _ _ _ rfl) (smallMount_loggable rfl) (by decide) hearly hcut himg

/-- The flush behind the first commit block fails. -/
def lateAnswers : List Answer := [.ok, .ok, .ok, .ok, .ok, .fail []]

/-- The requests up to the log write of the second attempt. -/
def lateHistory : History UInt64 Block :=
  [.write 103 (escaped (pattern 3)), .write 102 (escaped (pattern 3)),
    .write 101 (descriptor freshLayout 1 wrapLast.entries),
    .write 104 (commitOf freshLayout 1 wrapFirst.entries 1), .flush,
    .write 103 (escaped (pattern 1)), .write 102 (escaped (pattern 1)),
    .write 101 (descriptor freshLayout 1 wrapFirst.entries)]

/-- The power fails when one data block of the second attempt has reached the log. -/
def lateImage : UInt64 → Block := Function.update (Function.update (view smallDisk
    (lateHistory.drop 5 ++ (smallMount lateAnswers).dev.history)) 104
    (commitOf freshLayout 1 wrapFirst.entries 1)) 102 (escaped (pattern 3))

private theorem lateImage_crash :
    CrashImage smallDisk (lateHistory ++ (smallMount lateAnswers).dev.history) lateImage :=
  .lose _ _ (.keep _ _ (.lose _ _ (.keep _ _ (.flush _))))

/-- The transaction that recovery finds: a block of either attempt. -/
def mixedEntries : List Entry := [(500, pattern 3), (501, pattern 1)]

/-- Without checksums, the descriptor does not depend on the contents of the blocks. -/
private theorem descriptor_mixed :
    descriptor freshLayout 1 mixedEntries = descriptor freshLayout 1 wrapFirst.entries := by
  have hcsum : hasCsum freshLayout = false := by decide
  have hv3 : hasCsumV3 freshLayout = false := by decide
  have hflags (last : Bool) : tagFlags (pattern 3) last = tagFlags (pattern 1) last := by
    cases last <;> decide
  simp only [mixedEntries, descriptor, hcsum, wrapFirst, putTags, putTag, hv3, hflags,
    Bool.false_eq_true, if_false]

private theorem lateImage_holds : HoldsTransaction (reopened (journalAt freshLayout 1) lateImage)
    [mixedEntries] (commitOf freshLayout 1 wrapFirst.entries 1) := by
  have hblocks : Holds freshLayout lateImage 1
      [descriptor freshLayout 1 wrapFirst.entries, escaped (pattern 3), escaped (pattern 1),
        commitOf freshLayout 1 wrapFirst.entries 1] := ⟨rfl, rfl, rfl, rfl, trivial⟩
  rw [← descriptor_mixed] at hblocks
  refine ⟨show 1024 ≤ 1024 by decide, ?_, freshLayout_offLog (by decide), hblocks,
    commitOf_header .., ⟨zeros, rfl, Or.inl (by decide)⟩, show 2 ≤ 9 by decide⟩
  intro batch hb
  rw [mem_singleton.mp hb]
  exact ⟨by decide, show 2 ≤ tagsPerDescriptor freshLayout by decide⟩

private theorem lateImage_recovers :
    ∃ s', journalRecover (reopened (journalAt freshLayout 1) lateImage) = (true, s') ∧
      s'.dev.read 500 = pattern 3 ∧ s'.dev.read 501 = pattern 1 := by
  have hfast : FastCommitFree freshLayout lateImage 1 := fun hfeat => absurd rfl hfeat
  have hrec := recoversWith_transaction
    (reopened_recoverable freshLayout_ordinary rfl (by decide) (by decide) hfast)
    lateImage_holds.recovering (fun e he => Or.inr ?_) (freshLayout_commitValid ..)
  · obtain ⟨s', hs', hread⟩ := hrec.read (show logLocate freshLayout 0 = some 100 from rfl)
    exact ⟨s', hs', (hread 500 (by decide)).trans rfl, (hread 501 (by decide)).trans rfl⟩
  · rcases mem_pair.mp he with rfl | rfl <;> decide

/-- The mixture is the result of no choice of attempts. -/
private theorem lateImage_not_atomic :
    ¬Atomic (smallMount lateAnswers) [wrapFirst, wrapLast] lateImage := by
  rintro ⟨r, s', hopen, hrec, k, applied, -, hsub, hall⟩
  have hsb : Superblock (lateImage 100) freshLayout 1 1 :=
    updateSuperblock_superblock smallSuper_superblock (.refl smallSuper_superblock) 1 1
  obtain rfl : journalAt freshLayout 1 = r := Option.some.inj
    ((journalOpen_superblock freshLayout_geometry rfl hsb).symm.trans hopen)
  obtain ⟨s'', hrec', h500, h501⟩ := lateImage_recovers
  obtain rfl : s' = s'' := congrArg Prod.snd (hrec.symm.trans hrec')
  have hoff : OffLog freshLayout mixedEntries := freshLayout_offLog (by decide)
  have hout {e : Entry} (he : e ∈ mixedEntries) :
      Outside (smallMount lateAnswers).journal e.1 := hoff.outside he
  have hsame500 := (hall 500 (hout mem_cons_self)).symm.trans h500
  have hsame501 := (hall 501 (hout (mem_cons_of_mem _ mem_cons_self))).symm.trans h501
  have hcases : (applied = [] ∨ applied = [wrapLast]) ∨
      ∃ rest, applied = wrapFirst :: rest ∧ (rest = [] ∨ rest = [wrapLast]) := by
    simpa [sublist_cons_iff] using hsub.trans (take_sublist k _)
  rcases hcases with (rfl | rfl) | ⟨_, rfl, rfl | rfl⟩
  · exact absurd (congrFun hsame500 3) (by decide)
  · exact absurd (congrFun hsame501 3) (by decide)
  · exact absurd (congrFun hsame500 3) (by decide)
  · exact absurd (congrFun hsame501 3) (by decide)

/-- **Atomicity is lost when an attempt follows one that failed at its commit block**: recovery
    mixes blocks of the two. -/
theorem retry_not_atomic :
    ∃ map base blockSize j s attempts later mid img, Begun map base blockSize j s ∧
      (∀ c ∈ attempts, Loggable s.journal c) ∧
      FastCommitFree s.journal s.dev.read s.journal.sequence ∧
      j.sequence.toNat + attempts.length + 1 < 2 ^ 32 ∧
      (runAttempts attempts s).dev.history = later ++ (mid ++ s.dev.history) ∧
      Disk.CrashImage base (mid ++ s.dev.history) img ∧ ¬Atomic s attempts img := by
  have hcut : (runAttempts [wrapFirst, wrapLast] (smallMount lateAnswers)).dev.history =
      (runAttempts [wrapFirst, wrapLast] (smallMount lateAnswers)).dev.history.take 8 ++
        (lateHistory ++ (smallMount lateAnswers).dev.history) := rfl
  exact ⟨_, _, _, _, smallMount lateAnswers, [wrapFirst, wrapLast], _, lateHistory, lateImage,
    @smallMount_begun lateAnswers rfl, smallMount_loggable rfl, smallMount_fastCommitFree _ _ _ rfl,
    by decide, hcut, lateImage_crash, lateImage_not_atomic⟩

end Tunix.Jbd2
