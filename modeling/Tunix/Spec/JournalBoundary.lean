import Tunix.Spec.JournalRun

/-!
# The commit boundary

Over a whole run of commits that is cut off by a power failure anywhere.

## Key results

- `scan_after_crash`: the scan ends behind the transaction of the superblock exactly if the
  transaction's commit block is durable
- `wrap_not_boundary`: this is lost when the sequence numbers come round
-/

namespace Tunix.Jbd2

open Bytes List UInt32 Disk

/-! ## The boundary -/

/-- The commit block of the journal's transaction is on the device. -/
def CommitDurable (r : Journal) (img : UInt64 → Block) (c : Commit) : Prop :=
  ∃ disk, logLocate r (commitPosition r r.sequence c.entries) = some disk ∧
    img disk = commitOf r r.sequence c.entries (c.now 0)

/-- The commit boundary: after a power cut that leaves `img`, the journal opens at one of the
    transactions of the run. The scan ends at its sequence number or behind it; it ends behind it
    exactly if the transaction's commit block is on the device, and then the descriptors and data
    blocks that the walk reads are those of the transaction. -/
def CommitBoundary (map : Nat → Option UInt64) (blockSize : Nat) (sequence : UInt32)
    (txs : List Commit) (img : UInt64 → Block) : Prop :=
  ∃ k r stop, k ≤ txs.length ∧ journalOpen map img blockSize = some r ∧
    r.sequence = sequence + ofNat k ∧
    walkLog .scan r.sequence (reopened r img) = (some stop, reopened r img) ∧
    (stop = r.sequence ∨ stop = r.sequence + 1) ∧
    (stop = r.sequence + 1 ↔ ∃ tx, txs[k]? = some tx ∧ CommitDurable r img tx) ∧
    ∀ tx, stop = r.sequence + 1 → txs[k]? = some tx →
      Holds r img r.start.toNat (logBlocks r r.sequence tx.entries)

section Boundary

variable {l : Layout} {home : UInt64} {sequence : UInt32} {img : UInt64 → Block} {txs : List Commit}

/-- A log without a commit block of the transaction is at the boundary before it. -/
theorem boundary_stale (hgeo : Geometry l) (hord : Ordinary l) (hhome : logLocate l 0 = some home)
    (hseq : sequence ≠ 0) (hsb : Superblock (img home) l (ofNat l.first) sequence)
    (hstale : Stale l img sequence) : CommitBoundary l.map l.blockSize sequence txs img := by
  have hsame := journalAt_sequence (l := l) hseq
  refine ⟨0, _, sequence, Nat.zero_le _, journalOpen_superblock hgeo hhome hsb, ?_, ?_, ?_, ?_, ?_⟩
  · rw [hsame]; simp
  · rw [hsame]; exact scan_stale hord hseq hstale
  · rw [hsame]; exact Or.inl rfl
  · rw [hsame]
    refine ⟨fun h => absurd h (by simp), ?_⟩
    rintro ⟨tx, -, disk, hdisk, himg⟩
    -- the commit block would be a header of this sequence that is no descriptor
    rw [hsame] at hdisk himg
    have hhdr : Header (img disk) commitBlockType sequence := by rw [himg]; exact commitOf_header ..
    have harea : AreaBlock l disk := ⟨_, hord.iterate_inArea _, hdisk⟩
    rcases stale_iff.mp hstale disk harea hhdr.magic with hlt | hdesc
    · rw [hhdr.sequence] at hlt
      exact absurd hlt (lt_irrefl _)
    · exact absurd (hhdr.type.symm.trans hdesc.type) (by decide)
  · intro tx h
    rw [hsame] at h
    exact absurd h (by simp)

/-- A transaction that is complete in the log is behind the boundary. -/
theorem boundary_committed (hgeo : Geometry l) (hord : Ordinary l)
    (hhome : logLocate l 0 = some home) (hseq : sequence ≠ 0)
    (hnext : sequence.toNat + 1 < 2 ^ 32)
    (hsb : Superblock (img home) l (ofNat l.first) sequence) {tx : Commit}
    (hcap : tx.entries.length ≤ journalCapacity l) (hoff : OffLog l tx.entries)
    (hholds : Holds l img l.first
      (logBlocks l sequence tx.entries ++ [commitOf l sequence tx.entries (tx.now 0)]))
    (hupTo : UpTo l img sequence) :
    CommitBoundary l.map l.blockSize sequence (tx :: txs) img := by
  have hsame := journalAt_sequence (l := l) hseq
  obtain ⟨hblocks, hcommit, -⟩ := holds_append.mp hholds
  obtain ⟨disk, hdisk, himg⟩ := Option.map_eq_some_iff.mp hcommit
  refine ⟨0, _, sequence + 1, Nat.zero_le _, journalOpen_superblock hgeo hhome hsb,
    ?_, ?_, ?_, ?_, ?_⟩
  · rw [hsame]; simp
  · rw [hsame]; exact scan_committed hord hseq hnext hcap hoff hholds hupTo
  · rw [hsame]; exact Or.inr rfl
  · rw [hsame]
    refine ⟨fun _ => ⟨tx, rfl, disk, ?_, ?_⟩, fun _ => rfl⟩
    · rw [hsame]; exact hdisk
    · rw [hsame]; exact himg
  · intro tx' _ htx
    cases htx
    rw [hsame, journalAt_start hord]
    exact hblocks

/-- The transactions before a boundary do not matter. -/
theorem CommitBoundary.append {map : Nat → Option UInt64} {blockSize : Nat} (before : List Commit)
    (h : CommitBoundary map blockSize (sequence + ofNat before.length) txs img) :
    CommitBoundary map blockSize sequence (before ++ txs) img := by
  obtain ⟨k, r, stop, hk, hopen, hseq, hscan, hstop, hiff, hall⟩ := h
  have hget : (before ++ txs)[before.length + k]? = txs[k]? := by
    rw [getElem?_append_right (Nat.le_add_right _ _), Nat.add_sub_cancel_left]
  refine ⟨before.length + k, r, stop, ?_, hopen, ?_, hscan, hstop, by rwa [hget], by rwa [hget]⟩
  · rw [length_append]
    omega
  · rw [hseq, UInt32.ofNat_add, UInt32.add_assoc]

end Boundary

section Ready

variable {s : State} {home : UInt64} {base img : UInt64 → Block} {left : List Entry}
    (hr : Ready s home base left)

include hr

/-- A power cut between two commits. -/
theorem Ready.boundary_idle (hpos : s.journal.sequence ≠ 0) (txs : List Commit)
    (himg : CrashImage s.dev.base s.dev.history img) :
    CommitBoundary s.journal.map s.journal.blockSize s.journal.sequence txs img := by
  obtain ⟨hsb, hstale, -⟩ := hr.crash_idle himg
  exact boundary_stale hr.geometry hr.ordinary hr.locateHome hpos hsb hstale

/-- A power cut during a commit. -/
theorem Ready.boundary_commit {c : Commit} (hcap : c.entries.length ≤ journalCapacity s.journal)
    (hoff : OffLog s.journal c.entries) (hne : c.entries ≠ []) (hpos : s.journal.sequence ≠ 0)
    (hseq : s.journal.sequence.toNat + 1 < 2 ^ 32) {later mid : History UInt64 Block}
    (hcut : (journalCommit s c.entries c.now).2.dev.history = later ++ (mid ++ s.dev.history))
    (himg : CrashImage s.dev.base (mid ++ s.dev.history) img) (txs : List Commit) :
    CommitBoundary s.journal.map s.journal.blockSize s.journal.sequence (c :: txs) img := by
  obtain ⟨ws, disk, hp⟩ := exists_planned hr.ordinary s.journal.sequence hcap hoff
  rcases hr.outcome hp hne c.now hcut himg with ⟨hsb, hstale, -⟩ | ⟨hsb, hholds, -, hupTo, -⟩ |
    ⟨hsb, hupTo, -⟩
  · exact boundary_stale hr.geometry hr.ordinary hr.locateHome hpos hsb hstale
  · exact boundary_committed hr.geometry hr.ordinary hr.locateHome hpos hseq hsb hcap hoff hholds
      hupTo
  · exact (boundary_stale hr.geometry hr.ordinary hr.locateHome (succ_ne_zero hseq) hsb
      (hupTo.stale_succ hseq)).append [c]

end Ready

/-- **The commit boundary.** Wherever in a run of commits the power fails, the scan ends at the
    transaction of the superblock, or behind it if its commit block is durable. -/
theorem scan_after_crash {map : Nat → Option UInt64} {base : UInt64 → Block} {blockSize : Nat}
    {j : Journal} {s s' : State} {commits : List Commit} {later mid : Disk.History UInt64 Block}
    {img : UInt64 → Block} (h : Begun map base blockSize j s) (hfits : Fits s.journal commits)
    (hseq : j.sequence.toNat + commits.length < 2 ^ 32)
    (hrun : runCommits commits s = (true, s'))
    (hcut : s'.dev.history = later ++ (mid ++ s.dev.history))
    (himg : Disk.CrashImage base (mid ++ s.dev.history) img) :
    CommitBoundary map blockSize j.sequence (transactions commits) img := by
  obtain ⟨home, hr, rfl, hsame, rfl, rfl, hpos⟩ := h.ready
  rw [← hsame] at hpos hseq ⊢
  obtain ⟨rfl, hearly, hall⟩ := runAttempts_of_run hrun
  -- The cut is between two commits or inside of one.
  obtain ⟨done, t, durable, left, hc⟩ := (hr.cut hfits hearly hseq).2 hcut himg
  obtain ⟨n, hn, hnext, hpos'⟩ := hc.toNat_sequence hpos hseq
  obtain ⟨rest, rfl⟩ := hc.begins
  have hdone : succeeded done s = done := by
    rw [succeeded_append] at hall
    have hlen := congrArg List.length hall
    have hle := (succeeded_sublist rest (runAttempts done s)).length_le
    rw [List.length_append, List.length_append] at hlen
    exact (succeeded_sublist done s).eq_of_length_le (by omega)
  have hsequence := hc.sequence
  rw [hdone] at hsequence
  rw [transactions, List.filter_append]
  refine CommitBoundary.append _ ?_
  rw [← transactions, ← transactions, ← hsequence, ← hc.layout]
  rcases hc.power with himg | ⟨c, later, mid, hbegins, hne, hcut', himg'⟩
  · exact hc.ready.boundary_idle hpos' _ himg
  obtain ⟨rest, rfl⟩ := (List.prefix_append_right_inj done).mp hbegins
  have hfit := hfits c (by simp)
  rw [← hc.layout] at hfit
  simp only [List.length_append, List.length_singleton] at hseq
  rw [transactions, List.singleton_append, List.filter_cons_of_pos (by simpa using hne)]
  exact hc.ready.boundary_commit hfit.1 hfit.2 hne hpos' (by omega) hcut' himg' _

/-! ## A small journal -/

/-- A device with the journal without features at block 100 and nothing else. -/
def smallDisk (block : UInt64) : Block := if block = 100 then smallSuper else zeros

def freshLayout : Layout := smallLayout false

/-- The small journal has a geometry that is opened. -/
theorem freshLayout_geometry : Geometry freshLayout := smallLayout_geometry false

/-- The small journal begun on a device that gives the answers. -/
def smallBegin (answers : List Answer) : Bool × State :=
  journalBegin ⟨journalAt freshLayout 1, ⟨smallDisk, [], answers⟩⟩ false false

/-- The journal after the mount. -/
def smallMount (answers : List Answer) : State := (smallBegin answers).2

/-- The small journal is open for writing. -/
theorem smallMount_begun {answers : List Answer} (hok : (smallBegin answers).1 = true) :
    Begun freshLayout.map smallDisk 1024 (journalAt freshLayout 1) (smallMount answers) where
  opened := journalOpen_iff.mpr ⟨100, 1, 1, rfl, by decide, smallSuper_superblock,
    freshLayout_geometry, rfl, rfl, rfl⟩
  begun := ⟨answers, false, false, Prod.ext hok rfl⟩
  injective := smallLayout_injective false
  first_lt_last := by decide
  last_small := by decide
  older := by
    intro position hp block hread hmagic
    obtain ⟨disk, hdisk, rfl⟩ := Option.map_eq_some_iff.mp hread
    obtain ⟨hp8, rfl⟩ := smallLayout_locate false hdisk
    have hp1 : 1 ≤ position := hp.1
    have hblank : smallDisk (100 + UInt64.ofNat position) = zeros := by
      interval_cases position <;> rfl
    rw [hblank] at hmagic
    exact absurd hmagic (by decide)

/-- The blocks of a commit of the small journal keep off the log. -/
theorem freshLayout_offLog {entries : List Entry} (h : ∀ e ∈ entries, 108 ≤ e.1) :
    OffLog freshLayout entries := by
  intro e he position hloc
  obtain ⟨hp, hd⟩ := smallLayout_locate false hloc
  have hge := h e he
  rw [hd] at hge
  interval_cases position <;> exact absurd hge (by decide)

/-- A commit of one block on the small journal. -/
def smallCommit : Commit := ⟨[magicEntry], fun _ => 0⟩

/-- The history of the small journal after this commit, without the last `n` requests. -/
def smallHistory (n : Nat) : History UInt64 Block :=
  (runCommits [smallCommit] (smallMount [])).2.dev.history.drop n

/-- The power fails when the commit block has just become durable: the scan ends behind the
    transaction. -/
theorem smallCommit_boundary : CommitBoundary smallMap 1024 1 (transactions [smallCommit])
      (Disk.view smallDisk (smallHistory 5)) := by
  have hfits : Fits (smallMount []).journal [smallCommit] := by
    intro c hc
    rw [List.mem_singleton.mp hc]
    exact ⟨by decide, freshLayout_offLog (by decide)⟩
  have hrun : runCommits [smallCommit] (smallMount []) =
      (true, (runCommits [smallCommit] (smallMount [])).2) := rfl
  have hcut : (runCommits [smallCommit] (smallMount [])).2.dev.history =
      (smallHistory 0).take 4 ++ ((smallHistory 4).take 5 ++ (smallMount []).dev.history) := rfl
  have himg : Disk.CrashImage smallDisk ((smallHistory 4).take 5 ++ (smallMount []).dev.history)
      (Disk.view smallDisk (smallHistory 5)) := .flush (smallHistory 5)
  exact scan_after_crash (@smallMount_begun [] rfl) hfits (by decide) hrun hcut himg

/-! ## Sequence numbers that come round

After 2^32 commits a transaction has the number of an old one. If the old one was longer than
those in between, its commit block is still in the log. -/

/-- A block to write, other than the magic number. -/
def pattern (n : UInt32) : Block := storeBe32 zeros 0 n

/-- The first commit, with its commit block at position 4. -/
def wrapFirst : Commit := ⟨[(500, pattern 1), (501, pattern 1)], fun _ => 1⟩

/-- The commits in between, which end at position 3. -/
def wrapOther : Commit := ⟨[(500, pattern 2)], fun _ => 2⟩

/-- The last commit, which is as long as the first. -/
def wrapLast : Commit := ⟨[(500, pattern 3), (501, pattern 3)], fun _ => 3⟩

private theorem planned_two (sequence : UInt32) (e e' : Entry) (he : 108 ≤ e.1) (he' : 108 ≤ e'.1) :
    Planned freshLayout sequence [e, e'] [(101, descriptor freshLayout sequence [e, e']),
      (102, escaped e.2), (103, escaped e'.2)] 104 where
  placed := .cons rfl (.cons rfl (.cons rfl (.nil _)))
  commit := rfl
  capacity := show 2 ≤ journalCapacity freshLayout by decide
  offLog := freshLayout_offLog (by simp [he, he'])

private theorem planned_one (sequence : UInt32) (e : Entry) (he : 108 ≤ e.1) :
    Planned freshLayout sequence [e]
      [(101, descriptor freshLayout sequence [e]), (102, escaped e.2)] 103 where
  placed := .cons rfl (.cons rfl (.nil _))
  commit := rfl
  capacity := show 1 ≤ journalCapacity freshLayout by decide
  offLog := freshLayout_offLog (by simp [he])

/-- The small journal between two commits, with an old commit block at position 4. -/
structure Wrapping (s : State) : Prop where
  idle : Idle s 100 s.dev.read []
  layout : s.journal.toLayout = freshLayout
  base : s.dev.base = smallDisk
  answers : s.dev.answers = []
  old : s.dev.read 104 = commitOf freshLayout 1 wrapFirst.entries (wrapFirst.now 0)
  blank : s.dev.read 105 = zeros

/-- A commit on the small journal succeeds and writes its four phases. -/
private theorem smallStep (hidle : Idle s 100 s.dev.read [])
    (hlayout : s.journal.toLayout = freshLayout) (hanswers : s.dev.answers = [])
    {entries ws : List Entry} {disk : UInt64}
    (hp : Planned freshLayout s.journal.sequence entries ws disk) (hne : entries ≠ [])
    (now : Nat → UInt64) :
    ∃ s', journalCommit s entries now = (true, s') ∧ Idle s' 100 s'.dev.read [] ∧
      s'.journal.toLayout = freshLayout ∧ s'.dev.answers = [] ∧ s'.dev.base = s.dev.base ∧
      s'.journal.sequence = s.journal.sequence + 1 ∧
      (∃ hist, s'.dev.history = hist ++ s.dev.history) ∧
      ∀ a, a ≠ 100 → s'.dev.read a = apply (ws ++
        (disk, commitOf freshLayout s.journal.sequence entries (now 0)) :: entries)
          s.dev.read a := by
  rw [← hlayout] at hp
  obtain ⟨hok, hanswers'⟩ := hidle.commit_works hp hne now hanswers
  have hcommit : journalCommit s entries now = (true, (journalCommit s entries now).2) := by
    rw [← hok]
  obtain ⟨hidle', ⟨b, hj⟩, hbase, hhist, hread⟩ := hidle.next hp hne hcommit
  refine ⟨_, hcommit, hidle', by rw [hj]; exact hlayout, hanswers', hbase, by rw [hj],
    hhist, fun a ha => ?_⟩
  rw [hread, apply_of_not_mem fun w hw heq => ha (by rw [← heq, mem_singleton.mp hw]),
    nil_append, apply_append ws, hlayout]
  rfl

/-- The commits in between leave the old commit block alone. -/
private theorem Wrapping.step (h : Wrapping s) :
    ∃ s', journalCommit s wrapOther.entries wrapOther.now = (true, s') ∧ Wrapping s' ∧
      s'.journal.sequence = s.journal.sequence + 1 ∧
      ∃ hist, s'.dev.history = hist ++ s.dev.history := by
  obtain ⟨s', hcommit, hidle, hlayout, hanswers, hbase, hseq, hhist, hread⟩ := smallStep h.idle
    h.layout h.answers (planned_one s.journal.sequence (500, pattern 2) (by decide)) (by simp)
    wrapOther.now
  refine ⟨s', hcommit, ⟨hidle, hlayout, hbase.trans h.base, hanswers, ?_, ?_⟩, hseq, hhist⟩
  · rw [hread 104 (by decide), apply_of_not_mem (by simp)]
    exact h.old
  · rw [hread 105 (by decide), apply_of_not_mem (by simp)]
    exact h.blank

private theorem Wrapping.run (n : Nat) (h : Wrapping s) :
    ∃ s', (∀ rest, runCommits (replicate n wrapOther ++ rest) s = runCommits rest s') ∧
      Wrapping s' ∧ s'.journal.sequence = s.journal.sequence + ofNat n ∧
      ∃ hist, s'.dev.history = hist ++ s.dev.history := by
  induction n generalizing s with
  | zero => exact ⟨s, fun _ => rfl, h, by simp, [], rfl⟩
  | succ n ih =>
    obtain ⟨s₁, hcommit, h₁, hseq, hist, hhist⟩ := h.step
    obtain ⟨s', hrun, h', hseq', hist', hhist'⟩ := ih h₁
    refine ⟨s', fun rest => ?_, h', ?_, hist' ++ hist, by rw [hhist', hhist, append_assoc]⟩
    · rw [replicate_succ, cons_append, runCommits, hcommit, andThen_of_ok (r := (true, s₁)) rfl]
      exact hrun rest
    · rw [hseq', hseq, UInt32.ofNat_add, UInt32.add_assoc, UInt32.add_comm 1]
      rfl

/-- The state after the first commit. -/
private theorem wrapping_first :
    ∃ s, journalCommit (smallMount []) wrapFirst.entries wrapFirst.now = (true, s) ∧ Wrapping s ∧
      s.journal.sequence = 2 ∧ ∃ hist, s.dev.history = hist ++ (smallMount []).dev.history := by
  obtain ⟨home, hr, hbase, hseq, -⟩ := (@smallMount_begun [] rfl).ready
  obtain rfl : home = 100 := by
    have hloc := hr.locateHome
    exact (Option.some.inj (hloc.symm.trans (show logLocate freshLayout 0 = some 100 from rfl)))
  obtain ⟨s, hcommit, hidle, hlayout, hanswers, hbase', hseq', hhist, hread⟩ := smallStep hr.toIdle
    rfl rfl (planned_two (smallMount []).journal.sequence (500, pattern 1)
      (501, pattern 1) (by decide)
    (by decide)) (by simp) wrapFirst.now
  refine ⟨s, hcommit, ⟨hidle, hlayout, hbase'.trans hbase, hanswers, ?_, ?_⟩, hseq', hhist⟩
  · rw [hread 104 (by decide)]
    rfl
  · rw [hread 105 (by decide), apply_of_not_mem (by simp)]
    rfl

/-- The log blocks of the last commit. -/
def wrapLog : List Entry :=
  [(101, descriptor freshLayout 1 wrapLast.entries), (102, escaped (pattern 3)),
    (103, escaped (pattern 3))]

private theorem wrapLog_planned : Planned freshLayout 1 wrapLast.entries wrapLog 104 :=
  planned_two 1 (500, pattern 3) (501, pattern 3) (by decide) (by decide)

private theorem apply_wrapLog (d : UInt64 → Block) {a : UInt64} (h : a < 101 ∨ 103 < a) :
    apply wrapLog d a = d a := by
  refine apply_of_not_mem fun w hw heq => ?_
  simp only [wrapLog, mem_cons, not_mem_nil, or_false] at hw
  subst heq
  rcases hw with rfl | rfl | rfl <;> exact absurd h (by decide)

/-- Without checksums every commit block is valid. -/
theorem freshLayout_commitValid (commit : Block) (checksum : UInt32) :
    commitValid freshLayout commit checksum = true := by
  have hcsum : hasCsum freshLayout = false := by decide
  have hv1 : freshLayout.compat &&& compatChecksum = 0 := by decide
  simp [commitValid, hcsum, hv1]

/-- The small journal is an ordinary one. -/
theorem freshLayout_ordinary : Ordinary freshLayout :=
  ⟨smallSuper_superblock.opened freshLayout_geometry, by decide, by decide⟩

/-- The scan takes the old commit block for that of the last transaction. -/
private theorem Wrapping.scan (h : Wrapping s) {img : UInt64 → Block}
    (himg : img = apply wrapLog s.dev.read) :
    walkLog .scan 1 (reopened (journalAt freshLayout 1) img) =
      (some 2, reopened (journalAt freshLayout 1) img) := by
  have hold : img 104 = commitOf freshLayout 1 wrapFirst.entries (wrapFirst.now 0) := by
    rw [himg, apply_wrapLog _ (by decide)]
    exact h.old
  have hblank : img 105 = zeros := by
    rw [himg, apply_wrapLog _ (by decide)]
    exact h.blank
  have hblocks : Holds freshLayout img 1 (logBlocks freshLayout 1 wrapLast.entries) := by
    rw [himg]
    exact wrapLog_planned.placed.holds (by simp [wrapLog]) s.dev.read
  have htx : HoldsTransaction (reopened (journalAt freshLayout 1) img)
      (batchesOf freshLayout wrapLast.entries)
      (commitOf freshLayout 1 wrapFirst.entries (wrapFirst.now 0)) := by
    refine ⟨show 1024 ≤ 1024 by decide, batchesOf_valid (show 1024 ≤ 1024 by decide) _,
      freshLayout_offLog (by decide), holds_append.mpr ⟨hblocks, congrArg some hold, trivial⟩,
      commitOf_header .., ⟨img 105, rfl, Or.inl (by rw [hblank]; decide)⟩, show 2 ≤ 9 by decide⟩
  rw [walkLog_scan_transaction htx ⟨rfl, rfl⟩ 1]
  exact congrArg (fun stop => (some stop, _)) (if_pos (freshLayout_commitValid ..))

/-- A run with `n` commits between the first and the last. -/
def wrapCommits (n : Nat) : List Commit := wrapFirst :: (replicate n wrapOther ++ [wrapLast])

private theorem mem_wrapCommits {n : Nat} {c : Commit} (h : c ∈ wrapCommits n) :
    c = wrapFirst ∨ c = wrapOther ∨ c = wrapLast := by
  simp only [wrapCommits, mem_cons, mem_append, mem_replicate, not_mem_nil, or_false] at h
  exact h.imp_right fun h => h.imp_left And.right

private theorem wrapCommits_fits (n : Nat) : Fits freshLayout (wrapCommits n) := by
  intro c hc
  rcases mem_wrapCommits hc with rfl | rfl | rfl <;>
    exact ⟨by decide, freshLayout_offLog (by decide)⟩

private theorem transactions_wrapCommits (n : Nat) :
    transactions (wrapCommits n) = wrapCommits n := by
  refine filter_eq_self.mpr fun c hc => ?_
  rcases mem_wrapCommits hc with rfl | rfl | rfl <;> rfl

private theorem wrapCommits_last (n : Nat) : (wrapCommits n)[n + 1]? = some wrapLast := by
  rw [wrapCommits, getElem?_cons_succ, getElem?_append_right (by simp),
    length_replicate, Nat.sub_self]
  rfl

/-- With a power cut before the last commit block, the scan accepts a transaction that was not
    committed. -/
private theorem Wrapping.not_boundary (h : Wrapping s) (hseq : s.journal.sequence = 1)
    {img : UInt64 → Block}
    (himg : img = apply wrapLog s.dev.read)
    {n : Nat} (hn : n + 1 = 2 ^ 32) :
    ¬CommitBoundary smallMap 1024 1 (transactions (wrapCommits n)) img := by
  rintro ⟨k, r, stop, hk, hopen, hrseq, hscan, -, hiff, hholds⟩
  have hsb : Superblock (img 100) freshLayout 1 1 := by
    rw [himg, apply_wrapLog _ (by decide)]
    have hsb := h.idle.superblock
    rw [h.layout, hseq] at hsb
    exact hsb
  obtain rfl : journalAt freshLayout 1 = r := Option.some.inj
    ((journalOpen_superblock freshLayout_geometry rfl hsb).symm.trans hopen)
  obtain rfl : 2 = stop := Option.some.inj (congrArg Prod.fst ((h.scan himg).symm.trans hscan))
  obtain ⟨tx, htx, disk, hdisk, hdurable⟩ := hiff.mp rfl
  rw [transactions_wrapCommits] at hk htx hholds
  have hlen : (wrapCommits n).length = n + 2 := by simp [wrapCommits]
  -- The numbers have come round once, so two transactions have the number 1.
  have hk0 : k % 2 ^ 32 = 0 := by
    have hz : (1 : UInt32) = 1 + ofNat k := hrseq
    have hnat := congrArg toNat hz
    rw [UInt32.toNat_add, UInt32.toNat_ofNat', UInt32.toNat_one] at hnat
    omega
  rcases (show k = 0 ∨ k = n + 1 by omega) with rfl | rfl
  · -- the log holds other blocks than those of the first transaction
    obtain ⟨-, hdata, -⟩ := hholds wrapFirst rfl rfl
    have himage : img 102 = escaped (pattern 1) := Option.some.inj hdata
    have hlogged : img 102 = escaped (pattern 3) := by rw [himg]; rfl
    exact absurd (congrFun (hlogged.symm.trans himage) 3) (by decide)
  · -- and another commit block than that of the last one
    obtain rfl : wrapLast = tx := Option.some.inj ((wrapCommits_last n).symm.trans htx)
    obtain rfl : 104 = disk := Option.some.inj hdisk
    rw [himg, apply_wrapLog _ (by decide), h.old] at hdurable
    exact absurd (congrFun hdurable 59) (by decide)

/-- The run, cut off after the flush of the last transaction's log blocks. -/
private theorem wrapCommits_not_boundary {n : Nat} (hn : n + 1 = 2 ^ 32) :
    ∃ s' later mid img, runCommits (wrapCommits n) (smallMount []) = (true, s') ∧
      s'.dev.history = later ++ (mid ++ (smallMount []).dev.history) ∧
      CrashImage smallDisk (mid ++ (smallMount []).dev.history) img ∧
      ¬CommitBoundary smallMap 1024 1 (transactions (wrapCommits n)) img := by
  obtain ⟨s₁, hfirst, h₁, hseq₁, hist₁, hhist₁⟩ := wrapping_first
  obtain ⟨s₂, hothers, h₂, hseq₂, hist₂, hhist₂⟩ := h₁.run n
  have hseq : s₂.journal.sequence = 1 := by
    have hround : ofNat (n + 1) = 0 := by rw [hn]; rfl
    rw [hseq₂, hseq₁, show (2 : UInt32) = 1 + 1 from rfl, UInt32.add_assoc,
      UInt32.add_comm 1 (UInt32.ofNat n), ← UInt32.ofNat_one, ← UInt32.ofNat_add, hround]
    rfl
  have hp : Planned s₂.journal s₂.journal.sequence wrapLast.entries wrapLog 104 := by
    rw [h₂.layout, hseq]
    exact wrapLog_planned
  obtain ⟨hok, -⟩ := h₂.idle.commit_works hp (by simp [wrapLast]) wrapLast.now h₂.answers
  -- the requests of the last commit end with those for its commit block
  obtain ⟨hist, hex, -, hhist⟩ := (h₂.idle.commit_runs hp (by simp [wrapLast]) wrapLast.now).1
  rw [hok] at hex
  cases hex with
  | @phase _ _ later _ _ =>
    have hmid : Event.flush :: issue wrapLog [] ++ (hist₂ ++ hist₁) ++
        (smallMount []).dev.history = .flush :: issue wrapLog s₂.dev.history := by
      rw [issue_eq_append wrapLog s₂.dev.history, hhist₂, hhist₁]
      simp
    have hcrash :
        CrashImage smallDisk (.flush :: issue wrapLog s₂.dev.history)
          (apply wrapLog s₂.dev.read) := by
      have hflush := @Disk.CrashImage.flush _ _ _ smallDisk (issue wrapLog s₂.dev.history)
      rw [view_issue, ← h₂.base] at hflush
      rw [← h₂.base]
      exact hflush
    refine ⟨(journalCommit s₂ wrapLast.entries wrapLast.now).2, later,
      .flush :: issue wrapLog [] ++ (hist₂ ++ hist₁), apply wrapLog s₂.dev.read, ?_, ?_,
      by rw [hmid]; exact hcrash, h₂.not_boundary hseq rfl hn⟩
    · rw [wrapCommits, runCommits, hfirst, andThen_of_ok (r := (true, s₁)) rfl, hothers, runCommits,
        andThen_of_ok hok]
      rfl
    · rw [hhist, hmid, issue_eq_append wrapLog s₂.dev.history]
      simp

/-- **The boundary is lost when the sequence numbers come round**: after 2^32 commits the scan may
    accept a transaction whose commit block was never written. -/
theorem wrap_not_boundary :
    ∃ map base blockSize j s s' commits later mid img, Begun map base blockSize j s ∧
      Fits s.journal commits ∧ runCommits commits s = (true, s') ∧
      s'.dev.history = later ++ (mid ++ s.dev.history) ∧
      Disk.CrashImage base (mid ++ s.dev.history) img ∧
      ¬CommitBoundary map blockSize j.sequence (transactions commits) img := by
  obtain ⟨n, hn⟩ : ∃ n, n + 1 = 2 ^ 32 := ⟨2 ^ 32 - 1, by omega⟩
  obtain ⟨s', later, mid, img, hrun, hcut, himg, hnot⟩ := wrapCommits_not_boundary hn
  exact ⟨_, _, _, _, _, s', wrapCommits n, later, mid, img, @smallMount_begun [] rfl,
    wrapCommits_fits n, hrun,
    hcut, himg, hnot⟩

end Tunix.Jbd2
