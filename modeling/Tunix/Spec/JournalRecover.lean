import Tunix.Spec.JournalWrite

/-!
# Recovering a log

`jbd2_journal_recover` in terms of what the scan finds: `journalRecover_of_scan` says which
requests a recovery makes when the scan has ended and the later passes have been followed;
`walkLog_scan_transaction` and `walkLog_transaction` follow the passes over a log that holds one
transaction.
-/

namespace Tunix.Jbd2

open Bytes

/-! ## Passes over one transaction -/

/-- From its start on, the log holds the batches of one transaction, a commit block for it and
    nothing of the next one. -/
structure HoldsTransaction (s : State) (batches : List (List Entry)) (commit : Block) : Prop where
  blockSize : 1024 ≤ s.journal.blockSize
  valid : ∀ batch ∈ batches, ValidBatch s.journal batch
  offLog : OffLog s.journal batches.flatten
  holds : Holds s.journal s.dev.read s.journal.start.toNat
    (batchesBlocks s.journal s.journal.sequence batches ++ [commit])
  header : Header commit commitBlockType s.journal.sequence
  ends : EndsLog s.journal s.dev.read
    ((step s.journal)^[(batchesBlocks s.journal s.journal.sequence batches).length + 1]
      s.journal.start.toNat) (s.journal.sequence + 1)
  guard : batches.length + 1 ≤ (s.journal.last + 1) % 2 ^ 32

section Transaction

variable {s : State} {batches : List (List Entry)} {commit : Block}
  (h : HoldsTransaction s batches commit) (hcalm : Calm s)

include h hcalm

/-- The scan ends behind the transaction if its commit block is valid, and before it if not. -/
theorem walkLog_scan_transaction (stop : UInt32) : walkLog .scan stop s =
      (some (if commitValid s.journal commit (sumBlocks s.journal 0xFFFFFFFF
          (batchesBlocks s.journal s.journal.sequence batches)) then s.journal.sequence + 1
        else s.journal.sequence), s) := by
  obtain ⟨hblocks, hcommit, -⟩ := holds_append.mp h.holds
  obtain ⟨rest, hguard⟩ := Nat.exists_eq_add_of_le h.guard
  have hends := h.ends
  rw [Function.iterate_succ_apply'] at hends
  unfold walkLog
  rw [hguard, show batches.length + 1 + rest = rest + 1 + batches.length by omega,
    walkBlocks_batches hcalm h.blockSize h.valid (Or.inl rfl) hblocks h.offLog nofun]
  simp only [replayed, walkSum, if_true, reduceCtorEq, if_false]
  split_ifs with hvalid
  · rw [walkBlocks_commit hcommit h.header (Or.inl rfl) fun _ => hvalid, walkBlocks_scan_end hends]
    rfl
  · rw [walkBlocks, if_neg (by simp)]
    simp only [hcommit, h.header.magic, h.header.sequence, h.header.type, ne_eq, not_true,
      or_self, if_false, if_true, true_and]
    rw [if_pos (by simpa using hvalid)]
    rfl

/-- The later passes go over the whole transaction. -/
theorem walkLog_transaction {pass : Pass} (hpass : pass ≠ .scan)
    (hrep : ∀ e ∈ batches.flatten, Representable s.journal e.1) :
    walkLog pass (s.journal.sequence + 1) s = (some (s.journal.sequence + 1),
        replayed pass s.journal.sequence s batches.flatten) := by
  obtain ⟨hblocks, hcommit, -⟩ := holds_append.mp h.holds
  obtain ⟨rest, hguard⟩ := Nat.exists_eq_add_of_le h.guard
  have hne : s.journal.sequence ≠ s.journal.sequence + 1 := by simp
  have hj : (replayed pass s.journal.sequence s batches.flatten).journal = s.journal :=
    replayed_journal ..
  have hcommit' : logRead (replayed pass s.journal.sequence s batches.flatten).journal
      (replayed pass s.journal.sequence s batches.flatten).dev.read
      ((step s.journal)^[(batchesBlocks s.journal s.journal.sequence batches).length]
        s.journal.start.toNat) = some commit := by
    have hone : Holds s.journal s.dev.read
        ((step s.journal)^[(batchesBlocks s.journal s.journal.sequence batches).length]
          s.journal.start.toNat) [commit] := ⟨hcommit, trivial⟩
    rw [hj]
    exact (hone.replayed h.offLog pass s.journal.sequence).1
  unfold walkLog
  rw [hguard, show batches.length + 1 + rest = rest + 1 + batches.length by omega,
    walkBlocks_batches hcalm h.blockSize h.valid (Or.inr hne) hblocks h.offLog fun _ => hrep,
    walkBlocks_commit hcommit' h.header (Or.inr hne) fun hs => absurd hs hpass,
    walkBlocks_stop hpass (w := ⟨_, s.journal.sequence + 1, _⟩) rfl]
  rfl

end Transaction

/-! ## Recovery -/

/-- The state in which the passes of a recovery run. -/
def recovering (s : State) : State :=
  { s with journal := { revokesClear s.journal with busy := true } }

variable {s : State}

private theorem recovering_calm {s : State} (h : s.dev.answers = []) :
    Calm (recovering s) := ⟨h, rfl⟩

/-- The device requests of the end of a recovery, newest first: the flush of the replayed blocks
    if there was anything to replay, then the superblock. -/
def recoveryTail (home : UInt64) (sb : Block) (replay : Bool) : Disk.History UInt64 Block :=
  [.flush, .write home sb] ++ if replay then [.flush] else []

private theorem deviceFlush_calm (h : s.dev.answers = []) : deviceFlush s =
      (true, { s with dev := { s.dev with history := .flush :: s.dev.history } }) := by
  simp [deviceFlush, Dev.flush, h]

/-- Without device failures the superblock is written and flushed. -/
theorem writeSuperblock_calm {home : UInt64} (h : s.dev.answers = [])
    (hhome : logLocate s.journal 0 = some home) (start sequence : UInt32) :
    ∃ s' sb, andThen (writeJournalSuperblock s start sequence) deviceFlush = (true, s') ∧
      s'.dev.base = s.dev.base ∧ s'.dev.history = .flush :: .write home sb :: s.dev.history := by
  unfold writeJournalSuperblock logRead logWrite
  simp only [hhome, Option.map_some, Dev.write_calm h]
  rw [andThen_of_ok (r := (true, _)) rfl, andThen_of_ok (r := (true, _)) rfl,
    deviceFlush_calm (by exact h)]
  exact ⟨_, _, rfl, rfl, rfl⟩

/-- A recovery follows its scan: nothing is replayed if the scan has not got behind a transaction,
    and otherwise what the replay pass writes. -/
theorem journalRecover_of_scan {stop : UInt32} {ws : List Entry} {home : UInt64}
    (hstart : s.journal.start ≠ 0) (hanswers : s.dev.answers = [])
    (hscan : walkLog .scan s.journal.sequence (recovering s) = (some stop, recovering s))
    (hfast : checkFastCommit (recovering s) stop = false)
    (hreplay : stop ≠ s.journal.sequence →
      walkLog .revoke stop (recovering s) = (some stop, recovering s) ∧
        walkLog .replay stop (recovering s) = (some stop, (recovering s).issue ws))
    (hsame : stop = s.journal.sequence → ws = [])
    (hhome : logLocate s.journal 0 = some home) :
    ∃ s' sb, journalRecover s = (true, s') ∧ s'.dev.base = s.dev.base ∧ s'.dev.history =
        recoveryTail home sb (stop ≠ s.journal.sequence) ++ Disk.issue ws s.dev.history := by
  have hseq : (recovering s).journal.sequence = s.journal.sequence := rfl
  rw [show journalRecover s = recoverLog (recovering s) from if_neg hstart, recoverLog, hseq, hscan]
  simp only [hfast, Bool.false_eq_true, if_false, hseq]
  by_cases hstop : stop = s.journal.sequence
  · -- nothing to replay
    obtain ⟨s', sb, hsb, hbase, hhist⟩ :=
      writeSuperblock_calm (s := recovering s) hanswers hhome 0 stop
    rw [if_neg (not_not_intro hstop), andThen_of_ok (r := (true, recovering s)) rfl, hsb]
    refine ⟨_, sb, rfl, hbase, ?_⟩
    simp [hhist, recoveryTail, hstop, hsame hstop, recovering]
  -- The blocks are durable before the superblock says that the log is empty.
  · obtain ⟨hrevoke, hreplay⟩ := hreplay hstop
    have hto : replayTo stop (recovering s) = deviceFlush ((recovering s).issue ws) := by
      unfold replayTo
      rw [hrevoke]
      simp only
      rw [hreplay]
    rw [if_pos hstop, hto, deviceFlush_calm (s := (recovering s).issue ws) hanswers,
      andThen_of_ok (r := (true, _)) rfl]
    obtain ⟨s', sb, hsb, hbase, hhist⟩ := writeSuperblock_calm
      (s := { (recovering s).issue ws with
        dev := { ((recovering s).issue ws).dev with
          history := .flush :: ((recovering s).issue ws).dev.history } })
      hanswers hhome 0 stop
    rw [hsb]
    refine ⟨_, sb, rfl, hbase, ?_⟩
    simp [hhist, recoveryTail, hstop, recovering, State.issue]

/-- A recovery succeeds and, besides the journal's superblock, makes exactly the writes `ws`. -/
def RecoversWith (s : State) (ws : List Entry) : Prop :=
  ∃ s' home sb replay, journalRecover s = (true, s') ∧ logLocate s.journal 0 = some home ∧
    s'.dev.base = s.dev.base ∧
    s'.dev.history = recoveryTail home sb replay ++ Disk.issue ws s.dev.history

/-- The device after a recovery, but for the superblock. -/
theorem RecoversWith.read {ws : List Entry} {home : UInt64} (h : RecoversWith s ws)
    (hhome : logLocate s.journal 0 = some home) :
    ∃ s', journalRecover s = (true, s') ∧
      ∀ target, target ≠ home → s'.dev.read target = Disk.apply ws s.dev.read target := by
  obtain ⟨s', home', sb, replay, hrec, hhome', hbase, hhist⟩ := h
  obtain rfl : home = home' := Option.some.inj (hhome.symm.trans hhome')
  refine ⟨s', hrec, fun target hne => ?_⟩
  have hview : Disk.view s.dev.base (Disk.issue ws s.dev.history) = Disk.apply ws s.dev.read :=
    Disk.view_issue ..
  rw [← hview]
  simp only [Dev.read, hbase, hhist]
  cases replay <;> exact Function.update_of_ne hne ..

/-- The state is ready for a recovery: there is a log to walk, the device works, and there are no
    fast commits. -/
structure Recoverable (s : State) : Prop where
  start : s.journal.start ≠ 0
  answers : s.dev.answers = []
  noFastCommit : ∀ next, next = s.journal.sequence ∨ next = s.journal.sequence + 1 →
    checkFastCommit s next = false
  home : ∃ home, logLocate s.journal 0 = some home

/-- A scan that does not get behind a transaction replays nothing. -/
theorem recoversWith_nothing (h : Recoverable s)
    (hscan : walkLog .scan s.journal.sequence (recovering s) =
      (some s.journal.sequence, recovering s)) : RecoversWith s [] := by
  obtain ⟨home, hhome⟩ := h.home
  obtain ⟨s', sb, hrec, hbase, hhist⟩ := journalRecover_of_scan h.start h.answers hscan
    (h.noFastCommit _ (Or.inl rfl)) (fun hne => absurd rfl hne) (fun _ => rfl) hhome
  exact ⟨s', home, sb, _, hrec, hhome, hbase, hhist⟩

section

variable {batches : List (List Entry)} {commit : Block} (h : Recoverable s)
  (htx : HoldsTransaction (recovering s) batches commit)
include h htx

/-- A transaction with a valid commit block is replayed, but for the blocks whose images do not
    match their tags. -/
theorem recoversWith_transaction (hrep : ∀ e ∈ batches.flatten, Representable s.journal e.1)
    (hvalid : commitValid s.journal commit (sumBlocks s.journal 0xFFFFFFFF
      (batchesBlocks s.journal s.journal.sequence batches)) = true) :
    RecoversWith s (batches.flatten.filter (intact s.journal s.journal.sequence)) := by
  have hcalm := recovering_calm h.answers
  obtain ⟨home, hhome⟩ := h.home
  have hscan := walkLog_scan_transaction htx hcalm s.journal.sequence
  rw [show (recovering s).journal.toLayout = s.journal.toLayout from rfl,
    show (recovering s).journal.sequence = s.journal.sequence from rfl, if_pos hvalid] at hscan
  have hnext : s.journal.sequence + 1 ≠ s.journal.sequence := by simp
  obtain ⟨s', sb, hrec, hbase, hhist⟩ := journalRecover_of_scan h.start h.answers hscan
    (h.noFastCommit _ (Or.inr rfl))
    (fun _ => ⟨walkLog_transaction htx hcalm (by decide) hrep,
      walkLog_transaction htx hcalm (by decide) hrep⟩)
    (fun heq => absurd heq hnext) hhome
  exact ⟨s', home, sb, _, hrec, hhome, hbase, hhist⟩

/-- A transaction without a valid commit block is left alone. -/
theorem recoversWith_invalid (hvalid : commitValid s.journal commit (sumBlocks s.journal 0xFFFFFFFF
      (batchesBlocks s.journal s.journal.sequence batches)) = false) : RecoversWith s [] := by
  apply recoversWith_nothing h
  have hscan := walkLog_scan_transaction htx (recovering_calm h.answers) s.journal.sequence
  rwa [show (recovering s).journal.toLayout = s.journal.toLayout from rfl,
    show (recovering s).journal.sequence = s.journal.sequence from rfl,
    if_neg (by simp [hvalid])] at hscan

end

end Tunix.Jbd2
