import Tunix.Spec.JournalCommit

/-!
# Runs of commits

Calls of `jbd2_journal_commit`, each made whether or not those before it have succeeded. A commit
that has failed is tried again under the same sequence number, from the start of the log. As long
as it had not come to its commit block this is harmless: what it has left in the log is part of no
committed transaction (`Ready.retry`).

## Key results

- `Ready.attempt`: a commit that succeeds, or fails before its commit block, leads to the next
  state between two commits
- `Ready.cut`: a power cut in a run falls between two of its commits, or into one of them
-/

namespace Tunix.Jbd2

open Bytes List

/-! ## Runs -/

/-- A call of `jbd2_journal_commit`: the blocks, and the times of its transactions. -/
structure Commit where
  entries : List Entry
  now : Nat → UInt64

/-- A run of commits, up to the first that fails. -/
def runCommits : List Commit → State → Bool × State
  | [], s => (true, s)
  | c :: rest, s => andThen (journalCommit s c.entries c.now) (runCommits rest)

/-- The commits of a run that have something to write. -/
def transactions (commits : List Commit) : List Commit := commits.filter fun c => !c.entries.isEmpty

/-- The commits of a run fit into the log and keep off it. -/
def Fits (j : Layout) (commits : List Commit) : Prop :=
  ∀ c ∈ commits, c.entries.length ≤ journalCapacity j ∧ OffLog j c.entries

/-- A run of attempts: each is made whether or not those before it have succeeded. -/
def runAttempts : List Commit → State → State
  | [], s => s
  | c :: rest, s => runAttempts rest (journalCommit s c.entries c.now).2

/-- The attempts of a run that have succeeded. -/
def succeeded : List Commit → State → List Commit
  | [], _ => []
  | c :: rest, s =>
    let r := journalCommit s c.entries c.now
    if r.1 then c :: succeeded rest r.2 else succeeded rest r.2

/-- The part of `log_transaction` before the commit block. -/
def logPhase (s : State) (entries : List Entry) : Bool × State :=
  match logBatches s.journal.sequence entries.length entries s.journal.first 0xFFFFFFFF s with
  | (_, _, false, s) => (false, s)
  | (_, _, true, s) => andThen (gatherFlush s) deviceFlush

/-- Every attempt but the last succeeds or fails before its commit block. -/
def FailsEarly : List Commit → State → Prop
  | [], _ => True
  | c :: rest, s =>
    (rest ≠ [] → (journalCommit s c.entries c.now).1 = true ∨
      (logPhase (committing s) c.entries).1 = false) ∧
    FailsEarly rest (journalCommit s c.entries c.now).2

/-- A commit of nothing does nothing. -/
theorem journalCommit_nil {s : State} (hidle : s.journal.busy = false)
    (hbegun : s.journal.openForWrites = true) (now : Nat → UInt64) :
    journalCommit s [] now = (true, s) := by
  unfold journalCommit
  rw [if_neg (by simp [hidle, hbegun]), if_pos rfl]

/-- Attempts behind attempts. -/
theorem succeeded_append (xs ys : List Commit) (s : State) :
    succeeded (xs ++ ys) s = succeeded xs s ++ succeeded ys (runAttempts xs s) := by
  induction xs generalizing s with
  | nil => rfl
  | cons c xs ih =>
    simp only [cons_append, succeeded, runAttempts, ih]
    split_ifs <;> rfl

/-- Only what was attempted can succeed. -/
theorem succeeded_sublist (attempts : List Commit) (s : State) :
    (succeeded attempts s).Sublist attempts := by
  induction attempts generalizing s with
  | nil => exact Sublist.refl _
  | cons c rest ih =>
    rw [succeeded]
    split_ifs
    · exact (ih _).cons_cons c
    · exact (ih _).cons c

/-- The sequence number after one that is not the last is not zero. -/
theorem succ_ne_zero {sequence : UInt32} (h : sequence.toNat + 1 < 2 ^ 32) : sequence + 1 ≠ 0 := by
  intro h0
  have hadd : (sequence + 1).toNat = sequence.toNat + 1 := by
    rw [UInt32.toNat_add, UInt32.toNat_one, Nat.mod_eq_of_lt h]
  rw [h0] at hadd
  simp at hadd

/-- The attempts of a run that stops at the first failure. -/
theorem runAttempts_of_run {commits : List Commit} {s s' : State}
    (h : runCommits commits s = (true, s')) :
    runAttempts commits s = s' ∧ FailsEarly commits s ∧ succeeded commits s = commits := by
  induction commits generalizing s with
  | nil => exact ⟨(Prod.mk.inj h).2, trivial, rfl⟩
  | cons c rest ih =>
    obtain ⟨hok, -⟩ := andThen_ok (congrArg Prod.fst h)
    rw [runCommits, andThen_of_ok hok] at h
    obtain ⟨hrun, hearly, hall⟩ := ih h
    exact ⟨hrun, ⟨fun _ => Or.inl hok, hearly⟩, by rw [succeeded, if_pos hok, hall]⟩

/-! ## Failures before the commit block -/

private theorem logPhase_eq {s : State} {entries ws : List Entry}
    (h : Placed s.journal s.journal.first (logBlocks s.journal s.journal.sequence entries) ws) :
    logPhase s entries = gatherPhase ws s := by
  obtain ⟨hrun, -⟩ := logBatches_placed 0xFFFFFFFF h
  unfold logPhase gatherPhase
  rcases hlog : logBatches s.journal.sequence entries.length entries s.journal.first 0xFFFFFFFF s
    with ⟨position, checksum, _ | _, s'⟩
  · rw [hlog] at hrun
    rw [← hrun]
    rfl
  · rw [hlog] at hrun
    rw [← hrun]
    rfl

section Retry

variable {s : State} {home disk : UInt64} {base img : UInt64 → Block} {left entries ws : List Entry}
  (hr : Ready s home base left) (hp : Planned s.journal s.journal.sequence entries ws disk)

include hr hp

/-- **A failure before the commit block leaves only harmless writes**, and the journal as it was. -/
theorem Ready.retry (hne : entries ≠ []) {now : Nat → UInt64} {ok : Bool} {s' : State}
    (heq : journalCommit s entries now = (ok, s'))
    (hfail : (logPhase (committing s) entries).1 = false) :
    ∃ xs, Ready s' home base (left ++ xs) ∧ ok = false ∧ s'.journal.toLayout = s.journal.toLayout ∧
      s'.journal.sequence = s.journal.sequence ∧ s'.dev.base = s.dev.base ∧
      ∃ hist, s'.dev.history = hist ++ s.dev.history := by
  obtain ⟨r, hreq, hcommit⟩ := journalCommit_eq hr.idle hr.begun hne hp.capacity now
  have hplaced : Placed (committing s).journal (committing s).journal.first
      (logBlocks (committing s).journal (committing s).journal.sequence entries) ws := hp.placed
  rw [logPhase_eq hplaced] at hfail
  obtain ⟨⟨hist, hex, hbase, hhist⟩, hg, g, a, hj⟩ :=
    gatherPhase_runs ws (s := committing s) hr.gather
  have hr' : r = gatherPhase ws (committing s) := by
    have hlog : logTransaction (committing s) entries (now 0) = gatherPhase ws (committing s) := by
      rw [logTransaction_eq hplaced]
      exact if_neg (by rw [hfail]; decide)
    rw [hreq, hlog]
    exact if_neg (by rw [hfail]; decide)
  rw [← hr'] at hfail hex hbase hhist hg hj
  rw [hfail] at hex
  -- some of the log blocks have been issued
  obtain ⟨xs, hxs, rfl⟩ : ∃ xs, (∀ w ∈ xs, w ∈ ws) ∧ hist = Disk.issue xs [] := by
    cases hex with
    | fail h => exact ⟨_, h, rfl⟩
    | phase h => cases h
  obtain ⟨rfl, rfl⟩ := Prod.mk.inj (heq.symm.trans hcommit)
  have hj' : r.2.journal = { (committing s).journal with gather := [], gatherStart := a } := by
    rw [hj] at hg ⊢
    exact congrArg (fun g => { (committing s).journal with gather := g, gatherStart := a }) hg
  have hhist' : r.2.dev.history = Disk.issue xs s.dev.history := by
    rw [hhist, ← Disk.issue_eq_append]
    rfl
  obtain ⟨hist₀, hleft, hsettled, hview⟩ := hr.durable
  have hidle :
      Idle { r.2 with journal := { r.2.journal with busy := false } } home base (left ++ xs) := by
    refine hr.toIdle.renew (by rw [hj']; rfl) hr.idle.symm (by rw [hj']; rfl) hg ?_ ?_
      ⟨hist₀, ?_, ?_, ?_⟩
    · rw [hj']
      exact hr.superblock
    · intro w hw
      exact (mem_append.mp hw).elim (hr.left_area w) fun hw => hp.area hr.ordinary w (hxs w hw)
    · rw [hhist', hleft, Disk.issue_append]
    · rw [hbase]
      exact hsettled
    · rw [hbase]
      exact hview
  have hlayout : r.2.journal.toLayout = s.journal.toLayout := by rw [hj']; rfl
  have hseq : r.2.journal.sequence = s.journal.sequence := by rw [hj']; rfl
  refine ⟨xs, ⟨hidle, ?_, ?_⟩, hfail, hlayout, hseq, hbase, _, hhist⟩
  · rw [hlayout, hseq]
    exact hr.stale
  · rw [hseq]
    intro w hw
    exact (mem_append.mp hw).elim (hr.left_harmless w) fun hw =>
      hp.harmless hr.ordinary w (hxs w hw)

end Retry

/-! ## One attempt -/

section Attempt

variable {s s' : State} {home : UInt64} {base img : UInt64 → Block} {left : List Entry}
  {c : Commit} {ok : Bool} (hr : Ready s home base left)

include hr

/-- What earlier attempts have left in flight is in the log area. -/
theorem Ready.read_outside {target : UInt64} (ht : Outside s.journal target) :
    s.dev.read target = base target := by
  rw [hr.read]
  exact Disk.apply_of_not_mem fun w hw heq => ht.1 (heq ▸ hr.left_area w hw)

/-- **One attempt**: if it succeeds, or fails before its commit block, the journal is again between
    two attempts, and the blocks are written or not. -/
theorem Ready.attempt (hcommit : journalCommit s c.entries c.now = (ok, s'))
    (hc : c.entries.length ≤ journalCapacity s.journal ∧ OffLog s.journal c.entries)
    (hseq : s.journal.sequence.toNat + 1 < 2 ^ 32)
    (hend : ok = true ∨ (logPhase (committing s) c.entries).1 = false) :
    ∃ base' left', Ready s' home base' left' ∧ s'.journal.toLayout = s.journal.toLayout ∧
      s'.journal.sequence = s.journal.sequence + UInt32.ofNat
        (transactions (if ok then [c] else [])).length ∧
      s'.dev.base = s.dev.base ∧ (∃ hist, s'.dev.history = hist ++ s.dev.history) ∧
      ∀ target, Outside s.journal target → base' target =
        Disk.apply ((if ok then [c] else []).flatMap Commit.entries) base target := by
  by_cases hne : c.entries = []
  · have hnil := journalCommit_nil hr.idle hr.begun c.now
    rw [hne, hnil] at hcommit
    cases hcommit
    refine ⟨base, left, hr, rfl, ?_, rfl, ⟨[], rfl⟩, fun _ _ => ?_⟩
    · simp [transactions, hne]
    · simp [hne]
  obtain ⟨ws, disk, hp⟩ := exists_planned hr.ordinary s.journal.sequence hc.1 hc.2
  by_cases hearly : (logPhase (committing s) c.entries).1 = false
  · obtain ⟨xs, hr', rfl, hlayout, hseq', hbase, hhist⟩ := hr.retry hp hne hcommit hearly
    exact ⟨base, left ++ xs, hr', hlayout, by simp [transactions, hseq'], hbase,
      hhist, fun _ _ => rfl⟩
  · obtain rfl := hend.resolve_right hearly
    obtain ⟨hr', hlayout, hseq', hbase, hhist, hread⟩ := hr.next hp hne hcommit hseq
    refine ⟨_, [], hr', hlayout, ?_, hbase, hhist, fun target ht => ?_⟩
    · simp [transactions, hne, hseq']
    · simpa using hread target ht

/-- An attempt only adds to the history of the device. -/
theorem Ready.attempt_history
    (hc : c.entries.length ≤ journalCapacity s.journal ∧ OffLog s.journal c.entries) :
    ∃ hist, (journalCommit s c.entries c.now).2.dev.history = hist ++ s.dev.history := by
  by_cases hne : c.entries = []
  · rw [hne, journalCommit_nil hr.idle hr.begun]
    exact ⟨[], rfl⟩
  · obtain ⟨ws, disk, hp⟩ := exists_planned hr.ordinary s.journal.sequence hc.1 hc.2
    obtain ⟨hist, -, -, hhist⟩ := (hr.commit_runs hp hne c.now).1
    exact ⟨hist, hhist⟩

/-- What a power cut between two attempts leaves. -/
theorem Ready.crash_idle (himg : Disk.CrashImage s.dev.base s.dev.history img) :
    Superblock (img home) s.journal (UInt32.ofNat s.journal.first) s.journal.sequence ∧
      Stale s.journal img s.journal.sequence ∧ ∀ a, ¬AreaBlock s.journal a → img a = base a := by
  obtain ⟨hist, hhist, hsettled, hview⟩ := hr.durable
  rw [hhist, Disk.issue_eq_append] at himg
  have hcrash := himg.of_append hsettled
  rw [hview] at hcrash
  have hcases (a : UInt64) : img a = base a ∨ (a, img a) ∈ left :=
    hcrash.of_writes (fun e he => by simpa [Disk.issue, eq_comm] using he) a
  have hsame (a : UInt64) (ha : ¬AreaBlock s.journal a) : img a = base a :=
    (hcases a).resolve_right fun hmem => ha (hr.left_area _ hmem)
  refine ⟨?_, hr.stale.of_writes hr.left_harmless fun a _ => hcases a, hsame⟩
  rw [hsame home fun harea => hr.home_not_area harea rfl]
  exact hr.superblock

end Attempt

/-! ## Power cuts -/

/-- Where the power fails in a run from `s`: after the attempts `done`, which lead to the state `t`
    between two commits, or in the attempt after them. -/
structure Cut (s : State) (home : UInt64) (base : UInt64 → Block) (attempts : List Commit)
    (img : UInt64 → Block) (done : List Commit) (t : State) (durable : UInt64 → Block)
    (left : List Entry) : Prop where
  ready : Ready t home durable left
  layout : t.journal.toLayout = s.journal.toLayout
  sequence : t.journal.sequence = s.journal.sequence + UInt32.ofNat
    (transactions (succeeded done s)).length
  written : ∀ target, Outside s.journal target →
    durable target = Disk.apply ((succeeded done s).flatMap Commit.entries) base target
  begins : done <+: attempts
  power : Disk.CrashImage t.dev.base t.dev.history img ∨ ∃ c later mid,
    done ++ [c] <+: attempts ∧ c.entries ≠ [] ∧
      (journalCommit t c.entries c.now).2.dev.history = later ++ (mid ++ t.dev.history) ∧
      Disk.CrashImage t.dev.base (mid ++ t.dev.history) img

section Cut

variable {s t : State} {home : UInt64} {base durable img : UInt64 → Block} {left : List Entry}
  {attempts done : List Commit}

/-- A power cut while nothing is added to the history. -/
private theorem append_crash {later mid history : Disk.History UInt64 Block}
    (hcut : history = later ++ (mid ++ history))
    (himg : Disk.CrashImage base (mid ++ history) img) : Disk.CrashImage base history img := by
  have hmid : later ++ mid = [] := append_left_eq_self.mp (by rw [append_assoc]; exact hcut.symm)
  rwa [(append_eq_nil_iff.mp hmid).2] at himg

/-- The power fails before the first attempt has come to its end. -/
theorem Ready.cut_first (hr : Ready s home base left)
    (hpower : Disk.CrashImage s.dev.base s.dev.history img ∨
      ∃ c later mid, [c] <+: attempts ∧ c.entries ≠ [] ∧
        (journalCommit s c.entries c.now).2.dev.history = later ++ (mid ++ s.dev.history) ∧
        Disk.CrashImage s.dev.base (mid ++ s.dev.history) img) :
    Cut s home base attempts img [] s base left :=
  ⟨hr, rfl, by simp [transactions, succeeded], fun _ _ => rfl, nil_prefix, hpower⟩

/-- **A power cut in a run** falls between two attempts or into one, and all of them only add to the
    history of the device. -/
theorem Ready.cut (hr : Ready s home base left) (hfits : Fits s.journal attempts)
    (hearly : FailsEarly attempts s)
    (hseq : s.journal.sequence.toNat + attempts.length < 2 ^ 32) :
    (∃ hist, (runAttempts attempts s).dev.history = hist ++ s.dev.history) ∧
      ∀ {later mid : Disk.History UInt64 Block},
        (runAttempts attempts s).dev.history = later ++ (mid ++ s.dev.history) →
        Disk.CrashImage s.dev.base (mid ++ s.dev.history) img →
        ∃ done t durable left, Cut s home base attempts img done t durable left := by
  induction attempts generalizing s base left with
  | nil =>
    exact ⟨⟨[], rfl⟩, fun hcut himg => ⟨_, _, _, _, hr.cut_first (.inl (append_crash hcut himg))⟩⟩
  | cons c rest ih =>
    have hc := hfits c mem_cons_self
    rw [length_cons] at hseq
    have hin (later mid : Disk.History UInt64 Block)
        (hcut : (journalCommit s c.entries c.now).2.dev.history = later ++ (mid ++ s.dev.history))
        (himg : Disk.CrashImage s.dev.base (mid ++ s.dev.history) img) :
        Cut s home base (c :: rest) img [] s base left := by
      by_cases hne : c.entries = []
      · rw [hne, journalCommit_nil hr.idle hr.begun] at hcut
        exact hr.cut_first (.inl (append_crash hcut himg))
      · exact hr.cut_first (.inr ⟨c, later, mid, prefix_append [c] rest, hne, hcut, himg⟩)
    by_cases hrest : rest = []
    · subst hrest
      exact ⟨hr.attempt_history hc, fun hcut himg => ⟨_, _, _, _, hin _ _ hcut himg⟩⟩
    rcases hcommit : journalCommit s c.entries c.now with ⟨ok, s'⟩
    rw [FailsEarly, hcommit] at hearly
    rw [runAttempts, hcommit]
    obtain ⟨base', left', hr', hlayout, hsequence, hbase, ⟨hist, hhist⟩, hread⟩ :=
      hr.attempt hcommit hc (by omega) (hearly.1 hrest)
    have hle : s'.journal.sequence.toNat ≤ s.journal.sequence.toNat + 1 := by
      have hone : (transactions (if ok then [c] else [])).length ≤ 1 :=
        le_trans (length_filter_le _ _) (by cases ok <;> simp)
      rw [hsequence, UInt32.toNat_add, UInt32.toNat_ofNat']
      omega
    have hfits' : Fits s'.journal rest := by
      rw [hlayout]
      exact fun c' hc' => hfits c' (mem_cons_of_mem _ hc')
    obtain ⟨⟨hist', hhist'⟩, hlater⟩ := ih hr' hfits' hearly.2 (by omega)
    refine ⟨⟨hist' ++ hist, by rw [hhist', hhist, append_assoc]⟩, fun {later mid} hcut himg => ?_⟩
    have hsplit : later ++ mid = hist' ++ hist := by
      rw [hhist', hhist, ← append_assoc, ← append_assoc] at hcut
      exact (append_cancel_right hcut).symm
    -- the power fails after this attempt, or during it
    rcases append_eq_append_iff.mp hsplit with ⟨cs, hh, rfl⟩ | ⟨cs, -, hh⟩
    · rw [append_assoc, ← hhist, ← hbase] at himg
      obtain ⟨done, t, durable, left', hcut'⟩ := hlater (by rw [hhist', hh, append_assoc]) himg
      have hdone : succeeded (c :: done) s = (if ok then [c] else []) ++ succeeded done s' := by
        rw [succeeded, hcommit]
        cases ok <;> rfl
      refine ⟨c :: done, t, durable, left', hcut'.ready, hcut'.layout.trans hlayout, ?_, ?_,
        cons_prefix_cons.mpr ⟨rfl, hcut'.begins⟩, ?_⟩
      · rw [hcut'.sequence, hsequence, hdone, transactions, transactions, transactions,
          filter_append, length_append, UInt32.ofNat_add, UInt32.add_assoc]
      · intro target ht
        rw [hcut'.written target (by rw [hlayout]; exact ht), hdone, flatMap_append,
          Disk.apply_append]
        exact Disk.apply_congr fun _ => hread target ht
      · exact hcut'.power.imp_right fun ⟨c', later, mid, hbegins, hcrash⟩ =>
          ⟨c', later, mid, cons_prefix_cons.mpr ⟨rfl, hbegins⟩, hcrash⟩
    · exact ⟨_, _, _, _, hin cs mid (by rw [hcommit, hhist, hh, append_assoc]) himg⟩

/-- The sequence number at a power cut. -/
theorem Cut.toNat_sequence (h : Cut s home base attempts img done t durable left)
    (hpos : s.journal.sequence ≠ 0)
    (hseq : s.journal.sequence.toNat + attempts.length < 2 ^ 32) :
    ∃ n ≤ done.length, t.journal.sequence.toNat = s.journal.sequence.toNat + n ∧
      t.journal.sequence ≠ 0 := by
  have hle : (transactions (succeeded done s)).length ≤ done.length :=
    le_trans (length_filter_le _ _) (succeeded_sublist done s).length_le
  have hdone := h.begins.length_le
  have hadd : t.journal.sequence.toNat = s.journal.sequence.toNat +
      (transactions (succeeded done s)).length := by
    rw [h.sequence, UInt32.toNat_add, UInt32.toNat_ofNat']
    omega
  refine ⟨_, hle, hadd, fun h0 => hpos (UInt32.toNat.inj ?_)⟩
  rw [h0, UInt32.toNat_zero] at hadd
  rw [UInt32.toNat_zero]
  omega

end Cut

end Tunix.Jbd2
