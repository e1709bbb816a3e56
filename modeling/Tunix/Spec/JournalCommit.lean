import Tunix.Spec.JournalCrash

/-!
# One commit

`Ready` is what holds between two commits: the superblock names the next transaction, the log
holds nothing of it, and what an earlier attempt may have left in flight is harmless. It holds
once the journal has been opened and begun (`Begun.ready`). A commit that succeeds leads from one
such state to the next (`Ready.next`), and a power cut during one has one of the three outcomes
(`Ready.outcome`). `scan_stale` and `scan_committed` say what the scan then finds.
-/

namespace Tunix.Jbd2

open Bytes List UInt32 Disk

/-! ## One commit -/

/-- The header of the commit block of a transaction. -/
theorem commitOf_header (j : Layout) (sequence : UInt32) (entries : List Entry) (now : UInt64) :
    Header (commitOf j sequence entries now) commitBlockType sequence := commitBlock_header ..

/-- The state in which the transactions of a commit run. -/
def committing (s : State) : State := { s with journal := { s.journal with busy := true } }

/-- A commit of no more blocks than the log has room for is one transaction. -/
theorem journalCommit_eq {s : State} {entries : List Entry} (hidle : s.journal.busy = false)
    (hbegun : s.journal.openForWrites = true) (hne : entries ≠ [])
    (hcap : entries.length ≤ journalCapacity s.journal) (now : Nat → UInt64) :
    ∃ r, r = andThen (logTransaction (committing s) entries (now 0))
      (fun s => checkpoint s entries) ∧
      journalCommit s entries now =
        (r.1, { r.2 with journal := { r.2.journal with busy := false } }) := by
  have hpos : 0 < entries.length := length_pos_of_ne_nil hne
  refine ⟨_, rfl, ?_⟩
  obtain ⟨fuel, hfuel⟩ := Nat.exists_eq_succ_of_ne_zero hpos.ne'
  have hcap0 : journalCapacity s.journal ≠ 0 := by omega
  have hrest (now' : Nat → UInt64) :
      commitBatches (journalCapacity s.journal) fuel [] now' = fun s => (true, s) := by
    cases fuel <;> rfl
  unfold journalCommit
  rw [if_neg (by simp [hidle, hbegun]), if_neg hne, if_neg hcap0, hfuel]
  simp only [commitBatches, if_neg hne, take_of_length_le hcap, drop_of_length_le hcap,
    hrest, andThen_pure]
  rfl

/-- The journal between two commits. `base` is what is durable, `left` are writes of an earlier
    attempt at the transaction that may still be lost. -/
structure Idle (s : State) (home : UInt64) (base : UInt64 → Block) (left : List Entry) : Prop where
  ordinary : Ordinary s.journal
  geometry : Geometry s.journal
  injective : LogInjective s.journal
  locateHome : logLocate s.journal 0 = some home
  superblock : Superblock (base home) s.journal (ofNat s.journal.first) s.journal.sequence
  left_area : ∀ w ∈ left, AreaBlock s.journal w.1
  idle : s.journal.busy = false
  begun : s.journal.openForWrites = true
  gather : s.journal.gather = []
  durable : ∃ hist, s.dev.history = issue left hist ∧ Settled s.dev.base hist ∧
    view s.dev.base hist = base

/-- The journal between two commits, with nothing of the next transaction committed. -/
structure Ready (s : State) (home : UInt64) (base : UInt64 → Block) (left : List Entry) : Prop
    extends Idle s home base left where
  stale : Stale s.journal base s.journal.sequence
  left_harmless : ∀ w ∈ left, Harmless s.journal.sequence w.2

section Idle

variable {s : State} {home disk : UInt64} {base : UInt64 → Block} {left entries ws : List Entry}
  (hr : Idle s home base left)

include hr

/-- What the device answers between two commits. -/
theorem Idle.read : s.dev.read = apply left base := by
  obtain ⟨hist, hhist, -, hview⟩ := hr.durable
  funext a
  simp only [Dev.read, hhist, view_issue, hview]

/-- The superblock is not in the area of the log. -/
theorem Idle.home_not_area {a : UInt64} (h : AreaBlock s.journal a) : a ≠ home :=
  areaBlock_ne_home hr.ordinary hr.injective hr.locateHome h

/-- The journal between two commits again, with other writes and another transaction. -/
theorem Idle.renew {s' : State} {base' : UInt64 → Block} {left' : List Entry}
    (hlayout : s'.journal.toLayout = s.journal.toLayout) (hbusy : s'.journal.busy = s.journal.busy)
    (hopen : s'.journal.openForWrites = s.journal.openForWrites) (hgather : s'.journal.gather = [])
    (hsb : Superblock (base' home) s.journal (ofNat s.journal.first) s'.journal.sequence)
    (harea : ∀ w ∈ left', AreaBlock s.journal w.1)
    (hdurable : ∃ hist, s'.dev.history = issue left' hist ∧ Settled s'.dev.base hist ∧
      view s'.dev.base hist = base') : Idle s' home base' left' := by
  rw [← hlayout] at hsb harea
  refine ⟨?_, ?_, ?_, ?_, hsb, harea, hbusy.trans hr.idle, hopen.trans hr.begun, hgather, hdurable⟩
  · rw [hlayout]; exact hr.ordinary
  · rw [hlayout]; exact hr.geometry
  · rw [hlayout]; exact hr.injective
  · rw [hlayout]; exact hr.locateHome

variable (hp : Planned s.journal s.journal.sequence entries ws disk)

include hp

/-- **A commit goes through four phases**, and if it succeeds the journal is at the next
    transaction. -/
theorem Idle.commit_runs (hne : entries ≠ []) (now : Nat → UInt64) :
    Runs s [ws, [(disk, commitOf s.journal s.journal.sequence entries (now 0))], entries,
        [(home, updateSuperblock s.journal (base home) (ofNat s.journal.first)
          (s.journal.sequence + 1))]] (journalCommit s entries now) ∧
      ((journalCommit s entries now).1 = true → ∃ a,
        (journalCommit s entries now).2.journal = { s.journal with
            start := ofNat s.journal.first
            sequence := s.journal.sequence + 1
            gather := [], gatherStart := a }) := by
  obtain ⟨r, hreq, hcommit⟩ := journalCommit_eq hr.idle hr.begun hne hp.capacity now
  obtain ⟨hlog, hjlog⟩ := logTransaction_runs (s := committing s) hp.toPlan hr.gather (now 0)
  generalize logTransaction (committing s) entries (now 0) = lr at hreq hlog hjlog
  have hlayout (hok : lr.1 = true) : lr.2.journal.toLayout = s.journal.toLayout := by
    obtain ⟨a, ha⟩ := hjlog hok
    rw [ha]
    rfl
  -- the log phases do not touch the superblock
  have hsb (hok : lr.1 = true) : lr.2.dev.read home = base home := by
    rw [read_of_runs hlog hok,
      show (committing s).dev.read = apply left base from hr.read, ← apply_append]
    refine apply_of_not_mem fun w hw heq => hr.home_not_area ?_ heq
    simp only [flatten_cons, flatten_nil, append_nil, mem_append, mem_singleton] at hw
    rcases hw with hw | hw | hw
    · exact hr.left_area w hw
    · exact hp.area hr.ordinary w hw
    · rw [hw]
      exact hp.commit_area hr.ordinary
  have hgather (hok : lr.1 = true) : lr.2.journal.gather = [] := by
    obtain ⟨a, ha⟩ := hjlog hok
    rw [ha]
  have hhome (hok : lr.1 = true) : logLocate lr.2.journal 0 = some home := by
    rw [hlayout hok]
    exact hr.locateHome
  have hoff (hok : lr.1 = true) : OffLog lr.2.journal entries := by
    rw [hlayout hok]
    exact hp.offLog
  have hcheck (hok : lr.1 = true) := checkpoint_runs (hgather hok) (hhome hok) (hoff hok)
  have hnext (hok : lr.1 = true) : nextSuperblock lr.2 home =
      updateSuperblock s.journal (base home) (ofNat s.journal.first) (s.journal.sequence + 1) := by
    obtain ⟨a, ha⟩ := hjlog hok
    unfold nextSuperblock
    rw [hsb hok, ha]
    rfl
  constructor
  · have hhomes (hok : lr.1 = true) : Runs lr.2 [entries,
        [(home, updateSuperblock s.journal (base home) (ofNat s.journal.first)
          (s.journal.sequence + 1))]] (checkpoint lr.2 entries) := by
      rw [← hnext hok]
      exact (hcheck hok).1
    have hruns := hlog.andThen (k := fun s => checkpoint s entries) hhomes
    rw [← hreq] at hruns
    rw [hcommit]
    exact hruns
  · intro hok
    rw [hcommit] at hok ⊢
    have hrok : (andThen lr fun s => checkpoint s entries).1 = true := by rw [← hreq]; exact hok
    obtain ⟨hlok, hcok⟩ := andThen_ok hrok
    obtain ⟨a, ha⟩ := hjlog hlok
    obtain ⟨b, hb⟩ := (hcheck hlok).2 hcok
    refine ⟨b, ?_⟩
    have hrj : r.2.journal = (checkpoint lr.2 entries).2.journal := by rw [hreq, andThen_of_ok hlok]
    simp only [hrj, hb, ha]
    rw [← hr.idle]
    rfl

/-- A successful commit leads to the next state between two commits. -/
theorem Idle.next (hne : entries ≠ []) {now : Nat → UInt64} {s' : State}
    (hok : journalCommit s entries now = (true, s')) :
    Idle s' home s'.dev.read [] ∧ (∃ a, s'.journal = { s.journal with
        start := ofNat s.journal.first
        sequence := s.journal.sequence + 1
        gather := [], gatherStart := a }) ∧
      s'.dev.base = s.dev.base ∧ (∃ hist, s'.dev.history = hist ++ s.dev.history) ∧
      s'.dev.read = apply [(home, updateSuperblock s.journal (base home)
          (ofNat s.journal.first) (s.journal.sequence + 1))]
        (apply entries
          (apply [(disk, commitOf s.journal s.journal.sequence entries (now 0))]
            (apply (left ++ ws) base))) := by
  obtain ⟨hruns, hjournal⟩ := hr.commit_runs hp hne now
  have hread := read_of_runs hruns (by rw [hok])
  obtain ⟨hist, hex, hbase, hhist⟩ := hruns
  rw [hok] at hex hbase hhist hjournal hread
  obtain ⟨a, hj⟩ := hjournal rfl
  obtain ⟨hist₀, hleft, hsettled, hview⟩ := hr.durable
  have hlayout : s'.journal.toLayout = s.journal.toLayout := by rw [hj]
  have hseq : s'.journal.sequence = s.journal.sequence + 1 := by rw [hj]
  -- the device holds all four phases
  rw [hr.read] at hread
  simp only [flatten_cons, flatten_nil, append_nil, apply_append] at hread
  rw [← apply_append left ws] at hread
  refine ⟨hr.renew hlayout (by rw [hj]) (by rw [hj]) (by rw [hj]) ?_ (by simp)
    ⟨s'.dev.history, rfl, ?_, rfl⟩,
    ⟨a, hj⟩, hbase, ⟨hist, hhist⟩, hread⟩
  · rw [hseq, hread, apply_singleton_self]
    exact updateSuperblock_superblock hr.superblock (.refl hr.superblock) _ _
  · have hsettled' := (hex.prepend left).settled hsettled
    rw [append_assoc, ← issue_eq_append, ← hleft, ← hhist] at hsettled'
    rw [hbase]
    exact hsettled'

/-- Without device failures a commit succeeds. -/
theorem Idle.commit_works (hne : entries ≠ []) (now : Nat → UInt64) (h : s.dev.answers = []) :
    Works (journalCommit s entries now) := by
  obtain ⟨r, hreq, hcommit⟩ := journalCommit_eq hr.idle hr.begun hne hp.capacity now
  have hlog := logTransaction_works (s := committing s) hp.toPlan hr.gather (now 0) h
  obtain ⟨a, hj⟩ := (logTransaction_runs (s := committing s) hp.toPlan hr.gather (now 0)).2 hlog.1
  have hhome :
      logLocate (logTransaction (committing s) entries (now 0)).2.journal 0 = some home := by
    rw [hj]
    exact hr.locateHome
  have hworks : Works r := by
    rw [hreq]
    exact hlog.andThen fun h => checkpoint_works (by rw [hj]) hhome h
  rw [hcommit]
  exact hworks

end Idle

section Ready

variable {s : State} {home disk : UInt64} {base img : UInt64 → Block} {left entries ws : List Entry}
  (hr : Ready s home base left)

include hr

private theorem Ready.before : Before s.journal home s.journal.sequence base left :=
  ⟨hr.ordinary, hr.injective, hr.locateHome, hr.superblock, hr.stale, hr.left_area,
    hr.left_harmless⟩

variable (hp : Planned s.journal s.journal.sequence entries ws disk)

include hp

/-- The outcome of a power cut during a commit, whether the commit succeeds or fails. -/
theorem Ready.outcome (hne : entries ≠ []) (now : Nat → UInt64) {later mid : History UInt64 Block}
    (hcut : (journalCommit s entries now).2.dev.history = later ++ (mid ++ s.dev.history))
    (himg : CrashImage s.dev.base (mid ++ s.dev.history) img) :
    Outcome s.journal home s.journal.sequence base entries disk
      (commitOf s.journal s.journal.sequence entries (now 0)) img := by
  obtain ⟨hist, hex, -, hhist⟩ := (hr.commit_runs hp hne now).1
  obtain ⟨hist₀, hleft, hsettled, hview⟩ := hr.durable
  rw [hcut, ← append_assoc] at hhist
  rw [← append_cancel_right hhist] at hex
  -- what earlier attempts have left belongs to the log phase
  have hex' := hex.prepend left
  rw [append_assoc] at hex'
  rw [hleft, issue_eq_append, ← append_assoc] at himg
  have hcrash := himg.of_append hsettled
  rw [hview] at hcrash
  exact outcome_of_torn hr.before hp (commitOf_header ..) (hex'.torn hcrash)

/-- A successful commit leads to the next state between two commits. -/
theorem Ready.next (hne : entries ≠ []) {now : Nat → UInt64} {s' : State}
    (hok : journalCommit s entries now = (true, s'))
    (hseq : s.journal.sequence.toNat + 1 < 2 ^ 32) :
    Ready s' home s'.dev.read [] ∧ s'.journal.toLayout = s.journal.toLayout ∧
      s'.journal.sequence = s.journal.sequence + 1 ∧ s'.dev.base = s.dev.base ∧
      (∃ hist, s'.dev.history = hist ++ s.dev.history) ∧
      ∀ target, Outside s.journal target → s'.dev.read target = apply entries base target := by
  obtain ⟨hidle, ⟨a, hj⟩, hbase, hhist, hread⟩ := hr.toIdle.next hp hne hok
  have hfin := finished_done hr.before hp (commitOf_header s.journal _ entries (now 0))
  rw [← hread] at hfin
  have hlayout : s'.journal.toLayout = s.journal.toLayout := by rw [hj]
  have hseq' : s'.journal.sequence = s.journal.sequence + 1 := by rw [hj]
  refine ⟨⟨hidle, ?_, by simp⟩, hlayout, hseq', hbase, hhist, hfin.same⟩
  rw [hlayout, hseq']
  exact hfin.upTo.stale_succ hseq

end Ready

/-! ## After the power cut -/

section Reopen

variable {l : Layout} {home : UInt64} {sequence : UInt32} {img : UInt64 → Block}

/-- A journal that is opened starts at the first block of its area. -/
theorem journalAt_start (hord : Ordinary l) : (journalAt l sequence).start.toNat = l.first := by
  simp only [openedJournal]
  rw [toNat_ofNat_of_lt' hord.first_lt]

/-- The sequence number survives the crash. -/
theorem reopened_sequence (hseq : sequence ≠ 0) :
    (reopened (journalAt l sequence) img).journal.sequence = sequence := journalAt_sequence hseq

/-- The start of the log survives the crash. -/
theorem reopened_start (hord : Ordinary l) :
    (reopened (journalAt l sequence) img).journal.start.toNat = l.first := journalAt_start hord

/-- A transaction that is not committed ends the scan at once. -/
theorem scan_stale (hord : Ordinary l) (hseq : sequence ≠ 0) (hstale : Stale l img sequence) :
    walkLog .scan sequence (reopened (journalAt l sequence) img) =
      (some sequence, reopened (journalAt l sequence) img) := by
  have hscan := walkLog_scan_stale (s := reopened (journalAt l sequence) img) hord
    (by rw [reopened_sequence hseq]; exact hstale)
    (by rw [reopened_start hord]; exact hord.first_inArea) sequence
  rwa [reopened_sequence hseq] at hscan

variable (hord : Ordinary l) (hseq : sequence ≠ 0) (hnext : sequence.toNat + 1 < 2 ^ 32)
  {entries : List Entry} {now : UInt64} (hcap : entries.length ≤ journalCapacity l)
    (hoff : OffLog l entries)
  (hholds : Holds l img l.first (logBlocks l sequence entries ++ [commitOf l sequence entries now]))
  (hupTo : UpTo l img sequence)

include hord hseq hnext hcap hoff hholds hupTo

/-- The log of a committed transaction, to the walk. -/
theorem holdsTransaction_of_holds :
    HoldsTransaction (reopened (journalAt l sequence) img) (batchesOf l entries)
      (commitOf l sequence entries now) := by
  have hbs := hord.blockSize_ge
  have hlen := transactionLength_lt hord sequence hcap
  have hsame := @reopened_sequence l sequence img hseq
  have hstart := @reopened_start l sequence img hord
  refine ⟨hbs, batchesOf_valid hbs entries, ?_, ?_, ?_, ?_, ?_⟩
  · rw [batchesOf_flatten hbs]; exact hoff
  · rw [hsame, hstart]; exact hholds
  · rw [hsame]; exact commitOf_header ..
  · rw [hsame, hstart]
    have harea := hord.iterate_inArea ((batchesBlocks l sequence (batchesOf l entries)).length + 1)
    obtain ⟨disk, hdisk⟩ := hord.located _ (lt_of_lt_of_le harea.2 hord.last_le)
    refine ⟨img disk, by unfold logRead; exact congrArg (Option.map img) hdisk, ?_⟩
    by_contra hboth
    push Not at hboth
    have hle := hupTo disk ⟨_, harea, hdisk⟩ hboth.1
    rw [hboth.2, UInt32.toNat_add, UInt32.toNat_one, Nat.mod_eq_of_lt hnext] at hle
    omega
  · have hge := batchesBlocks_length_ge l sequence (batchesOf l entries)
    have hsmall := hord.last_small
    rw [show (reopened (journalAt l sequence) img).journal.last = l.last from rfl,
      Nat.mod_eq_of_lt (by omega)]
    simp only [transactionLength, logBlocks] at hlen
    omega

/-- A committed transaction is scanned to its end. -/
theorem scan_committed : walkLog .scan sequence (reopened (journalAt l sequence) img) =
      (some (sequence + 1), reopened (journalAt l sequence) img) := by
  have htx := holdsTransaction_of_holds hord hseq hnext hcap hoff hholds hupTo
  have hscan := walkLog_scan_transaction htx ⟨rfl, rfl⟩ sequence
  rw [reopened_sequence hseq] at hscan
  rw [hscan]
  exact congrArg (fun stop => (some stop, _)) (if_pos (commitValid_commitBlock ..))

end Reopen

/-! ## From the mount on -/

/-- A journal that has been opened and begun on a log that holds only older transactions. Its
    blocks lie on different device blocks, and its size is not at the limit of the 32-bit block
    numbers. -/
structure Begun (map : Nat → Option UInt64) (base : UInt64 → Block) (blockSize : Nat)
    (j : Journal) (s : State) : Prop where
  opened : journalOpen map base blockSize = some j
  begun : ∃ answers want64Bit wantCsum,
    journalBegin ⟨j, ⟨base, [], answers⟩⟩ want64Bit wantCsum = (true, s)
  injective : LogInjective j
  first_lt_last : j.first < j.last
  last_small : j.last + 512 < 2 ^ 32
  older : ∀ position, InArea j position → ∀ block, logRead j base position = some block →
    loadBe32 block 0 = magic → (loadBe32 block 8).toNat < j.sequence.toNat

/-- What `jbd2_journal_begin` does to an opened journal. -/
theorem journalBegin_ok {s s' : State} {home : UInt64} {want64Bit wantCsum : Bool}
    (hidle : s.journal.busy = false) (hclosed : s.journal.openForWrites = false)
    (hhome : logLocate s.journal 0 = some home)
    (h : journalBegin s want64Bit wantCsum = (true, s')) :
    ∃ l sb, l = wantFeatures (s.dev.read home) want64Bit wantCsum s.journal ∧
      sb = updateSuperblock l (s.dev.read home) (ofNat l.first) s.journal.sequence ∧
      s'.journal = { s.journal with
        toLayout := l, start := ofNat l.first, openForWrites := true } ∧
      Runs s [[(home, sb)]] (true, s') := by
  have hread : logRead s.journal s.dev.read 0 = some (s.dev.read home) := by simp [logRead, hhome]
  unfold journalBegin at h
  rw [if_neg (by simp [hidle]), if_neg (by simp [hclosed]), hread] at h
  dsimp only at h
  generalize hl : wantFeatures (s.dev.read home) want64Bit wantCsum s.journal = l at h
  have hloc : logLocate l 0 = some home := by
    rw [← hl, ← hhome]
    unfold wantFeatures logLocate
    cases want64Bit <;> cases wantCsum <;> split_ifs <;> rfl
  generalize hs₁ : ({ s with journal := { s.journal with toLayout := l } } : State) = s₁ at h
  have hdev : s₁.dev = s.dev := by rw [← hs₁]
  have hloc₁ : logLocate s₁.journal 0 = some home := by rw [← hs₁]; exact hloc
  obtain ⟨hrun, hjournal⟩ := superblockPhase_runs hloc₁ (ofNat l.first) s.journal.sequence
  have hok := (andThen_ok (congrArg Prod.fst h)).1
  rw [andThen_of_ok hok] at h
  have hs' := (Prod.mk.inj h).2
  refine ⟨l, _, rfl, rfl, ?_, ?_⟩
  · rw [← hs', hjournal hok, ← hs₁]
  · obtain ⟨hist, hex, hbase, hhist⟩ := hrun
    rw [hok, hdev, show s₁.journal.toLayout = l by rw [← hs₁]] at hex
    rw [hdev] at hbase hhist
    exact ⟨hist, hex, by rw [← hs']; exact hbase, by rw [← hs']; exact hhist⟩

/-- A journal that is open for writing is ready for a commit. -/
theorem Begun.ready {map : Nat → Option UInt64} {base : UInt64 → Block} {blockSize : Nat}
    {j : Journal} {s : State} (h : Begun map base blockSize j s) :
    ∃ home, Ready s home s.dev.read [] ∧ s.dev.base = base ∧ s.journal.sequence = j.sequence ∧
      s.journal.map = map ∧ s.journal.blockSize = blockSize ∧ j.sequence ≠ 0 := by
  have hopened := journalOpen_opened h.opened
  obtain ⟨home, start, seq₀, hmap, hhome, hsb, hgeo, rfl, rfl, hj⟩ := journalOpen_iff.mp h.opened
  obtain ⟨answers, want64Bit, wantCsum, hbegin⟩ := h.begun
  have hpos : j.sequence ≠ 0 := by
    rw [hj]
    simp only [openedJournal]
    split_ifs with h0
    · decide
    · exact h0
  have hloc : logLocate j 0 = some home := by
    have hmax : 0 < j.maxlen := by
      have := h.first_lt_last
      have := hopened.last_le
      omega
    simp [logLocate, hgeo.mappedCount, hgeo.mapped, hmap, hhome, hmax]
  obtain ⟨l, sb, hl, hsbeq, hjournal, hruns⟩ := journalBegin_ok
    (s := ⟨j, ⟨base, [], answers⟩⟩) (by rw [hj]; rfl) (by rw [hj]; rfl) hloc hbegin
  have hfeat : Refeatured (base home) j l := by
    rw [hl]
    exact refeatured_wantFeatures hsb want64Bit wantCsum
  have hread := read_of_runs hruns rfl
  obtain ⟨hist, hex, hbase, hhist⟩ := hruns
  have hlayout : s.journal.toLayout = l := by rw [hjournal]
  have hseq : s.journal.sequence = j.sequence := by rw [hjournal]
  have hsame := hfeat.same
  have hgeo' : Geometry l := by
    rw [hsame]
    exact ⟨hgeo.blockSize, hgeo.room, hgeo.mapsAll, hgeo.mapped, hgeo.mappedCount⟩
  have hsb' := updateSuperblock_superblock hsb hfeat (ofNat l.first) j.sequence
  have hord : Ordinary l := ⟨hsb'.opened hgeo', by rw [hsame]; exact h.first_lt_last,
    by rw [hsame]; exact h.last_small⟩
  have hinj : LogInjective l := by rw [hsame]; exact h.injective
  have hloc' : logLocate l 0 = some home := by rw [hsame]; exact hloc
  -- only the superblock has changed
  have hdev : s.dev.read = apply [(home, sb)] base := hread
  have hstale : Stale l s.dev.read j.sequence := by
    refine stale_iff.mpr fun disk hd hmagic => Or.inl ?_
    have hne := areaBlock_ne_home hord hinj hloc' hd
    have heq : s.dev.read disk = base disk := by
      rw [hdev]
      exact apply_of_not_mem fun w hw heq => hne (by rw [← heq, mem_singleton.mp hw])
    obtain ⟨position, hp, hd⟩ := hd
    rw [heq] at hmagic ⊢
    rw [hsame] at hp hd
    exact h.older position hp (base disk)
      (by unfold logRead; exact congrArg (Option.map base) hd) hmagic
  refine ⟨home,
    ⟨⟨?_, ?_, ?_, ?_, ?_, by simp, ?_, ?_, ?_, s.dev.history, rfl, ?_, rfl⟩, ?_, by simp⟩,
    hbase, hseq, by rw [hlayout, hsame], by rw [hlayout, hsame], hpos⟩
  · rw [hlayout]; exact hord
  · rw [hlayout]; exact hgeo'
  · rw [hlayout]; exact hinj
  · rw [hlayout]; exact hloc'
  · rw [hlayout, hseq, hdev, apply_singleton_self, hsbeq]; exact hsb'
  · rw [hjournal]; simp only; rw [hj]; rfl
  · rw [hjournal]
  · rw [hjournal]; simp only; rw [hj]; rfl
  · rw [hhist, hbase]
    exact hex.settled (settled_nil base)
  · rw [hlayout, hseq]; exact hstale

end Tunix.Jbd2
