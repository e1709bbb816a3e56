import Tunix.Spec.JournalScan

/-!
# Power cuts during a commit

What the device may hold after a power cut during a commit. A commit
goes through four phases; wherever it is cut off, the outcome is one of three (`Outcome`): the
transaction is not committed and its targets are untouched, or it is committed and complete in
the log, or the superblock is already past it.

## Key results

- `outcome_of_torn`: a commit that is cut off has one of the three outcomes
-/

namespace Tunix.Jbd2

open Bytes Disk

variable {read : UInt64 → Block} {commit : Block} {j : Layout} {sequence : UInt32}

/-! ## Contents of the log area -/

/-- The device block of a position of the log area. -/
def AreaBlock (j : Layout) (disk : UInt64) : Prop :=
  ∃ position, InArea j position ∧ logLocate j position = some disk

/-- Every header in the log area has at most the given sequence. -/
def UpTo (j : Layout) (read : UInt64 → Block) (sequence : UInt32) : Prop :=
  ∀ disk, AreaBlock j disk → loadBe32 (read disk) 0 = magic →
    (loadBe32 (read disk) 8).toNat ≤ sequence.toNat

/-- A stale log, by the device blocks of its area. -/
theorem stale_iff :
    Stale j read sequence ↔ ∀ disk, AreaBlock j disk → loadBe32 (read disk) 0 = magic →
      (loadBe32 (read disk) 8).toNat < sequence.toNat ∨
        Header (read disk) descriptorBlockType sequence := by
  constructor
  · rintro h disk ⟨position, hp, hloc⟩
    exact h position hp _ (by simp [logRead, hloc])
  · intro h position hp block hread
    obtain ⟨disk, hloc, rfl⟩ := Option.map_eq_some_iff.mp hread
    exact h disk ⟨position, hp, hloc⟩

private theorem Stale.upTo (h : Stale j read sequence) : UpTo j read sequence := by
  intro disk hd hmagic
  rcases stale_iff.mp h disk hd hmagic with hlt | hhdr
  · omega
  · rw [hhdr.sequence]

/-- The next sequence number, as long as the numbers do not come round. -/
theorem UpTo.stale_succ (h : UpTo j read sequence) (hseq : sequence.toNat + 1 < 2 ^ 32) :
    Stale j read (sequence + 1) := by
  have hnext : (sequence + 1).toNat = sequence.toNat + 1 := by
    exact Nat.mod_eq_of_lt hseq
  refine stale_iff.mpr fun disk hd hmagic => Or.inl ?_
  have hle := h disk hd hmagic
  omega

/-- A block that is part of no committed transaction `sequence`. -/
def Harmless (sequence : UInt32) (block : Block) : Prop :=
  Header block descriptorBlockType sequence ∨ loadBe32 block 0 ≠ magic

/-- Harmless writes keep a log stale. -/
theorem Stale.of_writes {img : UInt64 → Block}
    {ws : List Entry} (h : Stale j read sequence) (hws : ∀ w ∈ ws, Harmless sequence w.2)
    (himg : ∀ disk, AreaBlock j disk → img disk = read disk ∨ (disk, img disk) ∈ ws) :
    Stale j img sequence := by
  refine stale_iff.mpr fun disk hd hmagic => ?_
  rcases himg disk hd with heq | hmem
  · rw [heq] at hmagic ⊢
    exact stale_iff.mp h disk hd hmagic
  · rcases hws _ hmem with hhdr | hno
    · exact Or.inr hhdr
    · exact absurd hmagic hno

private theorem Holds.congr {read' : UInt64 → Block} {position : Nat} {blocks : List Block}
    (h : Holds j read position blocks)
    (heq : ∀ p disk, logLocate j p = some disk → read disk = read' disk) :
    Holds j read' position blocks := by
  induction blocks generalizing position with
  | nil => trivial
  | cons block rest ih =>
    refine ⟨?_, ih h.2⟩
    rw [← h.1]
    unfold logRead
    cases hloc : logLocate j position with
    | none => rfl
    | some disk => simp [heq position disk hloc]

/-! ## The phases of a transaction -/

/-- What is known of a device before a transaction is written to it: `base` is what is durable,
    `left` are writes of earlier attempts at the same transaction that may still be lost. -/
structure Before (j : Layout) (home : UInt64) (sequence : UInt32) (base : UInt64 → Block)
    (left : List Entry) : Prop where
  ordinary : Ordinary j
  injective : LogInjective j
  locateHome : logLocate j 0 = some home
  superblock : Superblock (base home) j (UInt32.ofNat j.first) sequence
  stale : Stale j base sequence
  left_area : ∀ w ∈ left, AreaBlock j w.1
  left_harmless : ∀ w ∈ left, Harmless sequence w.2

/-- The blocks of a transaction within the capacity, with their places. -/
structure Planned (j : Layout) (sequence : UInt32) (entries ws : List Entry) (disk : UInt64) :
    Prop extends Plan j sequence entries ws disk where
  capacity : entries.length ≤ journalCapacity j
  offLog : OffLog j entries

private theorem exists_placed (h : Ordinary j) {position : Nat} (hp : InArea j position)
    (blocks : List Block) : ∃ ws, Placed j position blocks ws := by
  induction blocks generalizing position with
  | nil => exact ⟨[], .nil _⟩
  | cons block rest ih =>
    obtain ⟨disk, hloc⟩ := h.located position (lt_of_lt_of_le hp.2 h.last_le)
    obtain ⟨ws, hws⟩ := ih (h.toOpened.step_inArea h.first_lt_last hp)
    exact ⟨_, .cons hloc hws⟩

/-- A transaction that fits has a plan. -/
theorem exists_planned (h : Ordinary j) (sequence : UInt32) {entries : List Entry}
    (hcap : entries.length ≤ journalCapacity j) (hoff : OffLog j entries) :
    ∃ ws disk, Planned j sequence entries ws disk := by
  obtain ⟨ws, hws⟩ := exists_placed h h.first_inArea (logBlocks j sequence entries)
  have hpos := h.iterate_inArea (logBlocks j sequence entries).length
  obtain ⟨disk, hdisk⟩ := h.located _ (lt_of_lt_of_le hpos.2 h.last_le)
  exact ⟨ws, disk, ⟨hws, hdisk⟩, hcap, hoff⟩

section Planned

variable {home : UInt64} {base : UInt64 → Block} {left entries ws : List Entry} {disk : UInt64}

section

variable (h : Planned j sequence entries ws disk)

include h

/-- The planned blocks are part of no committed transaction. -/
theorem Planned.harmless (hord : Ordinary j) : ∀ w ∈ ws, Harmless sequence w.2 := fun _ hw =>
  mem_logBlocks hord.blockSize_ge (h.placed.mem_blocks hw)

/-- The planned blocks are in the area of the log. -/
theorem Planned.area (hord : Ordinary j) : ∀ w ∈ ws, AreaBlock j w.1 := fun _ hw =>
  let ⟨i, _, hloc⟩ := h.placed.located hw
  ⟨_, hord.iterate_inArea i, hloc⟩

/-- And so is the commit block. -/
theorem Planned.commit_area (hord : Ordinary j) :
    AreaBlock j disk := ⟨_, hord.iterate_inArea _, h.commit⟩

/-- All blocks of the transaction go to different places. -/
theorem Planned.nodup (hord : Ordinary j) (hinj : LogInjective j) (commit : Block) :
    ((ws ++ [(disk, commit)]).map Prod.fst).Nodup := by
  have hlen := transactionLength_lt hord sequence h.capacity
  have hplaced :
      Placed j j.first (logBlocks j sequence entries ++ [commit]) (ws ++ [(disk, commit)]) :=
    placed_append.mpr ⟨ws, _, rfl, h.placed, .cons h.commit (.nil _)⟩
  refine hplaced.nodup hinj fun i k hik hk => ?_
  rw [List.length_append, List.length_singleton] at hk
  exact positions_nodup_iff.mp (hord.toOpened.positions_nodup
    (n := transactionLength j sequence entries) (by omega)) i k hik hk

end

/-- The superblock is not in the area of the log. -/
theorem areaBlock_ne_home (hord : Ordinary j) (hinj : LogInjective j)
    (hhome : logLocate j 0 = some home) {a : UInt64} (h : AreaBlock j a) : a ≠ home := by
  rintro rfl
  obtain ⟨position, hp, hloc⟩ := h
  have := hinj _ _ _ hloc hhome
  have := hord.first_pos
  have := hp.1
  omega

/-- A block that is logged is not one of the log. -/
theorem OffLog.not_area (h : OffLog j entries) {e : Entry} (he : e ∈ entries) :
    ¬AreaBlock j e.1 := fun ⟨position, _, hloc⟩ => h e he position hloc

end Planned

/-! ## Outcomes -/

/-- A device block that is neither in the log area nor the journal's superblock. -/
def Outside (j : Layout) (target : UInt64) : Prop :=
  ¬AreaBlock j target ∧ logLocate j 0 ≠ some target

/-- The blocks of a transaction are all in their places, and the superblock is past it. -/
structure Finished (j : Layout) (home : UInt64) (sequence : UInt32) (base : UInt64 → Block)
    (entries : List Entry) (img : UInt64 → Block) : Prop where
  superblock : Superblock (img home) j (UInt32.ofNat j.first) (sequence + 1)
  upTo : UpTo j img sequence
  same : ∀ target, Outside j target → img target = apply entries base target

/-- What a power cut during a transaction may leave. -/
inductive Outcome (j : Layout) (home : UInt64) (sequence : UInt32) (base : UInt64 → Block)
    (entries : List Entry) (disk : UInt64) (commit : Block) (img : UInt64 → Block) : Prop where
  /-- The transaction is not committed, and nothing outside the journal has changed. -/
  | before (superblock : Superblock (img home) j (UInt32.ofNat j.first) sequence)
      (stale : Stale j img sequence) (same : ∀ target, Outside j target → img target = base target)
  /-- The transaction is committed and complete in the log. -/
  | committed (superblock : Superblock (img home) j (UInt32.ofNat j.first) sequence)
      (holds : Holds j img j.first (logBlocks j sequence entries ++ [commit]))
      (durable : img disk = commit) (upTo : UpTo j img sequence)
      (same : ∀ target, Outside j target → (∀ e ∈ entries, e.1 ≠ target) → img target = base target)
  | after (finished : Finished j home sequence base entries img)

section Outcome

variable {home : UInt64} {base : UInt64 → Block} {left entries ws : List Entry} {disk : UInt64}
  {img : UInt64 → Block} (hb : Before j home sequence base left)
    (hp : Planned j sequence entries ws disk)

include hb hp

/-- The writes of the log phase, those of earlier attempts included, go to the log area. -/
theorem logPhase_area : ∀ w ∈ left ++ ws, AreaBlock j w.1 := fun w hw =>
  (List.mem_append.mp hw).elim (hb.left_area w) (hp.area hb.ordinary w)

private theorem logPhase_harmless : ∀ w ∈ left ++ ws, Harmless sequence w.2 := fun w hw =>
  (List.mem_append.mp hw).elim (hb.left_harmless w) (hp.harmless hb.ordinary w)

/-- As long as only the log phase has written anything, the transaction is not committed. -/
theorem outcome_logPhase (commit : Block) (himg : ∀ a, img a = base a ∨ (a, img a) ∈ left ++ ws) :
    Outcome j home sequence base entries disk commit img := by
  have harea := logPhase_area hb hp
  have hsame {a : UInt64} (ha : ¬AreaBlock j a) : img a = base a :=
    (himg a).resolve_right fun hmem => ha (harea _ hmem)
  have hhome : ¬AreaBlock j home := fun h =>
    areaBlock_ne_home hb.ordinary hb.injective hb.locateHome h rfl
  refine .before ?_ (hb.stale.of_writes (logPhase_harmless hb hp) fun a _ => himg a)
    fun target ht => hsame ht.1
  rw [hsame hhome]
  exact hb.superblock

/-- The log after the log phase and the commit block. -/
theorem holds_committed (commit : Block) :
    Holds j (apply [(disk, commit)] (apply (left ++ ws) base)) j.first
      (logBlocks j sequence entries ++ [commit]) := by
  have hplaced :
      Placed j j.first (logBlocks j sequence entries ++ [commit]) (ws ++ [(disk, commit)]) :=
    placed_append.mpr ⟨ws, _, rfl, hp.placed, .cons hp.commit (.nil _)⟩
  have hholds := hplaced.holds (hp.nodup hb.ordinary hb.injective commit) (apply left base)
  rwa [apply_append, ← apply_append left ws] at hholds

section

variable (hc : Header commit commitBlockType sequence)
include hc

private theorem upTo_committed :
    UpTo j (apply [(disk, commit)] (apply (left ++ ws) base)) sequence := by
  have hstale : Stale j (apply (left ++ ws) base) sequence :=
    hb.stale.of_writes (logPhase_harmless hb hp) fun a _ => apply_cases _ _ a
  intro a ha hmagic
  rcases apply_cases [(disk, commit)] (apply (left ++ ws) base) a with heq | hmem
  · rw [heq] at hmagic ⊢
    exact hstale.upTo a ha hmagic
  · rw [(Prod.mk.inj (List.mem_singleton.mp hmem)).2, hc.sequence]

/-- A committed transaction some of whose blocks have reached their homes. -/
theorem outcome_checkpoint
    (himg : ∀ a, img a = apply [(disk, commit)] (apply (left ++ ws) base) a ∨
      (a, img a) ∈ entries) :
    Outcome j home sequence base entries disk commit img := by
  have hlog (p : Nat) (a : UInt64) (hloc : logLocate j p = some a) :
      apply [(disk, commit)] (apply (left ++ ws) base) a = img a :=
    ((himg a).resolve_right fun hmem => hp.offLog _ hmem p hloc).symm
  have hout {a : UInt64} (ha : ¬AreaBlock j a) :
      apply [(disk, commit)] (apply (left ++ ws) base) a = base a := by
    rw [apply_of_not_mem, apply_of_not_mem]
    · exact fun w hw heq => ha (heq ▸ logPhase_area hb hp w hw)
    · intro w hw heq
      rw [List.mem_singleton.mp hw] at heq
      exact ha (heq ▸ hp.commit_area hb.ordinary)
  have hhome : ¬AreaBlock j home := fun h =>
    areaBlock_ne_home hb.ordinary hb.injective hb.locateHome h rfl
  refine .committed ?_ ((holds_committed hb hp commit).congr hlog) ?_ ?_ fun target ht hne => ?_
  · rw [← hlog 0 home hb.locateHome, hout hhome]
    exact hb.superblock
  · rw [← hlog _ disk hp.commit, apply_singleton_self]
  · intro a ha hmagic
    obtain ⟨p, hpa, hloc⟩ := ha
    rw [← hlog p a hloc] at hmagic ⊢
    exact upTo_committed hb hp hc a ⟨p, hpa, hloc⟩ hmagic
  · rw [(himg target).resolve_right fun hmem => hne _ hmem rfl]
    exact hout ht.1

/-- The transaction is checkpointed and the superblock written. -/
theorem finished_done : Finished j home sequence base entries
      (apply [(home, updateSuperblock j (base home) (UInt32.ofNat j.first) (sequence + 1))]
        (apply entries
          (apply [(disk, commit)] (apply (left ++ ws) base)))) := by
  refine ⟨?_, ?_, ?_⟩
  · rw [apply_singleton_self]
    exact updateSuperblock_superblock hb.superblock (.refl hb.superblock) _ _
  · intro a ha hmagic
    have hne := areaBlock_ne_home hb.ordinary hb.injective hb.locateHome ha
    have heq : apply [(home, updateSuperblock j (base home) (UInt32.ofNat j.first) (sequence + 1))]
        (apply entries
          (apply [(disk, commit)] (apply (left ++ ws) base))) a =
        apply [(disk, commit)] (apply (left ++ ws) base) a := by
      rw [apply_of_not_mem, apply_of_not_mem]
      · exact fun e he heq => hp.offLog.not_area he (heq ▸ ha)
      · intro w hw heq
        rw [List.mem_singleton.mp hw] at heq
        exact hne heq.symm
    rw [heq] at hmagic ⊢
    exact upTo_committed hb hp hc a ha hmagic
  · intro target ht
    rw [apply_of_not_mem]
    · refine apply_congr fun _ => ?_
      rw [apply_of_not_mem, apply_of_not_mem]
      · exact fun w hw heq => ht.1 (heq ▸ logPhase_area hb hp w hw)
      · intro w hw heq
        rw [List.mem_singleton.mp hw] at heq
        exact ht.1 (heq ▸ hp.commit_area hb.ordinary)
    · intro w hw heq
      rw [List.mem_singleton.mp hw] at heq
      exact ht.2 (heq ▸ hb.locateHome)

/-- **A commit that is cut off has one of three outcomes.** -/
theorem outcome_of_torn (h : Torn base [left ++ ws, [(disk, commit)], entries,
      [(home, updateSuperblock j (base home) (UInt32.ofNat j.first) (sequence + 1))]] img) :
    Outcome j home sequence base entries disk commit img := by
  rcases h with _ | hlog | h
  · exact outcome_logPhase hb hp commit hlog
  rcases h with _ | hcommit | h
  · -- the commit block has landed, or it has not
    rcases eq_apply_singleton fun a => (hcommit a).imp_right List.mem_singleton.mp with
      rfl | rfl
    · exact outcome_logPhase hb hp commit fun a => apply_cases _ _ a
    · exact outcome_checkpoint hb hp hc fun a => Or.inl rfl
  rcases h with _ | hhomes | h
  · exact outcome_checkpoint hb hp hc hhomes
  rcases h with _ | hsb | h
  · rcases eq_apply_singleton fun a => (hsb a).imp_right List.mem_singleton.mp with rfl | rfl
    · exact outcome_checkpoint hb hp hc fun a => apply_cases _ _ a
    · exact .after (finished_done hb hp hc)
  · cases h
    exact .after (finished_done hb hp hc)

end

end Outcome

end Tunix.Jbd2
