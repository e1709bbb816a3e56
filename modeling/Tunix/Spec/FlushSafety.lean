import Mathlib.Data.List.Basic
import Tunix.Kernel.Flush

/-!
# Pages given back after a flush

A page waits in a batch until the processors that may still use it have been flushed.
`Flushing.Safe` says what makes that work: no page has been given back early, and each processor
that may still use a page that waits is one that settling the batch will flush. The functions that
the callers are made of keep it, as long as the processors answer and none is in the middle of a
switch (`Flushing.Quiet`).
-/

namespace Tunix.Mm

open Function Bool

variable {s' : Flushing} {batch : FlushBatch}

variable {k self cr3 : Nat} {s : Flushing} {answers : Nat → Bool} {page : Removed}

namespace Flushing

/-- Every processor answers, and none is between the store to its `address_space` and the load of
    the tables. A processor with nothing to run has the kernel's tables. -/
def Quiet (s : Flushing) (k : Nat) (answers : Nat → Bool) : Prop :=
  ∀ c ∈ s.online, answers c = true ∧ (s.root c ≠ k → s.addressSpace c = s.root c)

instance (s : Flushing) (k : Nat) (answers : Nat → Bool) : Decidable (s.Quiet k answers) :=
  inferInstanceAs
    (Decidable (∀ c ∈ s.online, answers c = true ∧ (s.root c ≠ k → s.addressSpace c = s.root c)))

/-- Settling the batch of a processor flushes every processor that may still use the page. -/
def Covers (s : Flushing) (self : Nat) (page : Removed) : Prop :=
  page.id < s.removals ∧ ∀ c ∈ s.online, s.held c page.id → c ≠ self ∧
    ((s.batch self).kernel ∨ (s.batch self).pending ∧ s.root c = (s.batch self).cr3)

/-- No page has been given back early, and those that wait are covered. -/
structure Parked (s : Flushing) (k : Nat) : Prop where
  early : s.early = []
  covers : ∀ a, ∀ page ∈ (s.batch a).deferred, s.Covers a page
  /-- The kernel's own tables have nothing to flush by address space. -/
  user : ∀ a, (s.batch a).pending → (s.batch a).cr3 ≠ 0 ∧ (s.batch a).cr3 ≠ k

structure Safe (s : Flushing) (k : Nat) : Prop extends s.Parked k where
  /-- Outside a batch nothing is left to flush. -/
  idle : ∀ a, (s.batch a).depth = 0 → (s.batch a).pending = false ∧ (s.batch a).kernel = false

/-- What the functions leave alone. -/
structure SameProcessors (s s' : Flushing) : Prop where
  online : s'.online = s.online
  root : s'.root = s.root
  addressSpace : s'.addressSpace = s.addressSpace

/-- Nothing has changed. -/
theorem SameProcessors.refl (s : Flushing) : s.SameProcessors s := ⟨rfl, rfl, rfl⟩

variable {s₁ s₂ s₃ : Flushing}

/-- One change behind another. -/
theorem SameProcessors.trans {s₁ s₂ s₃ : Flushing} (h : s₁.SameProcessors s₂)
    (h' : s₂.SameProcessors s₃) : s₁.SameProcessors s₃ :=
  ⟨h'.online.trans h.online, h'.root.trans h.root, h'.addressSpace.trans h.addressSpace⟩

/-- The processors that answer are the same. -/
theorem SameProcessors.quiet {s : Flushing} (h : s.SameProcessors s') (hq : s.Quiet k answers) :
    s'.Quiet k answers := by
  unfold Quiet
  rw [h.online, h.root, h.addressSpace]
  exact hq

/-! ## Processors forget -/

/-- Entries may be taken out and processors forget, with nothing else going on. -/
structure Loses (s s' : Flushing) : Prop where
  online : s'.online = s.online
  root : s'.root = s.root
  batch : s'.batch = s.batch
  removals : s.removals ≤ s'.removals
  early : s'.early = s.early
  held : ∀ c id, id < s.removals → s'.held c id → s.held c id

/-- Losing more and more. -/
theorem Loses.trans (h : s₁.Loses s₂) (h' : s₂.Loses s₃) : s₁.Loses s₃ where
  online := h'.online.trans h.online
  root := h'.root.trans h.root
  batch := h'.batch.trans h.batch
  removals := Nat.le_trans h.removals h'.removals
  early := h'.early.trans h.early
  held c id hid hheld := h.held c id hid (h'.held c id (Nat.lt_of_lt_of_le hid h.removals) hheld)

private theorem Covers.loses (h : s.Covers self page) (hl : s.Loses s') : s'.Covers self page := by
  obtain ⟨hid, hcovers⟩ := h
  refine ⟨Nat.lt_of_lt_of_le hid hl.removals, fun c hc hheld => ?_⟩
  rw [hl.online] at hc
  rw [hl.batch, hl.root]
  exact hcovers c hc (hl.held c page.id hid hheld)

/-- Losing what may be used is safe. -/
theorem Safe.loses (h : s.Safe k) (hl : s.Loses s') : s'.Safe k where
  early := hl.early.trans h.early
  covers a page hpage := (h.covers a page (hl.batch ▸ hpage)).loses hl
  user a := by
    rw [hl.batch]
    exact h.user a
  idle a := by
    rw [hl.batch]
    exact h.idle a

/-- Processors forget, and nothing else changes. -/
structure Forgets (s s' : Flushing) : Prop where
  rest : s' = { s with held := s'.held }
  held : ∀ c id, s'.held c id → s.held c id

private theorem Forgets.refl (s : Flushing) : s.Forgets s := ⟨rfl, fun _ _ => id⟩

private theorem Forgets.processors (h : s.Forgets s') : s.SameProcessors s' := by
  rw [h.rest]
  exact ⟨rfl, rfl, rfl⟩

/-- A processor that forgets its tables loses what they led to. -/
theorem Forgets.loses (h : s.Forgets s') : s.Loses s' := by
  have hheld := h.held
  rw [h.rest]
  exact ⟨rfl, rfl, rfl, Nat.le_refl _, rfl, fun c id _ => hheld c id⟩

private theorem forgets_forget (s : Flushing) (forgets : Nat → Bool) :
    s.Forgets (s.forget forgets) :=
  ⟨rfl, fun _ _ h => (and_eq_true_iff.mp h).1⟩

private theorem forgets_smpFlush (s : Flushing) (self : Nat) (answers : Nat → Bool) (cr3 : Nat) :
    s.Forgets (s.smpFlushAddressSpace self answers cr3) := by
  unfold smpFlushAddressSpace
  split
  · exact .refl s
  · exact s.forgets_forget _

/-- Invalidating a page only loses. -/
theorem loses_invalidate (s : Flushing) (self : Nat) (page : Removed) :
    s.Loses (s.invalidate self page) :=
  Forgets.loses ⟨rfl, fun _ _ h => (and_eq_true_iff.mp h).1⟩

/-- The entry that is taken out has a number of its own. -/
theorem loses_remove (s : Flushing) (owner : Option Nat) (physical : UInt64) :
    s.Loses (s.remove owner physical).2 where
  online := rfl
  root := rfl
  batch := rfl
  removals := Nat.le_succ _
  early := rfl
  held c id hid h := by
    simpa [remove, Nat.ne_of_lt hid] using h

/-- After a flush of its address space no other processor that has it loaded holds anything. -/
theorem not_held_of_smpFlush (hq : s.Quiet k answers) (hcr3 : cr3 ≠ 0)
    (hk : cr3 ≠ k) {c : Nat} (id : Nat) (hc : c ∈ s.online) (hself : c ≠ self)
    (hroot : s.root c = cr3) :
    (s.smpFlushAddressSpace self answers cr3).held c id = false := by
  have hspace : s.addressSpace c = cr3 := by
    rw [(hq c hc).2 (by rw [hroot]; exact hk), hroot]
  simp [smpFlushAddressSpace, hcr3, smpFlush, forget, hc, hself, hspace, (hq c hc).1]

/-! ## Settling a batch -/

private theorem freePage_eq (h : ∀ c ∈ s.online, s.held c page.id = false) :
    s.freePage page = s := by
  unfold freePage
  rw [if_neg]
  simpa using h

private theorem foldl_freePage {pages : List Removed}
    (h : ∀ page ∈ pages, ∀ c ∈ s.online, s.held c page.id = false) :
    pages.foldl freePage s = s := by
  induction pages with
  | nil => rfl
  | cons page pages ih =>
    rw [List.foldl_cons, freePage_eq (h page List.mem_cons_self)]
    exact ih fun p hp => h p (List.mem_cons_of_mem _ hp)

/-- The batch that was replaced. -/
@[simp] theorem setBatch_self (batch : FlushBatch) :
    (s.setBatch self batch).batch self = batch := update_self ..

/-- The batches of the others. -/
theorem setBatch_of_ne {a : Nat} (ha : a ≠ self) (batch : FlushBatch) :
    (s.setBatch self batch).batch a = s.batch a := update_of_ne ha ..

private theorem setBatch_eq_self (h : batch = s.batch self) : s.setBatch self batch = s := by
  rw [h, setBatch, update_eq_self]

/-- The state after the flushes of a batch, before the pages are given back. -/
def flushed (s : Flushing) (self : Nat) (answers : Nat → Bool) : Flushing :=
  let batch := s.batch self
  let s := if batch.kernel then
      (s.setBatch self { s.batch self with kernel := false }).smpFlushKernelMappings self answers
    else s
  if batch.pending then
    (s.setBatch self { s.batch self with pending := false, cr3 := 0 }).smpFlushAddressSpace self
      answers batch.cr3
  else s

private theorem settleBatch_eq (s : Flushing) (self : Nat) (answers : Nat → Bool) :
    s.settleBatch self answers =
      ((s.batch self).deferred.foldl freePage (s.flushed self answers)).setBatch self
        { ((s.batch self).deferred.foldl freePage (s.flushed self answers)).batch self with
          deferred := [] } := rfl

/-- What the flushes of a batch do; `deferred` are the pages that still wait in it. -/
structure Flushed (s s' : Flushing) (cpu : Nat) (deferred : List Removed) : Prop where
  processors : s.SameProcessors s'
  other : ∀ a, a ≠ cpu → s'.batch a = s.batch a
  mine : s'.batch cpu = ⟨(s.batch cpu).depth, false, false, (s'.batch cpu).cr3, deferred⟩
  removals : s'.removals = s.removals
  early : s'.early = s.early
  held : ∀ c id, s'.held c id → s.held c id
  flushed : ∀ page, s.Covers cpu page → ∀ c ∈ s.online, s'.held c page.id = false

/-- Settling flushes every processor that may use a page of the batch. -/
private theorem flushed_spec (self : Nat) (hsafe : s.Parked k) (hq : s.Quiet k answers) :
    s.Flushed (s.flushed self answers) self (s.batch self).deferred := by
  generalize hs' : s.flushed self answers = s'
  unfold flushed at hs'
  dsimp only at hs'
  generalize hs₁ : (if (s.batch self).kernel then
    (s.setBatch self { s.batch self with kernel := false }).smpFlushKernelMappings self answers
      else s) = s₁ at hs'
  -- the flush of all processors first
  have hfirst : (s.setBatch self { s.batch self with kernel := false }).Forgets s₁ ∧
      ((s.batch self).kernel → ∀ c ∈ s.online, c ≠ self → ∀ id, s₁.held c id = false) := by
    rw [← hs₁]
    split
    · refine ⟨forgets_forget _ _, fun _ c hc hself id => ?_⟩
      simp [smpFlushKernelMappings, smpFlush, forget, setBatch, hc, hself, (hq c hc).1]
    · next hk =>
      refine ⟨?_, fun hk' => absurd hk' hk⟩
      rw [setBatch_eq_self (by rw [← eq_false_iff.mpr hk])]
      exact .refl s
  obtain ⟨hforgets₁, hkernel⟩ := hfirst
  -- and then that of the address space
  have hsecond :
      ∃ cr3, (s₁.setBatch self { s₁.batch self with pending := false, cr3 := cr3 }).Forgets s' ∧
      ((s.batch self).pending → ∀ c ∈ s.online, c ≠ self → s.root c = (s.batch self).cr3 →
        ∀ id, s'.held c id = false) := by
    have hproc : s.SameProcessors s₁ :=
      ⟨hforgets₁.processors.1, hforgets₁.processors.2, hforgets₁.processors.3⟩
    rw [← hs']
    split
    · next hpending =>
      obtain ⟨hcr3, hk⟩ := hsafe.user self hpending
      refine ⟨0, forgets_smpFlush .., fun _ c hc hself hroot id => ?_⟩
      exact not_held_of_smpFlush (s := s₁.setBatch self _) (hproc.quiet hq) hcr3 hk id
        (hproc.online ▸ hc)
        hself (hproc.root ▸ hroot)
    · next hpending =>
      refine ⟨(s₁.batch self).cr3, ?_, fun h => absurd h hpending⟩
      rw [setBatch_eq_self]
      · exact .refl _
      · rw [hforgets₁.loses.batch, setBatch_self, ← eq_false_iff.mpr hpending]
  obtain ⟨cr3, hforgets₂, hpending⟩ := hsecond
  have hheld : ∀ c id, s'.held c id → s.held c id :=
    fun c id h => hforgets₁.held c id (hforgets₂.held c id h)
  have hrest :
      s' = { s.setBatch self ⟨(s.batch self).depth, false, false, cr3, (s.batch self).deferred⟩ with
      held := s'.held } := by
    rw [hforgets₂.rest, hforgets₁.rest]
    simp [setBatch]
  refine ⟨?_, fun a ha => ?_, ?_, ?_, ?_, hheld, fun page hcovers c hc => ?_⟩
  · rw [hrest]
    exact ⟨rfl, rfl, rfl⟩
  · rw [hrest]
    exact setBatch_of_ne ha _
  · rw [hrest]
    simp [setBatch]
  · rw [hrest]
    rfl
  · rw [hrest]
    rfl
  · rw [← not_eq_true]
    intro h
    obtain ⟨hself, hkern | ⟨hpend, hroot⟩⟩ := hcovers.2 c hc (hheld c page.id h)
    · have hnot := hforgets₂.held c page.id h
      rw [show (s₁.setBatch self _).held = s₁.held from rfl, hkernel hkern c hc hself] at hnot
      cases hnot
    · rw [hpending hpend c hc hself hroot] at h
      cases h

/-- What another processor covers stays covered. -/
theorem Covers.other {a : Nat} (h : s.Covers a page) (hproc : s.SameProcessors s')
    (hbatch : s'.batch a = s.batch a) (hremovals : s'.removals = s.removals)
    (hheld : ∀ c id, s'.held c id → s.held c id) : s'.Covers a page := by
  refine ⟨hremovals ▸ h.1, fun c hc hc' => ?_⟩
  rw [hproc.online] at hc
  rw [hbatch, hproc.root]
  exact h.2 c hc (hheld c page.id hc')

/-- A pending flush is for an address space that is not the kernel's. -/
abbrev Aims (k : Nat) (batch : FlushBatch) : Prop := batch.pending → batch.cr3 ≠ 0 ∧ batch.cr3 ≠ k

/-- With no batch open there is nothing left to flush. -/
abbrev Rests (batch : FlushBatch) : Prop :=
  batch.depth = 0 → batch.pending = false ∧ batch.kernel = false

/-- Of the batches only that of one processor changes. -/
theorem forall_batch {P : Nat → FlushBatch → Prop} (hmine : s'.batch self = batch)
    (hother : ∀ a, a ≠ self → s'.batch a = s.batch a) (hself : P self batch)
    (h : ∀ a, a ≠ self → P a (s.batch a)) : ∀ a, P a (s'.batch a) := by
  intro a
  by_cases ha : a = self
  · subst ha
    rw [hmine]
    exact hself
  · rw [hother a ha]
    exact h a ha

private theorem Flushed.safe {deferred : List Removed} (h : s.Flushed s' self deferred)
    (hsub : ∀ page ∈ deferred, page ∈ (s.batch self).deferred) (hsafe : s.Parked k)
    (hidle : ∀ a, a ≠ self → Rests (s.batch a)) : s'.Safe k where
  early := h.early.trans hsafe.early
  covers a page hpage := by
    by_cases ha : a = self
    · subst ha
      rw [h.mine] at hpage
      have hcovers := hsafe.covers a page (hsub page hpage)
      refine ⟨h.removals ▸ hcovers.1, fun c hc hheld => ?_⟩
      rw [h.processors.online] at hc
      rw [h.flushed page hcovers c hc] at hheld
      cases hheld
    · rw [h.other a ha] at hpage
      exact (hsafe.covers a page hpage).other h.processors (h.other a ha) h.removals h.held
  user := forall_batch (P := fun _ => Aims k) h.mine h.other nofun fun a _ => hsafe.user a
  idle := forall_batch (P := fun _ => Rests) h.mine h.other (fun _ => ⟨rfl, rfl⟩) hidle

/-- Settling a batch gives its pages back, and none of them early. -/
theorem settleBatch_spec (self : Nat) (hsafe : s.Parked k) (hq : s.Quiet k answers) :
    s.Flushed (s.settleBatch self answers) self [] := by
  have hspec := flushed_spec self hsafe hq
  have hfold :
      (s.batch self).deferred.foldl freePage (s.flushed self answers) = s.flushed self answers := by
    refine foldl_freePage fun page hpage c hc => ?_
    rw [hspec.processors.online] at hc
    exact hspec.flushed page (hsafe.covers self page hpage) c hc
  rw [settleBatch_eq, hfold]
  obtain ⟨hproc, hother, hmine, hremovals, hearly, hheld, hflushed⟩ := hspec
  refine ⟨⟨hproc.online, hproc.root, hproc.addressSpace⟩, fun a ha => ?_, ?_, hremovals,
    hearly, hheld, hflushed⟩
  · rw [setBatch_of_ne ha, hother a ha]
  · rw [setBatch_self, hmine]

/-! ## Batches -/

/-- What a call leaves alone. -/
structure Kept (s s' : Flushing) : Prop where
  processors : s.SameProcessors s'
  depth : ∀ a, (s'.batch a).depth = (s.batch a).depth

/-- Nothing has changed. -/
theorem Kept.refl (s : Flushing) : s.Kept s := ⟨.refl s, fun _ => rfl⟩

/-- One change behind another. -/
theorem Kept.trans (h : s₁.Kept s₂) (h' : s₂.Kept s₃) : s₁.Kept s₃ :=
  ⟨h.processors.trans h'.processors, fun a => (h'.depth a).trans (h.depth a)⟩

/-- A call that gives no page back early. -/
structure Passes (k : Nat) (s s' : Flushing) : Prop where
  safe : s'.Safe k
  kept : s.Kept s'

/-- A safe state passes to itself. -/
theorem Safe.passes (h : s.Safe k) : Passes k s s := ⟨h, .refl s⟩

/-- One step behind another. -/
theorem Passes.trans (h : Passes k s₁ s₂) (h' : Passes k s₂ s₃) :
    Passes k s₁ s₃ := ⟨h'.safe, h.kept.trans h'.kept⟩

/-- The processors that answer are the same. -/
theorem Passes.quiet (h : Passes k s s') (hq : s.Quiet k answers) :
    s'.Quiet k answers := h.kept.processors.quiet hq

private theorem Flushed.kept {deferred : List Removed} (h : s.Flushed s' self deferred) :
    s.Kept s' :=
  ⟨h.processors,
    forall_batch (P := fun a batch => batch.depth = (s.batch a).depth) h.mine h.other
      rfl fun _ _ => rfl⟩

section

variable (hcovers : ∀ page ∈ batch.deferred, (s.setBatch self batch).Covers self page)
    (huser : Aims k batch)
include hcovers huser

/-- The batch of a processor changes, and every page that waits in it is covered. -/
theorem Parked.setBatch (h : s.Parked k) : (s.setBatch self batch).Parked k where
  early := h.early
  covers := (forall_update_iff _ fun a (b : FlushBatch) => ∀ page ∈ b.deferred, Covers _ a page).mpr
    ⟨hcovers, fun a ha page hpage =>
      (h.covers a page hpage).other ⟨rfl, rfl, rfl⟩ (setBatch_of_ne ha _) rfl
      fun _ _ => id⟩
  user := (forall_update_iff _ fun _ => Aims k).mpr ⟨huser, fun a _ => h.user a⟩

/-- A batch that has nothing to do may be put in. -/
theorem Safe.setBatch (h : s.Safe k) (hidle : Rests batch) : (s.setBatch self batch).Safe k :=
  ⟨h.toParked.setBatch hcovers huser,
    (forall_update_iff _ fun _ => Rests).mpr ⟨hidle, fun a _ => h.idle a⟩⟩

end

/-- A batch of the same depth. -/
theorem Kept.of_setBatch (h : batch.depth = (s.batch self).depth) :
    s.Kept (s.setBatch self batch) :=
  ⟨⟨rfl, rfl, rfl⟩, (forall_update_iff _ fun a (b : FlushBatch) => b.depth = (s.batch a).depth).mpr
    ⟨h, fun _ _ => rfl⟩⟩

/-- What is covered does not depend on the depth of the batch or on the pages in it. -/
theorem Covers.setBatch (h : s.Covers self page) (hkernel : batch.kernel = (s.batch self).kernel)
    (hpending : batch.pending = (s.batch self).pending)
    (hcr3 : batch.cr3 = (s.batch self).cr3) : (s.setBatch self batch).Covers self page := by
  refine ⟨h.1, ?_⟩
  rw [setBatch_self, hkernel, hpending, hcr3]
  exact h.2

/-- Opening a batch is safe. -/
theorem Safe.batchBegin (h : s.Safe k) (self : Nat) : (s.batchBegin self).Safe k :=
  h.setBatch (fun page hpage => (h.covers self page hpage).setBatch rfl rfl rfl) (h.user self)
    fun hdepth => absurd hdepth (Nat.succ_ne_zero _)

/-- Closing a batch is safe. -/
theorem Safe.batchEnd (h : s.Safe k) (hq : s.Quiet k answers) (self : Nat) :
    (s.batchEnd self answers).Safe k := by
  unfold Flushing.batchEnd
  have hcovers : ∀ page ∈ (s.batch self).deferred,
      (s.setBatch self { s.batch self with depth := (s.batch self).depth - 1 }).Covers self page :=
    fun page hpage => (h.covers self page hpage).setBatch rfl rfl rfl
  dsimp only
  split_ifs with hzero hdepth
  · exact h
  · exact h.setBatch hcovers (h.user self) fun h => absurd h hdepth
  -- the outermost batch ends: for the moment the depth is zero with flushes left
  have hparked :
      (s.setBatch self { s.batch self with depth := (s.batch self).depth - 1 }).Parked k :=
    h.toParked.setBatch hcovers (h.user self)
  refine (settleBatch_spec self hparked hq).safe
    (fun page hpage => absurd hpage List.not_mem_nil) hparked
    fun a ha => ?_
  rw [setBatch_of_ne ha]
  exact h.idle a

/-- A page that the batch covers is given up safely. -/
theorem Safe.freePageAfterFlush (h : s.Safe k) (hq : s.Quiet k answers)
    (hcovers : s.Covers self page) :
    Passes k s (s.freePageAfterFlush self answers page) := by
  unfold Flushing.freePageAfterFlush
  split
  · exact h.passes
  split
  · next hdepth =>
    -- with no batch there is nothing left to flush, so that no processor uses the page
    obtain ⟨hpending, hkernel⟩ := h.idle self hdepth
    rw [freePage_eq]
    · exact h.passes
    · intro c hc
      rw [← not_eq_true]
      intro hheld
      simpa [hpending, hkernel] using (hcovers.2 c hc hheld).2
  · next hdepth =>
    obtain ⟨s', hs', ⟨hsafe, hkept⟩, hcov⟩ : ∃ s' : Flushing,
        s' = (if (s.batch self).deferred.length =
          deferredFreeMax then s.settleBatch self answers else s) ∧
          Passes k s s' ∧ s'.Covers self page := by
      refine ⟨_, rfl, ?_⟩
      split
      · have hspec := settleBatch_spec self h.toParked hq
        refine ⟨⟨hspec.safe (fun page hpage => absurd hpage List.not_mem_nil) h.toParked
          fun a _ => h.idle a,
          hspec.kept⟩, hspec.removals ▸ hcovers.1, fun c hc hheld => ?_⟩
        rw [hspec.processors.online] at hc
        rw [hspec.flushed page hcovers c hc] at hheld
        cases hheld
      · exact ⟨h.passes, hcovers⟩
    show Passes k s (Flushing.setBatch _ self _)
    rw [← hs']
    refine ⟨hsafe.setBatch (fun p hp => ?_) (hsafe.user self) (hsafe.idle self),
      hkept.trans (.of_setBatch rfl)⟩
    rw [List.mem_append, List.mem_singleton] at hp
    rcases hp with hp | rfl
    · exact (hsafe.covers self p hp).setBatch rfl rfl rfl
    · exact hcov.setBatch rfl rfl rfl

/-! ## Flushing an address space -/

/-- The page is covered once the address space has been flushed, on this processor and on the
    others. -/
def Owes (s : Flushing) (cpu cr3 : Nat) (page : Removed) : Prop :=
  page.id < s.removals ∧ ∀ c ∈ s.online, s.held c page.id → s.root c = cr3 ∨ c ≠ cpu ∧
    ((s.batch cpu).kernel ∨ (s.batch cpu).pending ∧ s.root c = (s.batch cpu).cr3)

private theorem Covers.owes (h : s.Covers self page) (cr3 : Nat) : s.Owes self cr3 page :=
  ⟨h.1, fun c hc hheld => .inr (h.2 c hc hheld)⟩

/-- What is owed stays owed while others lose. -/
theorem Owes.loses (h : s.Owes self cr3 page) (hl : s.Loses s') : s'.Owes self cr3 page := by
  obtain ⟨hid, howes⟩ := h
  refine ⟨Nat.lt_of_lt_of_le hid hl.removals, fun c hc hheld => ?_⟩
  rw [hl.online] at hc
  rw [hl.batch, hl.root]
  exact howes c hc (hl.held c page.id hid hheld)

/-- What `flush_others` does. -/
structure OthersFlushed (s s' : Flushing) (cpu cr3 : Nat) : Prop where
  processors : s.SameProcessors s'
  other : ∀ a, a ≠ cpu → s'.batch a = s.batch a
  mine : s'.batch cpu = if (s.batch cpu).depth = 0 then s.batch cpu
    else { s.batch cpu with cr3 := cr3, pending := true }
  removals : s'.removals = s.removals
  early : s'.early = s.early
  held : ∀ c id, s'.held c id → s.held c id
  /-- With no batch the address space is flushed now. -/
  now : (s.batch cpu).depth = 0 → ∀ c ∈ s.online, c ≠ cpu → s.root c = cr3 → ∀ id,
    s'.held c id = false
  /-- A batch that was for another address space has that one flushed now. -/
  before : (s.batch cpu).depth ≠ 0 → (s.batch cpu).pending → (s.batch cpu).cr3 ≠ cr3 →
    ∀ c ∈ s.online, c ≠ cpu → s.root c = (s.batch cpu).cr3 → ∀ id, s'.held c id = false

/-- After the flush, or the note in the batch, the others are no danger. -/
theorem flushOthers_spec (hq : s.Quiet k answers) (hcr3 : cr3 ≠ 0) (hk : cr3 ≠ k)
    (huser : Aims k (s.batch self)) :
    s.OthersFlushed (s.flushOthers self answers cr3) self cr3 := by
  unfold flushOthers
  by_cases hdepth : (s.batch self).depth = 0
  · rw [if_pos hdepth]
    have hforgets := s.forgets_smpFlush self answers cr3
    have hl := hforgets.loses
    refine ⟨hforgets.processors, fun a _ => by rw [hl.batch], ?_, ?_, hl.early, hforgets.held,
      fun _ c hc hself hroot id => not_held_of_smpFlush hq hcr3 hk id hc hself hroot,
      fun h => absurd hdepth h⟩
    · rw [hl.batch, if_pos hdepth]
    · rw [hforgets.rest]
  rw [if_neg hdepth]
  generalize hs' : (if (s.batch self).pending = true ∧ (s.batch self).cr3 ≠ cr3 then
      s.smpFlushAddressSpace self answers (s.batch self).cr3 else s) = s'
  have hflush :
      s.Forgets s' ∧ ((s.batch self).pending → (s.batch self).cr3 ≠ cr3 → ∀ c ∈ s.online, c ≠ self →
      s.root c = (s.batch self).cr3 → ∀ id, s'.held c id = false) := by
    rw [← hs']
    split
    · next h =>
      obtain ⟨hcr3', hk'⟩ := huser h.1
      exact ⟨s.forgets_smpFlush .., fun _ _ c hc hself hroot id =>
        not_held_of_smpFlush hq hcr3' hk' id hc hself hroot⟩
    · next h => exact ⟨.refl s, fun hpending hne => absurd ⟨hpending, hne⟩ h⟩
  obtain ⟨hforgets, hflush⟩ := hflush
  have hproc := hforgets.processors
  refine ⟨⟨hproc.online, hproc.root, hproc.addressSpace⟩, fun a ha => ?_, ?_, ?_,
    hforgets.loses.early,
    hforgets.held, fun h => absurd h hdepth, fun _ => hflush⟩
  · rw [setBatch_of_ne ha, hforgets.loses.batch]
  · rw [setBatch_self, hforgets.loses.batch, if_neg hdepth]
  · rw [hforgets.rest]
    rfl

private theorem OthersFlushed.kept (h : s.OthersFlushed s' self cr3) : s.Kept s' := by
  refine ⟨h.processors,
    forall_batch (P := fun a batch => batch.depth = (s.batch a).depth) h.mine h.other
      ?_ fun _ _ => rfl⟩
  split <;> rfl

/-- `flush_others` covers what is owed, if this processor has been flushed already. -/
theorem OthersFlushed.covers (h : s.OthersFlushed s' self cr3)
    (howes : s.Owes self cr3 page) (hlocal : self ∈ s.online → s.held self page.id = false) :
    s'.Covers self page := by
  refine ⟨h.removals ▸ howes.1, fun c hc hheld' => ?_⟩
  rw [h.processors.online] at hc
  have hheld := h.held c page.id hheld'
  have hself : c ≠ self := by
    intro hce
    subst hce
    rw [hlocal hc] at hheld
    cases hheld
  refine ⟨hself, ?_⟩
  rw [h.mine, h.processors.root]
  rcases howes.2 c hc hheld with hroot | ⟨-, hkernel | ⟨hpending, hroot⟩⟩
  · by_cases hdepth : (s.batch self).depth = 0
    · rw [h.now hdepth c hc hself hroot] at hheld'
      cases hheld'
    · rw [if_neg hdepth]
      exact .inr ⟨rfl, hroot⟩
  · refine .inl ?_
    split <;> exact hkernel
  · refine .inr ?_
    split
    · exact ⟨hpending, hroot⟩
    next hdepth =>
    refine ⟨rfl, ?_⟩
    by_cases hne : (s.batch self).cr3 = cr3
    · exact hroot.trans hne
    · rw [h.before hdepth hpending hne c hc hself hroot] at hheld'
      cases hheld'

/-- The pages that wait are covered once the address space has been flushed. -/
structure Due (s : Flushing) (k cpu cr3 : Nat) : Prop where
  early : s.early = []
  covers : ∀ a, a ≠ cpu → ∀ page ∈ (s.batch a).deferred, s.Covers a page
  owes : ∀ page ∈ (s.batch cpu).deferred, s.Owes cpu cr3 page
  user : ∀ a, (s.batch a).pending → (s.batch a).cr3 ≠ 0 ∧ (s.batch a).cr3 ≠ k
  idle : ∀ a, (s.batch a).depth = 0 → (s.batch a).pending = false ∧ (s.batch a).kernel = false

/-- A safe state owes nothing else. -/
theorem Safe.due (h : s.Safe k) (self cr3 : Nat) : s.Due k self cr3 where
  early := h.early
  covers a _ := h.covers a
  owes page hpage := (h.covers self page hpage).owes cr3
  user := h.user
  idle := h.idle

/-- What is due stays due while others lose. -/
theorem Due.loses (h : s.Due k self cr3) (hl : s.Loses s') : s'.Due k self cr3 where
  early := hl.early.trans h.early
  covers a ha page hpage := (h.covers a ha page (hl.batch ▸ hpage)).loses hl
  owes page hpage := (h.owes page (hl.batch ▸ hpage)).loses hl
  user a := by
    rw [hl.batch]
    exact h.user a
  idle a := by
    rw [hl.batch]
    exact h.idle a

/-- When the others are flushed, and this processor is, the state is safe again. -/
theorem OthersFlushed.safe (h : s.OthersFlushed s' self cr3) (hdue : s.Due k self cr3)
    (hlocal : self ∈ s.online → ∀ page ∈ (s.batch self).deferred, s.held self page.id = false)
    (hcr3 : cr3 ≠ 0) (hk : cr3 ≠ k) : s'.Safe k where
  early := h.early.trans hdue.early
  covers a page hpage := by
    by_cases ha : a = self
    · subst ha
      have hpage' : page ∈ (s.batch a).deferred := by
        rw [h.mine] at hpage
        split at hpage <;> exact hpage
      exact h.covers (hdue.owes page hpage') fun hself => hlocal hself page hpage'
    · rw [h.other a ha] at hpage
      exact (hdue.covers a ha page hpage).other h.processors (h.other a ha) h.removals h.held
  user := by
    refine forall_batch (P := fun _ => Aims k) h.mine h.other ?_ fun a _ => hdue.user a
    split
    · exact hdue.user self
    · exact fun _ => ⟨hcr3, hk⟩
  idle := by
    refine forall_batch (P := fun _ => Rests) h.mine h.other ?_ fun a _ => hdue.idle a
    split
    · exact hdue.idle self
    · next hdepth => exact fun h => absurd h hdepth

/-- Flushing the others is safe. -/
theorem Safe.flushOthers (h : s.Safe k) (hq : s.Quiet k answers)
    (hcr3 : cr3 ≠ 0) (hk : cr3 ≠ k) : Passes k s (s.flushOthers self answers cr3) := by
  have hspec := flushOthers_spec hq hcr3 hk (h.user self)
  refine ⟨hspec.safe (h.due self cr3) (fun hself page hpage => ?_) hcr3 hk, hspec.kept⟩
  rw [← not_eq_true]
  exact fun hheld => (((h.covers self page hpage).2 self hself hheld).1 rfl).elim

/-! ## The kernel's mappings -/

/-- Flushing a mapping of the kernel is safe. -/
theorem Safe.flushKernelMapping (h : s.Safe k) (self : Nat) (answers : Nat → Bool) :
    Passes k s (s.flushKernelMapping self answers) := by
  unfold Flushing.flushKernelMapping
  split
  · exact ⟨h.loses (s.forgets_forget _).loses, ⟨rfl, rfl, rfl⟩, fun _ => rfl⟩
  next hdepth =>
  refine ⟨h.setBatch (fun page hpage => ?_) (h.user self) fun h => absurd h hdepth,
    .of_setBatch rfl⟩
  obtain ⟨hid, hcovers⟩ := h.covers self page hpage
  refine ⟨hid, fun c hc hheld => ⟨(hcovers c hc hheld).1, .inl ?_⟩⟩
  rw [setBatch_self]

/-- A page of the kernel is covered by the flush. -/
theorem covers_flushKernelMapping (hq : s.Quiet k answers) (hid : page.id < s.removals)
    (hlocal : self ∈ s.online → s.held self page.id = false) :
    (s.flushKernelMapping self answers).Covers self page := by
  have hself : ∀ c ∈ s.online, s.held c page.id = true → c ≠ self := by
    intro c hc hheld hce
    subst hce
    rw [hlocal hc] at hheld
    cases hheld
  unfold Flushing.flushKernelMapping
  split
  · refine ⟨hid, fun c hc hheld => ?_⟩
    change c ∈ s.online at hc
    simp only [smpFlushKernelMappings, smpFlush, forget, (hq c hc).1, Bool.and_true,
      and_eq_true, not_eq_true'] at hheld
    have hne := hself c hc hheld.1
    simp [hc, hne] at hheld
  · refine ⟨hid, fun c hc hheld => ⟨hself c hc hheld, .inl ?_⟩⟩
    rw [setBatch_self]

/-! ## Switching tables -/

/-- Loading other tables uncovers nothing. -/
theorem Covers.writeRoot {a : Nat} (h : s.Covers a page) (self cr3 : Nat) :
    (s.writeRoot self cr3).Covers a page := by
  refine ⟨h.1, fun c hc hheld => ?_⟩
  simp only [Flushing.writeRoot, forget, and_eq_true, not_eq_true', beq_eq_false_iff_ne]
    at hheld
  have hroot : (s.writeRoot self cr3).root c = s.root c := update_of_ne hheld.2 ..
  rw [hroot]
  exact h.2 c hc hheld.1

/-- Loading other tables is safe. -/
theorem Safe.writeRoot (h : s.Safe k) (self cr3 : Nat) : (s.writeRoot self cr3).Safe k where
  early := h.early
  covers a page hpage := (h.covers a page hpage).writeRoot self cr3
  user := h.user
  idle := h.idle

end Flushing

end Tunix.Mm
