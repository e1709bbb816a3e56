import Mathlib.Data.Bool.Basic
import Tunix.ForStd.Run
import Tunix.Kernel.Vmm
import Tunix.Spec.FlushSafety

/-!
# Address spaces give pages back after a flush

Each function of the address spaces keeps `Flushing.Safe`. The leaves that are taken out are flushed
one by one before their pages are parked. `prune_locked` is different: it parks the tables first and
flushes once, at its end, so that in between the batch must not be settled.
-/

namespace Tunix.Mm

open Function Flushing Vmm PageTables

variable {k self cr3 address : Nat} {env : Services}

/-! ## Leaves -/

open Flushing (Passes)

section Leaves

variable {s : Flushing} {answers : Nat → Bool} {s₁ : Flushing} {page : Removed}

/-- What taking out an entry of an address space says: only processors that run it may use the
    page. -/
theorem Flushing.owes_remove {physical : UInt64}
    (hremove : s.remove (some cr3) physical = (page, s₁)) (self : Nat) :
    s.Loses s₁ ∧ s.Kept s₁ ∧ s₁.Owes self cr3 page ∧
      (self ∈ s₁.online → s₁.held self page.id → cr3 = s₁.root self) := by
  obtain rfl : (s.remove (some cr3) physical).2 = s₁ := congrArg Prod.snd hremove
  obtain rfl : ⟨physical, s.removals⟩ = page := congrArg Prod.fst hremove
  have hheld : ∀ c ∈ s.online, (s.remove (some cr3) physical).2.held c s.removals = true →
      s.root c = cr3 := by
    intro c hc h
    simpa [remove, hc] using h
  exact ⟨s.loses_remove _ _, ⟨⟨rfl, rfl, rfl⟩, fun _ => rfl⟩,
    ⟨Nat.lt_succ_self _, fun c hc h => .inl (hheld c hc h)⟩,
      fun hself h => (hheld self hself h).symm⟩

section

variable (h : s.Safe k) (self : Nat) (hq : s.Quiet k answers) (hcr3 : cr3 ≠ 0) (hk : cr3 ≠ k)
  (physical : UInt64) {s₂ : Flushing} (hremove : s.remove (some cr3) physical = (page, s₁))
  (hs₂ : s₂ = if cr3 = s₁.root self then s₁.invalidate self page else s₁)
include h hq hcr3 hk hremove hs₂

/-- A leaf of an address space is taken out and flushed. -/
theorem Flushing.Safe.removeUser :
    Passes k s (s₂.flushOthers self answers cr3) ∧
      (s₂.flushOthers self answers cr3).Covers self page := by
  obtain ⟨hloses, hkept, howes, hheld⟩ := owes_remove hremove self
  have hlocal : self ∈ s₂.online → s₂.held self page.id = false := by
    rw [hs₂]
    split
    · simp [invalidate]
    next hroot =>
    intro hself
    rw [← Bool.not_eq_true]
    exact fun h => hroot (hheld hself h)
  obtain ⟨hloses₂, hkept₂, howes₂⟩ : s.Loses s₂ ∧ s.Kept s₂ ∧ s₂.Owes self cr3 page := by
    rw [hs₂]
    split
    · have hinvalidate := s₁.loses_invalidate self page
      exact ⟨hloses.trans hinvalidate, hkept.trans ⟨⟨rfl, rfl, rfl⟩, fun _ => rfl⟩,
        howes.loses hinvalidate⟩
    · exact ⟨hloses, hkept, howes⟩
  have hsafe₂ := h.loses hloses₂
  have hq₂ := hkept₂.processors.quiet hq
  have hspec := flushOthers_spec hq₂ hcr3 hk (hsafe₂.user self)
  exact ⟨.trans ⟨hsafe₂, hkept₂⟩ (hsafe₂.flushOthers hq₂ hcr3 hk), hspec.covers howes₂ hlocal⟩

/-- Its page is parked after that. -/
theorem Flushing.Safe.parkUser :
    Passes k s ((s₂.flushOthers self answers cr3).freePageAfterFlush self answers page) := by
  obtain ⟨hpasses, hcovers⟩ := h.removeUser self hq hcr3 hk physical hremove hs₂
  exact hpasses.trans (hpasses.safe.freePageAfterFlush (hpasses.quiet hq) hcovers)

end

/-- A leaf of the kernel's tables is taken out and flushed. -/
theorem Flushing.Safe.removeKernel (h : s.Safe k) (hq : s.Quiet k answers) (owner : Option Nat)
    (physical : UInt64) (hremove : s.remove owner physical = (page, s₁)) :
    Passes k s ((s₁.invalidate self page).flushKernelMapping self answers) ∧
      ((s₁.invalidate self page).flushKernelMapping self answers).Covers self page := by
  obtain rfl : (s.remove owner physical).2 = s₁ := congrArg Prod.snd hremove
  obtain rfl : ⟨physical, s.removals⟩ = page := congrArg Prod.fst hremove
  have hsafe := (h.loses (s.loses_remove owner physical)).loses
    (loses_invalidate _ self ⟨physical, s.removals⟩)
  have hremoved : s.Kept ((s.remove owner physical).2.invalidate self ⟨physical, s.removals⟩) :=
    ⟨⟨rfl, rfl, rfl⟩, fun _ => rfl⟩
  refine ⟨.trans ⟨hsafe, hremoved⟩ (hsafe.flushKernelMapping self answers), ?_⟩
  refine covers_flushKernelMapping hq (Nat.lt_succ_self _) fun _ => ?_
  simp [invalidate]

end Leaves

/-- The tables of a user address are those of its address space. -/
theorem tableOwner_of_lt (h : address < userAddressLimit) (cr3 : Nat) :
    tableOwner cr3 address = some cr3 := by
  unfold tableOwner
  rw [if_pos]
  unfold index4
  unfold userAddressLimit at h
  omega

/-- A page is mapped through the tables of the kernel, or by an address space that is not the
    kernel's. -/
def Mappable (k cr3 address : Nat) : Prop :=
  kernelMapping address = true ∨ address < userAddressLimit ∧ cr3 ≠ k

instance : Decidable (Mappable k cr3 address) :=
  inferInstanceAs (Decidable (kernelMapping address = true ∨ address < userAddressLimit ∧ cr3 ≠ k))

variable {s : Vmm}

/-- No address space has the root zero. -/
theorem PageTables.ne_zero_of_registered {s : PageTables} (h : s.registered cr3 = true) :
    cr3 ≠ 0 := by
  simp only [registered, Bool.and_eq_true, bne_iff_ne] at h
  exact h.1

private theorem Vmm.unmapPageLocked_spec (self : Nat) (h : s.flushing.Safe k)
    (hq : s.flushing.Quiet k env.answers)
    (haddress : Mappable k cr3 address) :
    Passes k s.flushing (s.unmapPageLocked self env cr3 address).2.flushing ∧
      ∀ page ∈ (s.unmapPageLocked self env cr3 address).1,
        (s.unmapPageLocked self env cr3 address).2.flushing.Covers self page := by
  have hnone : Passes k s.flushing s.flushing ∧ ∀ page ∈ (none : Option Removed),
      s.flushing.Covers self page :=
    ⟨h.passes, fun _ hpage => nomatch hpage⟩
  unfold unmapPageLocked
  split
  · exact hnone
  next hreg =>
  have hcr3 := ne_zero_of_registered (by simpa using hreg)
  split
  · exact hnone
  dsimp only
  split
  · exact hnone
  simp only [dropLeaf, Option.mem_some_iff, forall_eq', invalidateAfterChange]
  rcases haddress with hkernel | ⟨hlt, hk⟩
  · simp only [hkernel, or_true, if_true]
    exact h.removeKernel hq _ _ rfl
  · have hnot : kernelMapping address = false := by
      unfold kernelMapping userAddressLimit kernelHalfBase at *
      simpa using (by omega : address < 0xFFFF800000000000)
    simp only [hnot, Bool.false_eq_true, or_false, if_false, tableOwner_of_lt hlt]
    exact h.removeUser self hq hcr3 hk _ rfl rfl

private theorem Vmm.protectPageLocked_spec {flags : UInt64} (h : s.flushing.Safe k)
    (hq : s.flushing.Quiet k env.answers)
    (haddress : Mappable k cr3 address) :
    Passes k s.flushing (s.protectPageLocked self env cr3 address flags).2.flushing := by
  unfold protectPageLocked
  split
  · exact h.passes
  next hreg =>
  have hcr3 := ne_zero_of_registered (by simpa using hreg)
  split
  · exact h.passes
  dsimp only
  split
  · exact h.passes
  split
  · exact h.passes
  unfold invalidateAfterChange
  dsimp only
  split
  · exact h.flushKernelMapping self env.answers
  · next hkernel =>
    exact h.flushOthers hq hcr3 (haddress.resolve_left hkernel).2

/-! ## Ranges -/

private theorem Vmm.unmapEntry_passes (self : Nat) (h : s.flushing.Safe k)
    (hq : s.flushing.Quiet k env.answers)
    (hlt : address < userAddressLimit) (hcr3 : cr3 ≠ 0) (hk : cr3 ≠ k) :
    Passes k s.flushing (s.unmapEntry self env cr3 address).flushing := by
  unfold unmapEntry
  dsimp only
  split
  · exact h.passes
  split
  · exact h.passes
  simp only [dropLeaf, tableOwner_of_lt hlt]
  split
  · exact (h.removeUser self hq hcr3 hk _ rfl rfl).1
  · exact h.parkUser self hq hcr3 hk _ rfl rfl

private theorem Vmm.unmapLoop_passes (self : Nat) {end_ : Nat} (hend : end_ ≤ userAddressLimit)
    (hcr3 : cr3 ≠ 0) (hk : cr3 ≠ k) (turns address : Nat) (s : Vmm) (h : s.flushing.Safe k)
    (hq : s.flushing.Quiet k env.answers) :
    Passes k s.flushing (unmapLoop self env cr3 end_ turns address s).flushing := by
  induction turns generalizing address s with
  | zero => exact h.passes
  | succ turns ih =>
    rw [unmapLoop]
    split
    · next hlt =>
      split
      · next next _ => exact ih next s h hq
      · have hentry := unmapEntry_passes self h hq (Nat.lt_of_lt_of_le hlt hend) hcr3 hk
        exact hentry.trans (ih (address + 4096) _ hentry.safe (hentry.quiet hq))
    · exact h.passes

private theorem Vmm.unmapRange_spec (start end_ : Nat) (h : s.flushing.Safe k)
    (hq : s.flushing.Quiet k env.answers)
    (hk : cr3 ≠ k) :
    (s.unmapRange self env cr3 start end_).flushing.Safe k := by
  unfold unmapRange
  dsimp only
  have hbegin := h.batchBegin self
  split
  · next hreg =>
    have hloop := unmapLoop_passes self (Nat.min_le_right end_ userAddressLimit)
      (ne_zero_of_registered hreg) hk ((min end_ userAddressLimit - start / 4096 * 4096) / 4096 + 1)
      (start / 4096 * 4096) { s with flushing := s.flushing.batchBegin self } hbegin hq
    exact hloop.safe.batchEnd (hloop.quiet hq) self
  · exact hbegin.batchEnd hq self

private theorem Vmm.reclaimEntry_passes (self : Nat) (scan : Reclaim) (h : s.flushing.Safe k)
    (hq : s.flushing.Quiet k env.answers)
    (hlt : address < userAddressLimit) (hcr3 : cr3 ≠ 0) (hk : cr3 ≠ k) :
    Passes k s.flushing (s.reclaimEntry self env cr3 address scan).1.flushing := by
  unfold reclaimEntry
  dsimp only
  split
  · exact h.passes
  split
  · exact h.passes
  split
  · exact h.flushOthers hq hcr3 hk
  -- the page is parked after its leaf is flushed, whatever takes the place of the leaf
  simp only [dropLeaf, tableOwner_of_lt hlt]
  split
  · exact h.passes
  · split
    · exact h.passes
    · exact h.parkUser self hq hcr3 hk _ rfl rfl
  · exact h.parkUser self hq hcr3 hk _ rfl rfl

private theorem Vmm.reclaimLoop_passes (self : Nat) (hcr3 : cr3 ≠ 0) (hk : cr3 ≠ k)
    (turns address : Nat) (s : Vmm) (scan : Reclaim) (h : s.flushing.Safe k)
    (hq : s.flushing.Quiet k env.answers) :
    Passes k s.flushing (reclaimLoop self env cr3 turns address s scan).2.1.flushing := by
  induction turns generalizing address s scan with
  | zero => exact h.passes
  | succ turns ih =>
    rw [reclaimLoop]
    split
    · next hlt =>
      split
      · next next _ => exact ih next s scan h hq
      · have hentry := reclaimEntry_passes self scan h hq hlt.2 hcr3 hk
        exact hentry.trans (ih (address + 4096) _ _ hentry.safe (hentry.quiet hq))
    · exact h.passes

private theorem Vmm.reclaimScan_spec {scan : Reclaim} {r : Vmm × Reclaim} (h : s.flushing.Safe k)
    (hq : s.flushing.Quiet k env.answers) (hk : cr3 ≠ k)
    (hr : s.reclaimScan self env cr3 scan = some r) : r.1.flushing.Safe k := by
  unfold reclaimScan at hr
  split at hr
  · cases hr
  next hreg =>
  rw [not_or] at hreg
  have hcr3 := ne_zero_of_registered (by simpa using hreg.1)
  have hloop : ∀ turns first, ((reclaimLoop self env cr3 turns first
      { s with flushing := s.flushing.batchBegin self } scan).2.1.flushing.batchEnd self
        env.answers).Safe k := by
    intro turns first
    have hpasses := reclaimLoop_passes self hcr3 hk turns first
      { s with flushing := s.flushing.batchBegin self } scan (h.batchBegin self) hq
    exact hpasses.safe.batchEnd (hpasses.quiet hq) self
  -- the turns are named, since their number would be evaluated otherwise
  dsimp only at hr
  generalize (if userAddressLimit ≤ scan.cursor / 4096 * 4096 then 0
    else scan.cursor / 4096 * 4096) = first at hr
  generalize (userAddressLimit - first) / 4096 + 1 = turns at hr
  rw [Option.some.injEq] at hr
  rw [← hr]
  exact hloop turns first

/-! ## Pruning -/

/-- The page table of a block is there and has no entries. -/
def PageTables.emptyTable (s : PageTables) (cr3 address : Nat) : Bool :=
  s.hasTable cr3 address && tableIsEmpty (s.e1 (tableOwner cr3 address)) (index2 address)

/-- The number of page tables without entries among the blocks that `prune_locked` looks at. -/
def PageTables.emptyTables (s : PageTables) (cr3 end_ : Nat) : Nat → Nat → Nat
  | 0, _ => 0
  | turns + 1, address =>
    if address < end_ ∧ address < userAddressLimit ∧ index4 address < 256 then
      (s.emptyTable cr3 address).toNat + s.emptyTables cr3 end_ turns (address + 0x200000)
    else 0

private theorem setEntry_zero_or {κ : Type*} [DecidableEq κ] (f : κ → Nat → UInt64)
    (o o' : κ) (i i' : Nat) :
    setEntry f o i 0 o' i' = 0 ∨ setEntry f o i 0 o' i' = f o' i' := by
  unfold setEntry
  by_cases ho : o' = o
  · subst ho
    rw [update_self]
    by_cases hi : i' = i
    · subst hi
      exact .inl (update_self ..)
    · exact .inr (update_of_ne hi ..)
  · rw [update_of_ne ho]
    exact .inr rfl

/-- Clearing an entry takes tables away and adds none. -/
theorem PageTables.tableFromEntry_setUpper {s : PageTables} {level level' : Level}
    {cr3 address address' : Nat}
    (h : tableFromEntry ((s.setUpper level cr3 address 0).upper level' cr3 address')) :
    tableFromEntry (s.upper level' cr3 address') := by
  have hentry : (s.setUpper level cr3 address 0).upper level' cr3 address' = 0 ∨
      (s.setUpper level cr3 address 0).upper level' cr3 address' = s.upper level' cr3 address' := by
    cases level <;> cases level' <;> first | exact .inr rfl | exact setEntry_zero_or ..
  rcases hentry with hzero | hsame
  · rw [hzero] at h
    cases h
  · rwa [hsame] at h

private theorem PageTables.emptyTable_setUpper {s : PageTables} {level : Level}
    {cr3 address address' : Nat}
    (h : (s.setUpper level cr3 address 0).emptyTable cr3 address') : s.emptyTable cr3 address' := by
  unfold emptyTable hasTable at *
  have hleaves : (s.setUpper level cr3 address 0).e1 = s.e1 := by cases level <;> rfl
  rw [hleaves] at h
  simp only [Bool.and_eq_true] at h ⊢
  obtain ⟨⟨⟨h4, h3⟩, h2⟩, hempty⟩ := h
  exact ⟨⟨⟨tableFromEntry_setUpper h4, tableFromEntry_setUpper h3⟩, tableFromEntry_setUpper h2⟩,
    hempty⟩

private theorem PageTables.emptyTables_mono {s s' : PageTables} (end_ : Nat)
    (h : ∀ address, s'.emptyTable cr3 address → s.emptyTable cr3 address) (turns address : Nat) :
    s'.emptyTables cr3 end_ turns address ≤ s.emptyTables cr3 end_ turns address := by
  induction turns generalizing address with
  | zero => exact Nat.le_refl _
  | succ turns ih =>
    rw [emptyTables, emptyTables]
    split
    · refine Nat.add_le_add ?_ (ih _)
      exact Bool.toNat_le_toNat (h address)
    · exact Nat.le_refl _

/-- What parking a few tables keeps, as long as they fit. -/
structure Vmm.Parks (s s' : Vmm) (k cpu cr3 count : Nat) : Prop where
  due : s'.flushing.Due k cpu cr3
  kept : s.flushing.Kept s'.flushing
  length : (s'.flushing.batch cpu).deferred.length ≤ (s.flushing.batch cpu).deferred.length + count
  tables : ∀ address, s'.tables.emptyTable cr3 address → s.tables.emptyTable cr3 address

private theorem Vmm.Parks.refl (h : s.flushing.Due k self cr3) : s.Parks s k self cr3 0 :=
  ⟨h, .refl _, Nat.le_refl _, fun _ => id⟩

private theorem Vmm.Parks.trans {s₁ s₂ s₃ : Vmm} {m n : Nat} (h : s₁.Parks s₂ k self cr3 m)
    (h' : s₂.Parks s₃ k self cr3 n) : s₁.Parks s₃ k self cr3 (m + n) where
  due := h'.due
  kept := h.kept.trans h'.kept
  length := by
    have := h.length
    have := h'.length
    omega
  tables address ha := h.tables address (h'.tables address ha)

private theorem Vmm.Parks.mono {s' : Vmm} {m n : Nat} (h : s.Parks s' k self cr3 m) (hle : m ≤ n) :
    s.Parks s' k self cr3 n where
  due := h.due
  kept := h.kept
  length := Nat.le_trans h.length (Nat.add_le_add_left hle _)
  tables := h.tables

/-- A page is parked in a batch that has room for it. -/
theorem Flushing.Due.park {s : Flushing} {page : Removed} (h : s.Due k self cr3)
    (answers : Nat → Bool)
    (howes : s.Owes self cr3 page) (hdepth : (s.batch self).depth ≠ 0)
    (hlength : (s.batch self).deferred.length < deferredFreeMax) :
    (s.freePageAfterFlush self answers page).Due k self cr3 ∧
      s.Kept (s.freePageAfterFlush self answers page) ∧
      ((s.freePageAfterFlush self answers page).batch self).deferred.length ≤
        (s.batch self).deferred.length + 1 := by
  unfold freePageAfterFlush
  by_cases hnull : page.physical = 0
  · rw [if_pos hnull]
    exact ⟨h, .refl s, Nat.le_succ _⟩
  rw [if_neg hnull, if_neg hdepth, if_neg (Nat.ne_of_lt hlength)]
  refine ⟨⟨h.early, fun a ha p hp => ?_, fun p hp => ?_,
    (forall_update_iff _ fun _ => Aims k).mpr ⟨h.user self, fun a _ => h.user a⟩,
    (forall_update_iff _ fun _ => Rests).mpr ⟨h.idle self, fun a _ => h.idle a⟩⟩,
    .of_setBatch rfl, ?_⟩
  · rw [setBatch_of_ne ha] at hp
    exact (h.covers a ha p hp).other ⟨rfl, rfl, rfl⟩ (setBatch_of_ne ha _) rfl fun _ _ => id
  · rw [setBatch_self, List.mem_append, List.mem_singleton] at hp
    have howes' : s.Owes self cr3 p := by
      rcases hp with hp | rfl
      · exact h.owes p hp
      · exact howes
    refine ⟨howes'.1, ?_⟩
    rw [setBatch_self]
    exact howes'.2
  · rw [setBatch_self, List.length_append]
    exact Nat.le_refl _

private theorem Vmm.dropTable_parks (env : Services) (level : Level) (h : s.flushing.Due k self cr3)
    (hdepth : (s.flushing.batch self).depth ≠ 0)
    (hlength : (s.flushing.batch self).deferred.length < deferredFreeMax)
    (hlt : address < userAddressLimit) :
    s.Parks (s.dropTable self env level cr3 address) k self cr3 1 := by
  unfold dropTable
  rw [tableOwner_of_lt hlt]
  dsimp only
  generalize hremove :
    s.flushing.remove (some cr3) (pteAddress (s.tables.upper level cr3 address)) = r
  obtain ⟨page, s₁⟩ := r
  obtain ⟨hloses, hkept, howes, -⟩ := owes_remove hremove self
  obtain ⟨hdue, hkept', hlen⟩ :=
    (h.loses hloses).park env.answers howes (by rw [hloses.batch]; exact hdepth)
    (by rw [hloses.batch]; exact hlength)
  rw [hloses.batch] at hlen
  exact ⟨hdue, hkept.trans hkept', hlen, fun _ => emptyTable_setUpper⟩

/-- One turn parks three tables at most, and none if the block has no empty page table. -/
theorem Vmm.pruneBlock_parks (self : Nat) (env : Services) (h : s.flushing.Due k self cr3)
    (hdepth : (s.flushing.batch self).depth ≠ 0)
    (hlength : (s.flushing.batch self).deferred.length + 3 *
      (s.tables.emptyTable cr3 address).toNat ≤
      deferredFreeMax)
    (hlt : address < userAddressLimit) :
    s.Parks (s.pruneBlock self env cr3 address).2 k self cr3
      (3 * (s.tables.emptyTable cr3 address).toNat) ∧
      ((s.pruneBlock self env cr3 address).1 = false →
        (s.pruneBlock self env cr3 address).2 = s) := by
  unfold pruneBlock
  dsimp only
  split
  · exact ⟨(Parks.refl h).mono (Nat.zero_le _), fun _ => rfl⟩
  next htable =>
  split
  · exact ⟨(Parks.refl h).mono (Nat.zero_le _), fun _ => rfl⟩
  next hempty =>
  rw [Bool.not_eq_true, Bool.not_eq_false'] at htable hempty
  have hone : (s.tables.emptyTable cr3 address).toNat = 1 := by
    rw [emptyTable, htable, hempty]
    rfl
  rw [hone] at hlength ⊢
  -- A table may leave the one above it empty, so up to three are parked.
  have hparks₁ := dropTable_parks env .two h hdepth (by omega) hlt
  have hlen₁ := hparks₁.length
  split
  · exact ⟨hparks₁.mono (by omega), nofun⟩
  have hparks₂ := hparks₁.trans (dropTable_parks env .three hparks₁.due
    (by rw [hparks₁.kept.depth]; exact hdepth) (by omega) hlt)
  have hlen₂ := hparks₂.length
  split
  · exact ⟨hparks₂.mono (by omega), nofun⟩
  have hparks₃ := hparks₂.trans (dropTable_parks env .four hparks₂.due
    (by rw [hparks₂.kept.depth]; exact hdepth) (by omega) hlt)
  exact ⟨hparks₃, nofun⟩

/-- The loop parks what it takes out, while the batch has room. -/
private theorem Vmm.pruneLoop_parks (env : Services) (end_ turns address : Nat)
    (freed : Bool) (s : Vmm)
    (h : s.flushing.Due k self cr3) (hdepth : (s.flushing.batch self).depth ≠ 0)
    (hlength : (s.flushing.batch self).deferred.length +
      3 * s.tables.emptyTables cr3 end_ turns address ≤
      deferredFreeMax) :
    (pruneLoop self env cr3 end_ turns address freed s).2.flushing.Due k self cr3 ∧
      s.flushing.Kept (pruneLoop self env cr3 end_ turns address freed s).2.flushing ∧
      ((pruneLoop self env cr3 end_ turns address freed s).1 = false → freed = false ∧
        (pruneLoop self env cr3 end_ turns address freed s).2 = s) := by
  induction turns generalizing address freed s with
  | zero => exact ⟨h, .refl _, fun hfreed => ⟨hfreed, rfl⟩⟩
  | succ turns ih =>
    rw [emptyTables] at hlength
    rw [pruneLoop]
    by_cases hlt : address < end_ ∧ address < userAddressLimit ∧ index4 address < 256
    swap
    · rw [if_neg hlt]
      exact ⟨h, .refl _, fun hfreed => ⟨hfreed, rfl⟩⟩
    rw [if_pos hlt] at hlength ⊢
    obtain ⟨hparks, hsame⟩ := pruneBlock_parks self env h hdepth (by omega) hlt.2.1
    -- The later blocks have no more empty tables than before.
    have hmono := emptyTables_mono end_ hparks.tables turns (address + 0x200000)
    have hlen := hparks.length
    obtain ⟨hdue, hkept, hfreed⟩ := ih (address + 0x200000)
      (freed || (s.pruneBlock self env cr3 address).1) _ hparks.due
      (by rw [hparks.kept.depth]; exact hdepth) (by omega)
    refine ⟨hdue, hparks.kept.trans hkept, fun hno => ?_⟩
    obtain ⟨hor, heq⟩ := hfreed hno
    rw [Bool.or_eq_false_iff] at hor
    exact ⟨hor.1, heq.trans (hsame hor.2)⟩

private theorem Flushing.Due.writeRoot {s : Flushing} (h : s.Due k self cr3) (root : Nat) :
    (s.writeRoot self root).Due k self cr3 where
  early := h.early
  covers a ha page hpage := (h.covers a ha page hpage).writeRoot self root
  owes page hpage := by
    obtain ⟨hid, howes⟩ := h.owes page hpage
    refine ⟨hid, fun c hc hheld => ?_⟩
    simp only [Flushing.writeRoot, Flushing.forget, Bool.and_eq_true, Bool.not_eq_true',
      beq_eq_false_iff_ne]
      at hheld
    have hroot : (s.writeRoot self root).root c = s.root c := update_of_ne hheld.2 ..
    rw [hroot]
    exact howes c hc hheld.1
  user := h.user
  idle := h.idle

/-- The flush at the end of `prune_locked` covers the tables that were parked. -/
theorem Flushing.Due.flush {s : Flushing} {answers : Nat → Bool} (h : s.Due k self cr3)
    (hq : s.Quiet k answers)
    (hcr3 : cr3 ≠ 0) (hk : cr3 ≠ k) {s' : Flushing}
    (hs' : s' = if cr3 = s.root self then s.writeRoot self cr3 else s) :
    (s'.flushOthers self answers cr3).Safe k ∧
      s.SameProcessors (s'.flushOthers self answers cr3) := by
  obtain ⟨hdue, hproc, hlocal⟩ : s'.Due k self cr3 ∧ s.SameProcessors s' ∧
      (self ∈ s'.online → ∀ page ∈ (s'.batch self).deferred, s'.held self page.id = false) := by
    rw [hs']
    split
    · next hroot =>
      refine ⟨h.writeRoot cr3, ⟨rfl, ?_, rfl⟩, fun _ page _ => ?_⟩
      · show update s.root self cr3 = s.root
        rw [hroot, update_eq_self]
      · simp [Flushing.writeRoot, Flushing.forget]
    · next hroot =>
      refine ⟨h, .refl s, fun hself page hpage => ?_⟩
      rw [← Bool.not_eq_true]
      intro hheld
      rcases (h.owes page hpage).2 self hself hheld with hroot' | ⟨hne, -⟩
      · exact hroot hroot'.symm
      · exact hne rfl
  have hspec := flushOthers_spec (hproc.quiet hq) hcr3 hk (hdue.user self)
  exact ⟨hspec.safe hdue hlocal hcr3 hk, hproc.trans hspec.processors⟩

/-- The blocks that `prune_locked` looks at have few enough empty page tables for the batch. -/
def Vmm.PruneFits (s : Vmm) (self cr3 start end_ : Nat) : Prop :=
  let first := start / 0x200000 * 0x200000
  (s.flushing.batch self).deferred.length +
    3 * s.tables.emptyTables cr3 end_ ((end_ - first) / 0x200000 + 1) first ≤ deferredFreeMax

instance (s : Vmm) (self cr3 start end_ : Nat) : Decidable (s.PruneFits self cr3 start end_) :=
  inferInstanceAs (Decidable (_ ≤ deferredFreeMax))

private theorem Vmm.pruneFlush_spec (s : Vmm) {freed : Bool} {s' : Vmm} (h : s.flushing.Safe k)
    (hq : s.flushing.Quiet k env.answers) (hcr3 : cr3 ≠ 0) (hk : cr3 ≠ k)
    (hdue : s'.flushing.Due k self cr3)
    (hkept : s.flushing.Kept s'.flushing) (hfreed : freed = false → s' = s) :
    (pruneFlush self env cr3 freed s').flushing.Safe k := by
  unfold pruneFlush
  have hq' := hkept.processors.quiet hq
  split
  · obtain ⟨hsafe, hproc⟩ := hdue.flush hq' hcr3 hk rfl
    exact hsafe.batchEnd (hproc.quiet hq') self
  · next hno =>
    rw [hfreed (by simpa using hno)]
    exact h.batchEnd hq self

private theorem Vmm.pruneLocked_spec (start end_ : Nat) (h : s.flushing.Safe k)
    (hq : s.flushing.Quiet k env.answers)
    (hk : cr3 ≠ k) (hfits : s.PruneFits self cr3 start end_) :
    (s.pruneLocked self env cr3 start end_).flushing.Safe k := by
  unfold pruneLocked
  split
  · exact h
  next hreg =>
  rw [not_or] at hreg
  have hcr3 := ne_zero_of_registered (by simpa using hreg.1)
  have hbegin := h.batchBegin self
  have hbatch : (s.flushing.batchBegin self).batch self =
      { s.flushing.batch self with depth := (s.flushing.batch self).depth + 1 } := setBatch_self _
  obtain ⟨hdue, hkept, hfreed⟩ := pruneLoop_parks env end_
    ((end_ - start / 0x200000 * 0x200000) / 0x200000 + 1) (start / 0x200000 * 0x200000) false
    { s with flushing := s.flushing.batchBegin self } (hbegin.due self cr3)
    (by rw [hbatch]; exact Nat.succ_ne_zero _) (by rw [hbatch]; exact hfits)
  have hq' : (s.flushing.batchBegin self).Quiet k env.answers := hq
  exact pruneFlush_spec { s with flushing := s.flushing.batchBegin self } hbegin hq'
    hcr3 hk hdue hkept
    fun hno => (hfreed hno).2

/-! ## Runs -/

inductive SpaceCall where
  | batchBegin
  | batchEnd
  | map (cr3 address : Nat) (physical flags : UInt64)
  | unmap (cr3 address : Nat)
  /-- A page is unmapped and given back, as `heap_release_pages` does. -/
  | release (cr3 address : Nat)
  | protect (cr3 address : Nat) (flags : UInt64)
  | prune (cr3 start end_ : Nat)
  | unmapRange (cr3 start end_ : Nat)
  | reclaim (cr3 : Nat) (scan : Reclaim)
  /-- The two stores of a switch: what the processor says it runs, and the tables. -/
  | setAddressSpace (cr3 : Nat)
  | activate (cr3 : Nat)

/-- A call on a processor, with what the rest of the kernel answers. -/
structure SpaceEvent where
  cpu : Nat
  env : Services
  call : SpaceCall

def Vmm.step (s : Vmm) (e : SpaceEvent) : Option Vmm := match e.call with
  | .batchBegin => some { s with flushing := s.flushing.batchBegin e.cpu }
  | .batchEnd => some { s with flushing := s.flushing.batchEnd e.cpu e.env.answers }
  | .map cr3 address physical flags => some (s.mapPageIn e.env cr3 address physical flags).2
  | .unmap cr3 address => some (s.unmapPageLocked e.cpu e.env cr3 address).2
  | .release cr3 address =>
    let (page, s) := s.unmapPageLocked e.cpu e.env cr3 address
    some (match page with
      | some page => { s with flushing := s.flushing.freePageAfterFlush e.cpu e.env.answers page }
      | none => s)
  | .protect cr3 address flags => some (s.protectPageLocked e.cpu e.env cr3 address flags).2
  | .prune cr3 start end_ => some (s.pruneLocked e.cpu e.env cr3 start end_)
  | .unmapRange cr3 start end_ => some (s.unmapRange e.cpu e.env cr3 start end_)
  | .reclaim cr3 scan => some ((s.reclaimScan e.cpu e.env cr3 scan).elim s Prod.fst)
  | .setAddressSpace cr3 =>
    some { s with flushing.addressSpace := update s.flushing.addressSpace e.cpu cr3 }
  | .activate cr3 => some { s with flushing := s.flushing.writeRoot e.cpu cr3 }

/-- What a call is made with for its flushes to be enough. -/
def Vmm.Orderly (k : Nat) (s : Vmm) (e : SpaceEvent) : Prop := match e.call with
  | .batchBegin | .map .. | .setAddressSpace _ | .activate _ => True
  | .batchEnd => s.flushing.Quiet k e.env.answers
  | .unmap cr3 address | .release cr3 address | .protect cr3 address _ =>
    s.flushing.Quiet k e.env.answers ∧ Mappable k cr3 address
  | .prune cr3 start end_ =>
    s.flushing.Quiet k e.env.answers ∧ cr3 ≠ k ∧ s.PruneFits e.cpu cr3 start end_
  | .unmapRange cr3 _ _ | .reclaim cr3 _ => s.flushing.Quiet k e.env.answers ∧ cr3 ≠ k

instance (k : Nat) (s : Vmm) (e : SpaceEvent) : Decidable (s.Orderly k e) := by
  unfold Orderly
  split <;> infer_instance

private theorem Vmm.safe_step {s t : Vmm} {e : SpaceEvent} (h : s.flushing.Safe k)
    (hcond : s.Orderly k e)
    (hstep : s.step e = some t) : t.flushing.Safe k := by
  obtain ⟨cpu, env, call⟩ := e
  unfold step at hstep
  unfold Orderly at hcond
  -- One rule for each call.
  cases call <;> dsimp only at hstep hcond <;> rw [Option.some.injEq] at hstep <;> subst hstep
  case batchBegin => exact h.batchBegin cpu
  case batchEnd => exact h.batchEnd hcond cpu
  case map => exact h
  case unmap => exact (unmapPageLocked_spec cpu h hcond.1 hcond.2).1.safe
  case release cr3 address =>
    obtain ⟨hq, haddress⟩ := hcond
    obtain ⟨hpasses, hcovers⟩ := unmapPageLocked_spec cpu h hq haddress
    split
    · next page hpage =>
      exact (hpasses.safe.freePageAfterFlush (hpasses.quiet hq) (hcovers page hpage)).safe
    · exact hpasses.safe
  case protect => exact (protectPageLocked_spec h hcond.1 hcond.2).safe
  case prune cr3 start end_ => exact pruneLocked_spec start end_ h hcond.1 hcond.2.1 hcond.2.2
  case unmapRange cr3 start end_ => exact unmapRange_spec start end_ h hcond.1 hcond.2
  case reclaim cr3 scan =>
    cases hr : s.reclaimScan cpu env cr3 scan with
    | none => exact h
    | some r => exact reclaimScan_spec h hcond.1 hcond.2 hr
  case setAddressSpace => exact h.loses ⟨rfl, rfl, rfl, Nat.le_refl _, rfl, fun _ _ _ => id⟩
  case activate cr3 => exact h.writeRoot cpu cr3

/-- No batch is open, and no page has been given back early. -/
def Flushing.Fresh (s : Flushing) : Prop := s.early = [] ∧ ∀ a, s.batch a = ⟨0, false, false, 0, []⟩

private theorem Flushing.Fresh.safe {s : Flushing} (h : s.Fresh) (k : Nat) : s.Safe k where
  early := h.1
  covers a page hpage := by
    rw [h.2 a] at hpage
    cases hpage
  user a hpending := by
    rw [h.2 a] at hpending
    cases hpending
  idle a _ := by
    rw [h.2 a]
    exact ⟨rfl, rfl⟩

/-- In a run of calls that are orderly, no page is given back while a processor may still use it:
    neither a page that a leaf led to nor one that was a table. -/
theorem Vmm.early_eq_nil_of_run {s t : Vmm} {events : List SpaceEvent} (hfresh : s.flushing.Fresh)
    (hcond : Steps.Always Vmm.step (Vmm.Orderly k) s events)
    (hrun : Steps.run Vmm.step s events = some t) :
    t.flushing.early = [] :=
  (Steps.run_invariant (fun _ _ _ => Vmm.safe_step) (hfresh.safe k) hcond hrun).early

/-! An address space with a few pages at its bottom, on the only processor there is. -/

def answering : Services where
  tablePage _ _ := none
  cacheTake _ := 0
  decide _ _ := .drop
  answers _ := true

def smallSpace (count : Nat) : Vmm where
  tables := {
    kernelCr3 := 1
    spaces := fun cr3 => cr3 == 5
    e4 := fun _ i => if i = 0 then 0xA007 else 0
    e3 := fun _ i => if i = 0 then 0xB007 else 0
    e2 := fun _ i => if i = 0 then 0xC007 else 0
    e1 := fun _ i => if i < count then 0xD007 else 0
    pages := fun _ _ => 0 }
  flushing := {
    online := [0]
    root := fun _ => 5
    addressSpace := fun _ => 5
    batch := fun _ => ⟨0, false, false, 0, []⟩
    held := fun _ _ => false
    removals := 0
    early := [] }

/-- What `unmap_pages` does for a mapping. -/
def unmapPagesCalls (cr3 start end_ : Nat) : List SpaceEvent :=
  [.batchBegin, .unmapRange cr3 start end_, .prune cr3 start end_, .batchEnd].map
    (⟨0, answering, ·⟩)

/-- Two pages are unmapped and their tables are pruned, each call with a batch of its own. -/
theorem smallSpace_early : ((Steps.run Vmm.step (smallSpace 2)
    ([.unmapRange 5 0 0x2000, .prune 5 0 0x2000].map (⟨0, answering, ·⟩))).map fun t =>
      t.flushing.early) = some [] := by
  generalize hevents :
    [SpaceCall.unmapRange 5 0 0x2000, .prune 5 0 0x2000].map (SpaceEvent.mk 0 answering) = events
  have hcond : Steps.Always Vmm.step (Vmm.Orderly 1) (smallSpace 2) events := by
    rw [← hevents]
    decide +kernel
  obtain ⟨t, hrun⟩ : ∃ t, Steps.run Vmm.step (smallSpace 2) events = some t := by
    rw [← hevents]
    exact Option.isSome_iff_exists.mp (by decide +kernel)
  rw [hrun, Option.map_some, Vmm.early_eq_nil_of_run ⟨rfl, fun _ => rfl⟩ hcond hrun]

/-- With 62 pages the batch is full when the last of the three tables is parked. The page table and
    the directory above it go back before the processor has reloaded its tables. -/
theorem smallSpace_tables_early :
    ((Steps.run Vmm.step (smallSpace 62) (unmapPagesCalls 5 0 0x3E000)).map
    fun t => t.flushing.early) = some [⟨0xB000, 63⟩, ⟨0xC000, 62⟩] := by
  decide +kernel

end Tunix.Mm
