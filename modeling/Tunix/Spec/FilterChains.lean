import Mathlib.Data.List.Nodup
import Mathlib.Data.List.Perm.Subperm
import Tunix.ForStd.Run
import Tunix.Kernel.Filters
import Tunix.Spec.SeccompCheck

/-!
# Filters only restrict

`Sandbox` adds to the processes what the code does not keep: the programs that were attached to a
process or, before the fork, to one it comes from. The invariant `Sandbox.Ok` says that the chain of
a process is exactly these programs and that the counter of a filter is the number of processes that
have it in their chain. What `seccomp_decide` answers and when filters are freed follows from that.
-/

namespace Tunix.Seccomp

open Bytes Function Option List Tasks

variable {chain : Nat → List Nat} {p : Nat} {filter : Nat → Filter}
    {attached : List (List SockFilter)}

/-! ## The strictest result -/

section Strictest

private theorem seccompRank_strictest (best result : UInt32) :
    seccompRank (strictest best result) = max (seccompRank best) (seccompRank result) := by
  unfold strictest
  split <;> omega

private theorem strictest_eq_or (best result : UInt32) :
    strictest best result = best ∨ strictest best result = result := by
  unfold strictest
  split
  · exact .inr rfl
  · exact .inl rfl

private theorem le_seccompRank_foldl (results : List UInt32) (best : UInt32) :
    seccompRank best ≤ seccompRank (results.foldl strictest best) ∧
      ∀ result ∈ results, seccompRank result ≤ seccompRank (results.foldl strictest best) := by
  induction results generalizing best with
  | nil => exact ⟨le_refl _, nofun⟩
  | cons result results ih =>
    obtain ⟨hbest, hresults⟩ := ih (strictest best result)
    rw [seccompRank_strictest] at hbest
    refine ⟨le_trans (le_max_left ..) hbest, fun r hr => ?_⟩
    rcases mem_cons.mp hr with rfl | hr
    · exact le_trans (le_max_right ..) hbest
    · exact hresults r hr

private theorem foldl_strictest_mem (results : List UInt32) (best : UInt32) :
    results.foldl strictest best = best ∨ results.foldl strictest best ∈ results := by
  induction results generalizing best with
  | nil => exact .inl rfl
  | cons result results ih =>
    rw [foldl_cons]
    rcases ih (strictest best result) with h | h
    · rw [h]
      rcases strictest_eq_or best result with h' | h'
      · exact .inl h'
      · rw [h']
        exact .inr mem_cons_self
    · exact .inr (mem_cons_of_mem _ h)

end Strictest

/-- A program that was checked ends within as many turns as it has instructions. -/
theorem bpfRun_exits {program : List SockFilter} (data : Buffer) (h : bpfCheck program)
    (pc : Nat) (r : Regs)
    (hpc : pc < program.length) :
    ∃ e, ∀ turns ≥ program.length - pc, bpfRun program data turns pc r = some e := by
  have hop : program[pc]? = some program[pc] := getElem?_eq_getElem hpc
  have hturn : ∀ {e : Exit}, bpfStep data program[pc] pc r = .exit e →
      ∀ turns ≥ program.length - pc, bpfRun program data turns pc r = some e := by
    intro e hexit turns hturns
    obtain ⟨turns, rfl⟩ : ∃ m, turns = m + 1 := ⟨turns - 1, by omega⟩
    rw [bpfRun]
    simp only [hop, hexit]
  by_cases hbounds : (program[pc]).InBounds
  swap
  · obtain ⟨e, he, -⟩ := step_out_of_bounds data pc r hbounds
    exact ⟨e, hturn he⟩
  rcases checked_get data h hop hbounds r with ⟨-, value, hret⟩ | ⟨pc', r', hnext, hforward, hlt⟩
  · exact ⟨_, hturn hret⟩
  obtain ⟨e, he⟩ := bpfRun_exits data h pc' r' hlt
  refine ⟨e, fun turns hturns => ?_⟩
  obtain ⟨turns, rfl⟩ : ∃ m, turns = m + 1 := ⟨turns - 1, by omega⟩
  rw [bpfRun]
  simp only [hop, hnext]
  exact he turns (by omega)
termination_by program.length - pc
decreasing_by omega

/-! ## Chains -/

/-- The list is the chain from an address on. -/
def Linked (filter : Nat → Filter) : Option Nat → List Nat → Prop
  | ptr, [] => ptr = none
  | ptr, a :: rest => ptr = some a ∧ Linked filter (filter a).prev rest

private theorem Linked.walkChain_eq {l : List Nat} {ptr : Option Nat} (h : Linked filter ptr l)
    {turns : Nat} (hturns : l.length ≤ turns) : walkChain filter turns ptr = l := by
  induction l generalizing ptr turns with
  | nil =>
    rw [show ptr = none from h]
    cases turns <;> rfl
  | cons a rest ih =>
    obtain ⟨rfl, hrest⟩ := h
    obtain ⟨turns, rfl⟩ : ∃ m, turns = m + 1 := ⟨turns - 1, by rw [length_cons] at hturns; omega⟩
    rw [walkChain, ih hrest (by simpa using hturns)]

private theorem Linked.congr {filter' : Nat → Filter} {l : List Nat} {ptr : Option Nat}
    (h : Linked filter ptr l)
    (hsame : ∀ a ∈ l, (filter' a).prev = (filter a).prev) : Linked filter' ptr l := by
  induction l generalizing ptr with
  | nil => exact h
  | cons a rest ih =>
    refine ⟨h.1, ?_⟩
    rw [hsame a mem_cons_self]
    exact ih h.2 fun b hb => hsame b (mem_cons_of_mem _ hb)

/-- The processes that have a filter in their chain. -/
def holders (chain : Nat → List Nat) (live : List Nat) (a : Nat) : Nat :=
  live.countP fun p => decide (a ∈ chain p)

/-- The processes with the programs that were attached to them and to those they come from. -/
structure Sandbox where
  tasks : Tasks
  attached : Nat → List (List SockFilter)

variable {s : Sandbox}

/-- What is known of the chains of the processes. -/
structure Sandbox.Chains (s : Sandbox) (chain : Nat → List Nat) : Prop where
  live : s.tasks.live.Nodup
  allocated : s.tasks.allocated.Nodup
  linked : ∀ p ∈ s.tasks.live, Linked s.tasks.filter (s.tasks.task p).filters (chain p)
  nodup : ∀ p ∈ s.tasks.live, (chain p).Nodup
  alive : ∀ p ∈ s.tasks.live, ∀ a ∈ chain p, a ∈ s.tasks.allocated
  attached : ∀ p ∈ s.tasks.live, (chain p).map (fun a => (s.tasks.filter a).program) = s.attached p
  mode : ∀ p ∈ s.tasks.live, (s.tasks.task p).mode = .filter ↔ chain p ≠ []
  refs : ∀ a ∈ s.tasks.allocated, (s.tasks.filter a).refs.toNat = holders chain s.tasks.live a
  held : ∀ a ∈ s.tasks.allocated, 0 < holders chain s.tasks.live a
  checked : ∀ a ∈ s.tasks.allocated, bpfCheck (s.tasks.filter a).program

/-- The chain that a process reaches is the one that stands for it. -/
theorem Sandbox.Chains.chain_eq (h : s.Chains chain) (hp : p ∈ s.tasks.live) :
    s.tasks.chain p = chain p := by
  refine (h.linked p hp).walkChain_eq ?_
  exact (subperm_of_subset (h.nodup p hp) (h.alive p hp)).length_le

/-- What is known of the chain of one process. -/
structure TaskOk (filter : Nat → Filter) (allocated : List Nat) (task : Task)
    (attached : List (List SockFilter))
    (chain : List Nat) : Prop where
  linked : Linked filter task.filters chain
  nodup : chain.Nodup
  alive : ∀ a ∈ chain, a ∈ allocated
  attached : chain.map (fun a => (filter a).program) = attached
  mode : task.mode = .filter ↔ chain ≠ []

/-- The filters of the chain keep their place and their program, and are not freed. -/
theorem TaskOk.congr {filter' : Nat → Filter} {allocated allocated' : List Nat} {task : Task}
    {chain : List Nat} (h : TaskOk filter allocated task attached chain)
    (hsame : ∀ a ∈ chain, (filter' a).prev = (filter a).prev ∧
      (filter' a).program = (filter a).program)
    (hkept : ∀ a ∈ chain, a ∈ allocated → a ∈ allocated') :
    TaskOk filter' allocated' task attached chain where
  linked := h.linked.congr fun a ha => (hsame a ha).1
  nodup := h.nodup
  alive a ha := hkept a ha (h.alive a ha)
  attached := by
    rw [← h.attached]
    exact map_congr_left fun a ha => (hsame a ha).2
  mode := h.mode

/-- What is known of a process that lives. -/
theorem Sandbox.Chains.task (h : s.Chains chain) (hp : p ∈ s.tasks.live) :
    TaskOk s.tasks.filter s.tasks.allocated (s.tasks.task p) (s.attached p) (chain p) :=
  ⟨h.linked p hp, h.nodup p hp, h.alive p hp, h.attached p hp, h.mode p hp⟩

/-- The invariant, from what is known of each process and each filter. -/
theorem Sandbox.Chains.of_tasks (hlive : s.tasks.live.Nodup) (hallocated : s.tasks.allocated.Nodup)
    (htasks : ∀ p ∈ s.tasks.live,
      TaskOk s.tasks.filter s.tasks.allocated (s.tasks.task p) (s.attached p) (chain p))
    (hfilters : ∀ a ∈ s.tasks.allocated,
      (s.tasks.filter a).refs.toNat = holders chain s.tasks.live a ∧
      0 < holders chain s.tasks.live a ∧ bpfCheck (s.tasks.filter a).program) : s.Chains chain :=
  ⟨hlive, hallocated, fun p hp => (htasks p hp).linked, fun p hp => (htasks p hp).nodup,
    fun p hp => (htasks p hp).alive, fun p hp => (htasks p hp).attached,
      fun p hp => (htasks p hp).mode,
    fun a ha => (hfilters a ha).1, fun a ha => (hfilters a ha).2.1, fun a ha => (hfilters a ha).2.2⟩

def Sandbox.Ok (s : Sandbox) : Prop := ∃ chain, s.Chains chain

/-! ## Counting references -/

private theorem refChain_apply (filter : Nat → Filter) {chain : List Nat}
    (hnodup : chain.Nodup) (a : Nat) :
    refChain filter chain a =
      { filter a with refs := if a ∈ chain then (filter a).refs + 1 else (filter a).refs } := by
  unfold refChain
  induction chain generalizing filter with
  | nil => simp
  | cons b rest ih =>
    obtain ⟨hb, hrest⟩ := nodup_cons.mp hnodup
    rw [foldl_cons, ih _ hrest]
    by_cases hab : a = b
    · subst hab
      simp [hb]
    · simp [hab]

/-- What giving up one reference of each filter of a chain does. -/
structure Released (s s' : Tasks) (chain : List Nat) : Prop where
  live : s'.live = s.live
  task : s'.task = s.task
  prev : ∀ a, (s'.filter a).prev = (s.filter a).prev
  program : ∀ a, (s'.filter a).program = (s.filter a).program
  refs : ∀ a, (s'.filter a).refs = if a ∈ chain then (s.filter a).refs - 1 else (s.filter a).refs
  allocated : ∀ a, a ∈ s'.allocated ↔ a ∈ s.allocated ∧ ¬(a ∈ chain ∧ (s.filter a).refs - 1 = 0)
  nodup : s'.allocated.Nodup

/-- Giving back the references of a chain. -/
private theorem released_foldl {s : Tasks} {chain : List Nat} (hchain : chain.Nodup)
    (hnodup : s.allocated.Nodup) :
    Released s (chain.foldl unref s) chain := by
  induction chain generalizing s with
  | nil => exact ⟨rfl, rfl, fun _ => rfl, fun _ => rfl, fun _ => rfl, fun a => by simp, hnodup⟩
  | cons b rest ih =>
    obtain ⟨hb, hrest⟩ := nodup_cons.mp hchain
    have hnodup' : (s.unref b).allocated.Nodup := by
      unfold unref
      dsimp only
      split
      · exact hnodup.erase b
      · exact hnodup
    have hfilter :
        ∀ a, (s.unref b).filter a = if a = b then { s.filter a with refs := (s.filter a).refs - 1 }
        else s.filter a := by
      intro a
      unfold unref
      by_cases hab : a = b
      · subst hab
        simp
      · simp [hab]
    -- The filter is freed when its last reference goes.
    have hallocated : ∀ a, a ∈ (s.unref b).allocated ↔
        a ∈ s.allocated ∧ ¬(a = b ∧ (s.filter a).refs - 1 = 0) := by
      unfold unref
      dsimp only
      split
      · grind
      · grind
    obtain ⟨hlive, htask, hprev, hprogram, hrefs, halloc, hnodup''⟩ :=
      ih (s := s.unref b) hrest hnodup'
    refine ⟨hlive, htask, fun a => ?_, fun a => ?_, fun a => ?_, fun a => ?_, hnodup''⟩
    · rw [foldl_cons, hprev, hfilter]
      split <;> rfl
    · rw [foldl_cons, hprogram, hfilter]
      split <;> rfl
    · rw [foldl_cons, hrefs, hfilter]
      by_cases hab : a = b
      · subst hab
        simp [hb]
      · simp [hab]
    · rw [foldl_cons, halloc, hallocated, hfilter]
      by_cases hab : a = b
      · subst hab
        simp [hb]
      · simp [hab]

/-! ## Calls -/

/-- A filter is attached. -/
theorem Sandbox.Chains.attach (h : s.Chains chain) {a : Nat}
    {program : List SockFilter} (hp : p ∈ s.tasks.live) (ha : a ∉ s.tasks.allocated)
    (hcheck : bpfCheck program)
    (hmode : (s.tasks.task p).mode ≠ .strict) :
    Sandbox.Chains
      ⟨(s.tasks.attachFilter p a program).2, update s.attached p (program :: s.attached p)⟩
      (update chain p (a :: chain p)) := by
  unfold attachFilter
  rw [if_neg hmode]
  -- the new filter is in no other chain
  have hnew : ∀ q ∈ s.tasks.live, a ∉ chain q := fun q hq hmem => ha (h.alive q hq a hmem)
  have hfilter : ∀ b, b ≠ a → update s.tasks.filter a ⟨(s.tasks.task p).filters, 1, program⟩ b =
      s.tasks.filter b := fun b hb => update_of_ne hb ..
  have hold : ∀ q ∈ s.tasks.live,
      TaskOk (update s.tasks.filter a ⟨(s.tasks.task p).filters, 1, program⟩)
      (a :: s.tasks.allocated) (s.tasks.task q) (s.attached q) (chain q) := fun q hq =>
    (h.task hq).congr
      (fun b hb => by rw [hfilter b fun hba => hnew q hq (hba ▸ hb)]; exact ⟨rfl, rfl⟩)
      fun b _ => mem_cons_of_mem _
  have hholders : ∀ b, b ≠ a → holders (update chain p (a :: chain p)) s.tasks.live b =
      holders chain s.tasks.live b := by
    intro b hb
    refine countP_congr fun q _ => ?_
    by_cases hq : q = p
    · subst hq
      simp [hb]
    · simp [update_of_ne hq]
  have hone : holders (update chain p (a :: chain p)) s.tasks.live a = 1 := by
    have hcount :
        holders (update chain p (a :: chain p)) s.tasks.live a = s.tasks.live.count p := by
      refine countP_congr fun q hq => ?_
      by_cases hqp : q = p
      · subst hqp
        simp
      · simp [hnew q hq, hqp]
    rw [hcount, count_eq_one_of_mem h.live hp]
  have hmem : ∀ b ∈ s.tasks.allocated, b ≠ a := fun b hb hba => ha (hba ▸ hb)
  refine .of_tasks h.live (nodup_cons.mpr ⟨ha, h.allocated⟩) (fun q hq => ?_)
    (forall_mem_cons.mpr ⟨?_, fun b hb => ?_⟩)
  · by_cases hqp : q = p
    · subst hqp
      obtain ⟨hlinked, hnodup, halive, hattached, -⟩ := hold q hq
      simp only [update_self]
      refine ⟨⟨rfl, ?_⟩, nodup_cons.mpr ⟨hnew q hq, hnodup⟩,
        forall_mem_cons.mpr ⟨mem_cons_self, halive⟩, ?_, by simp⟩
      · rw [update_self]
        exact hlinked
      · rw [map_cons, hattached, update_self]
    · simp only [update_of_ne hqp]
      exact hold q hq
  · simp only [update_self, hone]
    exact ⟨rfl, Nat.one_pos, hcheck⟩
  · simp only [hfilter b (hmem b hb), hholders b (hmem b hb)]
    exact ⟨h.refs b hb, h.held b hb, h.checked b hb⟩

private theorem Sandbox.Chains.strict (h : s.Chains chain) (hp : p ∈ s.tasks.live) :
    Sandbox.Chains ⟨(s.tasks.seccompSetModeStrict p).2, s.attached⟩ chain := by
  unfold seccompSetModeStrict
  split
  · exact h
  next hmode =>
  have hempty : chain p = [] := by
    rw [h.mode p hp, not_not] at hmode
    exact hmode
  refine .of_tasks h.live h.allocated (fun q hq => ?_) fun b hb =>
    ⟨h.refs b hb, h.held b hb, h.checked b hb⟩
  by_cases hqp : q = p
  · subst hqp
    obtain ⟨hlinked, hnodup, halive, hattached, -⟩ := h.task hq
    simp only [update_self]
    exact ⟨hlinked, hnodup, halive, hattached, by simp [hempty]⟩
  · simp only [update_of_ne hqp]
    exact h.task hq

private theorem holders_le (chain : Nat → List Nat) (live : List Nat) (a : Nat) :
    holders chain live a ≤ live.length :=
  countP_le_length

section

variable (h : s.Chains chain) (hp : p ∈ s.tasks.live)
include h hp

/-- A new process has the chain of its parent. -/
theorem Sandbox.Chains.fork {c : Nat} (hc : c ∉ s.tasks.live)
    (hroom : s.tasks.live.length + 1 < 2 ^ 32) :
    Sandbox.Chains ⟨{ s.tasks.seccompInherit c p with live := c :: s.tasks.live },
      update s.attached c (s.attached p)⟩ (update chain c (chain p)) := by
  unfold seccompInherit
  rw [h.chain_eq hp]
  have hfilter := refChain_apply s.tasks.filter (h.nodup p hp)
  have hne : ∀ q ∈ s.tasks.live, q ≠ c := fun q hq hqc => hc (hqc ▸ hq)
  -- Each filter of the parent has one more holder.
  have hholders : ∀ b, holders (update chain c (chain p)) (c :: s.tasks.live) b =
      holders chain s.tasks.live b + if b ∈ chain p then 1 else 0 := by
    intro b
    have hrest : s.tasks.live.countP (fun q => decide (b ∈ update chain c (chain p) q)) =
        holders chain s.tasks.live b := countP_congr fun q hq => by rw [update_of_ne (hne q hq)]
    unfold holders at hrest ⊢
    rw [countP_cons, hrest, update_self]
    simp
  have hold : ∀ q ∈ s.tasks.live,
      TaskOk (refChain s.tasks.filter (chain p)) s.tasks.allocated (s.tasks.task q)
      (s.attached q) (chain q) := fun q hq =>
    (h.task hq).congr (fun b _ => by rw [hfilter]; exact ⟨rfl, rfl⟩) fun _ _ hb => hb
  refine .of_tasks (nodup_cons.mpr ⟨hc, h.live⟩) h.allocated
    (forall_mem_cons.mpr ⟨?_, fun q hq => ?_⟩) fun b hb => ?_
  · simp only [update_self]
    exact hold p hp
  · simp only [update_of_ne (hne q hq)]
    exact hold q hq
  · have hrefs := h.refs b hb
    have hheld := h.held b hb
    have hle := holders_le chain s.tasks.live b
    simp only [hholders, hfilter]
    refine ⟨?_, by omega, h.checked b hb⟩
    split
    -- There are fewer holders than 2^32, so the count does not come round.
    · rw [UInt32.toNat_add, UInt32.toNat_one, hrefs]
      omega
    · exact hrefs

private theorem Sandbox.Chains.released :
    Released { s.tasks with task := update s.tasks.task p ⟨.disabled, none⟩ }
      (s.tasks.seccompRelease p)
      (chain p) := by
  unfold seccompRelease
  rw [h.chain_eq hp]
  exact released_foldl (h.nodup p hp) h.allocated

/-- A process exits, and the filters that only it had are freed. -/
theorem Sandbox.Chains.exit :
    Sandbox.Chains
      ⟨{ s.tasks.seccompRelease p with live := (s.tasks.seccompRelease p).live.erase p },
        s.attached⟩
      chain := by
  obtain ⟨hlive, htask, hprev, hprogram, hrefs, halloc, hnodup⟩ := h.released hp
  generalize s.tasks.seccompRelease p = t at hlive htask hprev hprogram hrefs halloc hnodup
  dsimp only at hlive htask hprev hprogram hrefs halloc
  have hmem : ∀ q, q ∈ t.live.erase p ↔ q ≠ p ∧ q ∈ s.tasks.live := by
    intro q
    rw [hlive, h.live.mem_erase_iff]
  have htask' : ∀ q, q ≠ p → t.task q = s.tasks.task q := fun q hq => by
    rw [htask, update_of_ne hq]
  have hholders : ∀ b, holders chain s.tasks.live b =
      holders chain (t.live.erase p) b + if b ∈ chain p then 1 else 0 := by
    intro b
    have hcons := (perm_cons_erase hp).countP_eq fun q => decide (b ∈ chain q)
    rw [countP_cons] at hcons
    unfold holders
    rw [hlive, hcons]
    simp
  -- a filter that another process has is not freed
  have hfreed : ∀ b ∈ s.tasks.allocated, b ∈ chain p → (s.tasks.filter b).refs - 1 = 0 →
      holders chain (t.live.erase p) b = 0 := by
    intro b hb hbp hzero
    have hone : (s.tasks.filter b).refs = 1 := by
      have hcancel := UInt32.sub_add_cancel (s.tasks.filter b).refs 1
      rw [hzero, UInt32.zero_add] at hcancel
      exact hcancel.symm
    have hcount := h.refs b hb
    rw [hone, hholders, if_pos hbp, UInt32.toNat_one] at hcount
    omega
  refine .of_tasks (hlive ▸ h.live.erase p) hnodup (fun q hq => ?_) fun b hb => ?_
  · obtain ⟨hqp, hqlive⟩ := (hmem q).mp hq
    rw [htask' q hqp]
    refine (h.task hqlive).congr (fun b _ => ⟨hprev b, hprogram b⟩) fun b hb hballoc =>
      (halloc b).mpr ⟨hballoc, fun ⟨hbp, hzero⟩ => ?_⟩
    have hnone := hfreed b hballoc hbp hzero
    have hpos : 0 < holders chain (t.live.erase p) b :=
      countP_pos_iff.mpr ⟨q, hq, by simpa using hb⟩
    omega
  · obtain ⟨hballoc, hkept⟩ := (halloc b).mp hb
    have hcount := h.refs b hballoc
    have hheld := h.held b hballoc
    rw [hholders] at hcount hheld
    dsimp only
    rw [hrefs, hprogram]
    by_cases hbp : b ∈ chain p
    · rw [if_pos hbp] at hcount ⊢
      refine ⟨?_, ?_, h.checked b hballoc⟩
      · rw [UInt32.toNat_sub_of_le _ _ (by rw [UInt32.le_iff_toNat_le, UInt32.toNat_one]; omega),
          UInt32.toNat_one]
        omega
      · by_contra hzero
        have hone : (s.tasks.filter b).refs = 1 :=
          UInt32.toNat_inj.mp (hcount.trans (by rw [UInt32.toNat_one]; omega))
        exact hkept ⟨hbp, by rw [hone]; rfl⟩
    · rw [if_neg hbp] at hcount hheld ⊢
      exact ⟨hcount, hheld, h.checked b hballoc⟩

end

/-! ## Verdicts -/

/-- What `seccomp_decide` answers, from the programs that were attached. -/
def verdict (mode : Mode) (attached : List (List SockFilter)) (frame : SyscallFrame) (nr : UInt64) :
    UInt32 :=
  match mode with
  | .disabled => seccompRetAllow
  | .strict => if strictAllows nr then seccompRetAllow else seccompRetKillProcess
  | .filter =>
    (attached.map fun program => bpfResult program (seccompData frame nr)).foldl
      strictest seccompRetAllow

private theorem Sandbox.Chains.seccompDecide_eq (h : s.Chains chain) (hp : p ∈ s.tasks.live)
    (frame : SyscallFrame) (nr : UInt64) :
    s.tasks.seccompDecide p frame nr = verdict (s.tasks.task p).mode (s.attached p) frame nr := by
  unfold seccompDecide verdict
  cases (s.tasks.task p).mode with
  | disabled => rfl
  | strict => rfl
  | filter =>
    rw [h.chain_eq hp, ← h.attached p hp, List.map_map]
    rfl

/-- How a call may change the mode of a process and what is attached to it. -/
def Tightens (mode : Mode) (attached : List (List SockFilter)) (mode' : Mode)
    (attached' : List (List SockFilter)) : Prop :=
  mode' = mode ∧ attached' = attached ∨
    mode ≠ .strict ∧ mode' = .filter ∧ (∃ program, attached' = program :: attached) ∨
    mode ≠ .filter ∧ mode' = .strict

private theorem seccompRank_allow : seccompRank seccompRetAllow = 0 := by decide

private theorem seccompRank_foldl_cons (results : List UInt32) (result best : UInt32) :
    seccompRank (results.foldl strictest best) ≤
      seccompRank ((result :: results).foldl strictest best) := by
  rcases foldl_strictest_mem results best with h | h
  · rw [h]
    exact (le_seccompRank_foldl (result :: results) best).1
  · exact (le_seccompRank_foldl (result :: results) best).2 _ (mem_cons_of_mem _ h)

private theorem Tightens.seccompRank_le {mode mode' : Mode} {attached' : List (List SockFilter)}
    (h : Tightens mode attached mode' attached') (frame : SyscallFrame) (nr : UInt64) :
    seccompRank (verdict mode attached frame nr) ≤
      seccompRank (verdict mode' attached' frame nr) := by
  have hzero : seccompRank (verdict .disabled attached frame nr) = 0 := seccompRank_allow
  rcases h with ⟨rfl, rfl⟩ | ⟨hstrict, rfl, program, rfl⟩ | ⟨hfilter, rfl⟩
  · exact le_refl _
  · cases mode with
    | disabled =>
      rw [hzero]
      exact Nat.zero_le _
    | strict => exact absurd rfl hstrict
    | filter => exact seccompRank_foldl_cons _ _ _
  · cases mode with
    | disabled =>
      rw [hzero]
      exact Nat.zero_le _
    | strict => exact le_refl _
    | filter => exact absurd rfl hfilter

/-! ## Runs -/

namespace Sandbox

/-- What is attached to the processes after a call. -/
def attachedAfter (s : Sandbox) : TaskCall → Nat → List (List SockFilter)
  | .setModeFilter pid flags allowed user memory =>
    if (s.tasks.seccompSetModeFilter pid flags allowed user memory).1 = 0 then
      update s.attached pid (user.toList ++ s.attached pid)
    else s.attached
  | .fork parent child true => update s.attached child (s.attached parent)
  | _ => s.attached

def step (s : Sandbox) (call : TaskCall) : Option Sandbox :=
  (s.tasks.step call).map fun tasks => ⟨tasks, s.attachedAfter call⟩

/-- A fork that has come to `seccomp_inherit` completes, and there are fewer than 2^32 processes. -/
def Orderly (s : Sandbox) : TaskCall → Prop
  | .fork _ _ completes => completes = true ∧ s.tasks.live.length + 1 < 2 ^ 32
  | _ => True

/-- What a call does to the processes that are there before and after it, and to a new one. -/
structure Stepped (s s' : Sandbox) (call : TaskCall) : Prop where
  ok : s'.Ok
  tightens : ∀ p ∈ s.tasks.live, p ∈ s'.tasks.live →
    Tightens (s.tasks.task p).mode (s.attached p) (s'.tasks.task p).mode (s'.attached p)
  child : ∀ parent c completes, call = .fork parent c completes → parent ∈ s.tasks.live ∧
    c ∈ s'.tasks.live ∧
    (s'.tasks.task c).mode = (s.tasks.task parent).mode ∧ s'.attached c = s.attached parent

end Sandbox

/-- A filter is attached, or the call changes nothing and reports an error. -/
theorem Tasks.seccompSetModeFilter_cases (s : Tasks) (pid : Nat) (flags : UInt32) (allowed : Bool)
    (user : Option (List SockFilter)) (memory : Option Nat) :
    (∃ program a, user = some program ∧ memory = some a ∧ bpfCheck program ∧
      (s.task pid).mode ≠ .strict ∧
        s.seccompSetModeFilter pid flags allowed user memory =
          (0, (s.attachFilter pid a program).2)) ∨
      (s.seccompSetModeFilter pid flags allowed user memory).1 ≠ 0 ∧
        (s.seccompSetModeFilter pid flags allowed user memory).2 = s := by
  have hinvalid : einval ≠ 0 := by decide
  have haccess : eacces ≠ 0 := by decide
  unfold seccompSetModeFilter
  split
  · exact .inr ⟨hinvalid, rfl⟩
  split
  · exact .inr ⟨haccess, rfl⟩
  cases user with
  | none => exact .inr ⟨hinvalid, rfl⟩
  | some program =>
    cases memory with
    | none => exact .inr ⟨hinvalid, rfl⟩
    | some a =>
      dsimp only
      -- A program that does not pass the check is dropped, and a strict process keeps its mode.
      by_cases hcheck : bpfCheck program = true
      swap
      · rw [if_neg hcheck]
        exact .inr ⟨hinvalid, rfl⟩
      rw [if_pos hcheck]
      by_cases hmode : (s.task pid).mode = .strict
      · refine .inr ?_
        unfold attachFilter
        rw [if_pos hmode]
        exact ⟨hinvalid, rfl⟩
      · refine .inl ⟨program, a, rfl, rfl, hcheck, hmode, ?_⟩
        unfold attachFilter
        rw [if_neg hmode]

namespace Sandbox

/-- Every call under the condition keeps what a step has to keep. -/
theorem stepped {s' : Sandbox} {call : TaskCall} (hok : s.Ok) (hcond : s.Orderly call)
    (hstep : s.step call = some s') : s.Stepped s' call := by
  obtain ⟨chain, h⟩ := hok
  unfold step at hstep
  obtain ⟨tasks, htasks, rfl⟩ := map_eq_some_iff.mp hstep
  cases call with
  | setModeFilter pid flags allowed user memory =>
    unfold Tasks.step at htasks
    obtain ⟨⟨hp, hmemory⟩, htasks⟩ := ite_none_right_eq_some.mp htasks
    obtain rfl := some.inj htasks
    -- A call that fails has attached nothing.
    rcases s.tasks.seccompSetModeFilter_cases pid flags allowed user memory with
      ⟨program, a, rfl, rfl, hcheck, hmode, heq⟩ | ⟨hstatus, heq⟩
    · have hattached : s.attachedAfter (.setModeFilter pid flags allowed (some program) (some a)) =
          update s.attached pid (program :: s.attached pid) := by
        rw [attachedAfter, heq, if_pos rfl]
        rfl
      rw [hattached, heq]
      refine ⟨⟨_, h.attach hp (hmemory a rfl) hcheck hmode⟩, fun q _ _ => ?_,
        fun _ _ _ hfork => nomatch hfork⟩
      unfold attachFilter
      rw [if_neg hmode]
      by_cases hqp : q = pid
      · subst hqp
        simp only [update_self]
        exact .inr (.inl ⟨hmode, rfl, program, rfl⟩)
      · simp only [update_of_ne hqp]
        exact .inl ⟨rfl, rfl⟩
    · have hattached :
          s.attachedAfter (.setModeFilter pid flags allowed user memory) = s.attached := by
        rw [attachedAfter, if_neg hstatus]
      rw [hattached, heq]
      exact ⟨⟨chain, h⟩, fun _ _ _ => .inl ⟨rfl, rfl⟩, fun _ _ _ hfork => nomatch hfork⟩
  | setModeStrict pid =>
    unfold Tasks.step at htasks
    obtain ⟨hp, htasks⟩ := ite_none_right_eq_some.mp htasks
    obtain rfl := some.inj htasks
    refine ⟨⟨chain, h.strict hp⟩, fun q _ _ => ?_, fun _ _ _ hfork => nomatch hfork⟩
    unfold seccompSetModeStrict
    split
    · exact .inl ⟨rfl, rfl⟩
    next hmode =>
    by_cases hqp : q = pid
    · subst hqp
      simp only [update_self]
      exact .inr (.inr ⟨hmode, rfl⟩)
    · simp only [update_of_ne hqp]
      exact .inl ⟨rfl, rfl⟩
  | fork parent child completes =>
    unfold Tasks.step at htasks
    obtain ⟨⟨hp, hc⟩, htasks⟩ := ite_none_right_eq_some.mp htasks
    obtain ⟨rfl, hroom⟩ := hcond
    obtain rfl := some.inj htasks
    -- The number of the child is new.
    have hne : ∀ q ∈ s.tasks.live, q ≠ child := fun q hq hqc => hc (hqc ▸ hq)
    refine ⟨⟨_, h.fork hp hc hroom⟩, fun q hq _ => .inl ?_, fun _ _ _ hfork => ?_⟩
    · simp only [attachedAfter, seccompInherit, if_true, update_of_ne (hne q hq), and_self]
    · obtain ⟨rfl, rfl, -⟩ := TaskCall.fork.inj hfork
      simp only [attachedAfter, seccompInherit, if_true, update_self, and_true, hp, true_and]
      exact mem_cons_self
  | exit pid =>
    unfold Tasks.step at htasks
    obtain ⟨hp, htasks⟩ := ite_none_right_eq_some.mp htasks
    obtain rfl := some.inj htasks
    refine ⟨⟨chain, h.exit hp⟩, fun q _ hq => .inl ⟨?_, rfl⟩, fun _ _ _ hfork => nomatch hfork⟩
    obtain ⟨hlive, htask, -⟩ := h.released hp
    have hqp : q ≠ pid := by
      rintro rfl
      rw [hlive] at hq
      exact h.live.not_mem_erase hq
    rw [htask]
    exact congrArg _ (update_of_ne hqp ..)

/-- The answer for a call has the highest rank of all results of what is attached, and if that is
    not the rank of `ALLOW` it is one of these results. Every program comes to its end. -/
def Strictest (s : Sandbox) (p : Nat) (frame : SyscallFrame) (nr : UInt64) : Prop :=
  s.attached p ≠ [] ∧
    (∀ program ∈ s.attached p,
      (∃ e, bpfRun program (seccompData frame nr) program.length 0 Regs.init = some e ∧
        e.value = bpfResult program (seccompData frame nr)) ∧
      seccompRank (bpfResult program (seccompData frame nr)) ≤
        seccompRank (s.tasks.seccompDecide p frame nr)) ∧
    (seccompRank (s.tasks.seccompDecide p frame nr) ≠ 0 →
      ∃ program ∈ s.attached p,
        bpfResult program (seccompData frame nr) = s.tasks.seccompDecide p frame nr)

/-- The verdict is that of the strictest filter of the process. -/
theorem Chains.strictest (h : s.Chains chain) (hp : p ∈ s.tasks.live)
    (hmode : (s.tasks.task p).mode = .filter) (frame : SyscallFrame) (nr : UInt64) :
    s.Strictest p frame nr := by
  have hchain := (h.mode p hp).mp hmode
  unfold Strictest
  rw [h.seccompDecide_eq hp, hmode]
  obtain ⟨-, hmax⟩ := le_seccompRank_foldl
    ((s.attached p).map fun program => bpfResult program (seccompData frame nr)) seccompRetAllow
  refine ⟨?_, fun program hprogram => ⟨?_, hmax _ (mem_map_of_mem hprogram)⟩, fun hrank => ?_⟩
  · rw [← h.attached p hp]
    simpa using hchain
  · rw [← h.attached p hp] at hprogram
    obtain ⟨a, ha, rfl⟩ := mem_map.mp hprogram
    have hcheck := h.checked a (h.alive p hp a ha)
    have hpos : 0 < (s.tasks.filter a).program.length := by
      simp only [bpfCheck, Bool.and_eq_true, decide_eq_true_eq] at hcheck
      omega
    -- A program that passed the check exits within its length.
    obtain ⟨e, he⟩ := bpfRun_exits (seccompData frame nr) hcheck 0 Regs.init hpos
    have hrun := he (s.tasks.filter a).program.length (Nat.sub_le _ _)
    refine ⟨e, hrun, ?_⟩
    unfold bpfResult
    rw [hrun]
  -- The result is that of a program, unless no program ranks higher than to allow.
  · rcases foldl_strictest_mem
        ((s.attached p).map fun program => bpfResult program (seccompData frame nr))
      seccompRetAllow with hallow | hmem
    · refine absurd ?_ hrank
      unfold verdict
      rw [hallow, seccompRank_allow]
    · obtain ⟨program, hprogram, hresult⟩ := mem_map.mp hmem
      exact ⟨program, hprogram, hresult⟩

/-- No call makes a system call less restricted for a process, and a new process is restricted as
    its parent is. -/
def Restricts (s : Sandbox) (call : TaskCall) : Prop := ∀ s', s.step call = some s' → ∀ frame nr,
    (∀ p ∈ s.tasks.live, p ∈ s'.tasks.live →
      seccompRank (s.tasks.seccompDecide p frame nr) ≤
        seccompRank (s'.tasks.seccompDecide p frame nr)) ∧
    ∀ parent child completes, call = .fork parent child completes →
      s'.tasks.seccompDecide child frame nr = s.tasks.seccompDecide parent frame nr

private theorem restricts {call : TaskCall} (hok : s.Ok)
    (hcond : s.Orderly call) : s.Restricts call := by
  intro s' hstep frame nr
  obtain ⟨⟨chain', h'⟩, htightens, hchild⟩ := stepped hok hcond hstep
  obtain ⟨chain, h⟩ := hok
  refine ⟨fun p hp hp' => ?_, fun parent child completes hfork => ?_⟩
  · rw [h.seccompDecide_eq hp, h'.seccompDecide_eq hp']
    exact (htightens p hp hp').seccompRank_le frame nr
  · obtain ⟨hparent, hlive, hmode, hattached⟩ := hchild parent child completes hfork
    rw [h.seccompDecide_eq hparent, h'.seccompDecide_eq hlive, hmode, hattached]

end Sandbox

/-- The first process, without filters. -/
def freshSandbox : Sandbox where
  tasks := ⟨[1], fun _ => ⟨.disabled, none⟩, fun _ => ⟨none, 0, []⟩, []⟩
  attached := fun _ => []

/-- A process without a filter. -/
theorem freshSandbox_ok : freshSandbox.Ok :=
  ⟨fun _ => [], ⟨nodup_singleton 1, nodup_nil, fun _ _ => rfl, fun _ _ => nodup_nil, nofun,
    fun _ _ => rfl, fun _ _ => by simp [freshSandbox], nofun, nofun, nofun⟩⟩

namespace Sandbox

/-- What holds of the filters of all processes. -/
structure Sound (s : Sandbox) : Prop where
  strictest : ∀ p ∈ s.tasks.live, (s.tasks.task p).mode = .filter → ∀ frame nr,
    s.Strictest p frame nr
  /-- The filters in the chain of a process are those attached, and they are not freed. -/
  alive : ∀ p ∈ s.tasks.live,
    (s.tasks.chain p).map (fun a => (s.tasks.filter a).program) = s.attached p ∧
    ∀ a ∈ s.tasks.chain p, a ∈ s.tasks.allocated
  /-- Every filter that is not freed is in the chain of a process. -/
  kept : ∀ a ∈ s.tasks.allocated, ∃ p ∈ s.tasks.live, a ∈ s.tasks.chain p

private theorem Ok.sound (hok : s.Ok) : s.Sound := by
  obtain ⟨chain, h⟩ := hok
  refine ⟨fun p hp hmode frame nr => h.strictest hp hmode frame nr, fun p hp => ?_, fun a ha => ?_⟩
  · rw [h.chain_eq hp]
    exact ⟨h.attached p hp, h.alive p hp⟩
  · obtain ⟨p, hp, hmem⟩ := countP_pos_iff.mp (h.held a ha)
    refine ⟨p, hp, ?_⟩
    rw [h.chain_eq hp]
    simpa using hmem

/-- In a run in which every fork that has come to `seccomp_inherit` completes, filters only
    restrict, live as long as a process has them, and are freed after that. -/
theorem enforced_of_run {calls : List TaskCall}
    (hcond : Steps.Always step Orderly freshSandbox calls) :
    Steps.Always step Restricts freshSandbox calls ∧ ∀ s,
      Steps.run step freshSandbox calls = some s → s.Sound := by
  have hstep : ∀ (s : Sandbox) (call : TaskCall) (s' : Sandbox), s.Ok → s.Orderly call →
      s.step call = some s' →
      s'.Ok := fun s call s' hok hcond hstep => (stepped hok hcond hstep).ok
  refine ⟨Steps.Always.mono hstep
    (fun s call hok hcond => restricts hok hcond) freshSandbox_ok hcond,
    fun s hrun => ?_⟩
  have hok : s.Ok := Steps.run_invariant hstep freshSandbox_ok hcond hrun
  exact hok.sound

instance (s : Sandbox) (call : TaskCall) : Decidable (s.Orderly call) := match call with
  | .fork _ _ completes =>
    inferInstanceAs (Decidable (completes = true ∧ s.tasks.live.length + 1 < 2 ^ 32))
  | .setModeFilter .. => isTrue trivial
  | .setModeStrict _ => isTrue trivial
  | .exit _ => isTrue trivial

end Sandbox

/-- A filter that returns one value for every call. -/
def constantFilter (value : UInt32) : List SockFilter := [⟨bpfRet ||| bpfK, 0, 0, value⟩]

/-- A filter is attached, inherited and joined by another one, and the process it was attached to
    exits. -/
def sharedCalls : List TaskCall :=
  [.fork 1 2 true,
    .setModeFilter 2 0 true (some (constantFilter seccompRetErrno)) (some 100), .fork 2 3 true,
    .setModeFilter 3 0 true (some (constantFilter seccompRetTrap)) (some 101), .exit 2]

/-- Filters that two processes share outlive one of them. -/
theorem sharedCalls_sound :
    ∃ s, Steps.run Sandbox.step freshSandbox sharedCalls = some s ∧ s.Sound ∧
    s.tasks.allocated = [101, 100] ∧ s.tasks.live = [3, 1] := by
  have hcond :
      Steps.Always Sandbox.step Sandbox.Orderly freshSandbox sharedCalls := by decide +kernel
  have hrun : (Steps.run Sandbox.step freshSandbox sharedCalls).map
      (fun s => (s.tasks.allocated, s.tasks.live)) =
      some ([101, 100], [3, 1]) := by decide +kernel
  obtain ⟨s, hs, hends⟩ := Option.map_eq_some_iff.mp hrun
  exact ⟨s, hs, (Sandbox.enforced_of_run hcond).2 s hs, (Prod.mk.inj hends).1,
    (Prod.mk.inj hends).2⟩

/-- A new thread is given up after it has inherited the filter, and the process that has it
    exits. -/
def lostCalls : List TaskCall :=
  [.fork 1 2 true,
    .setModeFilter 2 0 true (some (constantFilter seccompRetErrno)) (some 100), .fork 2 3 false,
    .exit 2]

/-- A fork that fails behind `seccomp_inherit` leaves references that nobody gives back. -/
theorem lostCalls_not_sound :
    ∃ s, Steps.run Sandbox.step freshSandbox lostCalls = some s ∧ ¬s.Sound := by
  have hrun : (Steps.run Sandbox.step freshSandbox lostCalls).map
      (fun s => (s.tasks.allocated, s.tasks.live, s.tasks.chain 1)) =
        some ([100], [1], []) := by decide +kernel
  obtain ⟨s, hs, hends⟩ := Option.map_eq_some_iff.mp hrun
  simp only [Prod.mk.injEq] at hends
  obtain ⟨hallocated, hlive, hchain⟩ := hends
  refine ⟨s, hs, fun hsound => ?_⟩
  -- the filter has no process any more
  obtain ⟨p, hp, hmem⟩ := hsound.kept 100 (by rw [hallocated]; exact List.mem_singleton_self 100)
  rw [hlive, List.mem_singleton] at hp
  rw [hp, hchain] at hmem
  cases hmem

end Tunix.Seccomp
