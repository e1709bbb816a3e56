import Tunix.Spec.FilterChains

/-!
# Filters for all threads of a process

`seccomp_set_mode_filter` takes the flag `TSYNC`, and `attach_filter` gives the filter to the
calling thread whatever the flags are. So the other threads go on without the filter:
`synchronised_iff` says that the flag keeps what it promises exactly where there are no other
threads, or where the call is refused anyway.
-/

namespace Tunix.Seccomp

open Bytes

/-- `SECCOMP_FILTER_FLAG_TSYNC`. -/
def seccompFilterFlagTsync : UInt32 := 0x1

/-- The programs that a thread evaluates, the last attached first. -/
def Tasks.programs (s : Tasks) (t : Nat) : List (List SockFilter) :=
  (s.chain t).map fun a => (s.filter a).program

private theorem Sandbox.Chains.programs_eq {s : Sandbox} {chain : Nat → List Nat}
    (h : s.Chains chain) {t : Nat}
    (ht : t ∈ s.tasks.live) : s.tasks.programs t = s.attached t := by
  unfold Tasks.programs
  rw [h.chain_eq ht, h.attached t ht]

/-- The second state comes from the first by calls during which the thread does not exit. -/
def Sandbox.Leads (t : Nat) : Sandbox → List TaskCall → Sandbox → Prop
  | s, [], s' => s' = s
  | s, call :: calls, s' =>
    s.Orderly call ∧ ∃ mid, s.step call = some mid ∧ t ∈ mid.tasks.live ∧ mid.Leads t calls s'

/-- The thread evaluates the program for every system call: it is one of its programs, and the
    answer is not weaker than the program's. -/
def Tasks.Evaluates (s : Tasks) (t : Nat) (program : List SockFilter) : Prop :=
  (s.task t).mode = .filter ∧ program ∈ s.programs t ∧
    ∀ frame nr, seccompRank (bpfResult program (seccompData frame nr)) ≤
      seccompRank (s.seccompDecide t frame nr)

/-- What was attached to a thread in filter mode stays attached as long as the thread is there. -/
theorem Sandbox.Leads.keeps {t : Nat} {program : List SockFilter}
    {calls : List TaskCall} {s s' : Sandbox}
    (hleads : s.Leads t calls s') (hok : s.Ok) (ht : t ∈ s.tasks.live)
    (hmode : (s.tasks.task t).mode = .filter)
    (hmem : program ∈ s.attached t) : s'.tasks.Evaluates t program := by
  induction calls generalizing s with
  | nil =>
    obtain rfl : s' = s := hleads
    obtain ⟨chain, h⟩ := hok
    have hstrictest := h.strictest ht hmode
    refine ⟨hmode, ?_, fun frame nr => ((hstrictest frame nr).2.1 program hmem).2⟩
    rw [h.programs_eq ht]
    exact hmem
  | cons call calls ih =>
    obtain ⟨hcond, mid, hstep, hmid, hrest⟩ := hleads
    have hstepped := Sandbox.stepped hok hcond hstep
    -- a thread in filter mode stays in it, and its list only grows
    have hkept : (mid.tasks.task t).mode = .filter ∧ program ∈ mid.attached t := by
      rcases hstepped.tightens t ht hmid with ⟨hm, ha⟩ | ⟨-, hm, more, ha⟩ | ⟨hne, -⟩
      · rw [hm, ha]
        exact ⟨hmode, hmem⟩
      · rw [hm, ha]
        exact ⟨rfl, List.mem_cons_of_mem _ hmem⟩
      · exact absurd hmode hne
    exact ih hrest hstepped.ok hmid hkept.1 hkept.2

/-- What `TSYNC` promises for a filter at an address. With status 0 each thread has the filter in
    its chain, and evaluates its program from then on; with another status the programs and modes of
    all are what they were. -/
def Sandbox.Synchronised (s : Sandbox) (threads : List Nat) (status : Int) (memory : Option Nat)
    (program : List SockFilter) (s' : Sandbox) : Prop :=
  (status = 0 → ∀ t ∈ threads,
    (∃ a ∈ memory, a ∈ s'.tasks.chain t ∧ (s'.tasks.filter a).program = program) ∧
    ∀ later s'', s'.Leads t later s'' → s''.tasks.Evaluates t program) ∧
  (status ≠ 0 → ∀ t, s'.tasks.programs t = s.tasks.programs t ∧
    (s'.tasks.task t).mode = (s.tasks.task t).mode)

/-- The caller gives flags that are not known, may not attach filters, gives a program that cannot
    be read or is not accepted, is in strict mode, or there is no memory. -/
def Tasks.Refuses (s : Tasks) (pid : Nat) (flags : UInt32) (allowed : Bool)
    (user : Option (List SockFilter))
    (memory : Option Nat) : Prop :=
  flags &&& ~~~seccompFilterFlags ≠ 0 ∨ allowed = false ∨
    user.all (fun program => bpfCheck program) = false ∨
    user = none ∨ memory = none ∨ (s.task pid).mode = .strict

private theorem Tasks.seccompSetModeFilter_eq_zero_iff (s : Tasks) (pid : Nat)
    (flags : UInt32) (allowed : Bool)
    (user : Option (List SockFilter)) (memory : Option Nat) :
    (s.seccompSetModeFilter pid flags allowed user memory).1 = 0 ↔
      ¬s.Refuses pid flags allowed user memory := by
  have hinvalid : einval ≠ 0 := by decide
  have haccess : eacces ≠ 0 := by decide
  unfold Tasks.seccompSetModeFilter Tasks.Refuses
  by_cases hflags : flags &&& ~~~seccompFilterFlags ≠ 0
  · simp [hflags, hinvalid]
  cases allowed with
  | false => simp [hflags, haccess]
  | true =>
    cases user with
    | none => simp [hflags, hinvalid]
    | some program =>
      cases memory with
      | none => simp [hflags, hinvalid]
      | some a =>
        unfold Tasks.attachFilter
        by_cases hcheck : bpfCheck program = true <;> by_cases hmode :
          (s.task pid).mode = .strict <;>
          simp [hflags, hcheck, hmode, hinvalid]

/-- A call with `TSYNC` by a thread of a process does what the flag promises if and only if the
    process has no other thread or the call is refused. -/
theorem Sandbox.synchronised_iff {s s' : Sandbox} (hok : s.Ok) {threads : List Nat} {pid : Nat}
    (hthreads : ∀ t ∈ threads, t ∈ s.tasks.live) (hpid : pid ∈ threads) {flags : UInt32}
    (_ : flags &&& seccompFilterFlagTsync ≠ 0) {allowed : Bool} {user : Option (List SockFilter)}
    {memory : Option Nat}
    (hstep : s.step (.setModeFilter pid flags allowed user memory) = some s') :
    s.Synchronised threads (s.tasks.seccompSetModeFilter pid flags allowed user memory).1 memory
      (user.getD []) s' ↔
      (∀ t ∈ threads, t = pid) ∨ s.tasks.Refuses pid flags allowed user memory := by
  have hzero := s.tasks.seccompSetModeFilter_eq_zero_iff pid flags allowed user memory
  have hstepped : s.Stepped s' (.setModeFilter pid flags allowed user memory) :=
    Sandbox.stepped hok trivial hstep
  obtain ⟨chain, h⟩ := hok
  obtain ⟨tasks, htasks, rfl⟩ := Option.map_eq_some_iff.mp hstep
  obtain ⟨⟨-, hmemory⟩, htasks⟩ := Option.ite_none_right_eq_some.mp htasks
  obtain rfl := Option.some.inj htasks
  rcases s.tasks.seccompSetModeFilter_cases pid flags allowed user memory with
    ⟨program, a, rfl, rfl, hcheck, hmode, heq⟩ | ⟨hstatus, heq⟩
  · have hgranted : ¬s.tasks.Refuses pid flags allowed (some program) (some a) :=
      hzero.mp (by rw [heq])
    have hattached : s.attachedAfter (.setModeFilter pid flags allowed (some program) (some a)) =
        Function.update s.attached pid (program :: s.attached pid) := by
      rw [Sandbox.attachedAfter, heq, if_pos rfl]
      rfl
    have hnew := h.attach (hthreads pid hpid) (hmemory a rfl) hcheck hmode
    have hattach : (s.tasks.attachFilter pid a program).2.live = s.tasks.live ∧
        ((s.tasks.attachFilter pid a program).2.task pid).mode = .filter ∧
        ((s.tasks.attachFilter pid a program).2.filter a).program = program := by
      rw [Tasks.attachFilter, if_neg hmode]
      simp
    obtain ⟨hlive, hfilter, hprogram⟩ := hattach
    rw [hattached, heq] at hstepped ⊢
    have hchain : ∀ t ∈ threads, (s.tasks.attachFilter pid a program).2.chain t =
        Function.update chain pid (a :: chain pid) t :=
          fun t ht => hnew.chain_eq (hlive ▸ hthreads t ht)
    constructor
    · rintro ⟨hsync, -⟩
      refine .inl fun t ht => ?_
      by_contra hne
      -- the chain of another thread has only filters that were there before
      obtain ⟨⟨b, hb, hmem, -⟩, -⟩ := hsync rfl t ht
      obtain rfl := Option.some.inj hb
      rw [hchain t ht, Function.update_of_ne hne] at hmem
      exact hmemory _ rfl (h.alive t (hthreads t ht) _ hmem)
    · rintro (halone | hrefuses)
      swap
      · exact absurd hrefuses hgranted
      refine ⟨fun _ t ht => ?_, fun hstatus => absurd rfl hstatus⟩
      obtain rfl := halone t ht
      refine ⟨⟨a, rfl, ?_, hprogram⟩, fun later s'' hleads => ?_⟩
      · rw [hchain t ht, Function.update_self]
        exact List.mem_cons_self
      · refine hleads.keeps hstepped.ok (hlive ▸ hthreads t ht) hfilter ?_
        show program ∈ Function.update s.attached t (program :: s.attached t) t
        rw [Function.update_self]
        exact List.mem_cons_self
  · constructor
    · intro _
      by_contra hor
      exact hstatus (hzero.mpr fun hrefuses => hor (.inr hrefuses))
    · intro _
      refine ⟨fun hok => absurd hok hstatus, fun _ t => ?_⟩
      rw [heq]
      exact ⟨rfl, rfl⟩

/-- A filter for all threads that refuses every system call. -/
def syncCall : TaskCall :=
  .setModeFilter 1 seccompFilterFlagTsync true (some (constantFilter seccompRetErrno)) (some 100)

/-- A thread that is alone attaches a filter for all threads. -/
theorem syncCall_alone : ∃ s, freshSandbox.step syncCall = some s ∧
    freshSandbox.Synchronised [1] 0 (some 100) (constantFilter seccompRetErrno) s := by
  obtain ⟨s, hs⟩ :=
    Option.isSome_iff_exists.mp (show (freshSandbox.step syncCall).isSome by decide +kernel)
  refine ⟨s, hs, ?_⟩
  have hthreads : ∀ t ∈ [1], t ∈ freshSandbox.tasks.live := by decide
  have hiff :=
    Sandbox.synchronised_iff freshSandbox_ok hthreads (List.mem_singleton_self 1) (by decide) hs
  exact hiff.mpr (.inl fun t ht => List.mem_singleton.mp ht)

/-- With a second thread the call returns 0, and the second thread is not restricted. -/
theorem syncCall_second_thread :
    ∃ s s', freshSandbox.step (.fork 1 2 true) = some s ∧ s.step syncCall = some s' ∧
    (s.tasks.seccompSetModeFilter 1 seccompFilterFlagTsync true
      (some (constantFilter seccompRetErrno))
      (some 100)).1 = 0 ∧
    s'.tasks.seccompDecide 2 ⟨0, fun _ => 0⟩ 1 = seccompRetAllow ∧
    ¬s.Synchronised [1, 2] 0 (some 100) (constantFilter seccompRetErrno) s' := by
  refine ⟨_, _, rfl, rfl, by decide +kernel, by decide +kernel, fun hsync => ?_⟩
  -- the second thread still has no filter
  obtain ⟨a, -, hmem, -⟩ := (hsync.1 rfl 2 (by decide)).1
  exact absurd (List.length_pos_of_mem hmem) (by decide +kernel)

end Tunix.Seccomp
