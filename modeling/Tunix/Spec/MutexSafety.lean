import Mathlib.Data.List.Nodup
import Mathlib.Tactic.SplitIfs
import Tunix.Kernel.Mutex

/-!
# Mutual exclusion and wakeups of a mutex

In every interleaving only the owner is between a lock and its unlock, waiters are queued while
somebody owns the mutex or a woken waiter is about to try, and a call is woken four times at most
without getting the mutex. `Task.Ok` says where a process can be, given whether it owns the mutex
and is queued; a step of a process leaves both as they are for the others.
-/

namespace Tunix.Mutex

/-! ## The invariant -/

/-- The count of a call: the times it has lost, and the wake that it has not seen yet. -/
def Task.Counted (t : Task) : Prop :=
  t.ungranted = t.lost + (if t.woken = true ∧ t.granted = false then 1 else 0)

/-- A process in the loop in which it waits. -/
structure Task.WaitOk (mine queued : Prop) (depth : Nat) (t : Task) : Prop where
  queued_iff : queued ↔ t.woken = false
  granted_iff : t.granted = true ↔ mine
  woken : t.granted = true → t.woken = true
  depth : t.granted = true → depth = 1
  holds : t.holds = 0
  counted : t.Counted

/-- What is known of a process that owns the mutex or not, and is queued or not. -/
def Task.At (mine queued : Prop) (depth : Nat) (t : Task) : Prop := match t.pc with
  | .outside => ¬queued ∧ (mine → t.holds = depth ∧ 0 < depth) ∧ (¬mine → t.holds = 0)
  | .unlocking => ¬queued ∧ mine ∧ t.holds = 0
  | .waking _ _ => ¬queued ∧ ¬mine ∧ t.holds = 0
  | .entry _ | .spin | .recheck => ¬queued ∧ ¬mine ∧ t.holds = 0 ∧ t.ungranted = t.lost
  | .leaving => ¬queued ∧ t.WaitOk mine queued depth
  | .waitTest | .preparing | .prepared | .sleeping | .finishing => t.WaitOk mine queued depth

structure Task.Ok (mine queued : Prop) (depth : Nat) (t : Task) : Prop where
  at_pc : t.At mine queued depth
  ungranted : t.ungranted ≤ stealsBeforeHandoff

structure Inv (s : State) : Prop where
  tasks : ∀ p, (s.tasks p).Ok (s.owner = some p) (p ∈ s.queue) s.depth
  nodup : s.queue.Nodup
  free : s.owner = none → s.queue ≠ [] → ∃ p, (s.tasks p).toRetry = true
  /-- A waiter that sleeps and has been woken has the wake still before it. -/
  awake : ∀ p, (s.tasks p).pc = .sleeping → (s.tasks p).blocked = true → (s.tasks p).woken = true →
    ∃ q, (s.tasks q).pc = .waking p (s.tasks p).waiter

section

variable {mine mine' queued queued' : Prop} {depth depth' : Nat} {t : Task} (hmine : mine' ↔ mine)
  (hqueued : queued' ↔ queued) (hdepth : mine → depth' = depth)
include hmine hqueued hdepth

private theorem Task.WaitOk.congr (h : t.WaitOk mine queued depth) :
    t.WaitOk mine' queued' depth' where
  queued_iff := hqueued.trans h.queued_iff
  granted_iff := h.granted_iff.trans hmine.symm
  woken := h.woken
  depth hg := (hdepth (h.granted_iff.mp hg)).trans (h.depth hg)
  holds := h.holds
  counted := h.counted

/-- What another process does changes nothing for this one. -/
theorem Task.Ok.congr (h : t.Ok mine queued depth) : t.Ok mine' queued' depth' := by
  refine ⟨?_, h.ungranted⟩
  have hat := h.at_pc
  unfold Task.At at hat ⊢
  cases hpc : t.pc <;> simp only [hpc] at hat ⊢
  case outside =>
    obtain ⟨h1, h2, h3⟩ := hat
    refine ⟨fun hq => h1 (hqueued.mp hq), fun hm => ?_, fun hm => h3 fun hm' => hm (hmine.mpr hm')⟩
    rw [hdepth (hmine.mp hm)]
    exact h2 (hmine.mp hm)
  case unlocking => exact ⟨fun hq => hat.1 (hqueued.mp hq), hmine.mpr hat.2.1, hat.2.2⟩
  case waking | entry | spin | recheck =>
    exact ⟨fun hq => hat.1 (hqueued.mp hq), fun hm => hat.2.1 (hmine.mp hm), hat.2.2⟩
  case leaving => exact ⟨fun hq => hat.1 (hqueued.mp hq), hat.2.congr hmine hqueued hdepth⟩
  all_goals exact hat.congr hmine hqueued hdepth

end

variable {s : State}

/-- A step of the process `p`. -/
theorem Inv.change {s' : State} {p : Nat} (h : Inv s) (htasks : ∀ q, q ≠ p → s'.tasks q = s.tasks q)
    (hok : (s'.tasks p).Ok (s'.owner = some p) (p ∈ s'.queue) s'.depth)
    (howner : ∀ q, q ≠ p → (s'.owner = some q ↔ s.owner = some q))
    (hdepth : ∀ q, q ≠ p → s.owner = some q → s'.depth = s.depth)
    (hqueue : ∀ q, q ≠ p → (q ∈ s'.queue ↔ q ∈ s.queue)) (hnodup : s'.queue.Nodup)
    (hfree : s'.owner = none → s'.queue ≠ [] → ∃ q, (s'.tasks q).toRetry = true)
    (hsleep : (s'.tasks p).pc = .sleeping → (s'.tasks p).blocked = true →
      (s'.tasks p).woken = true →
      ∃ q, (s'.tasks q).pc = .waking p (s'.tasks p).waiter)
    (hwaking : ∀ r c, (s.tasks p).pc = .waking r c → (s'.tasks r).waiter = c →
      (s'.tasks p).pc = .waking r c ∨ (s'.tasks r).blocked = false) : Inv s' where
  tasks q := by
    by_cases hq : q = p
    · subst hq
      exact hok
    · rw [htasks q hq]
      exact (h.tasks q).congr (howner q hq) (hqueue q hq) (hdepth q hq)
  nodup := hnodup
  free := hfree
  awake q hpc hblocked hwoken := by
    by_cases hq : q = p
    · subst hq
      exact hsleep hpc hblocked hwoken
    have hpc' : (s.tasks q).pc = .sleeping := by rwa [htasks q hq] at hpc
    have hblocked' : (s.tasks q).blocked = true := by rwa [htasks q hq] at hblocked
    have hwoken' : (s.tasks q).woken = true := by rwa [htasks q hq] at hwoken
    obtain ⟨u, hu⟩ := h.awake q hpc' hblocked' hwoken'
    have hwaiter : (s'.tasks q).waiter = (s.tasks q).waiter := by rw [htasks q hq]
    rw [hwaiter]
    by_cases hup : u = p
    · subst hup
      obtain hstill | hunblocked := hwaking q _ hu hwaiter
      · exact ⟨u, hstill⟩
      -- The wake has been made, so the process is not blocked.
      rw [hunblocked] at hblocked
      exact nomatch hblocked
    · exact ⟨u, by rw [htasks u hup]; exact hu⟩

/-- The task that was replaced. -/
@[simp] theorem setTask_same (s : State) (p : Nat) (t : Task) :
    (s.setTask p t).tasks p = t := Function.update_self ..

/-- Replacing a task leaves the others. -/
theorem setTask_ne (s : State) {p q : Nat} (t : Task) (h : q ≠ p) :
    (s.setTask p t).tasks q = s.tasks q :=
  Function.update_of_ne h ..

/-- A step of the process `p` that leaves the mutex as it is. -/
theorem Inv.setTask {p : Nat} {t : Task} (h : Inv s)
    (hok : t.Ok (s.owner = some p) (p ∈ s.queue) s.depth)
    (hretry : s.owner = none → (s.tasks p).toRetry = true → t.toRetry = true)
    (hsleep : t.pc = .sleeping → t.blocked = true → t.woken = true →
      ∃ q, ((s.setTask p t).tasks q).pc = .waking p t.waiter)
    (hwaking : ∀ r c, (s.tasks p).pc = .waking r c → ((s.setTask p t).tasks r).waiter = c →
      t.pc = .waking r c ∨ ((s.setTask p t).tasks r).blocked = false) :
    Inv (s.setTask p t) := by
  apply h.change (p := p)
  · exact fun q hq => setTask_ne s t hq
  · rw [setTask_same]
    exact hok
  · exact fun _ _ => Iff.rfl
  · exact fun _ _ _ => rfl
  · exact fun _ _ => Iff.rfl
  · exact h.nodup
  · intro howner hne
    obtain ⟨q, hq⟩ := h.free howner hne
    by_cases hqp : q = p
    · subst hqp
      exact ⟨q, by rw [setTask_same]; exact hretry howner hq⟩
    · exact ⟨q, by rw [setTask_ne s t hqp]; exact hq⟩
  · rw [setTask_same]
    exact hsleep
  · rw [setTask_same]
    exact hwaking

/-! ## Steps -/

section

variable {p : Nat} {depth : Nat} {t : Task}

/-- What is known of a task at a place. -/
theorem Inv.at_pc (h : Inv s) {pc : Pc} (hpc : (s.tasks p).pc = pc) :
    Task.At (s.owner = some p) (p ∈ s.queue) s.depth { s.tasks p with pc := pc } := by
  subst hpc
  exact (h.tasks p).at_pc

/-- A process that goes elsewhere than to sleep takes or leaves the mutex, whose queue stays. -/
theorem Inv.act (h : Inv s) {owner : Option Nat} (hok : t.Ok (owner = some p) (p ∈ s.queue) depth)
    (howner : ∀ q, q ≠ p → (owner = some q ↔ s.owner = some q))
    (hdepth : ∀ q, q ≠ p → s.owner = some q → depth = s.depth) (hfree : owner = none → s.queue = [])
    (hsleep : t.pc ≠ .sleeping) (hwaking : ∀ r c, (s.tasks p).pc ≠ .waking r c) :
    Inv ({ s with owner := owner, depth := depth }.setTask p t) := by
  apply h.change (p := p)
  · exact fun q hq => setTask_ne _ _ hq
  · rw [setTask_same]
    exact hok
  · exact howner
  · exact hdepth
  · exact fun _ _ => Iff.rfl
  · exact h.nodup
  · exact fun hnone hne => absurd (hfree hnone) hne
  · rw [setTask_same]
    exact fun hs => absurd hs hsleep
  · exact fun r c hr => absurd hr (hwaking r c)

/-- There is one owner. -/
theorem owner_ne (howner : s.owner = some p) {q : Nat} (hq : q ≠ p) : s.owner ≠ some q :=
  fun heq => hq (Option.some.inj (howner.symm.trans heq)).symm

private theorem take_inv (h : Inv s) (howner : s.owner = none) (hqueue : p ∉ s.queue)
    (hpc : ∀ r c, (s.tasks p).pc ≠ .waking r c) : Inv (take s p) := by
  apply h.act
  · exact ⟨⟨hqueue, fun _ => ⟨rfl, Nat.one_pos⟩, fun hn => absurd rfl hn⟩, (h.tasks p).ungranted⟩
  · intro q hq
    rw [howner]
    exact ⟨fun heq => absurd (Option.some.inj heq).symm hq, nofun⟩
  · exact fun q _ hmine => nomatch howner.symm.trans hmine
  · exact nofun
  · exact nofun
  · exact hpc

section

variable (h : Inv s) (hpc : (s.tasks p).pc = .outside)
include h hpc

/-- The owner locks the mutex once more. -/
theorem relock_inv (howner : s.owner = some p) :
    Inv ({ s with depth := s.depth + 1 }.setTask p
      { s.tasks p with holds := (s.tasks p).holds + 1 }) := by
  obtain ⟨hqueue, hmine, _⟩ := h.at_pc hpc
  obtain ⟨hholds, _⟩ := hmine howner
  apply h.act
  · refine ⟨?_, (h.tasks p).ungranted⟩
    simp only [hpc]
    exact ⟨hqueue, fun _ => ⟨by rw [show (s.tasks p).holds = s.depth from hholds], Nat.succ_pos _⟩,
      fun hn => absurd howner hn⟩
  · exact fun _ _ => Iff.rfl
  · exact fun q hq hq' => absurd hq' (owner_ne howner hq)
  · exact fun hnone => nomatch howner.symm.trans hnone
  · simp [hpc]
  · simp [hpc]

private theorem mutexTrylock_inv : Inv (mutexTrylock s p) := by
  unfold mutexTrylock
  split_ifs with hmine hfree
  · exact relock_inv h hpc hmine
  · exact take_inv h hfree (h.at_pc hpc).1 (by simp [hpc])
  · exact h

private theorem mutexLock_inv (canSleep : Bool) (waiter : Nat) :
    Inv (mutexLock s p canSleep waiter) := by
  unfold mutexLock
  split_ifs with hmine
  · exact relock_inv h hpc hmine
  obtain ⟨hqueue, _, hholds⟩ := h.at_pc hpc
  apply h.setTask
  · exact ⟨⟨hqueue, hmine, hholds hmine, rfl⟩, Nat.zero_le _⟩
  · simp [Task.toRetry, hpc]
  · exact nofun
  · simp [hpc]

end

/-- A process queues while somebody owns the mutex. -/
theorem enqueue_inv (h : Inv s) (howner : s.owner ≠ none) (hqueue : p ∉ s.queue)
    (hmine : s.owner ≠ some p)
    (hholds : (s.tasks p).holds = 0) (hcount : (s.tasks p).ungranted = (s.tasks p).lost)
    (hpc : ∀ r c, (s.tasks p).pc ≠ .waking r c) : Inv (enqueue s p) := by
  -- A task that has lost before goes to the front, a new one to the back.
  have hmem : ∀ q, q ∈ (enqueue s p).queue ↔ q = p ∨ q ∈ s.queue := by
    intro q
    show q ∈ (if 0 < (s.tasks p).lost then p :: s.queue else s.queue ++ [p]) ↔ _
    split_ifs
    · exact List.mem_cons
    · rw [List.mem_append, List.mem_singleton, or_comm]
  apply h.change (p := p)
  · exact fun q hq => setTask_ne _ _ hq
  · unfold enqueue
    rw [setTask_same]
    refine ⟨⟨?_, ?_, nofun, nofun, hholds, hcount⟩, (h.tasks p).ungranted⟩
    · exact ⟨fun _ => rfl, fun _ => (hmem p).mpr (.inl rfl)⟩
    · exact ⟨nofun, fun hm => absurd hm hmine⟩
  · exact fun _ _ => Iff.rfl
  · exact fun _ _ _ => rfl
  · intro q hq
    rw [hmem]
    exact ⟨fun hor => hor.resolve_left hq, .inr⟩
  · show (if 0 < (s.tasks p).lost then p :: s.queue else s.queue ++ [p]).Nodup
    split_ifs
    · exact List.nodup_cons.mpr ⟨hqueue, h.nodup⟩
    · exact List.nodup_append.mpr ⟨h.nodup, by simp, fun a ha b hb hab =>
        hqueue (by rw [← List.mem_singleton.mp hb, ← hab]; exact ha)⟩
  · exact fun hnone => absurd hnone howner
  · unfold enqueue
    rw [setTask_same]
    exact nofun
  · exact fun r c hr => absurd hr (hpc r c)

private theorem mutexUnlock_inv (h : Inv s) (hpc : (s.tasks p).pc = .outside) :
    Inv (mutexUnlock s p) := by
  unfold mutexUnlock
  split_ifs with hmine
  · exact h
  have hmine := not_not.mp hmine
  obtain ⟨hqueue, hown, _⟩ := h.at_pc hpc
  obtain ⟨hholds, hpos⟩ := hown hmine
  have hholds : (s.tasks p).holds = s.depth := hholds
  apply h.act
  · refine ⟨?_, (h.tasks p).ungranted⟩
    dsimp only
    split_ifs with hmore
    · exact ⟨hqueue, fun _ => ⟨congrArg (· - 1) hholds, Nat.pos_of_ne_zero hmore⟩,
        fun hn => absurd hmine hn⟩
    · exact ⟨hqueue, hmine, by show (s.tasks p).holds - 1 = 0; omega⟩
  · exact fun _ _ => Iff.rfl
  · exact fun q hq hq' => absurd hq' (owner_ne hmine hq)
  · exact fun hnone => nomatch hmine.symm.trans hnone
  · intro hsleep
    split_ifs at hsleep
  · simp [hpc]

/-- A process in the loop is where `Task.WaitOk` says. -/
theorem Task.at_of_waiting {mine queued : Prop} (h : t.waiting = true) :
    t.At mine queued depth ↔ t.WaitOk mine queued depth := by
  unfold Task.waiting at h
  unfold Task.At
  cases hpc : t.pc <;> simp [hpc] at h ⊢

private theorem Task.toRetry_of_waiting (h : t.waiting = true) :
    t.toRetry = (t.woken && !t.granted) := by
  unfold Task.waiting at h
  unfold Task.toRetry
  cases hpc : t.pc <;> simp [hpc] at h ⊢

/-- A queued process is in the loop in which it waits. -/
theorem Inv.waiting (h : Inv s) (hmem : p ∈ s.queue) : (s.tasks p).waiting = true := by
  have hat := (h.tasks p).at_pc
  unfold Task.At at hat
  unfold Task.waiting
  cases hpc : (s.tasks p).pc <;> simp [hpc, hmem] at hat ⊢

private theorem Inv.waitOk (h : Inv s) (hwaiting : (s.tasks p).waiting = true) :
    (s.tasks p).WaitOk (s.owner = some p) (p ∈ s.queue) s.depth :=
  (Task.at_of_waiting hwaiting).mp (h.tasks p).at_pc

/-- The section of an unlock that pops the first waiter. -/
theorem Inv.pop (h : Inv s) (hpc : (s.tasks p).pc = .unlocking) {next : Nat} {rest : List Nat}
    (hqueue : s.queue = next :: rest) {owner : Option Nat}
    (hwaiting : t.waiting = true) (hwoken : t.woken = true) (hholds : t.holds = 0)
    (hcounted : t.Counted)
    (hungranted : t.ungranted ≤ stealsBeforeHandoff) (hdepth : t.granted = true → depth = 1)
    (howner : owner = if t.granted = true then some next else none) :
    Inv (({ s with owner := owner, depth := depth, queue := rest }.setTask next t).goto p
      (.waking next t.waiter)) := by
  obtain ⟨hunqueued, hmine, hzero⟩ := h.at_pc hpc
  have hne : p ≠ next := fun heq => hunqueued (by simp [hqueue, heq])
  generalize hs' : State.goto _ p (.waking next t.waiter) = s'
  have hnext : s'.tasks next = t := by
    rw [← hs', State.goto, setTask_ne _ _ hne.symm, setTask_same]
  have hp : s'.tasks p = { s.tasks p with pc := .waking next t.waiter } := by
    rw [← hs', State.goto, setTask_same, setTask_ne _ _ hne]
  have hothers : ∀ q, q ≠ p → q ≠ next → s'.tasks q = s.tasks q := by
    intro q hqp hqn
    rw [← hs', State.goto, setTask_ne _ _ hqp, setTask_ne _ _ hqn]
  have hrest : s'.queue = rest := hs' ▸ rfl
  have hdepth : t.granted = true → s'.depth = 1 := hs' ▸ hdepth
  have howner : s'.owner = if t.granted = true then some next else none := hs' ▸ howner
  have hnodup := h.nodup
  rw [hqueue] at hnodup
  obtain ⟨hnot, hnodup'⟩ := List.nodup_cons.mp hnodup
  have howner_ne : ∀ q, q ≠ next → s'.owner ≠ some q := by
    intro q hq heq
    rw [howner] at heq
    split_ifs at heq
    exact hq (Option.some.inj heq).symm
  have hmem : ∀ q, q ∈ s.queue ↔ q = next ∨ q ∈ rest := by
    intro q
    rw [hqueue]
    exact List.mem_cons
  -- The releasing task, the one that was popped and the others are looked at in turn.
  constructor
  · intro q
    by_cases hqp : q = p
    · subst hqp
      rw [hp]
      refine ⟨⟨?_, howner_ne q hne, hzero⟩, (h.tasks q).ungranted⟩
      rw [hrest]
      exact fun hin => hunqueued ((hmem q).mpr (.inr hin))
    by_cases hqn : q = next
    · subst hqn
      rw [hnext]
      refine ⟨(Task.at_of_waiting hwaiting).mpr
        ⟨?_, ?_, fun _ => hwoken, hdepth, hholds, hcounted⟩, hungranted⟩
      · rw [hrest, hwoken]
        exact ⟨fun hin => absurd hin hnot, nofun⟩
      · rw [howner]
        cases t.granted <;> simp
    · rw [hothers q hqp hqn]
      refine (h.tasks q).congr ?_ ?_ ?_
      · exact ⟨fun heq => absurd heq (howner_ne q hqn), fun heq => absurd heq (owner_ne hmine hqp)⟩
      · rw [hrest, hmem]
        exact ⟨.inr, fun hor => hor.resolve_left hqn⟩
      · exact fun heq => absurd heq (owner_ne hmine hqp)
  · rw [hrest]
    exact hnodup'
  · -- The waiter that was popped tries again.
    intro hnone _
    have hgranted : t.granted = false := by simpa [howner] using hnone
    exact ⟨next, by rw [hnext, Task.toRetry_of_waiting hwaiting, hwoken, hgranted]; rfl⟩
  -- A task that sleeps and was woken: the popped one has its waker in `p`, the others keep theirs.
  · intro q hsleep hblocked hwoken'
    by_cases hqn : q = next
    · subst hqn
      exact ⟨p, by rw [hp, hnext]⟩
    by_cases hqp : q = p
    · rw [hqp, hp] at hsleep
      exact nomatch hsleep
    rw [hothers q hqp hqn] at hsleep hblocked hwoken'
    obtain ⟨u, hu⟩ := h.awake q hsleep hblocked hwoken'
    have hup : u ≠ p := by
      rintro rfl
      simp [hpc] at hu
    have hun : u ≠ next := by
      rintro rfl
      have hw := h.waiting ((hmem u).mpr (.inl rfl))
      simp [Task.waiting, hu] at hw
    exact ⟨u, by rw [hothers u hup hun, hothers q hqp hqn]; exact hu⟩

/-- An unlock frees the mutex or hands it over. -/
private theorem release_inv (h : Inv s) (hpc : (s.tasks p).pc = .unlocking) :
    Inv (release s p) := by
  obtain ⟨hunqueued, hmine, hzero⟩ := h.at_pc hpc
  unfold release
  split
  case h_1 hqueue =>
    apply h.act
    · exact ⟨⟨hunqueued, nofun, fun _ => hzero⟩, (h.tasks p).ungranted⟩
    · exact fun q hq => ⟨nofun, fun heq => absurd heq (owner_ne hmine hq)⟩
    · exact fun _ _ _ => rfl
    · exact fun _ => hqueue
    · exact nofun
    · simp [hpc]
  case h_2 next rest hqueue =>
    have hmem : next ∈ s.queue := by simp [hqueue]
    have hwaiting := h.waiting hmem
    have hok := h.waitOk hwaiting
    have hwoken : (s.tasks next).woken = false := hok.queued_iff.mp hmem
    have hgranted : (s.tasks next).granted = false :=
      Bool.eq_false_iff.mpr fun hg => Bool.false_ne_true (hwoken.symm.trans (hok.woken hg))
    have hcount : (s.tasks next).ungranted = (s.tasks next).lost := by
      simpa [Task.Counted, hwoken] using hok.counted
    have hlimit := (h.tasks next).ungranted
    dsimp only
    -- Either the mutex is handed over, or it is free and the waiter has to try again.
    split_ifs with hhandoff
    · apply h.pop hpc hqueue
      · exact hwaiting
      · rfl
      · exact hok.holds
      · unfold Task.Counted
        simpa using hcount
      · exact hlimit
      · exact fun _ => rfl
      · rfl
    · apply h.pop hpc hqueue
      · exact hwaiting
      · rfl
      · exact hok.holds
      · unfold Task.Counted
        simp only [hgranted, and_self, if_true]
        omega
      · show (s.tasks next).ungranted + 1 ≤ stealsBeforeHandoff
        omega
      · exact fun hg => absurd hg (by simp [hgranted])
      · show none = if (s.tasks next).granted = true then some next else none
        rw [hgranted]
        rfl

/-- Whether a process is blocked says nothing about where it is. -/
theorem Task.Ok.setBlocked {mine queued : Prop} (h : t.Ok mine queued depth)
    (blocked : Bool) : Task.Ok mine queued depth { t with blocked := blocked } := by
  refine ⟨?_, h.ungranted⟩
  have hat := h.at_pc
  unfold Task.At at hat ⊢
  cases hpc : t.pc <;> simp only [hpc] at hat ⊢
  case leaving => exact ⟨hat.1, hat.2.1, hat.2.2, hat.2.3, hat.2.4, hat.2.5, hat.2.6⟩
  all_goals first | exact hat | exact ⟨hat.1, hat.2, hat.3, hat.4, hat.5, hat.6⟩

private theorem stir_inv (h : Inv s) (p : Nat) :
    Inv (s.setTask p { s.tasks p with blocked := false }) := by
  apply h.setTask ((h.tasks p).setBlocked false)
  · exact fun _ hretry => hretry
  · exact fun _ hblocked => nomatch hblocked
  · exact fun r c hr _ => .inl hr

/-- The wake after the guard was released. -/
theorem waking_inv (h : Inv s) {next channel : Nat} (hpc : (s.tasks p).pc = .waking next channel) :
    let stirred :=
      if (s.tasks next).waiter = channel then
        s.setTask next { s.tasks next with blocked := false } else s
    Inv (stirred.goto p .outside) := by
  intro stirred
  have hstirred : Inv stirred := by
    unfold stirred
    split_ifs
    · exact stir_inv h next
    · exact h
  -- The wake changes whether `next` is blocked and nothing else.
  have hpc' : (stirred.tasks p).pc = .waking next channel := by
    unfold stirred
    split_ifs
    · by_cases heq : p = next
      · subst heq
        rw [setTask_same]
        exact hpc
      · rw [setTask_ne _ _ heq]
        exact hpc
    · exact hpc
  have hblocked : (stirred.tasks next).waiter = channel → (stirred.tasks next).blocked = false := by
    unfold stirred
    split_ifs with hwaiter
    · intro _
      rw [setTask_same]
    · exact fun heq => absurd heq hwaiter
  obtain ⟨hqueue, hmine, hholds⟩ := hstirred.at_pc hpc'
  apply hstirred.setTask
  · exact ⟨⟨hqueue, fun hm => absurd hm hmine, fun _ => hholds⟩, (hstirred.tasks p).ungranted⟩
  · simp [Task.toRetry, hpc']
  · exact nofun
  · intro r c hr hwaiter
    right
    obtain ⟨rfl, rfl⟩ := Pc.waking.inj (hpc'.symm.trans hr)
    by_cases heq : next = p
    · rw [heq, setTask_same] at hwaiter ⊢
      rw [heq] at hblocked
      exact hblocked hwaiter
    · rw [setTask_ne _ _ heq] at hwaiter ⊢
      exact hblocked hwaiter

/-- A step inside the loop in which the process waits, and out of it. -/
theorem wait_inv (h : Inv s) (hwaiting : (s.tasks p).waiting = true) {pc : Pc} {blocked : Bool}
    (hpc : pc = .leaving ∧ (s.tasks p).woken = true ∨
      Task.waiting { s.tasks p with pc := pc, blocked := blocked } = true ∧
        (pc = .sleeping → (s.tasks p).woken = true → blocked = false)) :
    Inv (s.setTask p { s.tasks p with pc := pc, blocked := blocked }) := by
  have hok := h.waitOk hwaiting
  have hok' : Task.WaitOk (s.owner = some p) (p ∈ s.queue) s.depth
      { s.tasks p with pc := pc, blocked := blocked } :=
    ⟨hok.queued_iff, hok.granted_iff, hok.woken, hok.depth, hok.holds, hok.counted⟩
  have hretry := Task.toRetry_of_waiting hwaiting
  have hnotwaking : ∀ r c, (s.tasks p).pc ≠ .waking r c :=
    fun r c hr => by simp [Task.waiting, hr] at hwaiting
  -- It leaves only when it was woken, and then it is not in the queue any more.
  obtain ⟨rfl, hwoken⟩ | ⟨hwaiting', hsleep⟩ := hpc
  · apply h.setTask
    · refine ⟨⟨?_, hok'⟩, (h.tasks p).ungranted⟩
      intro hqueued
      rw [hok.queued_iff.mp hqueued] at hwoken
      exact nomatch hwoken
    · intro _ hr
      rw [hretry] at hr
      exact (Bool.and_eq_true_iff.mp hr).2
    · exact nofun
    · exact fun r c hr => absurd hr (hnotwaking r c)
  · apply h.setTask ⟨(Task.at_of_waiting hwaiting').mpr hok', (h.tasks p).ungranted⟩
    · rw [hretry, Task.toRetry_of_waiting hwaiting']
      exact fun _ hr => hr
    · intro hs hb hw
      rw [show blocked = false from hsleep hs hw] at hb
      exact nomatch hb
    · exact fun r c hr => absurd hr (hnotwaking r c)

/-- A process that has not queued moves on in `mutex_lock`. -/
theorem goto_inv (h : Inv s) {pc : Pc} (hpc : pc = .entry false ∨ pc = .spin ∨ pc = .recheck)
    (hqueue : p ∉ s.queue) (hmine : s.owner ≠ some p) (hholds : (s.tasks p).holds = 0)
    (hcount : (s.tasks p).ungranted = (s.tasks p).lost)
    (hretry : s.owner = none → (s.tasks p).toRetry = false)
    (hwaking : ∀ r c, (s.tasks p).pc ≠ .waking r c) :
    Inv (s.goto p pc) := by
  apply h.setTask
  · refine ⟨?_, (h.tasks p).ungranted⟩
    obtain rfl | rfl | rfl := hpc <;> exact ⟨hqueue, hmine, hholds, hcount⟩
  · exact fun howner hr => absurd hr (by simp [hretry howner])
  · obtain rfl | rfl | rfl := hpc <;> exact nofun
  · exact fun r c hr => absurd hr (hwaking r c)

/-- Every step of a task keeps the invariant. -/
private theorem advance_inv (h : Inv s) (ownerRunning late : Bool) :
    Inv (advance s p ownerRunning late) := by
  unfold advance
  dsimp only
  -- One case for each place where the task can be.
  cases hpc : (s.tasks p).pc with
  | outside => exact h
  | entry woken =>
    obtain ⟨hqueue, hmine, hholds, hcount⟩ := h.at_pc hpc
    have hwaking : ∀ r c, (s.tasks p).pc ≠ .waking r c := by simp [hpc]
    dsimp only
    split_ifs with hfree
    · exact take_inv h hfree hqueue hwaking
    · exact goto_inv h (.inr (.inl rfl)) hqueue hmine hholds hcount (absurd · hfree) hwaking
    · exact enqueue_inv h hfree hqueue hmine hholds hcount hwaking
    · exact goto_inv h (.inl rfl) hqueue hmine hholds hcount (absurd · hfree) hwaking
  | spin =>
    obtain ⟨hqueue, hmine, hholds, hcount⟩ := h.at_pc hpc
    refine goto_inv h ?_ hqueue hmine hholds hcount (by simp [Task.toRetry, hpc]) (by simp [hpc])
    cases late
    · exact .inl rfl
    · exact .inr (.inr rfl)
  | recheck =>
    obtain ⟨hqueue, hmine, hholds, hcount⟩ := h.at_pc hpc
    have hwaking : ∀ r c, (s.tasks p).pc ≠ .waking r c := by simp [hpc]
    dsimp only
    split_ifs with hfree
    · exact goto_inv h (.inl rfl) hqueue hmine hholds hcount (by simp [Task.toRetry, hpc]) hwaking
    · exact enqueue_inv h hfree hqueue hmine hholds hcount hwaking
  | waitTest =>
    have hwaiting : (s.tasks p).waiting = true := by rw [Task.waiting, hpc]
    dsimp only [State.goto]
    split_ifs with hwoken
    · exact wait_inv h hwaiting (.inl ⟨rfl, hwoken⟩)
    · exact wait_inv h hwaiting (.inr ⟨rfl, nofun⟩)
  | preparing => exact wait_inv h (by rw [Task.waiting, hpc]) (.inr ⟨rfl, nofun⟩)
  | prepared =>
    have hwaiting : (s.tasks p).waiting = true := by rw [Task.waiting, hpc]
    dsimp only
    split_ifs with hwoken
    · exact wait_inv h hwaiting (.inl ⟨rfl, hwoken⟩)
    · exact wait_inv h hwaiting (.inr ⟨rfl, fun _ hw => absurd hw hwoken⟩)
  | sleeping =>
    dsimp only
    split_ifs
    · exact h
    · exact wait_inv h (by rw [Task.waiting, hpc]) (.inr ⟨rfl, nofun⟩)
  | finishing => exact wait_inv h (by rw [Task.waiting, hpc]) (.inr ⟨rfl, nofun⟩)
  | leaving =>
    obtain ⟨hqueue, hok⟩ := h.at_pc hpc
    -- It has left the queue, so somebody has popped it.
    have hwoken : (s.tasks p).woken = true := by simpa using mt hok.queued_iff.mpr hqueue
    dsimp only
    split_ifs with hgranted
    · apply h.setTask
      · refine ⟨⟨hqueue, fun _ => ?_, fun hn => absurd (hok.granted_iff.mp hgranted) hn⟩,
          (h.tasks p).ungranted⟩
        rw [hok.depth hgranted]
        exact ⟨rfl, Nat.one_pos⟩
      · simp [Task.toRetry, hpc, hgranted]
      · exact nofun
      · simp [hpc]
    · have hcounted : (s.tasks p).ungranted = (s.tasks p).lost + 1 := by
        simpa [Task.Counted, hwoken, hgranted] using hok.counted
      apply h.setTask
      · exact ⟨⟨hqueue, fun hm => hgranted (hok.granted_iff.mpr hm), hok.holds, hcounted⟩,
          (h.tasks p).ungranted⟩
      · exact fun _ _ => rfl
      · exact nofun
      · simp [hpc]
  | unlocking => exact release_inv h hpc
  | waking next channel => exact waking_inv h hpc

end

/-! ## Runs -/

private theorem initial_inv : Inv State.initial where
  tasks _ := ⟨⟨List.not_mem_nil, nofun, fun _ => rfl⟩, Nat.zero_le _⟩
  nodup := List.nodup_nil
  free _ hne := absurd rfl hne
  awake _ hpc := nomatch hpc

private theorem step_inv (h : Inv s) (event : Event) : Inv (step s event) := by
  cases event with
  | lock p canSleep waiter =>
    simp only [step]
    split_ifs with hpc
    · exact mutexLock_inv h hpc canSleep waiter
    · exact h
  | trylock p =>
    simp only [step]
    split_ifs with hpc
    · exact mutexTrylock_inv h hpc
    · exact h
  | unlock p =>
    simp only [step]
    split_ifs with hpc
    · exact mutexUnlock_inv h hpc
    · exact h
  | advance p ownerRunning late => exact advance_inv h ownerRunning late
  | stir p => exact stir_inv h p

private theorem run_inv (events : List Event) : ∀ {s : State}, Inv s → Inv (run s events) := by
  induction events with
  | nil => exact fun h => h
  | cons event events ih => exact fun h => ih (step_inv h event)

private theorem Inv.owner_of_holds (h : Inv s) {p : Nat} (hp : 0 < (s.tasks p).holds) :
    s.owner = some p := by
  have hat := (h.tasks p).at_pc
  unfold Task.At at hat
  cases hpc : (s.tasks p).pc <;> simp only [hpc] at hat
  case outside =>
    by_contra hn
    rw [hat.2.2 hn] at hp
    exact absurd hp (Nat.lt_irrefl _)
  case leaving => exact absurd hat.2.holds (Nat.ne_of_gt hp)
  case unlocking => exact hat.2.1
  case waking => exact absurd hat.2.2 (Nat.ne_of_gt hp)
  case entry | spin | recheck => exact absurd hat.2.2.1 (Nat.ne_of_gt hp)
  all_goals exact absurd hat.holds (Nat.ne_of_gt hp)

/-- Nobody waits for a free mutex that no woken waiter is about to try. -/
theorem Inv.not_waiting (h : Inv s) (howner : s.owner = none)
    (hretry : ∀ p, (s.tasks p).toRetry = false) (p : Nat) : (s.tasks p).waiting = false := by
  have hempty : s.queue = [] := by
    by_contra hne
    obtain ⟨q, hq⟩ := h.free howner hne
    rw [hretry q] at hq
    exact nomatch hq
  by_contra hwaiting
  have hwaiting : (s.tasks p).waiting = true := by simpa using hwaiting
  have hok := h.waitOk hwaiting
  -- It is not queued, so it has been woken, and nobody can have granted it the mutex.
  have hwoken : (s.tasks p).woken = true := by simpa [hempty] using hok.queued_iff
  have hgranted : (s.tasks p).granted = false := by simpa [howner] using hok.granted_iff
  have hnone := hretry p
  rw [Task.toRetry_of_waiting hwaiting, hwoken, hgranted] at hnone
  exact nomatch hnone

/-- Whatever the interleaving, only the owner holds the mutex, so no two processes hold it at once.
    Nobody waits for a mutex that is free and that no woken waiter is about to try; a waiter that
    was woken does not stay asleep, for the wake of its channel is still to come. And no call is
    woken more often than `stealsBeforeHandoff` times without being granted the mutex. -/
theorem mutex_correct (events : List Event) : let s := run State.initial events
    (∀ p, 0 < (s.tasks p).holds → s.owner = some p) ∧
    (∀ p q, 0 < (s.tasks p).holds → 0 < (s.tasks q).holds → p = q) ∧
    (s.owner = none → (∀ p, (s.tasks p).toRetry = false) → ∀ p, (s.tasks p).waiting = false) ∧
    (∀ p, (s.tasks p).pc = .sleeping → (s.tasks p).blocked = true → (s.tasks p).woken = true →
      ∃ q, (s.tasks q).pc = .waking p (s.tasks p).waiter) ∧
    ∀ p, (s.tasks p).ungranted ≤ stealsBeforeHandoff := by
  intro s
  have h : Inv s := run_inv events initial_inv
  refine ⟨fun p => h.owner_of_holds, ?_, h.not_waiting, h.awake, fun p => (h.tasks p).ungranted⟩
  intro p q hp hq
  have howner := (h.owner_of_holds hp).symm.trans (h.owner_of_holds hq)
  exact Option.some.inj howner

end Tunix.Mutex
