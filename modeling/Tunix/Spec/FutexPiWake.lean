import Tunix.ForStd.Bytes
import Tunix.ForStd.Run
import Tunix.Kernel.FutexPi

/-!
# Sleepers of a futex with an owner are woken

`process_futex_unlock_pi` loads the word, stores 0 and wakes if the value it has loaded has
`FUTEX_WAITERS`. The bit may be set between the load and the store: the store takes it away, and
nobody is woken (`lostBit_forgotten`). If the word is at each store what it was at the load, a
thread sleeps only while there is an owner that will see the bit, or a wake is to come. There is
never more than one holder.
-/

namespace Tunix.FutexPi

open Function

variable {T : Type*} [DecidableEq T] (value : UInt32)

/-! ## Values of the word -/

private theorem owner_or (a b : UInt32) :
    owner (a ||| b) = owner a ||| owner b := Bytes.or_and_mask a b futexTidMask

private theorem owner_flags : owner (value &&& (futexWaiters ||| futexOwnerDied)) = 0 := by
  unfold owner
  rw [UInt32.and_assoc, show (futexWaiters ||| futexOwnerDied) &&& futexTidMask = 0 by
    decide, UInt32.and_zero]

omit [DecidableEq T] in
private theorem Tids.owner_taken (ids : Tids T) (t : T) (value : UInt32) :
    owner (ids.tid t ||| (value &&& (futexWaiters ||| futexOwnerDied))) = ids.tid t := by
  rw [owner_or, owner_flags, UInt32.or_zero, ids.owner_tid]

private theorem owner_waiters : owner (value ||| futexWaiters) = owner value := by
  rw [owner_or, show owner futexWaiters = 0 by decide, UInt32.or_zero]

private theorem waiters_set : (value ||| futexWaiters) &&& futexWaiters ≠ 0 := by
  rw [Bytes.or_and_mask, UInt32.and_self]
  intro hzero
  exact absurd (UInt32.or_eq_zero_iff.mp hzero).2 (by decide)

/-! ## Invariant -/

/-- What is known of the value that a thread has loaded. -/
def Pc.Local (tid : UInt32) : Pc → Prop
  | .lockTake _ value => owner value = 0
  | .lockHolder _ value => owner value ≠ 0
  | .lockWaiters _ value => owner value ≠ 0
  | .lockSleep _ value => owner value ≠ 0 ∧ value &&& futexWaiters ≠ 0
  | .unlockStore value => owner value = tid
  | _ => True

def Pc.Sleeps : Pc → Prop
  | .asleep _ => True
  | _ => False

def Pc.Stores : Pc → Prop
  | .unlockStore _ => True
  | _ => False

/-- The word has an owner that will find `FUTEX_WAITERS` when it unlocks, or a wake is to come. -/
def State.WakeAhead (s : State T) : Prop :=
  owner s.word ≠ 0 ∧ s.word &&& futexWaiters ≠ 0 ∨ ∃ u, s.pc u = .unlockWake

structure State.Inv (ids : Tids T) (s : State T) : Prop where
  holds : ∀ t, s.holds t = true ↔ owner s.word = ids.tid t
  loaded : ∀ t, (s.pc t).Local (ids.tid t)
  /-- A thread that is to store 0 is the owner. -/
  stores : ∀ t, (s.pc t).Stores → owner s.word = ids.tid t

/-- At the store of an unlock the word is what it was at the load. -/
def State.Steady (s : State T) : Event T → Prop
  | .advance t _ => (s.pc t).Stores → s.pc t = .unlockStore s.word
  | _ => True

instance (pc : Pc) : Decidable pc.Stores := match pc with
  | .unlockStore _ => isTrue trivial
  | .user _ | .lockLoad _ | .lockTake .. | .lockHolder .. | .lockWaiters ..
      | .lockSleep .. | .asleep _ |
    .unlockLoad | .unlockWake => isFalse id

instance (s : State T) : ∀ event : Event T, Decidable (s.Steady event)
  | .advance t _ => inferInstanceAs (Decidable ((s.pc t).Stores → _))
  | .lock .. | .unlock _ | .interrupt .. => isTrue trivial

/-! ## Steps -/

section

variable {ids : Tids T} {s s' : State T} {t : T} {pc : Pc} {event : Event T}

/-- What a step of a thread does: it goes on and the word stays, or it takes the lock, sets the bit,
    stores 0 or wakes. -/
inductive State.Effect (ids : Tids T) (s : State T) (t : T) : State T → Prop
  | stay : s.Effect ids t s
  | goes {pc : Pc} (running : s.pc t ≠ .unlockWake) (loaded : pc.Local (ids.tid t))
      (stores : pc.Stores → owner s.word = ids.tid t) (sleeps : pc.Sleeps → s.WakeAhead) :
        s.Effect ids t (s.goto t pc)
  | take (running : s.pc t ≠ .unlockWake) (free : owner s.word = 0) : s.Effect ids t
      { s.goto t (.user 0) with
        word := ids.tid t ||| (s.word &&& (futexWaiters ||| futexOwnerDied))
        holds := update s.holds t true }
  | announce {call : Lock} (owned : owner s.word ≠ 0) : s.Effect ids t
      { s.goto t (.lockSleep call (s.word ||| futexWaiters)) with word := s.word ||| futexWaiters }
  | store {value : UInt32} (storing : s.pc t = .unlockStore value) : s.Effect ids t
      { s.goto t (if value &&& futexWaiters ≠ 0 then .unlockWake else .user 0) with
        word := 0
        holds := update s.holds t false }
  | wake : s.Effect ids t { s with pc := update (fun u => (s.pc u).woken) t (.user 0) }

/-- What a step of a thread does to word, holder and sleepers. -/
private theorem State.Inv.advance (h : s.Inv ids) (t : T) (answer : Bool) :
    s.Effect ids t (s.advance ids t answer) := by
  have hlocal := h.loaded t
  unfold State.advance
  by_cases hwake : s.pc t = .unlockWake
  · rw [hwake]
    exact .wake
  -- Each place has one effect on word and holder, if any.
  cases hpc : s.pc t with
  | user status => exact .stay
  | asleep call => exact .stay
  | unlockStore value => exact .store hpc
  | unlockWake => exact absurd hpc hwake
  | lockLoad call =>
    dsimp only
    split_ifs with hfree
    · exact .goes hwake hfree False.elim False.elim
    · exact .goes hwake trivial False.elim False.elim
    · exact .goes hwake hfree False.elim False.elim
  | lockTake call value =>
    rw [hpc] at hlocal
    dsimp only
    split_ifs with hword
    · subst hword
      exact .take hwake hlocal
    · exact .goes hwake trivial False.elim False.elim
  | lockHolder call value =>
    rw [hpc] at hlocal
    dsimp only
    split_ifs with halive htry hwaiters
    · exact .goes hwake trivial False.elim False.elim
    · exact .goes hwake trivial False.elim False.elim
    · exact .goes hwake hlocal False.elim False.elim
    · exact .goes hwake ⟨hlocal, hwaiters⟩ False.elim False.elim
  | lockWaiters call value =>
    rw [hpc] at hlocal
    dsimp only
    split_ifs with hword
    · subst hword
      exact .announce hlocal
    · exact .goes hwake trivial False.elim False.elim
  | lockSleep call value =>
    rw [hpc] at hlocal
    dsimp only
    split_ifs with htime hword
    · exact .goes hwake trivial False.elim False.elim
    · exact .goes hwake trivial False.elim False.elim
    · rw [not_not] at hword
      exact .goes hwake trivial False.elim fun _ => .inl (hword ▸ hlocal)
  | unlockLoad =>
    dsimp only
    split_ifs with howner
    · exact .goes hwake trivial False.elim False.elim
    · rw [not_not] at howner
      exact .goes hwake howner (fun _ => howner) False.elim

/-- A call starts, a thread takes its next step, or a sleep ends. -/
theorem State.Inv.effect (h : s.Inv ids) (hstep : s.step ids event = some s') :
    ∃ t, s.Effect ids t s' ∧ (s.Steady event → (s.pc t).Stores → s.pc t = .unlockStore s.word) := by
  cases event with
  | advance t answer =>
    cases hstep
    exact ⟨t, h.advance t answer, id⟩
  | lock t _ | unlock t =>
    unfold State.step at hstep
    cases hpc : s.pc t <;> simp only [hpc] at hstep <;> cases hstep
    exact ⟨t, .goes (by rw [hpc]; nofun) trivial False.elim False.elim, fun _ => by
      rw [hpc]; exact False.elim⟩
  | interrupt t restart =>
    unfold State.step at hstep
    cases hpc : s.pc t <;> simp only [hpc] at hstep <;> cases hstep
    refine ⟨t, .goes (by rw [hpc]; nofun) ?_ ?_ ?_, fun _ => by rw [hpc]; exact False.elim⟩ <;>
      cases restart <;> first | exact trivial | exact False.elim

/-- A thread goes on and the word stays. -/
theorem State.Inv.goto (h : s.Inv ids) (hlocal : pc.Local (ids.tid t))
    (hstores : pc.Stores → owner s.word = ids.tid t) : (s.goto t pc).Inv ids where
  holds := h.holds
  loaded := (forall_update_iff _ fun u (pc : Pc) => pc.Local (ids.tid u)).mpr
    ⟨hlocal, fun u _ => h.loaded u⟩
  stores := (forall_update_iff _ fun u (pc : Pc) => pc.Stores → owner s.word = ids.tid u).mpr
    ⟨hstores, fun u _ => h.stores u⟩

/-- The step changes the owner of the word only together with who holds the lock. -/
theorem State.Inv.step (h : s.Inv ids) (hstep : s.step ids event = some s') : s'.Inv ids := by
  obtain ⟨t, heffect, -⟩ := h.effect hstep
  cases heffect with
  | stay => exact h
  | goes _ hlocal hstores _ => exact h.goto hlocal hstores
  | take _ hfree =>
    -- there was no owner, so nobody held the lock or was to store
    have hnone : ∀ u, owner s.word ≠ ids.tid u := fun u => hfree ▸ (ids.ne_zero u).symm
    have hgoto : (s.goto t (.user 0)).Inv ids := h.goto trivial False.elim
    refine ⟨?_, hgoto.loaded, fun u hu => absurd (hgoto.stores u hu) (hnone u)⟩
    rw [ids.owner_taken]
    refine (forall_update_iff _ fun u (b : Bool) => b = true ↔ ids.tid t = ids.tid u).mpr
      ⟨iff_of_true rfl rfl, fun u hut => ?_⟩
    rw [h.holds u]
    exact iff_of_false (hnone u) fun htid => hut (ids.injective htid).symm
  | @announce call howned =>
    have howner := owner_waiters s.word
    have hgoto : (s.goto t (.lockSleep call (s.word ||| futexWaiters))).Inv ids :=
      h.goto ⟨howner ▸ howned, waiters_set s.word⟩ False.elim
    refine ⟨?_, hgoto.loaded, ?_⟩
    · rw [howner]
      exact h.holds
    · rw [howner]
      exact hgoto.stores
  | @store value hpc =>
    have hzero : ∀ u, owner 0 ≠ ids.tid u := fun u => (ids.ne_zero u).symm
    have hgoto :
        (s.goto t (if value &&& futexWaiters ≠ 0 then .unlockWake else .user 0)).Inv ids := by
      split
      · exact h.goto trivial False.elim
      · exact h.goto trivial False.elim
    -- only one thread has its tid in the word
    have hother : ∀ u, u ≠ t → owner s.word ≠ ids.tid u := by
      intro u hut howner
      exact hut (ids.injective (howner.symm.trans (h.stores t (by rw [hpc]; trivial))))
    refine ⟨?_, hgoto.loaded, ?_⟩
    · refine (forall_update_iff _ fun u (b : Bool) => b = true ↔ owner 0 = ids.tid u).mpr
        ⟨iff_of_false Bool.false_ne_true (hzero t), fun u hut => ?_⟩
      rw [h.holds u]
      exact iff_of_false (hother u hut) (hzero u)
    · refine (forall_update_iff _ fun u (pc : Pc) => pc.Stores → owner 0 = ids.tid u).mpr
        ⟨?_, fun u hut hu => absurd (h.stores u hu) (hother u hut)⟩
      split
      · exact False.elim
      · exact False.elim
  | wake =>
    have hwoken : ∀ u, (s.pc u).woken.Local (ids.tid u) ∧
        ((s.pc u).woken.Stores → owner s.word = ids.tid u) := by
      intro u
      have hloaded := h.loaded u
      have hstores := h.stores u
      cases hu : s.pc u <;> rw [hu] at hloaded hstores <;> exact ⟨hloaded, hstores⟩
    refine ⟨h.holds, ?_, ?_⟩
    · exact (forall_update_iff _ fun u (pc : Pc) => pc.Local (ids.tid u)).mpr
        ⟨trivial, fun u _ => (hwoken u).1⟩
    · exact (forall_update_iff _ fun u (pc : Pc) => pc.Stores → owner s.word = ids.tid u).mpr
        ⟨False.elim, fun u _ => (hwoken u).2⟩

/-- For every thread that sleeps there is an owner that will wake it, or a wake is to come. -/
def State.Roused (s : State T) : Prop := ∀ t, (s.pc t).Sleeps → s.WakeAhead

/-- A thread that sleeps after another one has gone on without falling asleep has slept before. -/
theorem State.sleeps_goto (hpc : ¬pc.Sleeps) (u : T)
    (hu : ((s.goto t pc).pc u).Sleeps) : (s.pc u).Sleeps := by
  revert u
  exact (forall_update_iff _ fun u (pc : Pc) => pc.Sleeps → (s.pc u).Sleeps).mpr
    ⟨fun hsleeps => absurd hsleeps hpc, fun _ _ hsleeps => hsleeps⟩

/-- A wake of another thread is still to come when a thread goes on. -/
theorem State.goto_pending (ht : s.pc t ≠ .unlockWake) {u : T} (hu : s.pc u = .unlockWake) :
    ∃ u, (s.goto t pc).pc u = .unlockWake :=
  have hut : u ≠ t := fun heq => ht (heq ▸ hu)
  ⟨u, (update_of_ne hut ..).trans hu⟩

/-- Under the condition no sleeper is forgotten by a step. -/
private theorem State.Roused.step (h : s.Roused) (hinv : s.Inv ids) (hsteady : s.Steady event)
    (hstep : s.step ids event = some s') : s'.Roused := by
  obtain ⟨t, heffect, hstores⟩ := hinv.effect hstep
  cases heffect with
  | stay => exact h
  | @goes pc hrunning _ _ hsleeps =>
    intro u hu
    have hahead : s.WakeAhead := by
      by_cases hpc : pc.Sleeps
      · exact hsleeps hpc
      · exact h u (State.sleeps_goto hpc u hu)
    rcases hahead with howner | ⟨w, hw⟩
    · exact .inl howner
    · exact .inr (State.goto_pending hrunning hw)
  | take hrunning hfree =>
    intro u hu
    -- the word had no owner, so that a wake was to come
    rcases h u (State.sleeps_goto id u hu) with ⟨howner, -⟩ | ⟨w, hw⟩
    · exact absurd hfree howner
    · exact .inr (State.goto_pending hrunning hw)
  | announce howned =>
    exact fun u _ => .inl ⟨(owner_waiters s.word).symm ▸ howned, waiters_set s.word⟩
  | @store value hpc =>
    have hword : value = s.word := by
      have := hstores hsteady (by rw [hpc]; trivial)
      rw [hpc] at this
      exact Pc.unlockStore.inj this
    subst hword
    intro u hu
    split_ifs at hu with hwaiters
    · -- the bit was there at the load, and the thread wakes next
      refine .inr ⟨t, ?_⟩
      rw [if_pos hwaiters]
      exact update_self ..
    · -- without the bit nobody sleeps for this owner
      rcases h u (State.sleeps_goto id u hu) with ⟨-, hbit⟩ | ⟨w, hw⟩
      · exact absurd hbit hwaiters
      · exact .inr (State.goto_pending (by rw [hpc]; nofun) hw)
  | wake =>
    refine (forall_update_iff _ fun _ (pc : Pc) => pc.Sleeps → _).mpr ⟨False.elim, fun u _ hu => ?_⟩
    cases hpc : s.pc u <;> rw [hpc] at hu <;> exact hu.elim

end

/-! ## Runs -/

/-- All threads are in user mode, and the word has no owner. -/
def free (T : Type*) (word : UInt32) : State T := ⟨word, fun _ => .user 0, fun _ => false⟩

/-- No thread sleeps at the word 0 without a wake to come. -/
def State.NoneForgotten (s : State T) : Prop :=
  ∀ t call, s.pc t = .asleep call → s.word = 0 → ∃ u, s.pc u = .unlockWake

def State.Exclusive (s : State T) : Prop := ∀ t u, s.holds t = true → s.holds u = true → t = u

omit [DecidableEq T] in
private theorem State.Inv.exclusive {ids : Tids T} {s : State T} (h : s.Inv ids) : s.Exclusive := by
  intro t u ht hu
  apply ids.injective
  rw [← (h.holds t).mp ht, ← (h.holds u).mp hu]

/-- In every run from a free word at most one thread holds the lock, and if at each store of an
    unlock the word is what it was at the load, no thread is forgotten. -/
theorem pi_futex_of_run (ids : Tids T) {word : UInt32} (hfree : owner word = 0)
    {events : List (Event T)}
    {s : State T} (hrun : Steps.run (State.step ids) (free T word) events = some s) :
    s.Exclusive ∧
      (Steps.Always (State.step ids) State.Steady (free T word) events → s.NoneForgotten) := by
  have hinit : (free T word).Inv ids := by
    refine ⟨fun t => ?_, fun _ => trivial, fun _ hstores => hstores.elim⟩
    rw [show owner (free T word).word = 0 from hfree]
    exact ⟨nofun, fun hzero => absurd hzero.symm (ids.ne_zero t)⟩
  have hsteps : ∀ (s : State T) (event : Event T) (s' : State T), s.Inv ids → True →
      s.step ids event = some s' →
      s'.Inv ids := fun s event s' h _ hstep => h.step hstep
  refine ⟨(Steps.run_invariant hsteps hinit (.of_forall (fun _ _ _ => trivial) _) hrun).exclusive,
    fun hsteady => ?_⟩
  have hboth :
      ∀ (s : State T) (event : Event T) (s' : State T), s.Inv ids ∧ s.Roused → s.Steady event →
      s.step ids event = some s' → s'.Inv ids ∧ s'.Roused := fun s event s' h hcond hstep =>
    ⟨h.1.step hstep, h.2.step h.1 hcond hstep⟩
  obtain ⟨-, hroused⟩ := Steps.run_invariant hboth ⟨hinit, fun _ hs => hs.elim⟩ hsteady hrun
  intro t call hasleep hzero
  rcases hroused t (by rw [hasleep]; trivial) with ⟨howner, -⟩ | hpending
  · rw [hzero] at howner
    exact absurd (by decide) howner
  · exact hpending

/-- Two threads with the pids 1 and 2. -/
def twoTids : Tids Bool where
  tid t := if t then 2 else 1
  owner_tid := by decide
  ne_zero := by decide
  injective := by
    intro t u
    revert t u
    decide

def plainLock : Lock := ⟨false, false⟩

/-- The first thread takes the lock, the second sets the bit and sleeps, and the first unlocks. -/
def handedOver : List (Event Bool) :=
  [.lock false plainLock, .advance false true, .advance false true, .lock true plainLock,
    .advance true true,
    .advance true true, .advance true true, .advance true true, .unlock false, .advance false true,
    .advance false true]

/-- The first thread has stored 0, and it has seen the bit: a wake is to come. -/
theorem handedOver_roused : ∃ s, Steps.run (State.step twoTids) (free Bool 0) handedOver = some s ∧
    s.pc true = .asleep plainLock ∧ s.word = 0 ∧ s.Exclusive ∧ s.NoneForgotten := by
  obtain ⟨s, hs⟩ := Option.isSome_iff_exists.mp
    (show (Steps.run (State.step twoTids) (free Bool 0) handedOver).isSome by decide +kernel)
  have hend : (Steps.run (State.step twoTids) (free Bool 0) handedOver).map
      (fun s => (s.pc true, s.word)) =
      some (.asleep plainLock, 0) := by decide +kernel
  rw [hs, Option.map_some, Option.some.injEq, Prod.mk.injEq] at hend
  obtain ⟨hexclusive, hnone⟩ := pi_futex_of_run twoTids (by decide) hs
  exact ⟨s, hs, hend.1, hend.2, hexclusive, hnone (by decide +kernel)⟩

/-- The second thread sets the bit and sleeps after the first has loaded the word to unlock it. -/
def lostBit : List (Event Bool) :=
  [.lock false plainLock, .advance false true, .advance false true, .lock true plainLock,
    .advance true true,
    .advance true true, .unlock false, .advance false true, .advance true true, .advance true true,
    .advance false true]

/-- The store takes the bit away, and nobody wakes the second thread. -/
theorem lostBit_forgotten : ∃ s, Steps.run (State.step twoTids) (free Bool 0) lostBit = some s ∧
    s.pc true = .asleep plainLock ∧ s.pc false = .user 0 ∧ s.word = 0 ∧ ¬s.NoneForgotten := by
  obtain ⟨s, hs⟩ := Option.isSome_iff_exists.mp
    (show (Steps.run (State.step twoTids) (free Bool 0) lostBit).isSome by decide +kernel)
  have hend : (Steps.run (State.step twoTids) (free Bool 0) lostBit).map
      (fun s => (s.pc true, s.pc false, s.word)) =
        some (.asleep plainLock, .user 0, 0) := by decide +kernel
  rw [hs, Option.map_some, Option.some.injEq, Prod.mk.injEq, Prod.mk.injEq] at hend
  obtain ⟨hasleep, huser, hzero⟩ := hend
  refine ⟨s, hs, hasleep, huser, hzero, fun hnone => ?_⟩
  obtain ⟨u, hu⟩ := hnone true plainLock hasleep hzero
  cases u with
  | false => rw [huser] at hu; cases hu
  | true => rw [hasleep] at hu; cases hu

end Tunix.FutexPi
