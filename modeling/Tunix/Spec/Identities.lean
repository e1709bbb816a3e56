import Tunix.ForStd.Run
import Tunix.Kernel.Cred

/-!
# Identities of a process without privileges

None of the setters gives a process an id that it has not got. They take ids from different subsets,
and some change the saved id on the way, but the set of the three ids can only shrink; the id for
file systems may also stay as it is (`Credentials.within_of_run`).
-/

namespace Tunix.Core

open Steps

/-- The real, effective and saved id. -/
def Ids.Has (ids : Ids) (value : UInt32) : Prop :=
  value = ids.real ∨ value = ids.effective ∨ value = ids.saved

/-- The ids are among those of `start`; the one for file systems may be the one of `start`. -/
structure Ids.Within (start ids : Ids) : Prop where
  real : start.Has ids.real
  effective : start.Has ids.effective
  saved : start.Has ids.saved
  fs : start.Has ids.fs ∨ ids.fs = start.fs

section Ids

variable {start ids ids' : Ids} {value : UInt32}

private theorem Ids.within_self (ids : Ids) : ids.Within ids :=
  ⟨.inl rfl, .inr (.inl rfl), .inr (.inr rfl), .inr rfl⟩

/-- What the ids have, the first ones had. -/
theorem Ids.Within.has (h : start.Within ids) (hvalue : ids.Has value) : start.Has value := by
  rcases hvalue with rfl | rfl | rfl
  · exact h.real
  · exact h.effective
  · exact h.saved

private theorem Ids.oneOf_iff : ids.oneOf value = true ↔ ids.Has value := by
  simp [Ids.oneOf, Ids.Has, or_assoc]

private theorem Ids.oneOf_eq_false (hnot : ¬ ids.Has value) : ids.oneOf value = false :=
  Bool.eq_false_iff.mpr fun hone => hnot (Ids.oneOf_iff.mp hone)

/-- A value that is kept, or one that was asked for and that the ids have. -/
theorem Ids.has_orKept {kept : UInt32} (hkept : ids.Has kept)
    (hvalue : value ≠ credUnchanged → ids.Has value) : ids.Has (orKept value kept) := by
  unfold orKept
  split_ifs with h
  · exact hvalue h
  · exact hkept

private theorem Ids.Within.set (h : start.Within ids)
    (hset : ids.set false value = .ok ids') : start.Within ids' := by
  unfold Ids.set at hset
  split_ifs at hset with hkept hprivileged hother
  · cases hprivileged
  obtain rfl := Except.ok.inj hset
  have hvalue : ids.Has value := by
    by_cases hreal : value = ids.real
    · exact .inl hreal
    · exact .inr (.inr (not_not.mp fun hsaved => hother ⟨hreal, hsaved⟩))
  exact ⟨h.real, h.has hvalue, h.saved, .inl (h.has hvalue)⟩

private theorem Ids.Within.setRe {real effective : UInt32} (h : start.Within ids)
    (hset : ids.setRe false real effective = .ok ids') : start.Within ids' := by
  unfold Ids.setRe at hset
  split at hset
  · cases hset
  next hreal =>
  split at hset
  · cases hset
  next heffective =>
  obtain rfl := Except.ok.inj hset
  have hreal : ids.Has (orKept real ids.real) := by
    refine Ids.has_orKept (.inl rfl) fun hchanged => ?_
    by_contra hnot
    exact hreal ⟨rfl, hchanged, fun heq => hnot (.inl heq), fun heq => hnot (.inr (.inl heq))⟩
  have heffective : ids.Has (orKept effective ids.effective) := by
    refine Ids.has_orKept (.inr (.inl rfl)) fun hchanged => ?_
    by_contra hnot
    exact heffective ⟨rfl, hchanged, by rw [Ids.oneOf_eq_false hnot]; rfl⟩
  refine ⟨h.has hreal, h.has heffective, ?_, .inl (h.has heffective)⟩
  -- the saved id is the new effective one, or stays
  split_ifs
  · exact h.has heffective
  · exact h.saved

private theorem Ids.Within.setRes {real effective saved : UInt32} (h : start.Within ids)
    (hset : ids.setRes false real effective saved = .ok ids') : start.Within ids' := by
  unfold Ids.setRes at hset
  split_ifs at hset with hrefused
  obtain rfl := Except.ok.inj hset
  have hasked : ∀ value ∈ [real, effective, saved], value ≠ credUnchanged → ids.Has value := by
    intro value hmem hchanged
    by_contra hnot
    refine hrefused ⟨rfl, List.any_eq_true.mpr ⟨value, hmem, ?_⟩⟩
    simp [Ids.oneOf_eq_false hnot, hchanged]
  have heffective := Ids.has_orKept (.inr (.inl rfl)) (hasked effective (by simp))
  exact ⟨h.has (Ids.has_orKept (.inl rfl) (hasked real (by simp))), h.has heffective,
    h.has (Ids.has_orKept (.inr (.inr rfl)) (hasked saved (by simp))), .inl (h.has heffective)⟩

private theorem Ids.Within.setFs (h : start.Within ids) (value : UInt32) :
    start.Within (ids.setFs false value).2 := by
  unfold Ids.setFs
  split_ifs with hone
  · refine ⟨h.real, h.effective, h.saved, ?_⟩
    rw [Bool.false_or, Bool.or_eq_true, Ids.oneOf_iff] at hone
    rcases hone with hhas | hsame
    · exact .inl (h.has hhas)
    · rw [of_decide_eq_true hsame]
      exact h.fs
  · exact h

end Ids

/-! ## Runs -/

/-- A call of one of the setters. -/
inductive IdCall
  | uid (uid : UInt32)
  | reuid (ruid euid : UInt32)
  | resuid (ruid euid suid : UInt32)
  | fsuid (fsuid : UInt32)
  | gid (gid : UInt32)
  | regid (rgid egid : UInt32)
  | resgid (rgid egid sgid : UInt32)
  | fsgid (fsgid : UInt32)

/-- The credentials after a setter that may have failed. -/
def Credentials.orSelf (cred : Credentials) : Except Errno Credentials → Credentials
  | .ok cred => cred
  | .error _ => cred

def Credentials.step (cred : Credentials) : IdCall → Option Credentials
  | .uid uid => some (cred.orSelf (cred.setUid uid))
  | .reuid ruid euid => some (cred.orSelf (cred.setReuid ruid euid))
  | .resuid ruid euid suid => some (cred.orSelf (cred.setResuid ruid euid suid))
  | .fsuid fsuid => some (cred.setFsuid fsuid).2
  | .gid gid => some (cred.orSelf (cred.setGid gid))
  | .regid rgid egid => some (cred.orSelf (cred.setRegid rgid egid))
  | .resgid rgid egid sgid => some (cred.orSelf (cred.setResgid rgid egid sgid))
  | .fsgid fsgid => some (cred.setFsgid fsgid).2

/-- Both the user ids and the group ids are among those of `start`. -/
structure Credentials.Within (start cred : Credentials) : Prop where
  user : start.user.Within cred.user
  group : start.group.Within cred.group

section Runs

variable {start cred cred' : Credentials}

/-- Without the root among its user ids a process does not become privileged. -/
theorem Credentials.Within.privileged (hroot : ¬ start.user.Has 0) (h : start.Within cred) :
    cred.privileged = false := by
  rw [Credentials.privileged, decide_eq_false_iff_not]
  intro hzero
  exact hroot (hzero ▸ h.user.effective)

private theorem Credentials.Within.withUser {result : Except Errno Ids} (h : start.Within cred)
    (hresult : ∀ user, result = .ok user → start.user.Within user) :
    start.Within (cred.orSelf (result.map cred.withUser)) := by
  cases result with
  | error _ => exact h
  | ok user => exact ⟨hresult user rfl, h.group⟩

private theorem Credentials.Within.withGroup {result : Except Errno Ids} (h : start.Within cred)
    (hresult : ∀ group, result = .ok group → start.group.Within group) :
    start.Within (cred.orSelf (result.map cred.withGroup)) := by
  cases result with
  | error _ => exact h
  | ok group => exact ⟨h.user, hresult group rfl⟩

/-- Unless it was root, no call gives the process a number that it did not have. -/
private theorem Credentials.Within.step {call : IdCall} (hroot : ¬ start.user.Has 0)
    (h : start.Within cred)
    (hstep : cred.step call = some cred') : start.Within cred' := by
  have hprivileged := h.privileged hroot
  cases call with
  | uid uid =>
    obtain rfl := Option.some.inj hstep
    exact h.withUser fun user hset => h.user.set (hprivileged ▸ hset)
  | reuid ruid euid =>
    obtain rfl := Option.some.inj hstep
    exact h.withUser fun user hset => h.user.setRe (hprivileged ▸ hset)
  | resuid ruid euid suid =>
    obtain rfl := Option.some.inj hstep
    exact h.withUser fun user hset => h.user.setRes (hprivileged ▸ hset)
  | fsuid fsuid =>
    obtain rfl := Option.some.inj hstep
    refine ⟨?_, h.group⟩
    change start.user.Within (cred.user.setFs cred.privileged fsuid).2
    rw [hprivileged]
    exact h.user.setFs fsuid
  | gid gid =>
    obtain rfl := Option.some.inj hstep
    exact h.withGroup fun group hset => h.group.set (hprivileged ▸ hset)
  | regid rgid egid =>
    obtain rfl := Option.some.inj hstep
    exact h.withGroup fun group hset => h.group.setRe (hprivileged ▸ hset)
  | resgid rgid egid sgid =>
    obtain rfl := Option.some.inj hstep
    exact h.withGroup fun group hset => h.group.setRes (hprivileged ▸ hset)
  | fsgid fsgid =>
    obtain rfl := Option.some.inj hstep
    refine ⟨h.user, ?_⟩
    change start.group.Within (cred.group.setFs cred.privileged fsgid).2
    rw [hprivileged]
    exact h.group.setFs fsgid

/-- Whatever a process without the root among its user ids asks for, its ids stay among those that
    it had. -/
theorem Credentials.within_of_run {calls : List IdCall} (hreal : start.user.real ≠ 0)
    (heffective : start.user.effective ≠ 0) (hsaved : start.user.saved ≠ 0)
    (hrun : run Credentials.step start calls = some cred) : start.Within cred := by
  have hroot : ¬ start.user.Has 0 := by
    rintro (hzero | hzero | hzero)
    · exact hreal hzero.symm
    · exact heffective hzero.symm
    · exact hsaved hzero.symm
  have hkeep :
      ∀ (cred : Credentials) (call : IdCall) (cred' : Credentials), start.Within cred → True →
      cred.step call = some cred' → start.Within cred' :=
    fun _ _ _ h _ hstep => h.step hroot hstep
  exact run_invariant hkeep ⟨start.user.within_self, start.group.within_self⟩
    (Always.of_forall (fun _ _ _ => trivial) start) hrun

/-- A process of user 1000 that has a set-user-id program's id 33 as its effective and saved id. -/
def servantIds : Credentials :=
  { user := { real := 1000, effective := 33, saved := 33, fs := 33 }
    group := { real := 100, effective := 100, saved := 100, fs := 100 }, groups := [] }

/-- It makes its program's id the real one, asks for the root in vain, and sets all three. -/
def servantCalls : List IdCall := [.reuid 33 1000, .uid 0, .resuid credUnchanged 33 1000]

/-- Each of its numbers is one that it had. -/
theorem servantIds_within : ∃ cred, run Credentials.step servantIds servantCalls = some cred ∧
    cred.user = { real := 33, effective := 33, saved := 1000, fs := 33 } ∧
      servantIds.Within cred := by
  have hrun : ∃ cred, run Credentials.step servantIds servantCalls = some cred ∧
      cred.user = { real := 33, effective := 33, saved := 1000, fs := 33 } := ⟨_, rfl, by decide⟩
  obtain ⟨cred, hrun, huser⟩ := hrun
  exact ⟨cred, hrun, huser, Credentials.within_of_run (by decide) (by decide) (by decide) hrun⟩

end Runs

end Tunix.Core
