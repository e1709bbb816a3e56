import Mathlib.Data.Option.Defs

/-!
# Runs of a step function

A system is given by a partial step function on its states. `run` takes a sequence of actions, and
`Always` says that each action of the sequence is taken in a state that meets a condition with it.
The rules carry an invariant along a run: `run_invariant` for the state reached, `run_exists` where
no step can fail, and `Always.mono` for a property of each step on the way.
-/

namespace Steps

variable {σ α : Type*}

/-- The state after a sequence of actions, if each of them can be taken. -/
def run (step : σ → α → Option σ) : σ → List α → Option σ
  | s, [] => some s
  | s, a :: rest => (step s a).bind fun t => run step t rest

/-- Each action of the sequence is taken in a state that meets the condition with it. -/
def Always (step : σ → α → Option σ) (cond : σ → α → Prop) : σ → List α → Prop
  | _, [] => True
  | s, a :: rest => cond s a ∧ ∀ t ∈ step s a, Always step cond t rest

instance decidableAlways (step : σ → α → Option σ) (cond : σ → α → Prop)
    [∀ s a, Decidable (cond s a)] : ∀ s as, Decidable (Always step cond s as)
  | _, [] => isTrue trivial
  | s, a :: rest =>
    haveI : ∀ t, Decidable (Always step cond t rest) := fun t => decidableAlways step cond t rest
    inferInstanceAs (Decidable (cond s a ∧ ∀ t ∈ step s a, Always step cond t rest))

variable {step : σ → α → Option σ} {cond prop : σ → α → Prop} {inv : σ → Prop} {s : σ} {as : List α}

/-- A run is a first step and a run. -/
theorem run_cons {t : σ} {a : α} {rest : List α} :
    run step s (a :: rest) = some t ↔ ∃ u, step s a = some u ∧ run step u rest = some t :=
  Option.bind_eq_some_iff

/-- A condition that holds in every state holds along every run. -/
theorem Always.of_forall (h : ∀ a ∈ as, ∀ s, cond s a) (s : σ) : Always step cond s as := by
  induction as generalizing s with
  | nil => trivial
  | cons a rest ih =>
    exact ⟨h a List.mem_cons_self s, fun t _ => ih (fun a ha => h a (List.mem_cons_of_mem _ ha)) t⟩

/-- A condition along two runs, one behind the other. -/
theorem Always.append {bs : List α} (has : Always step cond s as)
    (hbs : ∀ t, run step s as = some t → Always step cond t bs) :
    Always step cond s (as ++ bs) := by
  induction as generalizing s with
  | nil => exact hbs s rfl
  | cons a rest ih =>
    exact ⟨has.1, fun t ht => ih (has.2 t ht) fun u hu => hbs u (run_cons.mpr ⟨t, ht, hu⟩)⟩

/-- An invariant that every step under the condition keeps holds in the state reached. -/
theorem run_invariant (hstep : ∀ s a t, inv s → cond s a → step s a = some t → inv t)
    {t : σ} (hinit : inv s) (hcond : Always step cond s as)
    (hrun : run step s as = some t) : inv t := by
  induction as generalizing s with
  | nil =>
    obtain rfl := Option.some.inj hrun
    exact hinit
  | cons a rest ih =>
    obtain ⟨u, hu, hrest⟩ := run_cons.mp hrun
    exact ih (hstep s a u hinit hcond.1 hu) (hcond.2 u hu) hrest

/-- If every step under the condition can be taken and keeps the invariant, the run does not
    stop. -/
theorem run_exists (hstep : ∀ s a, inv s → cond s a → ∃ t, step s a = some t ∧ inv t)
    (hinit : inv s) (hcond : Always step cond s as) :
    ∃ t, run step s as = some t ∧ inv t := by
  induction as generalizing s with
  | nil => exact ⟨s, rfl, hinit⟩
  | cons a rest ih =>
    obtain ⟨u, hu, hinv⟩ := hstep s a hinit hcond.1
    obtain ⟨t, ht, hinv'⟩ := ih hinv (hcond.2 u hu)
    exact ⟨t, run_cons.mpr ⟨u, hu, ht⟩, hinv'⟩

/-- A property of single steps that follows from an invariant and the condition holds of every step
    of a run under the condition. -/
theorem Always.mono (hstep : ∀ s a t, inv s → cond s a → step s a = some t → inv t)
    (hprop : ∀ s a, inv s → cond s a → prop s a) (hinit : inv s) (hcond : Always step cond s as) :
    Always step prop s as := by
  induction as generalizing s with
  | nil => trivial
  | cons a rest ih =>
    exact ⟨hprop s a hinit hcond.1,
      fun u hu => ih (hstep s a u hinit hcond.1 hu) (hcond.2 u hu)⟩

/-- Two properties of single steps that are the same under an invariant, which they keep, are the
    same of runs. -/
theorem Always.iff {other : σ → α → Prop} (hiff : ∀ s a, inv s → cond s a → (prop s a ↔ other s a))
    (hstep : ∀ s a t, inv s → cond s a → other s a → step s a = some t → inv t) (hinit : inv s)
    (hcond : Always step cond s as) :
    Always step prop s as ↔ Always step other s as := by
  induction as generalizing s with
  | nil => exact Iff.rfl
  | cons a rest ih =>
    show prop s a ∧ _ ↔ other s a ∧ _
    rw [hiff s a hinit hcond.1]
    exact and_congr_right fun hother => forall₂_congr fun t ht =>
      ih (hstep s a t hinit hcond.1 hother ht) (hcond.2 t ht)

/-- A run that does not stop took each of its steps. -/
theorem Always.of_run (hstep : ∀ s a t, step s a = some t → cond s a) {t : σ}
    (hrun : run step s as = some t) : Always step cond s as := by
  induction as generalizing s with
  | nil => trivial
  | cons a rest ih =>
    obtain ⟨u, hu, hrest⟩ := run_cons.mp hrun
    refine ⟨hstep s a u hu, fun v hv => ?_⟩
    obtain rfl : u = v := Option.some.inj (hu.symm.trans hv)
    exact ih hrest

end Steps
