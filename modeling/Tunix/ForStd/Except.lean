import Mathlib.Data.List.Induction

/-!
# Computations that may fail

What is known of the parts when a sequence of computations in `Except` has come to a result, and a
pass over a list that may fail.
-/

namespace Except

variable {ε α β : Type}

/-- A sequence has a result: so has its first part, and the rest with it. -/
theorem eq_ok_of_bind {x : Except ε α} {f : α → Except ε β} {b : β} (h : (x >>= f) = .ok b) :
    ∃ a, x = .ok a ∧ f a = .ok b := by
  cases x with
  | error e => cases h
  | ok a => exact ⟨a, rfl, h⟩

/-- A sequence has a result exactly if its first part has one, and the rest with that. -/
theorem bind_eq_ok {x : Except ε α} {f : α → Except ε β} {b : β} :
    (x >>= f) = .ok b ↔ ∃ a, x = .ok a ∧ f a = .ok b := by
  refine ⟨eq_ok_of_bind, fun h => ?_⟩
  obtain ⟨a, rfl, hf⟩ := h
  exact hf

/-- What `pure` answers. -/
theorem pure_eq_ok {a b : α} : (pure a : Except ε α) = .ok b ↔ a = b := by
  show Except.ok a = .ok b ↔ a = b
  rw [Except.ok.injEq]

/-- An answer that is there is a success. -/
theorem eq_ok_of_toOption {x : Except ε α} {a : α} (h : x.toOption = some a) : x = .ok a := by
  cases x with
  | error e => cases h
  | ok b => rw [Option.some.inj h]

end Except

/-- A pass that may fail and keeps what a function computes from the elements seen so far. -/
theorem List.foldlM_eq_pure {m : Type → Type} [Monad m] [LawfulMonad m] {α σ : Type}
    (hpure : ∀ {x y : σ}, (pure x : m σ) = pure y ↔ x = y)
    (hbind : ∀ {x : m σ} {f : σ → m σ} {y : σ}, x >>= f = pure y ↔ ∃ z, x = pure z ∧ f z = pure y)
    {step : σ → α → m σ} (value : List α → σ) (ok : List α → Prop) {start : σ} {all : List α}
    (hstart : start = value []) (hnil : ok [])
    (hstep : ∀ seen a t, seen ++ [a] <+: all → (ok seen ∧ step (value seen) a = pure t ↔
      ok (seen ++ [a]) ∧ t = value (seen ++ [a]))) {t : σ} :
    all.foldlM step start = pure t ↔ ok all ∧ t = value all := by
  subst hstart
  suffices h : ∀ seen, seen <+: all → ∀ t, seen.foldlM step (value []) = pure t ↔
      ok seen ∧ t = value seen from h all (List.prefix_refl _) t
  intro seen
  induction seen using List.reverseRecOn with
  | nil =>
    intro _ t
    rw [List.foldlM_nil, hpure, and_iff_right hnil, eq_comm]
  | append_singleton seen a ih =>
    intro hseen t
    rw [List.foldlM_append, hbind, ← hstep seen a t hseen]
    simp only [ih ((List.prefix_append seen [a]).trans hseen), List.foldlM_cons, List.foldlM_nil,
      bind_pure, and_assoc, exists_and_left, exists_eq_left]
