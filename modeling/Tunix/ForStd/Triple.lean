import Mathlib.Init

/-!
# Computations that return

A stateful computation that can fail is a value of `StateT σ Option α`. `Returns m s post` says that
`m` started in `s` does not fail, and that what it returns and the state it leaves meet `post`. The
rules follow the computation: one for each way to build it, and `Returns.mono` to use what is known
of a part.
-/

variable {σ α β : Type}

/-- Started in `s` the computation returns, with a value and a state that meet `post`. -/
def Returns (m : StateT σ Option α) (s : σ) (post : α → σ → Prop) : Prop :=
  ∃ a t, m s = some (a, t) ∧ post a t

namespace Returns

variable {m : StateT σ Option α} {f : α → StateT σ Option β} {s : σ} {post : α → σ → Prop}

/-- What is known of the result may be made weaker. -/
theorem mono {post' : α → σ → Prop} (h : Returns m s post) (hpost : ∀ a t, post a t → post' a t) :
    Returns m s post' := by
  obtain ⟨a, t, hm, ha⟩ := h
  exact ⟨a, t, hm, hpost a t ha⟩

/-- What is known of the only way to return. -/
theorem of_eq {a : α} {t : σ} (h : Returns m s post) (hm : m s = some (a, t)) : post a t := by
  obtain ⟨b, u, hm', hpost⟩ := h
  cases hm.symm.trans hm'
  exact hpost

/-- A value is returned. -/
@[simp] theorem pure_iff (a : α) : Returns (pure a : StateT σ Option α) s post ↔ post a s := by
  constructor
  · rintro ⟨b, t, h, hpost⟩
    cases h
    exact hpost
  · intro h
    exact ⟨a, s, rfl, h⟩

/-- One computation behind another. -/
@[simp] theorem bind_iff {post : β → σ → Prop} :
    Returns (m >>= f) s post ↔ Returns m s fun a t => Returns (f a) t post := by
  have hrun : (m >>= f) s = (m s).bind fun r => f r.1 r.2 := rfl
  constructor
  · intro ⟨b, u, h, hpost⟩
    obtain ⟨⟨a, t⟩, hm, hf⟩ := Option.bind_eq_some_iff.mp h
    exact ⟨a, t, hm, b, u, hf, hpost⟩
  · intro ⟨a, t, hm, b, u, hf, hpost⟩
    exact ⟨b, u, by rw [hrun, hm]; exact hf, hpost⟩

/-- The state is read. -/
@[simp] theorem get_iff {post : σ → σ → Prop} :
    Returns (get : StateT σ Option σ) s post ↔ post s s :=
  ⟨fun ⟨_, _, h, hpost⟩ => by cases h; exact hpost, fun h => ⟨s, s, rfl, h⟩⟩

/-- The state is changed. -/
@[simp] theorem modify_iff {post : PUnit → σ → Prop} (g : σ → σ) :
    Returns (modify g : StateT σ Option PUnit) s post ↔ post ⟨⟩ (g s) :=
  ⟨fun ⟨_, _, h, hpost⟩ => by cases h; exact hpost, fun h => ⟨⟨⟩, g s, rfl, h⟩⟩

/-- Both branches have to return. -/
theorem ite {cond : Prop} [Decidable cond] {m' : StateT σ Option α}
    (hm : cond → Returns m s post) (hm' : ¬cond → Returns m' s post) :
    Returns (if cond then m else m') s post := by
  split
  · next h =>
    exact hm h
  · next h =>
    exact hm' h

/-- A check lets the computation go on where its condition holds. -/
theorem of_check {post : PUnit → σ → Prop} {cond : Prop} [Decidable cond] (hcond : cond)
    (h : post ⟨⟩ s) :
    Returns (if cond then pure ⟨⟩ else failure : StateT σ Option PUnit) s post := by
  rw [if_pos hcond]
  exact (pure_iff _).mpr h

end Returns
