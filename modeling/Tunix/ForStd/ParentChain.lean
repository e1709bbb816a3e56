import Mathlib.Logic.Function.Basic
import Mathlib.Logic.Relation

/-!
# Chains of parent pointers

`Climbs parent x y`: from `x`, the parent pointers lead to `y`. Taking a pointer away cuts the
chains through its node there (`Climbs.cut`), and setting a pointer that was null keeps all chains
(`Climbs.mono`). From the two follows what moving a subtree does: the tree stays a tree if the place
it goes to is not in the subtree.
-/

open Relation

namespace ParentChain

variable {α : Type*} {parent parent' : α → Option α} {x y z : α}

/-- The pointers lead from `x` to `y`. -/
def Climbs (parent : α → Option α) : α → α → Prop := ReflTransGen fun x y => parent x = some y

/-- No step at all. -/
theorem Climbs.refl (x : α) : Climbs parent x x := ReflTransGen.refl

/-- Steps behind steps. -/
theorem Climbs.trans (h : Climbs parent x y) (h' : Climbs parent y z) :
    Climbs parent x z := ReflTransGen.trans h h'

/-- One step in front. -/
theorem Climbs.step (h : parent x = some y) (h' : Climbs parent y z) :
    Climbs parent x z := ReflTransGen.head h h'

/-- A node whose pointer leads to itself, or that has none, is where a chain ends. -/
theorem Climbs.eq_of_stuck (hstuck : ∀ y, parent x = some y → y = x) (h : Climbs parent x y) :
    y = x := by
  induction h with
  | refl => rfl
  | tail _ hstep ih =>
    subst ih
    exact hstuck _ hstep

/-- Pointers that are not null stay: chains stay. -/
theorem Climbs.mono (hle : ∀ a b, parent a = some b → parent' a = some b) (h : Climbs parent x y) :
    Climbs parent' x y :=
  ReflTransGen.mono hle _ _ h

/-- Chains after the pointer of one node has changed: they are cut at the node. -/
theorem Climbs.cut (hother : ∀ a, a ≠ z → parent' a = parent a) (h : Climbs parent x y) :
    Climbs parent' x y ∨ Climbs parent' x z := by
  induction h using ReflTransGen.head_induction_on with
  | refl => exact .inl (.refl y)
  | @head a b hstep _ ih =>
    by_cases haz : a = z
    · subst haz
      exact .inr (.refl _)
    · have hstep' : parent' a = some b := (hother a haz).trans hstep
      exact ih.imp (.step hstep') (.step hstep')

/-- A node whose chain ends at a root is not above its own parent. -/
theorem Climbs.not_above {root : α} (hroot : ∀ y, parent root = some y → y = root) (hx : x ≠ root)
    (hstep : parent x = some y) (h : Climbs parent x root) : ¬ Climbs parent y x := by
  intro hcycle
  -- whatever the chain from the parent comes to leads back to the node
  have hback : ∀ z, Climbs parent y z → Climbs parent z x := by
    intro z hz
    induction hz with
    | refl => exact hcycle
    | @tail a b _ hab ih =>
      rcases ReflTransGen.cases_head ih with rfl | ⟨c, hac, hc⟩
      · rw [hstep] at hab
        exact Option.some.inj hab ▸ hcycle
      · rw [hab] at hac
        exact Option.some.inj hac ▸ hc
  rcases ReflTransGen.cases_head h with rfl | ⟨c, hxc, hc⟩
  · exact hx rfl
  · rw [hstep] at hxc
    exact hx ((hback root (Option.some.inj hxc ▸ hc)).eq_of_stuck hroot)

end ParentChain
