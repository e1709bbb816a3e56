import Mathlib.Algebra.BigOperators.Group.Finset.Piecewise
import Mathlib.Algebra.Order.BigOperators.Group.Finset
import Mathlib.Data.Finset.Card
import Mathlib.Data.List.Nodup

/-!
# Sums and counts over a range

How a sum over a range, and the number of its places with a property, change when the values change
at one place.
-/

namespace Finset

/-- A sum whose terms change at one place. -/
theorem sum_range_change {n i : Nat} (hi : i < n) {f g : Nat → Nat} (h : ∀ j, j ≠ i → g j = f j) :
    ∑ j ∈ range n, g j + f i = ∑ j ∈ range n, f j + g i := by
  have hmem : i ∈ range n := mem_range.mpr hi
  have hrest : ∑ j ∈ (range n).erase i, g j = ∑ j ∈ (range n).erase i, f j :=
    sum_congr rfl fun j hj => h j (ne_of_mem_erase hj)
  rw [← sum_erase_add _ _ hmem, ← sum_erase_add _ f hmem, hrest]
  omega

/-- The number of places with a property, when the values change at one place. -/
theorem card_filter_range_change {β : Type*} {n i : Nat} (hi : i < n) {f g : Nat → β}
    (h : ∀ j, j ≠ i → g j = f j) (p : β → Prop) [DecidablePred p] :
    #{j ∈ range n | p (g j)} + (if p (f i) then 1 else 0) =
      #{j ∈ range n | p (f j)} + (if p (g i) then 1 else 0) := by
  rw [card_filter, card_filter]
  refine sum_range_change (f := fun j => if p (f j) then 1 else 0)
    (g := fun j => if p (g j) then 1 else 0) hi fun j hj => ?_
  simp only [h j hj]

end Finset
