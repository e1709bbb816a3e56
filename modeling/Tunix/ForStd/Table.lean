import Mathlib.Logic.Function.Basic

/-!
# Records changed in place

A table of records, as a function of their keys, with a change to the record of one key. `modifyAt`
is for a key that may be missing, as a null pointer is.
-/

namespace Table

variable {κ β γ : Type*} [DecidableEq κ]

/-- The table after a change to one record. -/
def modify (f : κ → β) (x : κ) (change : β → β) : κ → β := Function.update f x (change (f x))

/-- The table after a change to the record of a key, if there is a key. -/
def modifyAt (f : κ → β) (x : Option κ) (change : β → β) : κ → β := match x with
  | none => f
  | some x => modify f x change

variable (f : κ → β) (change : β → β)

/-- Only the entry that is changed differs. -/
theorem modify_apply (x y : κ) : modify f x change y = if y = x then change (f y) else f y := by
  by_cases h : y = x
  · rw [if_pos h, h, modify, Function.update_self]
  · rw [if_neg h, modify, Function.update_of_ne h]

/-- Only the entry that is changed differs, if there is one. -/
theorem modifyAt_apply (x : Option κ) (y : κ) :
    modifyAt f x change y = if x = some y then change (f y) else f y := by
  cases x with
  | none => rfl
  | some x =>
    rw [modifyAt, modify_apply]
    simp only [Option.some.injEq, eq_comm]

/-- A field that the change keeps. -/
theorem field_modify {change : β → β} (field : β → γ)
    (h : ∀ b, field (change b) = field b) (x y : κ) :
    field (modify f x change y) = field (f y) := by
  rw [modify_apply]
  split
  · exact h _
  · rfl

end Table
