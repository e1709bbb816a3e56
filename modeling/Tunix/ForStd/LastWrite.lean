import Mathlib.Init

/-!
# The last write

What a sequence of writes leaves at each place: the value of the last write that covers it, or an
initial value if none does. `lastWrite_concat` is the rule for one more write.
-/

variable {ω κ ν : Type} (covers : ω → κ → Bool) (value : ω → κ → ν) (initial : κ → ν)

/-- The value at a place after some writes, the last one at the end of the list. -/
def lastWrite (writes : List ω) (place : κ) : ν := match writes.reverse.find? (covers · place) with
  | none => initial place
  | some w => value w place

/-- One more write decides the places it covers. -/
theorem lastWrite_concat (writes : List ω) (w : ω) (place : κ) :
    lastWrite covers value initial (writes ++ [w]) place =
      if covers w place then value w place else lastWrite covers value initial writes place := by
  unfold lastWrite
  rw [List.reverse_append, List.reverse_singleton, List.singleton_append, List.find?_cons]
  cases covers w place <;> rfl
