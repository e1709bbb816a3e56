import Mathlib.Data.List.Nodup

/-!
# Doubly linked lists

Nodes with links in both directions, given by two functions from a node to its neighbour. `Linked`
says that the links run along a list of nodes, with given ends. A node is put into such a list, or
taken out of it, by changing the links of its neighbours only; links of nodes outside the list do
not matter.
-/

namespace DoublyLinked

open List

variable {α : Type*} {next prev next' prev' : α → Option α} {before after before' after' :
      Option α} {xs ys : List α}

/-- The links run along the list; `before` and `after` are where they lead at its ends. -/
def Linked (next prev : α → Option α) : Option α → List α → Option α → Prop
  | _, [], _ => True
  | before, x :: xs, after =>
    prev x = before ∧ next x = xs.head?.or after ∧ Linked next prev (some x) xs after

/-- A list falls into two, with the ends linked to one another. -/
theorem linked_append :
    Linked next prev before (xs ++ ys) after ↔ Linked next prev before xs (ys.head?.or after) ∧
      Linked next prev (xs.getLast?.or before) ys after := by
  induction xs generalizing before with
  | nil => simp [Linked]
  | cons x xs ih =>
    have hlast : (xs.getLast?.or (some x)) = ((x :: xs).getLast?.or before) := by
      rw [getLast?_cons]
      cases xs.getLast? <;> rfl
    have hhead : (xs ++ ys).head?.or after = xs.head?.or (ys.head?.or after) := by
      rw [head?_append, Option.or_assoc]
    rw [cons_append, Linked, Linked, ih, hlast, hhead]
    tauto

section

variable (h : Linked next prev before xs after)
include h

/-- Only the links of the nodes of the list matter. -/
theorem Linked.congr (hnext : ∀ x ∈ xs, next' x = next x)
    (hprev : ∀ x ∈ xs, prev' x = prev x) : Linked next' prev' before xs after := by
  induction xs generalizing before with
  | nil => trivial
  | cons x xs ih =>
    obtain ⟨hp, hn, hrest⟩ := h
    refine ⟨(hprev x mem_cons_self).trans hp, (hnext x mem_cons_self).trans hn, ih hrest ?_ ?_⟩
    · exact fun y hy => hnext y (mem_cons_of_mem _ hy)
    · exact fun y hy => hprev y (mem_cons_of_mem _ hy)

/-- The last node gets another right neighbour. -/
theorem Linked.relinkRight [DecidableEq α] (hnodup : xs.Nodup)
    (hnext : ∀ x ∈ xs, next' x = if xs.getLast? = some x then after' else next x)
    (hprev : ∀ x ∈ xs, prev' x = prev x) : Linked next' prev' before xs after' := by
  rcases eq_nil_or_concat xs with rfl | ⟨ys, y, rfl⟩
  · trivial
  rw [concat_eq_append] at *
  rw [linked_append] at h ⊢
  refine ⟨h.1.congr (fun x hx => ?_) fun x hx => hprev x (mem_append_left _ hx), ?_, ?_, trivial⟩
  · have hne : y ≠ x := by
      rintro rfl
      exact (nodup_append'.mp hnodup).2.2 hx mem_cons_self
    rw [hnext x (mem_append_left _ hx), getLast?_concat, if_neg (by simpa using hne)]
  · rw [hprev y (mem_append_right _ mem_cons_self)]
    exact h.2.1
  · rw [hnext y (mem_append_right _ mem_cons_self), getLast?_concat, if_pos rfl]
    rfl

/-- The first node gets another left neighbour. -/
theorem Linked.relinkLeft [DecidableEq α] (hnodup : xs.Nodup)
    (hnext : ∀ x ∈ xs, next' x = next x)
    (hprev : ∀ x ∈ xs, prev' x = if xs.head? = some x then before' else prev x) :
    Linked next' prev' before' xs after := by
  cases xs with
  | nil => trivial
  | cons y ys =>
    obtain ⟨-, hn, hrest⟩ := h
    refine ⟨?_, ?_, hrest.congr (fun x hx => hnext x (mem_cons_of_mem _ hx)) fun x hx => ?_⟩
    · rw [hprev y mem_cons_self, head?_cons, if_pos rfl]
    · rw [hnext y mem_cons_self, hn]
    · have hne : y ≠ x := by
        rintro rfl
        exact (nodup_cons.mp hnodup).1 hx
      rw [hprev x (mem_cons_of_mem _ hx), head?_cons, if_neg (by simpa using hne)]

end

variable [DecidableEq α] {x : α}

/-- Two lists get other neighbours where they meet. -/
theorem Linked.relink (hleft : Linked next prev before xs after)
    (hright : Linked next prev before' ys after')
    (hnodup : (xs ++ ys).Nodup) {p q : Option α}
    (hnext : ∀ y ∈ xs ++ ys, next' y = if xs.getLast? = some y then q else next y)
    (hprev : ∀ y ∈ xs ++ ys, prev' y = if ys.head? = some y then p else prev y) :
    Linked next' prev' before xs q ∧ Linked next' prev' p ys after' := by
  obtain ⟨hxs, hys, hdisjoint⟩ := nodup_append'.mp hnodup
  refine ⟨hleft.relinkRight hxs (fun y hy => ?_) fun y hy => ?_,
    hright.relinkLeft hys (fun y hy => ?_) fun y hy => ?_⟩
  · exact hnext y (mem_append_left _ hy)
  · rw [hprev y (mem_append_left _ hy), if_neg fun heq => hdisjoint hy (mem_of_head? heq)]
  · rw [hnext y (mem_append_right _ hy), if_neg fun heq => hdisjoint (mem_of_getLast? heq) hy]
  · exact hprev y (mem_append_right _ hy)

/-- A node is taken out. -/
theorem Linked.remove (h : Linked next prev before (xs ++ x :: ys) after)
    (hnodup : (xs ++ x :: ys).Nodup)
    (hnext : ∀ y ∈ xs ++ ys, next' y = if xs.getLast? = some y then ys.head?.or after else next y)
    (hprev : ∀ y ∈ xs ++ ys,
      prev' y = if ys.head? = some y then xs.getLast?.or before else prev y) :
    Linked next' prev' before (xs ++ ys) after := by
  obtain ⟨hleft, -, -, hright⟩ := linked_append.mp h
  exact linked_append.mpr (hleft.relink hright (nodup_middle.mp hnodup).of_cons hnext hprev)

/-- A node is put in. -/
theorem Linked.insert (h : Linked next prev before (xs ++ ys) after) (hnodup : (xs ++ ys).Nodup)
    (hnext : ∀ y ∈ xs ++ ys, next' y = if xs.getLast? = some y then some x else next y)
    (hprev : ∀ y ∈ xs ++ ys, prev' y = if ys.head? = some y then some x else prev y)
    (hnextSelf : next' x = ys.head?.or after) (hprevSelf : prev' x = xs.getLast?.or before) :
    Linked next' prev' before (xs ++ x :: ys) after := by
  obtain ⟨hleft, hright⟩ := linked_append.mp h
  obtain ⟨hleft, hright⟩ := hleft.relink hright hnodup hnext hprev
  exact linked_append.mpr ⟨hleft, hprevSelf, hnextSelf, hright⟩

end DoublyLinked
