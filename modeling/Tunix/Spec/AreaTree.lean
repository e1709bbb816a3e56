import Mathlib.Data.List.Perm.Subperm
import Tunix.ForStd.DoublyLinked
import Tunix.Kernel.Area

/-!
# The tree and the list of a process's areas

The tree and the list hold the same areas in the same order, and the areas are not empty and do not
overlap (`AreaSet.Shape`). Each operation on single areas keeps that: an area is trimmed in place, a
new one is put in between those before it and those behind it, and one is taken out.
-/

namespace Tunix.Core

open PointerTree DoublyLinked Function List

structure AreaSet.Shape (s : AreaSet) (t : KeyTree Nat) : Prop where
  holds : s.tree.Holds t
  heap : t.Heap fun x => (s.area x).priority
  linked : Linked s.next s.prev none t.keys none
  areas : s.areas = t.keys.head?
  nonempty : ∀ x ∈ t.keys, (s.area x).start < (s.area x).end_
  sorted : t.keys.Pairwise fun x y => (s.area x).end_ ≤ (s.area y).start
  live : ∀ x ∈ t.keys, x ∈ s.live

variable {s : AreaSet} {t : KeyTree Nat} {x : Nat} {pre post : List Nat}

/-- An area that was changed. -/
@[simp] theorem AreaSet.setArea_self (a : VmArea) : (s.setArea x a).area x = a := update_self ..

/-- Changing an area leaves the others. -/
@[simp] theorem AreaSet.setArea_of_ne {y : Nat} (hy : y ≠ x) (a : VmArea) :
    (s.setArea x a).area y = s.area y := update_of_ne hy ..

/-- What holds of the changed area and of the others holds of all. -/
theorem AreaSet.forall_mem_setArea (P : VmArea → Prop) {a : VmArea} {xs : List Nat} (hx : P a)
    (hxs : ∀ y ∈ xs, y ≠ x → P (s.area y)) : ∀ y ∈ xs, P ((s.setArea x a).area y) := by
  intro y hy
  by_cases hyx : y = x
  · rwa [hyx, AreaSet.setArea_self]
  · rw [AreaSet.setArea_of_ne hyx]
    exact hxs y hy hyx

namespace AreaSet.Shape

/-- No area is in the tree twice. -/
theorem nodup (h : s.Shape t) : t.keys.Nodup := by
  refine h.sorted.imp_of_mem fun {x y} hx _ hle heq => ?_
  have hx := h.nonempty x hx
  rw [← heq] at hle
  omega

/-- There are no more areas than blocks in use, so the loops have turns enough. -/
theorem length_le (h : s.Shape t) :
    t.keys.length ≤ s.live.length := (subperm_of_subset h.nodup h.live).length_le

/-! ## Changes in place -/

/-- An area may be trimmed at both ends, as long as something is left of it. -/
theorem setArea (h : s.Shape t) {a : VmArea} (hstart : (s.area x).start ≤ a.start)
    (hend : a.end_ ≤ (s.area x).end_) (hne : a.start < a.end_)
    (hpriority : a.priority = (s.area x).priority) : (s.setArea x a).Shape t := by
  have hchange : ∀ y, ((s.setArea x a).area y).priority = (s.area y).priority ∧
      (s.area y).start ≤ ((s.setArea x a).area y).start ∧
        ((s.setArea x a).area y).end_ ≤ (s.area y).end_ := by
    intro y
    by_cases hy : y = x
    · rw [hy, AreaSet.setArea_self]
      exact ⟨hpriority, hstart, hend⟩
    · rw [AreaSet.setArea_of_ne hy]
      exact ⟨rfl, le_refl _, le_refl _⟩
  refine { h with heap := h.heap.congr fun y _ => (hchange y).1,
                  nonempty := AreaSet.forall_mem_setArea (fun b => b.start < b.end_) hne
                    fun y hy _ => h.nonempty y hy,
                  sorted := h.sorted.imp fun {y z} hle => ?_ }
  exact (hchange y).2.2.trans (hle.trans (hchange z).2.1)

/-- What the set says of its own areas does not change with the pointers of a block outside. -/
theorem congr {s' : AreaSet} (h : s.Shape t) (htree : s'.tree.root = s.tree.root)
    (hsame : ∀ y ∈ t.keys, s.tree.SameAt s'.tree y) (hnext : ∀ y ∈ t.keys, s'.next y = s.next y)
    (hprev : ∀ y ∈ t.keys, s'.prev y = s.prev y) (hareas : s'.areas = s.areas)
    (harea : ∀ y ∈ t.keys, s'.area y = s.area y) (hlive : ∀ y ∈ t.keys, y ∈ s'.live) :
    s'.Shape t where
  holds := h.holds.congr htree hsame
  heap := h.heap.congr fun y hy => by rw [harea y hy]
  linked := h.linked.congr hnext hprev
  areas := hareas.trans h.areas
  nonempty := fun y hy => by
    rw [harea y hy]
    exact h.nonempty y hy
  sorted := h.sorted.imp_of_mem fun {y z} hy hz hle => by
    rw [harea y hy, harea z hz]
    exact hle
  live := hlive

end AreaSet.Shape

namespace AreaSet

/-- What `area_alloc` does: it counts the request, and gives a block outside the set. -/
theorem Shape.areaAlloc (h : s.Shape t) (m : Kmalloc) (start end_ : Nat) (pageFlags : UInt64)
    (kind : UInt32) (file : Option Nat) (offset : UInt64) :
    (m.answer s.requests s.live = none ∧
      s.areaAlloc m start end_ pageFlags kind file offset =
        (none, { s with requests := s.requests + 1 })) ∨
    ∃ x s', m.answer s.requests s.live = some x ∧
      s.areaAlloc m start end_ pageFlags kind file offset = (some x, s') ∧ s'.Shape t ∧ x ∉ t.keys ∧
      x ∈ s'.live ∧ s'.requests = s.requests + 1 ∧
      s'.area = update s.area x ⟨start, end_, pageFlags, kind, file, offset, areaPriority x⟩ := by
  unfold AreaSet.areaAlloc
  cases hanswer : m.answer s.requests s.live with
  | none => exact .inl ⟨rfl, rfl⟩
  | some x =>
    have hx : x ∉ s.live := m.unused _ _ _ hanswer
    have hne : ∀ y ∈ t.keys, y ≠ x := fun y hy heq => hx (heq ▸ h.live y hy)
    refine .inr ⟨x, _, rfl, rfl, h.congr rfl (fun y hy => ?_) (fun y hy => ?_) (fun y hy => ?_) rfl
      (fun y hy => ?_) fun y hy => ?_, fun hmem => hx (h.live x hmem), mem_cons_self, rfl, rfl⟩
    · exact ⟨update_of_ne (hne y hy) .., update_of_ne (hne y hy) .., update_of_ne (hne y hy) ..⟩
    · exact update_of_ne (hne y hy) ..
    · exact update_of_ne (hne y hy) ..
    · exact update_of_ne (hne y hy) ..
    · exact mem_cons_of_mem _ (h.live y hy)

/-! ## Searches -/

/-- The search finds the last of the areas that do not start behind the address. -/
theorem areaAtOrBefore_eq {a : Nat} (hholds : s.tree.Holds t) (hkeys : t.keys = pre ++ post)
    (hlength : t.keys.length ≤ s.live.length) (hpre : ∀ y ∈ pre, (s.area y).start ≤ a)
    (hpost : ∀ y ∈ post, a < (s.area y).start) : s.areaAtOrBefore a = pre.getLast? := by
  have hmono : t.keys.Pairwise fun y z => decide ((s.area z).start ≤ a) = true →
      decide ((s.area y).start ≤ a) = true := by
    simp only [decide_eq_true_eq]
    rw [hkeys, pairwise_append]
    refine ⟨pairwise_of_forall_mem_list fun y hy _ _ _ => hpre y hy,
      pairwise_of_forall_mem_list fun _ _ z hz hle => ?_, fun y hy _ _ _ => hpre y hy⟩
    have hlt := hpost z hz
    omega
  have hfilter : t.keys.filter (fun y => decide ((s.area y).start ≤ a)) = pre := by
    rw [hkeys, filter_append, filter_eq_self.mpr (by simpa using hpre),
      filter_eq_nil_iff.mpr (by simpa using hpost), append_nil]
  rw [areaAtOrBefore, hholds.1, hholds.2.lastUpTo hmono hlength, hfilter, Option.or_none]

/-- What follows the last of some areas at the front of the list. -/
theorem Shape.following (h : s.Shape t) (hkeys : t.keys = pre ++ post) : (match pre.getLast? with
      | some b => s.next b
      | none => s.areas) = post.head? := by
  rcases eq_nil_or_concat pre with rfl | ⟨ys, y, rfl⟩
  · simpa [hkeys] using h.areas
  have hlinked := h.linked
  rw [hkeys, concat_eq_append, linked_append, linked_append] at hlinked
  obtain ⟨⟨-, -, hnext, -⟩, -⟩ := hlinked
  simpa using hnext

/-- The area behind those that end before an address. -/
theorem Shape.areaFirstEndingAfter {a : Nat} (h : s.Shape t) (hkeys : t.keys = pre ++ post)
    (hpre : ∀ y ∈ pre, (s.area y).end_ ≤ a) (hpost : ∀ y ∈ post, a < (s.area y).end_) :
    s.areaFirstEndingAfter a = post.head? := by
  have hsorted := h.sorted
  rw [hkeys, pairwise_append] at hsorted
  have hstart : ∀ y ∈ pre, (s.area y).start ≤ a := fun y hy => by
    have hne := h.nonempty y (by simp [hkeys, hy])
    have hle := hpre y hy
    omega
  -- where no area contains the address, the search ends at the last area before it
  have hbetween : (∀ y ∈ post, a < (s.area y).start) → s.areaFirstEndingAfter a = post.head? := by
    intro hafter
    rw [AreaSet.areaFirstEndingAfter, areaAtOrBefore_eq h.holds hkeys h.length_le hstart hafter,
      ← h.following hkeys]
    cases hlast : pre.getLast? with
    | none => rfl
    | some y =>
      have hy := hpre y (mem_of_getLast? hlast)
      exact if_neg (by omega)
  cases post with
  | nil => exact hbetween (by simp)
  | cons y post =>
    by_cases hy : a < (s.area y).start
    · refine hbetween fun z hz => ?_
      rw [mem_cons] at hz
      obtain rfl | hz := hz
      · exact hy
      have hle := (pairwise_cons.mp hsorted.2.1).1 z hz
      have hne := h.nonempty y (by simp [hkeys])
      omega
    · -- the first area behind contains the address
      have hsearch : s.areaAtOrBefore a = (pre ++ [y]).getLast? := by
        have hsplit : t.keys = (pre ++ [y]) ++ post := by simp [hkeys]
        refine areaAtOrBefore_eq h.holds hsplit h.length_le (fun z hz => ?_) fun z hz => ?_
        · simp only [mem_append, mem_singleton] at hz
          obtain hz | rfl := hz
          · exact hstart z hz
          · omega
        · have hle := (pairwise_cons.mp hsorted.2.1).1 z hz
          have hend := hpost y mem_cons_self
          omega
      rw [areaFirstEndingAfter, hsearch, getLast?_concat]
      exact if_pos (hpost y mem_cons_self)

/-! ## Areas put in and taken out -/

variable (before : Option Nat)

private theorem listInsert_next (before : Option Nat) (y : Nat) : (s.listInsert x before).next y =
    if before = some y then some x
    else if y = x then (match before with | some b => s.next b | none => s.areas)
      else s.next y := by
  unfold listInsert
  cases before with
  | none =>
    cases s.areas <;> simp [update_apply]
  | some b =>
    cases hnext : s.next b <;> simp [update_apply, hnext, eq_comm]

private theorem listInsert_prev (y : Nat) : (s.listInsert x before).prev y =
    if (match before with | some b => s.next b | none => s.areas) = some y then some x
    else if y = x then before else s.prev y := by
  unfold listInsert
  cases before with
  | none =>
    cases s.areas <;> simp [update_apply, eq_comm]
  | some b =>
    cases hnext : s.next b <;> simp [update_apply, hnext, eq_comm]

private theorem listInsert_areas :
    (s.listInsert x before).areas = if before = none then some x else s.areas := by
  unfold listInsert
  cases before with
  | none => simp
  | some b => cases hnext : s.next b <;> simp [hnext]

private theorem listInsert_rest : (s.listInsert x before).area = s.area ∧
    (s.listInsert x before).tree = s.tree ∧ (s.listInsert x before).live = s.live := by
  unfold listInsert
  cases before with
  | none => cases s.areas <;> simp
  | some b => cases hnext : s.next b <;> simp [hnext]

/-- An area is put in between those that end before it and those that start behind it. -/
theorem Shape.areaInsert (h : s.Shape t) (hx : x ∉ t.keys) (hlive : x ∈ s.live)
    (hkeys : t.keys = pre ++ post) (hne : (s.area x).start < (s.area x).end_)
    (hpre : ∀ y ∈ pre, (s.area y).end_ ≤ (s.area x).start)
    (hpost : ∀ y ∈ post, (s.area x).end_ ≤ (s.area y).start) :
    ∃ t', (s.areaInsert x).Shape t' ∧ t'.keys = pre ++ x :: post ∧
      (s.areaInsert x).area = s.area := by
  have hnePre : ∀ y ∈ pre, (s.area y).start < (s.area y).end_ := fun y hy =>
    h.nonempty y (by simp [hkeys, hy])
  have hright : ∀ y ∈ pre, decide ((s.area x).start < (s.area y).start) = false := fun y hy => by
    have hle := hpre y hy
    have hlt := hnePre y hy
    simp only [decide_eq_false_iff_not]
    omega
  have hleft : ∀ y ∈ post, decide ((s.area x).start < (s.area y).start) = true := fun y hy => by
    have hle := hpost y hy
    simp only [decide_eq_true_eq]
    omega
  obtain ⟨t', ht', hkeys', hheap'⟩ :=
    h.holds.insert h.heap h.nodup h.length_le hx hkeys hright hleft
  have hlive' : ∀ y ∈ t'.keys, y ∈ s.live := by
    intro y hy
    rw [hkeys', mem_append, mem_cons] at hy
    obtain hy | rfl | hy := hy
    · exact h.live y (by simp [hkeys, hy])
    · exact hlive
    · exact h.live y (by simp [hkeys, hy])
  have hnodup' : t'.keys.Nodup := by
    rw [hkeys', nodup_middle, ← hkeys]
    exact nodup_cons.mpr ⟨hx, h.nodup⟩
  have hlength : t'.keys.length ≤ (s.treeInsert x).live.length :=
    (subperm_of_subset hnodup' hlive').length_le
  -- the search for the area before the new one finds the last of those in front
  have hbefore : (if (s.area x).start = 0 then none
      else (s.treeInsert x).areaAtOrBefore ((s.area x).start - 1)) = pre.getLast? := by
    split
    · cases pre with
      | nil => rfl
      | cons y pre =>
        have hle := hpre y mem_cons_self
        have hlt := hnePre y mem_cons_self
        omega
    · refine areaAtOrBefore_eq ht' hkeys' hlength (fun y hy => ?_) fun y hy => ?_
      · have hle := hpre y hy
        have hlt := hnePre y hy
        show (s.area y).start ≤ (s.area x).start - 1
        omega
      · show (s.area x).start - 1 < (s.area y).start
        rw [mem_cons] at hy
        obtain rfl | hy := hy
        · omega
        · have hle := hpost y hy
          omega
  have heq : s.areaInsert x = (s.treeInsert x).listInsert x pre.getLast? := by
    rw [← hbefore]
    rfl
  have hfollowing := h.following hkeys
  obtain ⟨harea, htree, hlives⟩ := (s.treeInsert x).listInsert_rest (x := x) pre.getLast?
  rw [heq]
  refine ⟨t', ⟨?_, ?_, ?_, ?_, ?_, ?_, ?_⟩, hkeys', harea⟩
  · rw [htree]
    exact ht'
  · rw [harea]
    exact hheap'
  · have hlinked := h.linked
    have hnodup := h.nodup
    rw [hkeys] at hlinked hnodup
    have hxs : ∀ y ∈ pre ++ post, y ≠ x := fun y hy heq => hx (by rw [hkeys]; exact heq ▸ hy)
    rw [hkeys']
    refine hlinked.insert hnodup (fun y hy => ?_) (fun y hy => ?_) ?_ ?_
    · rw [listInsert_next, if_neg (hxs y hy)]
      rfl
    · rw [listInsert_prev, if_neg (hxs y hy)]
      exact congrArg (fun next => if next = some y then some x else s.prev y) hfollowing
    · have hself : pre.getLast? ≠ some x := fun hlast =>
        hxs x (mem_append_left _ (mem_of_getLast? hlast)) rfl
      rw [listInsert_next, if_neg hself, if_pos rfl, Option.or_none]
      exact hfollowing
    · have hself : post.head? ≠ some x := fun hhead =>
        hxs x (mem_append_right _ (mem_of_head? hhead)) rfl
      rw [listInsert_prev, Option.or_none, if_pos rfl]
      exact (congrArg (fun next => if next = some x then some x else pre.getLast?) hfollowing).trans
        (if_neg hself)
  · rw [listInsert_areas, hkeys']
    cases pre with
    | nil => simp
    | cons y pre =>
      have hareas : (s.treeInsert x).areas = t.keys.head? := h.areas
      simpa [hkeys] using hareas
  · rw [harea, hkeys']
    intro y hy
    rw [mem_append, mem_cons] at hy
    obtain hy | rfl | hy := hy
    · exact hnePre y hy
    · exact hne
    · exact h.nonempty y (by simp [hkeys, hy])
  · have hsorted := h.sorted
    rw [hkeys, pairwise_append] at hsorted
    rw [harea, hkeys', pairwise_append, pairwise_cons]
    refine ⟨hsorted.1, ⟨hpost, hsorted.2.1⟩, fun y hy z hz => ?_⟩
    rw [mem_cons] at hz
    obtain rfl | hz := hz
    · exact hpre y hy
    · exact hsorted.2.2 y hy z hz
  · rw [hlives]
    exact hlive'

private theorem listRemove_next (y : Nat) : (s.listRemove x).next y =
    if y = x then none else if s.prev x = some y then s.next x else s.next y := by
  unfold listRemove
  cases s.prev x <;> cases s.next x <;> simp [update_apply, eq_comm]

private theorem listRemove_prev (y : Nat) : (s.listRemove x).prev y =
    if y = x then none else if s.next x = some y then s.prev x else s.prev y := by
  unfold listRemove
  cases s.prev x <;> cases s.next x <;> simp [update_apply, eq_comm]

private theorem listRemove_areas :
    (s.listRemove x).areas = if s.prev x = none then s.next x else s.areas := by
  unfold listRemove
  cases s.prev x <;> cases s.next x <;> simp

private theorem listRemove_rest : (s.listRemove x).area = s.area ∧ (s.listRemove x).tree = s.tree ∧
    (s.listRemove x).live = s.live := by
  unfold listRemove
  cases s.prev x <;> cases s.next x <;> simp

/-- The neighbours of an area in the list. -/
theorem Shape.neighbours (h : s.Shape t) (hkeys : t.keys = pre ++ x :: post) :
    s.prev x = pre.getLast? ∧ s.next x = post.head? := by
  have hlinked := h.linked
  rw [hkeys, linked_append] at hlinked
  obtain ⟨-, hprev, hnext, -⟩ := hlinked
  exact ⟨by simpa using hprev, by simpa using hnext⟩

/-- The other areas are others. -/
theorem Shape.ne_of_mem (h : s.Shape t) (hkeys : t.keys = pre ++ x :: post) :
    ∀ y ∈ pre ++ post, y ≠ x := by
  have hnodup := h.nodup
  rw [hkeys, nodup_middle, nodup_cons] at hnodup
  exact fun y hy heq => hnodup.1 (heq ▸ hy)

/-- An area is taken out and its block given back. -/
theorem Shape.areaRemove (h : s.Shape t) (hkeys : t.keys = pre ++ x :: post) :
    ∃ t', ((s.areaRemove x).areaFree x).Shape t' ∧ t'.keys = pre ++ post ∧
      ((s.areaRemove x).areaFree x).area = s.area := by
  -- The tree first, then the list; the areas themselves stay as they are.
  obtain ⟨t', ht', hkeys', hheap'⟩ := h.holds.remove h.heap h.nodup h.length_le hkeys
  obtain ⟨hprev, hnext⟩ := h.neighbours hkeys
  have hsub : ∀ y ∈ pre ++ post, y ∈ t.keys ∧ y ≠ x := by
    intro y hy
    refine ⟨?_, h.ne_of_mem hkeys y hy⟩
    rw [hkeys]
    simp only [mem_append, mem_cons] at hy ⊢
    tauto
  have hsorted := h.sorted
  have hlinked := h.linked
  have hnodup := h.nodup
  rw [hkeys] at hsorted hlinked hnodup
  have hprev : (s.treeRemove x).prev x = pre.getLast? := hprev
  have hnext : (s.treeRemove x).next x = post.head? := hnext
  obtain ⟨harea, htree, hlive⟩ := (s.treeRemove x).listRemove_rest (x := x)
  refine ⟨t', {
      holds := ?_, heap := ?_, linked := ?_, areas := ?_, nonempty := ?_, sorted := ?_
      live := ?_ },
    hkeys', harea⟩ <;> dsimp only [AreaSet.areaFree, AreaSet.areaRemove]
  · rw [htree]
    exact ht'
  · rw [harea]
    exact hheap'
  · rw [hkeys']
    refine hlinked.remove hnodup (fun y hy => ?_) fun y hy => ?_
    · rw [listRemove_next, if_neg (hsub y hy).2, hprev, hnext, Option.or_none]
      rfl
    · rw [listRemove_prev, if_neg (hsub y hy).2, hprev, hnext, Option.or_none]
      rfl
  · rw [listRemove_areas, hkeys', hprev, hnext]
    cases pre with
    | nil => simp
    | cons y pre =>
      have hareas : (s.treeRemove x).areas = t.keys.head? := h.areas
      rw [if_neg (by simp), hareas, hkeys]
      rfl
  · rw [harea, hkeys']
    exact fun y hy => h.nonempty y (hsub y hy).1
  · rw [harea, hkeys']
    exact hsorted.sublist ((sublist_cons_self x post).append_left pre)
  · rw [hlive, hkeys']
    exact fun y hy => (mem_erase_of_ne (hsub y hy).2).mpr (h.live y (hsub y hy).1)

/-- An area is in two parts, the second behind the first. -/
structure Halved (s : AreaSet) (pre : List Nat) (x cut tail : Nat) (post : List Nat) (s' : AreaSet)
    (t' : KeyTree Nat) : Prop where
  keys : t'.keys = pre ++ x :: tail :: post
  front : s'.area x = { s.area x with end_ := cut }
  back : s'.area tail = { s.area x with
    start := cut, offset := (s.area x).offset + UInt64.ofNat (cut - (s.area x).start)
    priority := areaPriority tail }
  rest : ∀ y ∈ pre ++ post, s'.area y = s.area y

/-- The areas behind an area start behind its end. -/
theorem Shape.end_le_start (h : s.Shape t) (hkeys : t.keys = pre ++ x :: post) :
    ∀ y ∈ post, (s.area x).end_ ≤ (s.area y).start := by
  have hsorted := h.sorted
  rw [hkeys, pairwise_append, pairwise_cons] at hsorted
  exact hsorted.2.1.1

/-- An area is split in two, unless there is no memory for the second part. -/
theorem Shape.areaSplitAt {cut : Nat} (h : s.Shape t) (m : Kmalloc)
    (hkeys : t.keys = pre ++ x :: post) (hstart : (s.area x).start < cut)
    (hend : cut < (s.area x).end_) :
    (m.answer s.requests s.live = none ∧
      s.areaSplitAt m x cut = (none, { s with requests := s.requests + 1 })) ∨
    ∃ tail s' t', s.areaSplitAt m x cut = (some tail, s') ∧ s'.Shape t' ∧
      s.Halved pre x cut tail post s' t' := by
  unfold AreaSet.areaSplitAt
  obtain ⟨hnone, heq⟩ | ⟨tail, s₁, -, heq, h₁, htail, hlive, -, harea⟩ :=
    h.areaAlloc m cut (s.area x).end_ (s.area x).pageFlags (s.area x).kind (s.area x).file
      ((s.area x).offset + UInt64.ofNat (cut - (s.area x).start))
  · exact .inl ⟨hnone, by simp only [heq]⟩
  refine .inr ⟨tail, (s₁.setArea x { s₁.area x with end_ := cut }).areaInsert tail, ?_⟩
  have hmem : ∀ y ∈ pre ++ x :: post, y ≠ tail :=
    fun y hy heq => htail (by rw [hkeys, ← heq]; exact hy)
  have hold : ∀ y ∈ pre ++ x :: post, s₁.area y = s.area y := fun y hy => by
    rw [harea, update_of_ne (hmem y hy)]
  have hx : s₁.area x = s.area x := hold x (by simp)
  have hxtail : tail ≠ x := fun heq => hmem x (by simp) heq.symm
  -- the first part is the area with a nearer end, the second is put in behind it
  have h₂ : (s₁.setArea x { s₁.area x with end_ := cut }).Shape t := by
    refine h₁.setArea (le_refl _) ?_ ?_ rfl
    · rw [hx]
      exact hend.le
    · rw [hx]
      exact hstart
  have htailArea : (s₁.setArea x { s₁.area x with end_ := cut }).area tail = { s.area x with
        start := cut, offset := (s.area x).offset + UInt64.ofNat (cut - (s.area x).start)
        priority := areaPriority tail } := by
    rw [setArea_of_ne hxtail, harea, update_self]
  have hsorted := h.sorted
  rw [hkeys, pairwise_append] at hsorted
  have hrest :
      ∀ y ∈ pre ++ post, (s₁.setArea x { s₁.area x with end_ := cut }).area y = s.area y := by
    intro y hy
    rw [setArea_of_ne (h.ne_of_mem hkeys y hy)]
    refine hold y ?_
    simp only [mem_append, mem_cons] at hy ⊢
    tauto
  have hsplit : t.keys = (pre ++ [x]) ++ post := by simp [hkeys]
  obtain ⟨t', h', hkeys', harea'⟩ :=
    h₂.areaInsert htail hlive hsplit (by rw [htailArea]; exact hend) (by
      rw [htailArea]
      refine forall_mem_append.mpr ⟨fun y hy => ?_, forall_mem_singleton.mpr ?_⟩
      · rw [hrest y (mem_append_left _ hy)]
        exact (hsorted.2.2 y hy x mem_cons_self).trans hstart.le
      · rw [setArea_self])
    (fun y hy => by
      rw [htailArea, hrest y (mem_append_right _ hy)]
      exact h.end_le_start hkeys y hy)
  refine ⟨t', by simp only [heq], h', by simp [hkeys'], ?_, ?_, fun y hy => ?_⟩
  · rw [harea', setArea_self, hx]
  · rw [harea', htailArea]
  · rw [harea', hrest y hy]

end AreaSet

end Tunix.Core
