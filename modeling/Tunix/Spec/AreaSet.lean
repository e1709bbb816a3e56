import Mathlib.Algebra.Order.BigOperators.Group.List
import Mathlib.Algebra.Order.Ring.Nat
import Tunix.ForStd.Run
import Tunix.Spec.AreaTree

/-!
# The areas of a process as a map of its memory

An area set stands for a map from addresses to what they are mapped to (`AreaSet.mapped`): flags,
kind, file and the place in the file. Unmapping takes exactly the addresses of the range out of the
map, and protecting gives exactly those of the range other flags (`AreaSet.Shape.processUnmapArea`,
`AreaSet.Shape.processProtectArea`), as long as there is memory for the areas that have to be split.
Without it the second part of an area with a hole is lost, and an area that the range cuts keeps its
flags.
-/

namespace Tunix.Core

open PointerTree DoublyLinked Steps List Option UInt64

variable {v : VmArea} {area area' : Nat → VmArea} {xs : List Nat} {turns : Nat}
    {before : Nat → Option MappedPage}

/-- What an address is mapped to. -/
structure MappedPage where
  pageFlags : UInt64
  kind : UInt32
  file : Option Nat
  offset : UInt64
deriving DecidableEq

def VmArea.page (v : VmArea) (a : Nat) : Option MappedPage :=
  if v.start ≤ a ∧ a < v.end_ then
    some ⟨v.pageFlags, v.kind, v.file, v.offset + ofNat (a - v.start)⟩
  else none

/-- What some areas map an address to. -/
def pagesOf (area : Nat → VmArea) (xs : List Nat) (a : Nat) : Option MappedPage :=
  xs.findSome? fun x => (area x).page a

def AreaSet.walk (s : AreaSet) : Nat → Option Nat → List Nat
  | 0, _ => []
  | _ + 1, none => []
  | turns + 1, some x => x :: s.walk turns (s.next x)

/-- The areas in the order of the list. -/
def AreaSet.areaList (s : AreaSet) : List Nat := s.walk s.live.length s.areas

/-- The map of memory that the set stands for. -/
def AreaSet.mapped (s : AreaSet) (a : Nat) : Option MappedPage := pagesOf s.area s.areaList a

def inRange (start end_ a : Nat) : Prop := start ≤ a ∧ a < end_

instance (start end_ a : Nat) : Decidable (inRange start end_ a) :=
  inferInstanceAs (Decidable (_ ∧ _))

def MappedPage.protect (pageFlags : UInt64) (p : MappedPage) : MappedPage :=
  { p with pageFlags := pageFlags }

variable {s : AreaSet} {t : KeyTree Nat} {x start end_ a : Nat} {pre post rest : List Nat}
  {between : Nat → Option MappedPage}

/-! ## Pages of areas -/

/-- The area has no address in the range. -/
def VmArea.Misses (v : VmArea) (start end_ : Nat) : Prop := v.end_ ≤ start ∨ end_ ≤ v.start

/-- The address lies inside the area and is not its start, so that the area can be split there. -/
def VmArea.Cut (v : VmArea) (cut : Nat) : Prop := v.start < cut ∧ cut < v.end_

/-- An area has no page outside of its range. -/
theorem VmArea.page_eq_none (h : ¬ (v.start ≤ a ∧ a < v.end_)) : v.page a = none := if_neg h

private theorem VmArea.Misses.page_eq (h : v.Misses start end_) (ha : inRange start end_ a) :
    v.page a = none := by
  refine VmArea.page_eq_none fun hv => ?_
  unfold VmArea.Misses inRange at *
  omega

private theorem offset_add {o : UInt64} {i j k : Nat} (hij : i ≤ j) (hjk : j ≤ k) :
    o + ofNat (j - i) + ofNat (k - j) = o + ofNat (k - i) := by
  rw [UInt64.add_assoc, ← UInt64.ofNat_add]
  congr 2
  omega

/-- The two parts of an area map what it maps. -/
theorem VmArea.page_split (v : VmArea) {cut : Nat} (hcut : v.Cut cut) (priority a : Nat) :
    v.page a = ({ v with end_ := cut }.page a).or
      ({ v with start := cut, offset := v.offset + ofNat (cut - v.start)
                priority := priority }.page a) := by
  obtain ⟨hstart, hend⟩ := hcut
  simp only [VmArea.page]
  split_ifs
  all_goals first
    | rfl
    | omega
    | rw [none_or, offset_add (by omega) (by omega)]

/-- Outside the range, an area without the part from the start of the range on maps the same. -/
theorem VmArea.page_trimEnd (hend : v.end_ ≤ end_) (ha : ¬ inRange start end_ a)
    (hstart : start < v.end_) : ({ v with end_ := start } : VmArea).page a = v.page a := by
  simp only [VmArea.page]
  unfold inRange at ha
  congr 1
  simp only [eq_iff_iff]
  omega

/-- Outside the range, an area without the part up to the end of the range maps the same. -/
theorem VmArea.page_trimStart (hcut : v.Cut end_) (hstart : start ≤ v.start)
    (ha : ¬ inRange start end_ a) :
    ({ v with offset := v.offset + ofNat (end_ - v.start), start := end_ } :
      VmArea).page a = v.page a := by
  rw [v.page_split hcut v.priority a]
  have hnone : ({ v with end_ := end_ } : VmArea).page a = none :=
    VmArea.page_eq_none fun hin => ha ⟨hstart.trans hin.1, hin.2⟩
  rw [hnone, none_or]

private theorem pagesOf_append (area : Nat → VmArea) (xs ys : List Nat) (a : Nat) :
    pagesOf area (xs ++ ys) a = (pagesOf area xs a).or (pagesOf area ys a) := findSome?_append ..

/-- The pages of an area, and those of the areas behind it. -/
theorem pagesOf_cons (area : Nat → VmArea) (x : Nat) (xs : List Nat) (a : Nat) :
    pagesOf area (x :: xs) a = ((area x).page a).or (pagesOf area xs a) := by
  unfold pagesOf
  rw [findSome?_cons]
  cases (area x).page a <;> rfl

private theorem pagesOf_congr (h : ∀ x ∈ xs, (area' x).page a = (area x).page a) :
    pagesOf area' xs a = pagesOf area xs a := by
  induction xs with
  | nil => rfl
  | cons x xs ih =>
    rw [pagesOf_cons, pagesOf_cons, h x mem_cons_self, ih fun y hy => h y (mem_cons_of_mem _ hy)]

private theorem pagesOf_setArea (h : v.page a = (s.area x).page a) (xs : List Nat) :
    pagesOf (s.setArea x v).area xs a = pagesOf s.area xs a := by
  refine pagesOf_congr fun y _ => ?_
  by_cases hy : y = x
  · rw [hy, AreaSet.setArea_self, h]
  · rw [AreaSet.setArea_of_ne hy]

private theorem AreaSet.Halved.mem_rest {cut tail y : Nat} {s₁ : AreaSet} {t₁ : KeyTree Nat}
    (h : s.Halved pre x cut tail post s₁ t₁) (hy : y ∈ t₁.keys) (hyx : y ≠ x) :
    y = tail ∨ y ∈ pre ++ post := by
  rw [h.keys] at hy
  simp only [mem_append, mem_cons] at hy ⊢
  tauto

/-- Where an area is replaced by its two parts the map stays. -/
theorem AreaSet.Halved.pagesOf_eq {cut tail : Nat} {s₁ : AreaSet} {t₁ : KeyTree Nat}
    (h : s.Halved pre x cut tail post s₁ t₁) (hkeys : t.keys = pre ++ x :: post)
    (hcut : (s.area x).Cut cut) :
    pagesOf s₁.area t₁.keys = pagesOf s.area t.keys := by
  funext a
  have hpre : pagesOf s₁.area pre a = pagesOf s.area pre a :=
    pagesOf_congr fun y hy => by rw [h.rest y (mem_append_left _ hy)]
  have hpost : pagesOf s₁.area post a = pagesOf s.area post a :=
    pagesOf_congr fun y hy => by rw [h.rest y (mem_append_right _ hy)]
  rw [h.keys, hkeys, pagesOf_append, pagesOf_cons, pagesOf_cons, pagesOf_append,
    pagesOf_cons, hpre, hpost,
    h.front, h.back, (s.area x).page_split hcut (areaPriority tail), Option.or_assoc]

private theorem pagesOf_eq_none (h : ∀ x ∈ xs, (area x).page a = none) :
    pagesOf area xs a = none := findSome?_eq_none_iff.mpr h

/-! ## The list -/

namespace AreaSet

private theorem walk_eq {before : Option Nat} (h : Linked s.next s.prev before xs none)
    (hturns : xs.length ≤ turns) : s.walk turns xs.head? = xs := by
  induction xs generalizing before turns with
  | nil => cases turns <;> rfl
  | cons x xs ih =>
    obtain ⟨-, hnext, hrest⟩ := h
    simp only [length_cons] at hturns
    obtain ⟨turns, rfl⟩ : ∃ n, turns = n + 1 := ⟨turns - 1, by omega⟩
    rw [head?_cons, walk, hnext, or_none, ih hrest (by omega)]

section

variable (h : s.Shape t)
include h

private theorem Shape.areaList_eq : s.areaList = t.keys := by
  rw [areaList, h.areas]
  exact walk_eq h.linked h.length_le

/-- The map of the list is that of the keys of the tree. -/
theorem Shape.mapped_eq : s.mapped = pagesOf s.area t.keys := by
  funext a
  rw [mapped, h.areaList_eq]

/-- The areas that end before an address come first. -/
theorem Shape.exists_split (a : Nat) :
    ∃ pre post, t.keys = pre ++ post ∧ (∀ y ∈ pre, (s.area y).end_ ≤ a) ∧ ∀ y ∈ post,
      a < (s.area y).end_ := by
  have hsorted := h.sorted
  have hne := h.nonempty
  generalize t.keys = xs at hsorted hne
  induction xs with
  | nil => exact ⟨[], [], rfl, by simp, by simp⟩
  | cons x xs ih =>
    obtain ⟨hx, hxs⟩ := pairwise_cons.mp hsorted
    by_cases hle : (s.area x).end_ ≤ a
    · obtain ⟨pre, post, rfl, hpre, hpost⟩ := ih hxs fun y hy => hne y (mem_cons_of_mem _ hy)
      exact ⟨x :: pre, post, rfl, forall_mem_cons.mpr ⟨hle, hpre⟩, hpost⟩
    -- all areas behind this one end after the address too
    refine ⟨[], x :: xs, rfl, by simp, fun y hy => ?_⟩
    have hy' := hne y hy
    rw [mem_cons] at hy
    obtain rfl | hy := hy
    · omega
    · have hle' := hx y hy
      omega

/-- All areas behind one that starts after the range miss it. -/
theorem Shape.misses_behind (hkeys : t.keys = pre ++ x :: post)
    (hx : end_ ≤ (s.area x).start) : ∀ y ∈ x :: post, (s.area y).Misses start end_ := by
  refine forall_mem_cons.mpr ⟨.inr hx, fun y hy => .inr ?_⟩
  have hle := h.end_le_start hkeys y hy
  have hne := h.nonempty x (by simp [hkeys])
  omega

/-- The areas behind one that ends after the start of the range start in it or after it. -/
theorem Shape.start_behind (hkeys : t.keys = pre ++ x :: post)
    (hx : start < (s.area x).end_) : ∀ y ∈ post, start < (s.area y).start :=
  fun y hy => lt_of_lt_of_le hx (h.end_le_start hkeys y hy)

/-- A failed request leaves the areas alone. -/
theorem Shape.request : ({ s with requests := s.requests + 1 } : AreaSet).Shape t :=
  h.congr rfl (fun _ _ => ⟨rfl, rfl, rfl⟩) (fun _ _ => rfl) (fun _ _ => rfl) rfl
    (fun _ _ => rfl) h.live

end

end AreaSet

/-! ## Unmapping -/

/-- Outside the range the maps are the same, and inside nothing is left. -/
def Unmapped (start end_ : Nat) (before after : Nat → Option MappedPage) : Prop :=
  ∀ a, after a = if inRange start end_ a then none else before a

/-- The areas miss the range. If there was memory, they map what was mapped outside of it. -/
structure Clears (start end_ : Nat) (served : Prop) (before : Nat → Option MappedPage)
    (area : Nat → VmArea) (xs : List Nat) : Prop where
  misses : ∀ x ∈ xs, (area x).Misses start end_
  outside : served → ∀ a, ¬ inRange start end_ a → pagesOf area xs a = before a

private theorem Clears.unmapped {served : Prop} (h : Clears start end_ served before area xs)
    (hserved : served) :
    Unmapped start end_ before (pagesOf area xs) := by
  intro a
  split
  · next ha => exact pagesOf_eq_none fun y hy => (h.misses y hy).page_eq ha
  · next ha => exact h.outside hserved a ha

/-- A step that changes nothing outside the range, before the rest is cleared. -/
theorem Clears.prepend {served served' : Prop} (h : Clears start end_ served' between area xs)
    (hserved : served → served') (hstep : ∀ a, ¬ inRange start end_ a → between a = before a) :
    Clears start end_ served before area xs :=
  ⟨h.misses, fun hs a ha => (h.outside (hserved hs) a ha).trans (hstep a ha)⟩

namespace AreaSet

private theorem unmapLoop_none (m : Kmalloc) (turns : Nat) :
    unmapLoop m start end_ turns s none = s := by
  cases turns <;> rfl

/-- A hole in the middle of an area: its second part becomes an area of its own. -/
theorem Shape.unmapHole (m : Kmalloc) (hrange : start < end_) (h : s.Shape t)
    (hkeys : t.keys = pre ++ x :: post) (hhole : (s.area x).start < start ∧ end_ < (s.area x).end_)
    (hpre : ∀ y ∈ pre, (s.area y).Misses start end_) :
    let s₁ := (s.areaSplitAt m x end_).2
    let s₂ := s₁.setArea x { s₁.area x with end_ := start }
    ∃ t', s₂.Shape t' ∧
      Clears start end_ (m.answer s.requests s.live ≠ none) (pagesOf s.area t.keys)
      s₂.area t'.keys := by
  have hcut : (s.area x).Cut end_ := ⟨hhole.1.trans hrange, hhole.2⟩
  -- the areas behind start where the old area ended, or later
  have hbehind : ∀ y ∈ pre ++ post, (s.area y).Misses start end_ :=
    forall_mem_append.mpr ⟨hpre, fun y hy => .inr (hhole.2.le.trans (h.end_le_start hkeys y hy))⟩
  obtain ⟨hnone, heq⟩ | ⟨tail, s₁, t₁, heq, h₁, hhalved⟩ := h.areaSplitAt m hkeys hcut.1 hcut.2
  · simp only [heq]
    refine ⟨t, h.request.setArea (le_refl _) (hrange.trans hhole.2).le hhole.1 rfl,
      forall_mem_setArea (·.Misses start end_) (.inl (le_refl _)) fun y hy hyx => ?_,
        fun hserved => absurd hnone hserved⟩
    rw [hkeys, mem_append, mem_cons] at hy
    exact hbehind y (by rw [mem_append]; tauto)
  · simp only [heq]
    refine ⟨t₁, h₁.setArea (le_refl _) ?_ ?_ rfl,
      forall_mem_setArea (·.Misses start end_) (.inl (le_refl _)) fun y hy hyx => ?_,
        fun _ a ha => ?_⟩
    · rw [hhalved.front]
      exact hrange.le
    · rw [hhalved.front]
      exact hhole.1
    · obtain rfl | hy := hhalved.mem_rest hy hyx
      · rw [hhalved.back]
        exact .inr (le_refl _)
      · rw [hhalved.rest y hy]
        exact hbehind y hy
    · rw [← hhalved.pagesOf_eq hkeys hcut]
      refine pagesOf_setArea (VmArea.page_trimEnd ?_ ha ?_) _
      · rw [hhalved.front]
      · rw [hhalved.front]
        exact hrange

/-- The loop, from an area on; those before it are done with. -/
theorem Shape.unmapLoop (m : Kmalloc) (hrange : start < end_) (h : s.Shape t)
    (hkeys : t.keys = pre ++ rest) (hrest : ∀ y ∈ rest, start < (s.area y).end_)
    (hpre : ∀ y ∈ pre, (s.area y).Misses start end_) (hturns : rest.length < turns) :
    ∃ t', (unmapLoop m start end_ turns s rest.head?).Shape t' ∧
      Clears start end_ ((∃ y ∈ rest, (s.area y).start < start ∧ end_ < (s.area y).end_) →
        m.answer s.requests s.live ≠ none) (pagesOf s.area t.keys)
        (unmapLoop m start end_ turns s rest.head?).area t'.keys := by
  induction rest generalizing s t pre turns with
  | nil =>
    rw [head?_nil, unmapLoop_none]
    exact ⟨t, h, by simpa [hkeys] using hpre, fun _ _ _ => rfl⟩
  | cons x post ih =>
    obtain ⟨turns, rfl⟩ : ∃ n, turns = n + 1 := ⟨turns - 1, by omega⟩
    have hturns' : post.length < turns := by simpa using hturns
    have hx := hrest x mem_cons_self
    have hbehind := h.start_behind hkeys hx
    have hne := h.ne_of_mem hkeys
    have hnext := (h.neighbours hkeys).2
    have hkeys' : t.keys = (pre ++ [x]) ++ post := by simp [hkeys]
    -- a trimmed area misses the range, and the loop goes on behind it
    have htrim :
        ∀ v : VmArea, (s.area x).start ≤ v.start → v.end_ ≤ (s.area x).end_ → v.start < v.end_ →
        v.priority = (s.area x).priority → v.Misses start end_ →
        (∀ a, ¬ inRange start end_ a → v.page a = (s.area x).page a) →
        ∃ t', (unmapLoop m start end_ turns (s.setArea x v) (s.next x)).Shape t' ∧
          ∀ served, Clears start end_ served (pagesOf s.area t.keys)
            (unmapLoop m start end_ turns (s.setArea x v) (s.next x)).area t'.keys := by
      intro v hstart hend hv hpriority hmisses hpage
      have hsame : ∀ y ∈ pre ++ post, (s.setArea x v).area y = s.area y := fun y hy =>
        setArea_of_ne (hne y hy) v
      have hdone : ∀ y ∈ pre ++ [x], ((s.setArea x v).area y).Misses start end_ :=
        forall_mem_setArea (·.Misses start end_) hmisses fun y hy hyx =>
          hpre y (by simpa [hyx] using hy)
      obtain ⟨t', h', hclears⟩ := ih (h.setArea hstart hend hv hpriority) hkeys'
        (fun y hy => by rw [hsame y (by simp [hy])]; exact hrest y (by simp [hy])) hdone hturns'
      rw [hnext]
      refine ⟨t', h', fun served => hclears.prepend (fun _ => ?_) fun a ha =>
        pagesOf_setArea (hpage a ha) t.keys⟩
      -- no area behind can have the hole
      rintro ⟨y, hy, hlt, -⟩
      rw [hsame y (by simp [hy])] at hlt
      have hgt := hbehind y hy
      omega
    rw [head?_cons, unmapLoop]
    split
    · next hlt =>
      split
      · -- the whole area goes
        next hwhole =>
        obtain ⟨t₁, h₁, hkeys₁, harea₁⟩ := h.areaRemove hkeys
        obtain ⟨t', h', hclears⟩ := ih h₁ hkeys₁
          (fun y hy => by rw [harea₁]; exact hrest y (by simp [hy]))
            (by rw [harea₁]; exact hpre) hturns'
        simp only [hnext]
        refine ⟨t', h', hclears.prepend (fun _ => ?_) fun a ha => ?_⟩
        · rintro ⟨y, hy, hlt, -⟩
          rw [harea₁] at hlt
          have hgt := hbehind y hy
          omega
        · have hnone : (s.area x).page a = none :=
            VmArea.page_eq_none fun hin => ha ⟨by omega, by omega⟩
          rw [harea₁, hkeys₁, hkeys, pagesOf_append, pagesOf_append, pagesOf_cons, hnone, none_or]
      · next hwhole =>
        split
        · next hhole =>
          obtain ⟨t', h', hclears⟩ := h.unmapHole m hrange hkeys hhole hpre
          exact ⟨t', h',
            hclears.prepend (fun hserved => hserved ⟨x, mem_cons_self, hhole⟩) fun _ _ => rfl⟩
        next hhole =>
        split
        · -- the range takes the end of the area
          next hfront =>
          obtain ⟨t', h', hclears⟩ :=
            htrim { s.area x with end_ := start } (le_refl _) hx.le hfront rfl
            (.inl (le_refl _)) fun a ha => VmArea.page_trimEnd (by omega) ha hx
          exact ⟨t', h', hclears _⟩
        · -- the range takes the front of the area
          next hfront =>
          have hcut : (s.area x).Cut end_ := ⟨hlt, by omega⟩
          obtain ⟨t', h', hclears⟩ := htrim { s.area x with
              offset := (s.area x).offset + ofNat (end_ - (s.area x).start), start := end_ }
            hlt.le (le_refl _) hcut.2 rfl (.inr (le_refl _))
            fun a ha => VmArea.page_trimStart hcut (Nat.le_of_not_lt hfront) ha
          exact ⟨t', h', hclears _⟩
    · next hge =>
      have hmisses : ∀ y ∈ x :: post, (s.area y).Misses start end_ :=
        h.misses_behind hkeys (Nat.le_of_not_lt hge)
      exact ⟨t, h, hkeys ▸ forall_mem_append.mpr ⟨hpre, hmisses⟩, fun _ _ _ => rfl⟩

/-- If an area is to get a hole in the middle, there is memory for its second part. -/
def HoleServed (s : AreaSet) (m : Kmalloc) (start end_ : Nat) : Prop :=
  (∃ y ∈ s.areaList, (s.area y).start < start ∧ end_ < (s.area y).end_) →
    m.answer s.requests s.live ≠ none

private theorem Shape.processUnmapArea (h : s.Shape t) (m : Kmalloc) (hrange : start < end_) :
    ∃ t', (s.processUnmapArea m start end_).Shape t' ∧
      Clears start end_ (s.HoleServed m start end_) s.mapped
        (s.processUnmapArea m start end_).area t'.keys := by
  obtain ⟨pre, post, hkeys, hpre, hpost⟩ := h.exists_split start
  have hturns : post.length < s.live.length + 1 := by
    have hle := h.length_le
    rw [hkeys, length_append] at hle
    omega
  obtain ⟨t', h', hclears⟩ := h.unmapLoop m hrange hkeys hpost (fun y hy => .inl (hpre y hy)) hturns
  rw [AreaSet.processUnmapArea, if_neg (Nat.not_le_of_lt hrange),
    h.areaFirstEndingAfter hkeys hpre hpost]
  refine ⟨t', h', hclears.prepend (fun hserved => ?_) fun a _ => by rw [h.mapped_eq]⟩
  rintro ⟨y, hy, hhole⟩
  exact hserved ⟨y, by simp [h.areaList_eq, hkeys, hy], hhole⟩

end AreaSet

/-! ## Mapping -/

/-- Outside the range the maps are the same, and the range is mapped to the file from the offset
    on. -/
def Mapped (start end_ : Nat) (pageFlags : UInt64) (kind : UInt32) (file : Option Nat)
    (offset : UInt64)
    (before after : Nat → Option MappedPage) : Prop :=
  ∀ a, after a = if inRange start end_ a then
    some ⟨pageFlags, kind, file, offset + ofNat (a - start)⟩ else before a

/-- `process_map_area` replaces what was mapped in its range, or fails having unmapped it. -/
private theorem AreaSet.Shape.processMapArea (h : s.Shape t) (m : Kmalloc) (hrange : start < end_)
    (pageFlags : UInt64) (kind : UInt32) (file : Option Nat) (offset : UInt64) :
    ∃ t', (s.processMapArea m start end_ pageFlags kind file offset).2.Shape t' ∧
      (s.HoleServed m start end_ →
        (s.processMapArea m start end_ pageFlags kind file offset).1 = 0 ∧
          Mapped start end_ pageFlags kind file offset s.mapped
            (s.processMapArea m start end_ pageFlags kind file offset).2.mapped ∨
        (s.processMapArea m start end_ pageFlags kind file offset).1 = -1 ∧
          Unmapped start end_ s.mapped
            (s.processMapArea m start end_ pageFlags kind file offset).2.mapped) := by
  obtain ⟨t₁, h₁, hclears⟩ := h.processUnmapArea m hrange
  rw [AreaSet.processMapArea, if_neg (Nat.not_le_of_lt hrange)]
  generalize s.processUnmapArea m start end_ = s₁ at h₁ hclears
  obtain ⟨-, heq⟩ | ⟨x, s₂, -, heq, h₂, hx, hlive, -, harea⟩ :=
    h₁.areaAlloc m start end_ pageFlags kind file offset
  · simp only [heq]
    refine ⟨t₁, h₁.request, fun hserved => .inr ⟨trivial, ?_⟩⟩
    rw [h₁.request.mapped_eq]
    exact hclears.unmapped hserved
  simp only [heq]
  obtain ⟨pre, post, hkeys, hpre, hpost⟩ := h₁.exists_split start
  have hold : ∀ y ∈ pre ++ post, s₂.area y = s₁.area y := fun y hy => by
    have hne : y ≠ x := fun heq => hx (by rw [hkeys, ← heq]; exact hy)
    rw [harea, Function.update_of_ne hne]
  have hself : s₂.area x = ⟨start, end_, pageFlags, kind, file, offset, areaPriority x⟩ := by
    rw [harea, Function.update_self]
  -- what was cleared leaves room between the areas before the range and those behind it
  have hbehind : ∀ y ∈ post, end_ ≤ (s₁.area y).start := fun y hy => by
    have hend := hpost y hy
    obtain hle | hle := hclears.misses y (by simp [hkeys, hy])
    · omega
    · exact hle
  obtain ⟨t', h', hkeys', harea'⟩ := h₂.areaInsert hx hlive hkeys (by rw [hself]; exact hrange)
    (fun y hy => by rw [hself, hold y (by simp [hy])]; exact hpre y hy)
    (fun y hy => by rw [hself, hold y (by simp [hy])]; exact hbehind y hy)
  refine ⟨t', h', fun hserved => .inl ⟨trivial, fun a => ?_⟩⟩
  have hrest : (pagesOf s₂.area pre a).or (pagesOf s₂.area post a) = pagesOf s₁.area t₁.keys a := by
    rw [hkeys, ← pagesOf_append]
    exact pagesOf_congr fun y hy => by rw [hold y hy]
  rw [h'.mapped_eq, hkeys', harea', pagesOf_append, pagesOf_cons, hself]
  split
  · next ha =>
    have hnone : (pagesOf s₂.area pre a).or (pagesOf s₂.area post a) = none := by
      rw [hrest, hclears.unmapped hserved a, if_pos ha]
    rw [or_eq_none_iff] at hnone
    rw [hnone.1, hnone.2, none_or, or_none]
    exact if_pos ha
  · next ha =>
    have hnone : ({ start := start, end_ := end_, pageFlags := pageFlags, kind := kind, file := file
                    offset := offset, priority := areaPriority x } : VmArea).page a = none :=
      VmArea.page_eq_none ha
    rw [hnone, none_or, hrest]
    exact hclears.outside hserved a ha

/-! ## Protecting -/

/-- Outside the range the maps are the same, and inside what is mapped gets the flags. -/
def Protected (start end_ : Nat) (pageFlags : UInt64) (before after : Nat → Option MappedPage) :
    Prop :=
  ∀ a, after a = if inRange start end_ a then (before a).map
    (MappedPage.protect pageFlags) else before a

variable {pageFlags : UInt64}

private theorem VmArea.page_setFlags (v : VmArea) (a : Nat) :
    ({ v with pageFlags := pageFlags } : VmArea).page a =
      (v.page a).map (MappedPage.protect pageFlags) := by
  unfold VmArea.page
  split <;> rfl

/-- An area that the loop is done with: it is outside the range, or has the flags. -/
def VmArea.Done (v : VmArea) (start end_ : Nat) (pageFlags : UInt64) : Prop :=
  v.Misses start end_ ∨ v.pageFlags = pageFlags

private theorem VmArea.Done.page_eq (h : v.Done start end_ pageFlags) (ha : inRange start end_ a) :
    (v.page a).map (MappedPage.protect pageFlags) = v.page a := by
  obtain h | rfl := h
  · rw [h.page_eq ha, map_none]
  · rw [← v.page_setFlags a]

private theorem map_pagesOf (f : MappedPage → MappedPage)
    (h : ∀ x ∈ xs, ((area x).page a).map f = ((area' x).page a).map f) :
    (pagesOf area xs a).map f = (pagesOf area' xs a).map f := by
  induction xs with
  | nil => rfl
  | cons x xs ih =>
    rw [pagesOf_cons, pagesOf_cons, map_or, map_or, h x mem_cons_self,
      ih fun y hy => h y (mem_cons_of_mem _ hy)]

private theorem Protected.of_done (h : ∀ x ∈ xs, (area x).Done start end_ pageFlags) :
    Protected start end_ pageFlags (pagesOf area xs) (pagesOf area xs) := by
  intro a
  split
  · next ha =>
    induction xs with
    | nil => rfl
    | cons x xs ih =>
      rw [pagesOf_cons, map_or, (h x mem_cons_self).page_eq ha,
        ← ih fun y hy => h y (mem_cons_of_mem _ hy)]
  · rfl

/-- A step that gives flags to addresses of the range only, before the rest is protected. -/
theorem Protected.prepend {after : Nat → Option MappedPage}
    (h : Protected start end_ pageFlags between after)
    (houtside : ∀ a, ¬ inRange start end_ a → between a = before a)
    (hinside : ∀ a, (between a).map (MappedPage.protect pageFlags) =
      (before a).map (MappedPage.protect pageFlags)) :
      Protected start end_ pageFlags before after := by
  intro a
  rw [h a]
  split
  · exact hinside a
  · next ha => exact houtside a ha

/-- An area inside the range gets the flags. -/
theorem Protected.setFlags {after : Nat → Option MappedPage}
    (hinside : start ≤ (s.area x).start ∧ (s.area x).end_ ≤ end_)
    (h : Protected start end_ pageFlags
      (pagesOf (s.setArea x { s.area x with pageFlags := pageFlags }).area xs) after) :
    Protected start end_ pageFlags (pagesOf s.area xs) after := by
  refine h.prepend (fun a ha => ?_) fun a => ?_
  · refine pagesOf_setArea ?_ xs
    have hnone : (s.area x).page a = none := VmArea.page_eq_none fun hin => ha ⟨by omega, by omega⟩
    rw [VmArea.page_setFlags, hnone, map_none]
  · refine map_pagesOf _ fun y _ => ?_
    by_cases hy : y = x
    · rw [hy, AreaSet.setArea_self, VmArea.page_setFlags, Option.map_map]
      rfl
    · rw [AreaSet.setArea_of_ne hy]

namespace AreaSet

private theorem protectLoop_none (m : Kmalloc) (turns : Nat) :
    protectLoop m start end_ pageFlags turns s none = s := by
  cases turns <;> rfl

/-- The loop stops at an area that starts behind the range. -/
theorem protectLoop_behind (m : Kmalloc) (hx : end_ ≤ (s.area x).start) :
    protectLoop m start end_ pageFlags turns s (some x) = s := by
  cases turns with
  | zero => rfl
  | succ turns => rw [protectLoop, if_neg (Nat.not_lt_of_le hx)]

/-- The last area of the range is split at its end; its first part gets the flags. -/
theorem Shape.protectLast {tail : Nat} {s₁ : AreaSet} {t₁ : KeyTree Nat} (h : s.Shape t)
    (hkeys : t.keys = pre ++ x :: post) (hstart : start ≤ (s.area x).start)
    (hcut : (s.area x).Cut end_)
    (hhalved : s.Halved pre x end_ tail post s₁ t₁)
    (hpre : ∀ y ∈ pre, (s.area y).Done start end_ pageFlags) :
    Protected start end_ pageFlags (pagesOf s.area t.keys)
      (pagesOf (s₁.setArea x { s₁.area x with pageFlags := pageFlags }).area t₁.keys) := by
  rw [← hhalved.pagesOf_eq hkeys hcut]
  refine Protected.setFlags ⟨by rw [hhalved.front]; exact hstart, by rw [hhalved.front]⟩
    (.of_done (forall_mem_setArea (·.Done start end_ pageFlags) (.inr rfl) fun y hy hyx => ?_))
  obtain rfl | hmem := hhalved.mem_rest hy hyx
  · rw [hhalved.back]
    exact .inl (.inr (le_refl _))
  · rw [hhalved.rest y hmem]
    obtain hy | hy := mem_append.mp hmem
    · exact hpre y hy
    · exact .inl (.inr (hcut.2.le.trans (h.end_le_start hkeys y hy)))

/-- The loop, from an area on that starts inside the range; those before it are done with. -/
theorem Shape.protectInside (m : Kmalloc) (h : s.Shape t)
    (hkeys : t.keys = pre ++ rest) (hrest : ∀ y ∈ rest, start ≤ (s.area y).start)
    (hturns : rest.length + 1 < turns) :
    ∃ t', (protectLoop m start end_ pageFlags turns s rest.head?).Shape t' ∧
      ((∀ y ∈ pre, (s.area y).Done start end_ pageFlags) →
        ((∃ y ∈ rest, (s.area y).Cut end_) → ∀ request live, m.answer request live ≠ none) →
        Protected start end_ pageFlags (pagesOf s.area t.keys)
          (pagesOf (protectLoop m start end_ pageFlags turns s rest.head?).area t'.keys)) := by
  induction rest generalizing s t pre turns with
  | nil =>
    rw [head?_nil, protectLoop_none]
    refine ⟨t, h, fun hpre _ => .of_done ?_⟩
    simpa [hkeys] using hpre
  | cons x post ih =>
    obtain ⟨turns, rfl⟩ : ∃ n, turns = n + 1 := ⟨turns - 1, by omega⟩
    have hturns' : post.length + 1 < turns := by simpa using hturns
    have hx := hrest x mem_cons_self
    have hne := h.ne_of_mem hkeys
    have hkeys' : t.keys = (pre ++ [x]) ++ post := by simp [hkeys]
    rw [head?_cons]
    by_cases hlt : (s.area x).start < end_
    · rw [protectLoop, if_pos hlt]
      by_cases hend : end_ < (s.area x).end_
      · have hcut : (s.area x).Cut end_ := ⟨hlt, hend⟩
        rw [if_pos (.inr hend), if_neg (Nat.not_lt_of_le hx)]
        obtain ⟨hnone, heq⟩ | ⟨tail, s₁, t₁, heq, h₁, hhalved⟩ :=
          h.areaSplitAt m hkeys hcut.1 hcut.2
        · -- without memory the loop goes on behind the area
          obtain ⟨t', h', -⟩ :=
            ih h.request hkeys' (fun y hy => hrest y (mem_cons_of_mem _ hy)) hturns'
          simp only [heq, (h.neighbours hkeys).2]
          refine ⟨t', h', fun _ hserved => absurd hnone ?_⟩
          exact hserved ⟨x, mem_cons_self, hcut⟩ _ _
        · have hstart₁ : ¬ (s₁.area x).start < start := by
            rw [hhalved.front]
            exact Nat.not_lt_of_le hx
          have h₂ := h₁.setArea (x := x)
            (a := { s₁.area x with pageFlags := pageFlags }) (le_refl _)
            (le_refl _) (h₁.nonempty x (by simp [hhalved.keys])) rfl
          -- the second part starts behind the range, so the loop stops there
          have htail : tail ≠ x := h₁.ne_of_mem hhalved.keys tail (by simp)
          have hbehind :
              end_ ≤ ((s₁.setArea x { s₁.area x with pageFlags := pageFlags }).area
                tail).start := by
            rw [setArea_of_ne htail, hhalved.back]
          have hnext :
              (s₁.setArea x { s₁.area x with pageFlags := pageFlags }).next x = some tail :=
            (h₂.neighbours hhalved.keys).2
          simp only [heq, if_neg hstart₁, hnext, protectLoop_behind m hbehind]
          exact ⟨t₁, h₂, fun hpre _ => h.protectLast hkeys hx hcut hhalved hpre⟩
      · rw [if_neg (show ¬ ((s.area x).start < start ∨ end_ < (s.area x).end_) by omega)]
        have h₁ := h.setArea (x := x) (a := { s.area x with pageFlags := pageFlags }) (le_refl _)
          (le_refl _) (h.nonempty x (by simp [hkeys])) rfl
        have hsame :
            ∀ y ∈ pre ++ post,
              (s.setArea x { s.area x with pageFlags := pageFlags }).area y = s.area y :=
          fun y hy => setArea_of_ne (hne y hy) _
        obtain ⟨t', h', hpages⟩ := ih h₁ hkeys'
          (fun y hy => by rw [hsame y (by simp [hy])]; exact hrest y (by simp [hy])) hturns'
        have hnext : (s.setArea x { s.area x with pageFlags := pageFlags }).next x = post.head? :=
          (h₁.neighbours hkeys).2
        simp only [hnext]
        refine ⟨t', h', fun hpre hserved => .setFlags ⟨hx, by omega⟩ (hpages ?_ ?_)⟩
        · exact forall_mem_setArea (·.Done start end_ pageFlags) (.inr rfl) fun y hy hyx =>
            hpre y (by simpa [hyx] using hy)
        · rintro ⟨y, hy, hcut⟩
          rw [hsame y (by simp [hy])] at hcut
          exact hserved ⟨y, mem_cons_of_mem _ hy, hcut⟩
    · rw [protectLoop_behind m (Nat.le_of_not_lt hlt)]
      have hmisses : ∀ y ∈ x :: post, (s.area y).Misses start end_ :=
        h.misses_behind hkeys (Nat.le_of_not_lt hlt)
      exact ⟨t, h, fun hpre _ => .of_done
        (hkeys ▸ forall_mem_append.mpr ⟨hpre, fun y hy => .inl (hmisses y hy)⟩)⟩

/-- `process_protect_area` keeps tree and list, and changes the flags of its range. -/
private theorem Shape.processProtectArea (h : s.Shape t) (m : Kmalloc) (hrange : start < end_)
    (pageFlags : UInt64) :
    ∃ t', (s.processProtectArea m start end_ pageFlags).Shape t' ∧
      (((∃ y ∈ s.areaList, (s.area y).Cut start ∨ (s.area y).Cut end_) →
        ∀ request live, m.answer request live ≠ none) →
        Protected start end_ pageFlags s.mapped
          (s.processProtectArea m start end_ pageFlags).mapped) := by
  obtain ⟨pre, post, hkeys, hpre, hpost⟩ := h.exists_split start
  have hturns : post.length + 1 < s.live.length + 2 := by
    have hle := h.length_le
    rw [hkeys, length_append] at hle
    omega
  have hdone : ∀ y ∈ pre, (s.area y).Done start end_ pageFlags :=
    fun y hy => .inl (.inl (hpre y hy))
  have hmem : ∀ y ∈ post, y ∈ s.areaList := fun y hy => by simp [h.areaList_eq, hkeys, hy]
  rw [AreaSet.processProtectArea, if_neg (Nat.not_le_of_lt hrange),
    h.areaFirstEndingAfter hkeys hpre hpost]
  suffices hloop :
      ∃ t', (protectLoop m start end_ pageFlags (s.live.length + 3) s post.head?).Shape t' ∧
      (((∃ y ∈ s.areaList, (s.area y).Cut start ∨ (s.area y).Cut end_) →
        ∀ request live, m.answer request live ≠ none) →
        Protected start end_ pageFlags (pagesOf s.area t.keys)
          (pagesOf (protectLoop m start end_ pageFlags (s.live.length + 3) s post.head?).area
            t'.keys)) by
    obtain ⟨t', h', hpages⟩ := hloop
    refine ⟨t', h', fun hserved => ?_⟩
    rw [h.mapped_eq, h'.mapped_eq]
    exact hpages hserved
  -- only the first area can start before the range
  by_cases hfirst : ∀ y ∈ post, start ≤ (s.area y).start
  · obtain ⟨t', h', hpages⟩ := h.protectInside m hkeys hfirst (Nat.lt_succ_of_lt hturns)
    refine ⟨t', h', fun hserved => hpages hdone ?_⟩
    rintro ⟨y, hy, hcut⟩
    exact hserved ⟨y, hmem y hy, .inr hcut⟩
  cases post with
  | nil => simp at hfirst
  | cons x post =>
    have hxend := hpost x mem_cons_self
    have hbehind := h.start_behind hkeys hxend
    have hx : (s.area x).start < start := by
      by_contra hge
      exact hfirst (forall_mem_cons.mpr ⟨Nat.le_of_not_lt hge, fun y hy => (hbehind y hy).le⟩)
    have hcut : (s.area x).Cut start := ⟨hx, hxend⟩
    rw [head?_cons, protectLoop, if_pos (hx.trans hrange), if_pos (.inl hx), if_pos hx]
    obtain ⟨hnone, heq⟩ | ⟨tail, s₁, t₁, heq, h₁, hhalved⟩ := h.areaSplitAt m hkeys hcut.1 hcut.2
    · -- without memory the area stays as it is
      have hkeys' : t.keys = (pre ++ [x]) ++ post := by simp [hkeys]
      obtain ⟨t', h', -⟩ := h.request.protectInside m hkeys' (fun y hy => (hbehind y hy).le)
        (Nat.lt_of_succ_lt hturns)
      simp only [heq, (h.neighbours hkeys).2]
      refine ⟨t', h', fun hserved => absurd hnone ?_⟩
      exact hserved ⟨x, hmem x mem_cons_self, .inl hcut⟩ _ _
    · have hstart₁ : (s₁.area x).start < start := by
        rw [hhalved.front]
        exact hx
      have hkeys₁' : t₁.keys = (pre ++ [x]) ++ (tail :: post) := by simp [hhalved.keys]
      have hrest : ∀ y ∈ tail :: post, start ≤ (s₁.area y).start := by
        refine forall_mem_cons.mpr ⟨by rw [hhalved.back], fun y hy => ?_⟩
        rw [hhalved.rest y (by simp [hy])]
        exact (hbehind y hy).le
      obtain ⟨t', h', hpages⟩ := h₁.protectInside m hkeys₁' hrest hturns
      simp only [heq, if_pos hstart₁]
      refine ⟨t', h', fun hserved => ?_⟩
      rw [← hhalved.pagesOf_eq hkeys hcut]
      refine hpages (forall_mem_append.mpr ⟨fun y hy => ?_, forall_mem_singleton.mpr ?_⟩)
        fun _ => hserved ⟨x, hmem x mem_cons_self, .inl hcut⟩
      · rw [hhalved.rest y (by simp [hy])]
        exact hdone y hy
      · rw [hhalved.front]
        exact .inl (.inl (le_refl _))

end AreaSet

/-! ## Sequences of calls -/

inductive AreaCall where
  | map (start end_ : Nat) (pageFlags : UInt64) (kind : UInt32) (file : Option Nat)
      (offset : UInt64)
  | unmap (start end_ : Nat)
  | protect (start end_ : Nat) (pageFlags : UInt64)

/-- A call with its answers from `kmalloc`. -/
structure ServedCall where
  memory : Kmalloc
  call : AreaCall

namespace AreaSet

/-- What a call returns, and the set after it. -/
def call (s : AreaSet) (c : ServedCall) : Int × AreaSet := match c.call with
  | .map start end_ pageFlags kind file offset =>
    s.processMapArea c.memory start end_ pageFlags kind file offset
  | .unmap start end_ => (0, s.processUnmapArea c.memory start end_)
  | .protect start end_ pageFlags => (0, s.processProtectArea c.memory start end_ pageFlags)

def step (s : AreaSet) (c : ServedCall) : Option AreaSet := some (s.call c).2

/-- The tree and the list hold the same areas in the same order, as a search tree by start and a
    heap on the priorities; the areas are not empty and do not overlap. -/
def Sound (s : AreaSet) : Prop := ∃ t, s.Shape t

/-- The call changes the map of memory at the addresses of its range, and there as it should. -/
def Exact (s : AreaSet) (c : ServedCall) : Prop := match c.call with
  | .map start end_ pageFlags kind file offset =>
    if end_ ≤ start then (s.call c).1 = -1 ∧ (s.call c).2.mapped = s.mapped
    else (s.call c).1 = 0 ∧
      Mapped start end_ pageFlags kind file offset s.mapped (s.call c).2.mapped ∨
      (s.call c).1 = -1 ∧ Unmapped start end_ s.mapped (s.call c).2.mapped
  | .unmap start end_ => Unmapped start end_ s.mapped (s.call c).2.mapped
  | .protect start end_ pageFlags => Protected start end_ pageFlags s.mapped (s.call c).2.mapped

/-- There is memory for the areas that the call has to split. -/
def SplitsServed (s : AreaSet) (c : ServedCall) : Prop := match c.call with
  | .map start end_ .. => s.HoleServed c.memory start end_
  | .unmap start end_ => s.HoleServed c.memory start end_
  | .protect start end_ _ => (∃ y ∈ s.areaList, (s.area y).Cut start ∨ (s.area y).Cut end_) →
      ∀ request live, c.memory.answer request live ≠ none

end AreaSet

private theorem not_inRange_of_le (h : end_ ≤ start) (a : Nat) : ¬ inRange start end_ a := by
  unfold inRange
  omega

private theorem AreaSet.Shape.call (h : s.Shape t) (c : ServedCall) :
    (s.call c).2.Sound ∧ (s.SplitsServed c → s.Exact c) := by
  obtain ⟨m, call⟩ := c
  cases call with
  | map start end_ pageFlags kind file offset =>
    simp only [AreaSet.call, AreaSet.SplitsServed, AreaSet.Exact]
    by_cases hrange : end_ ≤ start
    · rw [if_pos hrange, AreaSet.processMapArea, if_pos hrange]
      exact ⟨⟨t, h⟩, fun _ => ⟨rfl, rfl⟩⟩
    · obtain ⟨t', h', hexact⟩ :=
        h.processMapArea m (Nat.lt_of_not_le hrange) pageFlags kind file offset
      rw [if_neg hrange]
      exact ⟨⟨t', h'⟩, hexact⟩
  | unmap start end_ =>
    simp only [AreaSet.call, AreaSet.SplitsServed, AreaSet.Exact]
    by_cases hrange : end_ ≤ start
    · rw [AreaSet.processUnmapArea, if_pos hrange]
      exact ⟨⟨t, h⟩, fun _ a => by rw [if_neg (not_inRange_of_le hrange a)]⟩
    · obtain ⟨t', h', hclears⟩ := h.processUnmapArea m (Nat.lt_of_not_le hrange)
      refine ⟨⟨t', h'⟩, fun hserved => ?_⟩
      rw [h'.mapped_eq]
      exact hclears.unmapped hserved
  | protect start end_ pageFlags =>
    simp only [AreaSet.call, AreaSet.SplitsServed, AreaSet.Exact]
    by_cases hrange : end_ ≤ start
    · rw [AreaSet.processProtectArea, if_pos hrange]
      exact ⟨⟨t, h⟩, fun _ a => by rw [if_neg (not_inRange_of_le hrange a)]⟩
    · obtain ⟨t', h', hexact⟩ := h.processProtectArea m (Nat.lt_of_not_le hrange) pageFlags
      exact ⟨⟨t', h'⟩, hexact⟩

private theorem noAreas_shape : noAreas.Shape .leaf :=
  ⟨⟨rfl, trivial⟩, trivial, trivial, rfl, by simp, by simp, by simp⟩

/-- After any calls the set is sound. If there was memory for each area that a call had to split,
    each call changed the map of memory exactly as it should. -/
theorem AreaSet.sound_of_run {calls : List ServedCall} {s : AreaSet}
    (hrun : run AreaSet.step noAreas calls = some s) :
    s.Sound ∧ (Always AreaSet.step AreaSet.SplitsServed noAreas calls →
      Always AreaSet.step AreaSet.Exact noAreas calls) := by
  -- soundness needs no condition, so it is carried along by itself
  have hsound :
      ∀ s c s', AreaSet.Sound s → True → AreaSet.step s c = some s' → AreaSet.Sound s' := by
    rintro s c s' ⟨t, h⟩ - hstep
    obtain rfl := Option.some.inj hstep
    exact (h.call c).1
  have hinit : noAreas.Sound := ⟨.leaf, noAreas_shape⟩
  refine ⟨run_invariant hsound hinit (.of_forall (fun _ _ _ => trivial) _) hrun, fun hserved => ?_⟩
  exact Always.mono (fun s c s' h _ => hsound s c s' h trivial)
    (fun s c ⟨t, h⟩ => (h.call c).2) hinit hserved

private theorem AreaSet.splitsServed_of_answer (s : AreaSet) {c : ServedCall}
    (h : ∀ request live, c.memory.answer request live ≠ none) : s.SplitsServed c := by
  obtain ⟨m, call⟩ := c
  cases call with
  | map => exact fun _ => h _ _
  | unmap => exact fun _ => h _ _
  | protect => exact fun _ => h

/-- Memory that does not run out. -/
def ampleMemory : Kmalloc where
  answer _ live := some (live.sum + 16)
  unused := by
    intro _ live x hx hmem
    have hle := single_le_sum (fun y _ => Nat.zero_le y) x hmem
    have heq := some.inj hx
    omega

def noMemory : Kmalloc where
  answer _ _ := none
  unused := by simp

/-- Three pages of a file are mapped, and the one in the middle is taken out. -/
def holeCalls (m : Kmalloc) : List ServedCall :=
  [⟨ampleMemory, .map 0 0x3000 5 0 (some 7) 0⟩, ⟨m, .unmap 0x1000 0x2000⟩]

/-- Three pages of a file are mapped, and the one in the middle gets other flags. -/
def protectCalls (m : Kmalloc) : List ServedCall :=
  [⟨ampleMemory, .map 0 0x3000 5 0 (some 7) 0⟩, ⟨m, .protect 0x1000 0x2000 7⟩]

/-- A hole in the middle of an area, with memory for the second part. -/
theorem holeCalls_exact : ∃ s, run AreaSet.step noAreas (holeCalls ampleMemory) = some s ∧ s.Sound ∧
    Always AreaSet.step AreaSet.SplitsServed noAreas (holeCalls ampleMemory) ∧
    Always AreaSet.step AreaSet.Exact noAreas (holeCalls ampleMemory) := by
  have hample : ∀ request live, ampleMemory.answer request live ≠ none := by simp [ampleMemory]
  have hserved : Always AreaSet.step AreaSet.SplitsServed noAreas (holeCalls ampleMemory) :=
    ⟨AreaSet.splitsServed_of_answer _ hample, fun _ _ =>
      ⟨AreaSet.splitsServed_of_answer _ hample, fun _ _ => trivial⟩⟩
  obtain ⟨s, hrun⟩ : ∃ s, run AreaSet.step noAreas (holeCalls ampleMemory) = some s := ⟨_, rfl⟩
  exact ⟨s, hrun, (AreaSet.sound_of_run hrun).1, hserved, (AreaSet.sound_of_run hrun).2 hserved⟩

/-- Without memory for the second part the last page goes too, and the page that was to be protected
    keeps its flags. -/
theorem noMemory_not_exact : ¬ Always AreaSet.step AreaSet.Exact noAreas (holeCalls noMemory) ∧
    ¬ Always AreaSet.step AreaSet.Exact noAreas (protectCalls noMemory) := by
  constructor
  · intro h
    have hlast := (h.2 _ rfl).1 0x2000
    revert hlast
    decide +kernel
  · intro h
    have hmiddle := (h.2 _ rfl).1 0x1000
    revert hmiddle
    decide +kernel

end Tunix.Core
