import Tunix.ForStd.Except
import Tunix.ForStd.Run
import Tunix.ForStd.Sums
import Tunix.Kernel.Pmm

/-!
# Accounting of physical pages

The counter of free pages is the number of clear bits, a free page has no references, and the hint
is a page number. `pmm_init` brings this about for every memory map that it accepts and every call
keeps it, so that `pmm_alloc_page` finds a page whenever the counter is not zero. The page it finds
can be the page at address 0, which the caller takes for a failure, but only after
`pmm_release_reserved` has been asked to release that page (`Pmm.accounted_of_calls`).
-/

namespace Tunix.Mm

open Steps List Option Except Pmm

/-! ## Counting -/

/-- The number of free pages. -/
def Pmm.clearPages (s : Pmm) : Nat :=
  Finset.card {page ∈ Finset.range s.totalPages | s.bitTest page = false}

structure Pmm.Balanced (s : Pmm) : Prop where
  free : s.freePages = s.clearPages
  refs : ∀ page < s.totalPages, s.bitTest page = false → s.refcounts page = 0

section Counting

variable {s t : Pmm} {page : Nat}

/-- Setting the bit of a page. -/
@[simp] theorem Pmm.bitTest_bitSet (s : Pmm) (page p : Nat) :
    (s.bitSet page).bitTest p = (decide (p = page) || s.bitTest p) :=
  Bytes.bitTest_bitSet ..

/-- Clearing the bit of a page. -/
@[simp] theorem Pmm.bitTest_bitClear (s : Pmm) (page p : Nat) :
    (s.bitClear page).bitTest p = (!decide (p = page) && s.bitTest p) :=
  Bytes.bitTest_bitClear ..

/-- Of one page the bit and the references may change, if the counter follows. -/
theorem Pmm.Balanced.change (h : s.Balanced) (hpage : page < s.totalPages)
    (htotal : t.totalPages = s.totalPages) (hbits : ∀ p, p ≠ page → t.bitTest p = s.bitTest p)
    (hrefs : ∀ p, p ≠ page → t.refcounts p = s.refcounts p)
    (hself : t.bitTest page = false → t.refcounts page = 0)
    (hfree : t.freePages + (if s.bitTest page = false then 1 else 0) =
      s.freePages + if t.bitTest page = false then 1 else 0) : t.Balanced where
  free := by
    have hcount := Finset.card_filter_range_change hpage hbits (· = false)
    rw [h.free] at hfree
    rw [clearPages, htotal]
    unfold clearPages at hfree
    omega
  refs := by
    intro p hp hclear
    rw [htotal] at hp
    by_cases heq : p = page
    · subst heq
      exact hself hclear
    · rw [hrefs p heq]
      exact h.refs p hp (by rw [← hbits p heq, hclear])

/-- The counter and the references depend on nothing else. -/
theorem Pmm.Balanced.congr (h : s.Balanced) (hbitmap : t.bitmap = s.bitmap)
    (hrefs : t.refcounts = s.refcounts) (htotal : t.totalPages = s.totalPages)
    (hfree : t.freePages = s.freePages) : t.Balanced := by
  obtain ⟨bitmap, refcounts, totalPages, usablePages, freePages, nextHint, physical, bytes⟩ := t
  subst hbitmap hrefs htotal hfree
  exact ⟨h.free, h.refs⟩

/-- A free page is taken. -/
theorem Pmm.Balanced.take {hint : Nat} {refcounts : Nat → UInt32} (h : s.Balanced)
    (hpage : page < s.totalPages) (hclear : s.bitTest page = false)
    (hrefs : ∀ p, p ≠ page → refcounts p = s.refcounts p) :
    Balanced { s.bitSet page with
      refcounts, freePages := s.freePages - 1, nextHint := hint } := by
  have hpos : 0 < s.freePages := by
    rw [h.free]
    exact Finset.card_pos.mpr ⟨page, Finset.mem_filter.mpr ⟨Finset.mem_range.mpr hpage, hclear⟩⟩
  have hbits : ∀ p, (s.bitSet page).bitTest p = (decide (p = page) || s.bitTest p) :=
    s.bitTest_bitSet page
  refine h.change hpage rfl (fun p hp => ?_) hrefs ?_ ?_
  · exact (hbits p).trans (by simp [hp])
  · exact fun hset => absurd ((hbits page).symm.trans hset) (by simp)
  · have hset : (s.bitSet page).bitTest page = true := (hbits page).trans (by simp)
    change s.freePages - 1 + _ = s.freePages + if (s.bitSet page).bitTest page = false then 1 else 0
    rw [if_pos hclear, if_neg (by simp [hset])]
    omega

/-- A page that is taken, and has no references beside the one given back, becomes free. -/
theorem Pmm.Balanced.release {hint : Nat} {refcounts : Nat → UInt32} (h : s.Balanced)
    (hpage : page < s.totalPages) (hset : s.bitTest page = true)
    (hrefs : ∀ p, p ≠ page → refcounts p = s.refcounts p) (hself : refcounts page = 0) :
    Balanced { s.bitClear page with
      refcounts, freePages := s.freePages + 1, nextHint := hint } := by
  have hbits : ∀ p, (s.bitClear page).bitTest p = (!decide (p = page) && s.bitTest p) :=
    s.bitTest_bitClear page
  refine h.change hpage rfl (fun p hp => ?_) hrefs (fun _ => hself) ?_
  · exact (hbits p).trans (by simp [hp])
  · have hclear : (s.bitClear page).bitTest page = false := (hbits page).trans (by simp)
    change s.freePages + 1 + _ =
      s.freePages + if (s.bitClear page).bitTest page = false then 1 else 0
    rw [if_neg (by simp [hset]), if_pos hclear]

/-- A page that is taken may have any number of references. -/
theorem Pmm.Balanced.setRefcount (h : s.Balanced)
    (hset : page < s.totalPages → s.bitTest page = true) (count : UInt32) :
    (s.setRefcount page count).Balanced := by
  refine ⟨h.free, fun p hp hclear => ?_⟩
  have hne : p ≠ page := by
    rintro rfl
    exact absurd ((hset hp).symm.trans hclear) (by decide)
  exact (Function.update_of_ne hne _ _).trans (h.refs p hp hclear)

end Counting

/-! ## The calls -/

structure Pmm.Inv (s : Pmm) : Prop extends s.Balanced where
  hint : s.nextHint < s.totalPages
  limit : s.totalPages * pmmPageSize < 2 ^ 64

/-- A call keeps the invariant, and does not make the first page free. -/
structure Pmm.Keeps (s t : Pmm) : Prop where
  inv : t.Inv
  zero : s.bitTest 0 = true → t.bitTest 0 = true

section Calls

variable {s t : Pmm} {page : Nat} {address : UInt64}

private theorem Pmm.firstFree_some {first stop : Nat} (h : s.firstFree first stop = some page) :
    page < stop ∧ s.bitTest page = false := by
  have hmem := mem_of_find?_eq_some h
  have hclear := find?_some h
  rw [mem_range'_1] at hmem
  exact ⟨by omega, by simpa using hclear⟩

private theorem Pmm.firstFree_none {first stop : Nat} (h : s.firstFree first stop = none) :
    ∀ page, first ≤ page → page < stop → s.bitTest page = true := by
  intro page hfirst hstop
  have hall := find?_eq_none.mp h page (mem_range'_1.mpr ⟨hfirst, by omega⟩)
  simpa using hall

private theorem Pmm.takePage_zero (h : s.bitTest 0 = true) : (s.takePage page).bitTest 0 = true :=
  (s.bitTest_bitSet page 0).trans (by simp [h])

/-- `pmm_alloc_page` does not panic. If it returns 0 then no page is free, or the page at address 0
    is. -/
theorem Pmm.Inv.allocPage (h : s.Inv) : ∃ address t, s.allocPage = .ok (address, t) ∧ s.Keeps t ∧
    (address = 0 → s.freePages = 0 ∨ s.bitTest 0 = false) := by
  unfold Pmm.allocPage
  split_ifs with hfree
  · exact ⟨0, s, rfl, ⟨h, id⟩, fun _ => .inl hfree⟩
  cases hfind : (s.firstFree s.nextHint s.totalPages).or (s.firstFree 0 s.nextHint) with
  | none =>
    -- then every page is taken, and the counter is zero
    obtain ⟨hhigh, hlow⟩ := or_eq_none_iff.mp hfind
    refine absurd ?_ hfree
    rw [h.free, clearPages, Finset.card_eq_zero, Finset.filter_eq_empty_iff]
    intro page hpage
    rw [Finset.mem_range] at hpage
    rcases lt_or_ge page s.nextHint with hlt | hge
    · simp [firstFree_none hlow page (Nat.zero_le _) hlt]
    · simp [firstFree_none hhigh page hge hpage]
  | some page =>
    have hpage : page < s.totalPages ∧ s.bitTest page = false := by
      rcases or_eq_some_iff.mp hfind with hhigh | ⟨-, hlow⟩
      · exact firstFree_some hhigh
      · obtain ⟨hlt, hclear⟩ := firstFree_some hlow
        exact ⟨hlt.trans h.hint, hclear⟩
    refine ⟨_, _, rfl,
      ⟨⟨h.toBalanced.take hpage.1 hpage.2 fun p hp => ?_, ?_, h.limit⟩, takePage_zero⟩, ?_⟩
    · exact Function.update_of_ne hp _ _
    · change (if page + 1 ≥ s.totalPages then 0 else page + 1) < s.totalPages
      split_ifs <;> omega
    · intro haddress
      have hlimit := h.limit
      have hlt : page * pmmPageSize < 2 ^ 64 :=
        lt_of_le_of_lt (Nat.mul_le_mul_right _ hpage.1.le) hlimit
      have hzero : page * pmmPageSize = 0 := by
        rw [← UInt64.toNat_inj, UInt64.toNat_ofNat_of_lt' hlt] at haddress
        exact haddress
      have hpage0 : page = 0 := by simpa [pmmPageSize] using hzero
      exact .inr (hpage0 ▸ hpage.2)

private theorem Pmm.findRun_some {count stride last rounds first found : Nat}
    (h : s.findRun count stride last rounds first = some found) :
    found + count ≤ last ∧ ∀ page ∈ range' found count, s.bitTest page = false := by
  induction rounds generalizing first with
  | zero => simp [findRun] at h
  | succ rounds ih =>
    unfold findRun at h
    split_ifs at h with hroom
    split at h
    · exact ih h
    next hnone =>
    obtain rfl := some.inj h
    exact ⟨hroom, fun page hpage => by simpa using find?_eq_none.mp hnone page hpage⟩

/-- What the search finds is aligned and not before its start. -/
theorem Pmm.findRun_dvd {count stride last rounds first found : Nat} (hstride : 0 < stride)
    (hfirst : stride ∣ first) (h : s.findRun count stride last rounds first = some found) :
    first ≤ found ∧ stride ∣ found := by
  induction rounds generalizing first with
  | zero => simp [findRun] at h
  | succ rounds ih =>
    unfold findRun at h
    split_ifs at h with hroom
    split at h
    next page hpage =>
      have hmod := Nat.mod_lt page hstride
      have hmem := mem_range'_1.mp (mem_of_find?_eq_some hpage)
      have hnext := ih (Nat.dvd_add (Nat.dvd_sub_mod page) (dvd_refl stride)) h
      exact ⟨by omega, hnext.2⟩
    · exact some.inj h ▸ ⟨le_refl first, hfirst⟩

/-- The search does not miss an aligned run of free pages: what it finds is no later. -/
theorem Pmm.findRun_le {count stride last rounds first found : Nat} (hstride : 0 < stride)
    (hrounds : last < first + rounds) (hle : first ≤ found) (hlast : found + count ≤ last)
    (hfound : stride ∣ found) (hfree : ∀ page ∈ range' found count, s.bitTest page = false) :
    ∃ earlier ≤ found, s.findRun count stride last rounds first = some earlier := by
  induction rounds generalizing first with
  | zero => omega
  | succ rounds ih =>
    rw [findRun, if_pos (by omega)]
    cases hpage : (range' first count).find? s.bitTest with
    | none => exact ⟨first, hle, rfl⟩
    | some page =>
      have hmod := Nat.mod_lt page hstride
      have hmem := mem_range'_1.mp (mem_of_find?_eq_some hpage)
      apply ih (by omega)
      -- a run that starts before the next place has the taken page in it
      by_contra hlow
      have hbefore := Nat.le_of_lt_add_of_dvd (Nat.lt_of_not_le hlow) hfound (Nat.dvd_sub_mod page)
      have hclear := hfree page (mem_range'_1.mpr (by omega))
      exact absurd hclear (by simp [find?_some hpage])

/-- Free pages in a run are counted. -/
theorem Pmm.Balanced.le_freePages {first count : Nat} (h : s.Balanced)
    (hlast : first + count ≤ s.totalPages)
    (hfree : ∀ page ∈ range' first count, s.bitTest page = false) : count ≤ s.freePages := by
  have hsub : (range' first count).toFinset ⊆
      {page ∈ Finset.range s.totalPages | s.bitTest page = false} := by
    intro page hpage
    have hpage := mem_toFinset.mp hpage
    have hrange := mem_range'_1.mp hpage
    exact Finset.mem_filter.mpr ⟨Finset.mem_range.mpr (by omega), hfree page hpage⟩
  have hcard := Finset.card_le_card hsub
  rw [toFinset_card_of_nodup nodup_range', length_range'] at hcard
  exact h.free ▸ hcard

/-- Where `count` pages with an alignment are free below a limit; page 0 is no such place. -/
def Pmm.freeRuns (s : Pmm) (count alignment limit : UInt64) : Set Nat :=
  {first | 0 < first ∧ strideOf alignment ∣ first ∧ first + count.toNat ≤ s.lastPage limit ∧
    ∀ page ∈ range' first count.toNat, s.bitTest page = false}

private theorem strideOf_pos (alignment : UInt64) : 0 < strideOf alignment := by
  unfold strideOf
  split_ifs with hlarge
  · rw [UInt64.toNat_div]
    exact Nat.div_pos (Nat.le_of_lt hlarge) (by decide)
  · decide

private theorem Pmm.bitTest_foldl_takePage (pages : List Nat) (p : Nat) :
    (pages.foldl takePage s).bitTest p = (decide (p ∈ pages) || s.bitTest p) := by
  induction pages generalizing s with
  | nil => simp
  | cons page pages ih =>
    have hpage : (s.takePage page).bitTest p = (decide (p = page) || s.bitTest p) :=
      s.bitTest_bitSet page p
    rw [foldl_cons, ih, hpage, ← Bool.or_assoc]
    congr 1
    simp [Bool.or_comm]

/-- Of sixteen pages the first three of each eight are taken. -/
def sixteenPages : Pmm := ⟨fun _ => 7, fun _ => 0, 16, 16, 10, 0, 0, 0⟩

private theorem Pmm.foldl_takePage_free (s : Pmm) (pages : List Nat) (free : Nat) :
    pages.foldl takePage { s with freePages := free } =
      { pages.foldl takePage s with freePages := free } := by
  induction pages generalizing s with
  | nil => rfl
  | cons page pages ih => exact ih (s.takePage page)

/-- Several free pages are taken, and then the counter is set. -/
theorem Pmm.Balanced.takeAll {pages : List Nat} (h : s.Balanced) (hnodup : pages.Nodup)
    (hpages : ∀ page ∈ pages, page < s.totalPages ∧ s.bitTest page = false) :
    Balanced { pages.foldl takePage s with freePages := s.freePages - pages.length } ∧
      (pages.foldl takePage s).nextHint = s.nextHint ∧
      (pages.foldl takePage s).totalPages = s.totalPages := by
  induction pages generalizing s with
  | nil => exact ⟨h, rfl, rfl⟩
  | cons page pages ih =>
    obtain ⟨hnew, hnodup⟩ := nodup_cons.mp hnodup
    obtain ⟨hpage, hclear⟩ := hpages page mem_cons_self
    have htaken : Balanced { s.takePage page with freePages := s.freePages - 1 } :=
      h.take hpage hclear fun p hp => Function.update_of_ne hp _ _
    have hrest := ih htaken hnodup fun p hp => by
      obtain ⟨hlt, hp'⟩ := hpages p (mem_cons_of_mem _ hp)
      have hne : p ≠ page := fun heq => hnew (heq ▸ hp)
      exact ⟨hlt, (s.bitTest_bitSet page p).trans (by simp [hne, hp'])⟩
    rw [foldl_takePage_free] at hrest
    rw [foldl_cons, length_cons, add_comm, ← Nat.sub_sub]
    exact hrest

private theorem Pmm.foldl_takePage_zero (pages : List Nat) (h : s.bitTest 0 = true) :
    (pages.foldl takePage s).bitTest 0 = true := by
  rw [bitTest_foldl_takePage, h, Bool.or_true]

private theorem Pmm.Inv.allocPagesBelow (h : s.Inv) (count alignment limit : UInt64) :
    s.Keeps (s.allocPagesBelow count alignment limit).2 := by
  have hlimit : s.lastPage limit ≤ s.totalPages := Nat.min_le_right ..
  unfold Pmm.allocPagesBelow
  dsimp only
  split_ifs
  · exact ⟨h, id⟩
  · exact ⟨h, id⟩
  · exact ⟨h, id⟩
  split
  · exact ⟨h, id⟩
  next found hfind =>
  obtain ⟨hlast, hclear⟩ := findRun_some hfind
  have hpages :
      ∀ page ∈ range' found count.toNat, page < s.totalPages ∧ s.bitTest page = false := by
    intro page hpage
    refine ⟨?_, hclear page hpage⟩
    rw [mem_range'_1] at hpage
    omega
  obtain ⟨hbalanced, hhint, htotal⟩ := h.toBalanced.takeAll nodup_range' hpages
  rw [length_range'] at hbalanced
  refine ⟨⟨hbalanced, ?_, ?_⟩, foldl_takePage_zero _⟩
  · rw [hhint, htotal]
    exact h.hint
  · rw [htotal]
    exact h.limit

private theorem page_lt (h : ¬ address.toNat ≥ s.totalPages * pmmPageSize) :
    address.toNat / pmmPageSize < s.totalPages :=
  Nat.div_lt_of_lt_mul (by rw [mul_comm]; exact Nat.lt_of_not_le h)

/-- Only address 0 itself is the start of page 0. -/
theorem page_ne_zero (hzero : address ≠ 0) (halign : address &&& 4095 = 0) :
    address.toNat / pmmPageSize ≠ 0 := by
  intro hpage
  refine hzero (UInt64.toNat_inj.mp ?_)
  have hmod : address.toNat % 4096 = 0 := by
    have hand := congrArg UInt64.toNat halign
    exact (Nat.and_two_pow_sub_one_eq_mod address.toNat 12).symm.trans hand
  rw [pmmPageSize] at hpage
  change address.toNat = 0
  omega

/-- Fewer or more references to a page that is taken. -/
theorem Pmm.Inv.setRefcount (h : s.Inv) (hset : s.bitTest page = true) (count : UInt32) :
    s.Keeps (s.setRefcount page count) := by
  exact ⟨⟨h.toBalanced.setRefcount (fun _ => hset) count, h.hint, h.limit⟩, id⟩

/-- A page that is released becomes the hint if it is below it. -/
theorem Pmm.Inv.release {refcounts : Nat → UInt32} (h : s.Inv)
    (hpage : page < s.totalPages) (hset : s.bitTest page = true)
    (hrefs : ∀ p, p ≠ page → refcounts p = s.refcounts p) (hself : refcounts page = 0) :
    Inv { s.bitClear page with
      refcounts
      freePages := s.freePages + 1
      nextHint := if page < s.nextHint then page else s.nextHint } := by
  refine ⟨h.toBalanced.release hpage hset hrefs hself, ?_, h.limit⟩
  change (if page < s.nextHint then page else s.nextHint) < s.totalPages
  split_ifs <;> omega

private theorem Pmm.bitClear_zero (hne : page ≠ 0) (h : s.bitTest 0 = true) :
    (s.bitClear page).bitTest 0 = true :=
  (s.bitTest_bitClear page 0).trans (by simp [h, hne.symm])

private theorem Pmm.Inv.freePage (h : s.Inv) (hfree : s.freePage address = .ok t) : s.Keeps t := by
  unfold Pmm.freePage at hfree
  dsimp only at hfree
  generalize hhint : (if _ < s.nextHint then _ else s.nextHint) = hint at hfree
  split_ifs at hfree with hzero hvalid hset hshared
  all_goals obtain rfl := ok.inj hfree
  · exact ⟨h, id⟩
  · exact h.setRefcount (by simpa using hset) _
  · subst hhint
    rw [not_or, not_not] at hvalid
    refine ⟨h.release (page_lt hvalid.2) (by simpa using hset) (fun p hp => ?_) ?_, fun hold => ?_⟩
    · exact Function.update_of_ne hp _ _
    · exact Function.update_self ..
    · exact bitClear_zero (page_ne_zero hzero hvalid.1) hold

private theorem Pmm.Inv.freePagesAt {count : UInt64} (h : s.Inv)
    (hfree : s.freePagesAt address count = .ok t) : s.Keeps t := by
  unfold Pmm.freePagesAt at hfree
  split_ifs at hfree
  · obtain rfl := ok.inj hfree
    exact ⟨h, id⟩
  generalize range count.toNat = indices at hfree
  induction indices generalizing s with
  | nil =>
    obtain rfl := ok.inj hfree
    exact ⟨h, id⟩
  | cons index rest ih =>
    rw [foldlM_cons] at hfree
    obtain ⟨u, hone, hfree⟩ := eq_ok_of_bind hfree
    have hkeeps := h.freePage hone
    have hrest := ih hkeeps.inv hfree
    exact ⟨hrest.inv, fun hzero => hrest.zero (hkeeps.zero hzero)⟩

private theorem Pmm.Inv.pageRef (h : s.Inv) (physical : UInt64) :
    s.Keeps (s.pageRef physical).2 := by
  unfold Pmm.pageRef
  dsimp only
  split_ifs with href
  · obtain ⟨halloc, -⟩ := href
    unfold pageIsAllocated at halloc
    split_ifs at halloc
    exact h.setRefcount halloc _
  · exact ⟨h, id⟩

/-- The loop of `pmm_release_reserved`; the first page stays as it is if it is not among the pages
    or has references. -/
theorem Pmm.Inv.releaseAll {pages : List Nat} {released : Nat} (h : s.Inv)
    (hpages : ∀ page ∈ pages, page < s.totalPages) :
    (pages.foldl releasePage (released, s)).2.Inv ∧
      (s.bitTest 0 = true → (0 ∈ pages → s.refcounts 0 ≠ 0) →
        (pages.foldl releasePage (released, s)).2.bitTest 0 = true) := by
  induction pages generalizing s released with
  | nil => exact ⟨h, fun hzero _ => hzero⟩
  | cons page pages ih =>
    have hpage := hpages page mem_cons_self
    have hrest := fun p hp => hpages p (mem_cons_of_mem page hp)
    rw [foldl_cons]
    unfold releasePage
    dsimp only
    split
    · obtain ⟨hinv, hzero⟩ := ih h hrest
      exact ⟨hinv, fun hset hrefs => hzero hset fun hmem => hrefs (mem_cons_of_mem _ hmem)⟩
    next hkeep =>
    rw [not_or, Bool.not_eq_true, Bool.not_eq_false', not_not] at hkeep
    obtain ⟨hset, hrefs⟩ := hkeep
    have hnext : Inv { s.bitClear page with
        freePages := s.freePages + 1
        nextHint := if page < s.nextHint then page else s.nextHint } :=
      h.release hpage hset (fun _ _ => rfl) hrefs
    obtain ⟨hinv, hzero⟩ := ih hnext hrest
    refine ⟨hinv, fun hset0 hrefs0 => hzero ?_ fun hmem => hrefs0 (mem_cons_of_mem _ hmem)⟩
    refine bitClear_zero ?_ hset0
    rintro rfl
    exact hrefs0 mem_cons_self hrefs

private theorem Pmm.Inv.releaseReserved (h : s.Inv) (physical length : UInt64) :
    (s.releaseReserved physical length).2.Inv ∧
      (s.bitTest 0 = true →
        ((s.reservedRange physical length).1 = 0 → 0 < (s.reservedRange physical length).2 →
          s.refcounts 0 ≠ 0) → (s.releaseReserved physical length).2.bitTest 0 = true) := by
  have hlast : (s.reservedRange physical length).2 ≤ s.totalPages := by
    unfold reservedRange
    split_ifs
    · exact Nat.zero_le _
    · exact min_le_right ..
  unfold Pmm.releaseReserved
  generalize s.reservedRange physical length = range at hlast
  obtain ⟨first, last⟩ := range
  have hpages : ∀ page ∈ range' first (last - first), page < s.totalPages := by
    intro page hpage
    rw [mem_range'_1] at hpage
    omega
  obtain ⟨hinv, hzero⟩ := h.releaseAll hpages
  refine ⟨hinv, fun hset hrefs => hzero hset fun hmem => hrefs ?_ ?_⟩
  all_goals
    rw [mem_range'_1] at hmem
    omega

end Calls

/-! ## The start -/

section Start

variable {s : Pmm} {total : Nat} {taken : List Nat}

private theorem measureRegion_highest (regions : List MemoryRegion) {acc : UInt64 × UInt64}
    (h : acc.1 ≤ directMapBytes) : (regions.foldl measureRegion acc).1 ≤ directMapBytes := by
  induction regions generalizing acc with
  | nil => exact h
  | cons region regions ih =>
    refine ih ?_
    unfold measureRegion
    dsimp only
    split_ifs
    all_goals first
      | exact h
      | exact UInt64.le_refl _
      | exact UInt64.not_lt.mp ‹_›

/-- Tracking tables are placed only above the low memory. -/
theorem placeTracking_ne_zero {totalPages trackingBytes : UInt64} {regions : List MemoryRegion}
    (h : placeTracking totalPages trackingBytes regions ≠ 0) :
    pmmLowMemoryReserve < totalPages * 4096 := by
  by_contra hsmall
  rw [UInt64.not_lt] at hsmall
  have hplace : ∀ best region, placeInRegion totalPages trackingBytes best region = best := by
    intro best region
    unfold placeInRegion
    split
    · rfl
    -- the region ends below the low memory limit, where it would start
    refine if_pos (.inl (UInt64.le_trans (b := pmmLowMemoryReserve) ?_ ?_))
    · split_ifs with hstop
      · exact hsmall
      · exact UInt64.le_trans (UInt64.not_lt.mp hstop) hsmall
    · split_ifs with hstart
      · exact UInt64.le_refl _
      · exact UInt64.not_lt.mp hstart
  refine h ?_
  clear h
  unfold placeTracking
  induction regions with
  | nil => rfl
  | cons region regions ih => rw [foldl_cons, hplace, ih]

/-- While memory is being added, no page has references. -/
structure Pmm.Adding (total : Nat) (s : Pmm) : Prop extends s.Balanced where
  total : s.totalPages = total
  blank : ∀ page, s.refcounts page = 0

private theorem Pmm.Adding.addPage (h : s.Adding total) (page : Nat) :
    (s.addPage page).Adding total := by
  unfold Pmm.addPage
  split_ifs with hset
  · exact ⟨h.toBalanced.release hset.1 hset.2 (fun _ _ => rfl) (h.blank page), h.total, h.blank⟩
  · exact h

private theorem Pmm.Adding.addRegions {highest : UInt64} (regions : List MemoryRegion)
    (h : s.Adding total) : (regions.foldl (addRegion highest) s).Adding total := by
  have hpages : ∀ (pages : List Nat) {s : Pmm}, s.Adding total →
      (pages.foldl Pmm.addPage s).Adding total := by
    intro pages
    induction pages with
    | nil => exact fun h => h
    | cons page pages ih => exact fun h => ih (h.addPage page)
  induction regions generalizing s with
  | nil => exact h
  | cons region regions ih =>
    refine ih ?_
    unfold addRegion
    split
    · exact h
    · exact hpages _ h

/-- While pages are being reserved: those in `taken` are. -/
structure Pmm.Reserving (total : Nat) (taken : List Nat) (s : Pmm) : Prop extends s.Balanced where
  taken : ∀ page ∈ taken, page < total → s.bitTest page = true
  total : s.totalPages = total

section

variable (h : s.Reserving total taken)
include h

private theorem Pmm.Reserving.reservePage (page : Nat) :
    (s.reservePage page).Reserving total (page :: taken) := by
  unfold Pmm.reservePage
  split_ifs with hfree
  · have hclear : s.bitTest page = false := by simpa using hfree.2
    refine ⟨h.toBalanced.take hfree.1 hclear fun _ _ => rfl, fun p hp hlt => ?_, h.total⟩
    have hbit := s.bitTest_bitSet page p
    rcases mem_cons.mp hp with rfl | hp
    · exact hbit.trans (by simp)
    · exact hbit.trans (by simp [h.taken p hp hlt])
  · refine ⟨h.toBalanced, fun p hp hlt => ?_, h.total⟩
    rcases mem_cons.mp hp with rfl | hp
    · simpa [h.total, hlt] using hfree
    · exact h.taken p hp hlt

private theorem Pmm.Reserving.mono {taken' : List Nat}
    (hsub : ∀ page ∈ taken', page ∈ taken) : s.Reserving total taken' :=
  ⟨h.toBalanced, fun page hpage => h.taken page (hsub page hpage), h.total⟩

private theorem Pmm.Reserving.reservePages (pages : List Nat) :
    (pages.foldl Pmm.reservePage s).Reserving total (pages ++ taken) := by
  induction pages generalizing s taken with
  | nil => exact h
  | cons page pages ih =>
    refine (ih (h.reservePage page)).mono fun p hp => ?_
    rw [cons_append, mem_cons, mem_append] at hp
    rw [mem_append, mem_cons]
    tauto

private theorem Pmm.Reserving.trackPages (pages : List Nat) :
    (pages.foldl trackPage s).Reserving total taken := by
  induction pages generalizing s with
  | nil => exact h
  | cons page pages ih =>
    refine ih ?_
    have hreserved := h.reservePage page
    -- the page that gets a reference is taken
    have hset := hreserved.taken page mem_cons_self
    rw [← hreserved.total] at hset
    exact ⟨hreserved.toBalanced.setRefcount hset 1,
      (hreserved.mono fun _ => mem_cons_of_mem _).taken, hreserved.total⟩

end

/-- Every memory map that is accepted gives an allocator whose books are in order. -/
theorem pmmInit_inv {regions : List MemoryRegion} (h : pmmInit regions = .ok s) :
    s.Inv ∧ s.bitTest 0 = true := by
  unfold pmmInit at h
  have hhighest : (regions.foldl measureRegion (0, 0)).1 ≤ directMapBytes :=
    measureRegion_highest regions (by decide)
  generalize regions.foldl measureRegion (0, 0) = measured at h hhighest
  obtain ⟨highest, usable⟩ := measured
  dsimp only at h hhighest
  generalize htotal : (highest + 4095) / 4096 = totalPages at h
  generalize pageUp _ = trackingBytes at h
  split_ifs at h with husable hplace
  have hlow := placeTracking_ne_zero hplace
  generalize placeTracking totalPages trackingBytes regions = physical at h
  -- the sizes do not overflow, since the direct map is far smaller than the address space
  have hsize : totalPages.toNat * 4096 < 2 ^ 64 ∧ 256 < totalPages.toNat := by
    have hlow' : 0x100000 < totalPages.toNat * 4096 % 2 ^ 64 := by
      exact hlow
    rw [← htotal, UInt64.toNat_div, UInt64.toNat_add] at hlow' ⊢
    simp only [UInt64.reduceToNat] at hlow' ⊢
    omega
  have hadding : Adding totalPages.toNat
      { bitmap := fun _ => 0xFF, refcounts := fun _ => 0, totalPages := totalPages.toNat
        usablePages := 0, freePages := 0, nextHint := 0
        trackingPhysical := physical, trackingBytes } := by
    have hset : ∀ page, Bytes.bitTest (fun _ => 0xFF) page = true := by
      intro page
      have hbits : ∀ k < 8, (0xFF : UInt8).toBitVec.getLsbD k = true := by decide
      rw [Bytes.bitTest_eq]
      exact hbits _ (Nat.mod_lt _ (by decide))
    refine ⟨⟨?_, fun _ _ _ => rfl⟩, rfl, fun _ => rfl⟩
    rw [eq_comm, clearPages, Finset.card_eq_zero, Finset.filter_eq_empty_iff]
    exact fun page _ => by simp [bitTest, hset]
  have hadded : (regions.foldl (addRegion highest) _).Adding _ := hadding.addRegions regions
  generalize regions.foldl _ _ = added at h hadded
  have hstart : Reserving totalPages.toNat [] { added with usablePages := added.freePages } :=
    ⟨hadded.toBalanced.congr rfl rfl rfl rfl, fun _ hp => absurd hp not_mem_nil, hadded.total⟩
  have hlowPages := hstart.reservePages (range (pmmLowMemoryReserve.toNat / pmmPageSize))
  have htracked := hlowPages.trackPages (range' (physical.toNat / pmmPageSize)
    ((physical + trackingBytes).toNat / pmmPageSize - physical.toNat / pmmPageSize))
  obtain rfl := ok.inj h
  refine ⟨⟨htracked.toBalanced.congr rfl rfl rfl rfl, ?_, ?_⟩, ?_⟩
  · rw [htracked.total]
    exact hsize.2
  · rw [htracked.total]
    exact hsize.1
  · refine htracked.taken 0 ?_ (by omega)
    decide

end Start

/-! ## Runs -/

/-- The calls of the allocator's users. -/
inductive PmmCall
  | allocPage
  | allocPagesBelow (count alignmentBytes limit : UInt64)
  | pageRef (physical : UInt64)
  | freePage (address : UInt64)
  | freePages (address count : UInt64)
  | releaseReserved (physical length : UInt64)

/-- The state after a call that does not panic. -/
def Pmm.step (s : Pmm) : PmmCall → Option Pmm
  | .allocPage => s.allocPage.toOption.map Prod.snd
  | .allocPagesBelow count alignmentBytes limit =>
    some (s.allocPagesBelow count alignmentBytes limit).2
  | .pageRef physical => some (s.pageRef physical).2
  | .freePage address => (s.freePage address).toOption
  | .freePages address count => (s.freePagesAt address count).toOption
  | .releaseReserved physical length => some (s.releaseReserved physical length).2

/-- The call does not release the page at address 0. -/
def Pmm.LeavesZero (s : Pmm) : PmmCall → Prop
  | .releaseReserved physical length => (s.reservedRange physical length).1 = 0 →
      0 < (s.reservedRange physical length).2 → s.refcounts 0 ≠ 0
  | _ => True

private theorem Pmm.step_inv {s t : Pmm} {call : PmmCall} (h : s.Inv)
    (hstep : s.step call = some t) :
    t.Inv ∧ (s.LeavesZero call → s.bitTest 0 = true → t.bitTest 0 = true) := by
  have hkeeps : s.Keeps t → t.Inv ∧ (s.LeavesZero call → s.bitTest 0 = true → t.bitTest 0 = true) :=
    fun hkeeps => ⟨hkeeps.inv, fun _ => hkeeps.zero⟩
  cases call with
  | allocPage =>
    obtain ⟨address, u, hok, hkeep, -⟩ := h.allocPage
    simp only [step, hok, Except.toOption, map_some, some.injEq] at hstep
    exact hkeeps (hstep ▸ hkeep)
  | allocPagesBelow count alignmentBytes limit =>
    obtain rfl := some.inj hstep
    exact hkeeps (h.allocPagesBelow ..)
  | pageRef physical =>
    obtain rfl := some.inj hstep
    exact hkeeps (h.pageRef physical)
  | freePage address => exact hkeeps (h.freePage (eq_ok_of_toOption hstep))
  | freePages address count => exact hkeeps (h.freePagesAt (eq_ok_of_toOption hstep))
  | releaseReserved physical length =>
    obtain rfl := some.inj hstep
    obtain ⟨hinv, hzero⟩ := h.releaseReserved physical length
    exact ⟨hinv, fun hleaves hset => hzero hset hleaves⟩

/-- The books are in order, and `pmm_alloc_page` fails only if no page is free. -/
structure Pmm.Accounted (s : Pmm) : Prop where
  free : s.freePages = Finset.card {page ∈ Finset.range s.totalPages | s.bitTest page = false}
  refs : ∀ page < s.totalPages, s.bitTest page = false → s.refcounts page = 0
  hint : s.nextHint < s.totalPages
  alloc : ∃ address t, s.allocPage = .ok (address, t) ∧
    (address = 0 → ∀ page < s.totalPages, s.bitTest page = true)

private theorem Pmm.Inv.accounted {s : Pmm} (h : s.Inv) (hzero : s.bitTest 0 = true) :
    s.Accounted where
  free := h.free
  refs := h.refs
  hint := h.hint
  alloc := by
    obtain ⟨address, t, halloc, -, hnull⟩ := h.allocPage
    refine ⟨address, t, halloc, fun haddress page hpage => ?_⟩
    rcases hnull haddress with hfree | hclear
    · rw [h.free, clearPages, Finset.card_eq_zero, Finset.filter_eq_empty_iff] at hfree
      simpa using hfree (Finset.mem_range.mpr hpage)
    · exact absurd (hzero.symm.trans hclear) (by decide)

/-- After the start with any memory map and any calls that leave the page at address 0 alone, the
    books are in order. -/
theorem Pmm.accounted_of_calls {regions : List MemoryRegion} {s t : Pmm} {calls : List PmmCall}
    (hinit : pmmInit regions = .ok s) (hleaves : Always Pmm.step Pmm.LeavesZero s calls)
    (hrun : run Pmm.step s calls = some t) : t.Accounted := by
  have hstep : ∀ (s : Pmm) call t, s.Inv ∧ s.bitTest 0 = true → s.LeavesZero call →
      s.step call = some t → t.Inv ∧ t.bitTest 0 = true := by
    rintro s call t ⟨hinv, hzero⟩ hleaves hstep
    obtain ⟨hinv', hkeep⟩ := Pmm.step_inv hinv hstep
    exact ⟨hinv', hkeep hleaves hzero⟩
  obtain ⟨hinv, hzero⟩ := run_invariant hstep (pmmInit_inv hinit) hleaves hrun
  exact hinv.accounted hzero

/-- A memory map that describes the same memory twice. -/
def smallMemory : List MemoryRegion := [⟨0, 0x102000, true⟩, ⟨0, 0x102000, true⟩]

/-- A page is taken, and a reserved range is given back. -/
theorem smallMemory_accounted : ∃ s t, pmmInit smallMemory = .ok s ∧
    Always Pmm.step Pmm.LeavesZero s [.allocPagesBelow 1 0x1000 0, .releaseReserved 0x5000 0x2000] ∧
    run Pmm.step s [.allocPagesBelow 1 0x1000 0, .releaseReserved 0x5000 0x2000] = some t ∧
    t.Accounted := by
  obtain ⟨s, hs⟩ : ∃ s, (pmmInit smallMemory).toOption = some s :=
    Option.isSome_iff_exists.mp (by decide)
  have hinit := Except.eq_ok_of_toOption hs
  have hleaves : Always Pmm.step Pmm.LeavesZero s
      [.allocPagesBelow 1 0x1000 0, .releaseReserved 0x5000 0x2000] :=
    ⟨trivial, fun _ _ =>
      ⟨fun hfirst => absurd hfirst (by simp [Pmm.reservedRange, pmmPageSize]), fun _ _ => trivial⟩⟩
  exact ⟨s, _, hinit, hleaves, rfl, Pmm.accounted_of_calls hinit hleaves rfl⟩

/-- Once it has been released, the page at address 0 is what `pmm_alloc_page` returns. -/
theorem smallMemory_null : ∃ s t, pmmInit smallMemory = .ok s ∧
    run Pmm.step s [.releaseReserved 0 4096] = some t ∧ t.bitTest 0 = false ∧ 0 < t.totalPages ∧
    t.freePages ≠ 0 ∧ t.allocPage.toOption.map Prod.fst = some 0 := by
  have hrun : (pmmInit smallMemory).toOption.any (fun s =>
      let t := (s.releaseReserved 0 4096).2
      !t.bitTest 0 && decide (0 < t.totalPages) && t.freePages != 0 &&
        t.allocPage.toOption.map Prod.fst == some 0) = true := by
    decide +kernel
  cases hinit : pmmInit smallMemory with
  | error panic => simp [hinit, Except.toOption] at hrun
  | ok s =>
    refine ⟨s, _, rfl, rfl, ?_⟩
    simpa [hinit, Except.toOption, and_assoc] using hrun

end Tunix.Mm
