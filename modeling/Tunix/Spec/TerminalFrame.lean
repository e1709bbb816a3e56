import Mathlib.Tactic.SplitIfs
import Tunix.Kernel.Terminal

/-!
# What printing changes on a screen

`printing_frame` says what a code point does to a screen whose cursor stands outside the scroll
region, and that nothing outside the region changes while the cursor is inside. The region scrolls
whenever the cursor is found on the row below it, also when it was there before.
-/

namespace Tunix.Tty
namespace Screen

variable {layout : Layout} {s t : Screen} {codepoint : UInt32}

/-- The cursor and the region are on the screen. -/
structure Valid (layout : Layout) (s : Screen) : Prop where
  row_lt : s.row < layout.rows
  bottom_lt : s.scrollBottom < layout.rows
  top_le : s.scrollTop ≤ s.scrollBottom

/-- A row of the region. -/
def InRegion (s : Screen) (row : Nat) : Prop := s.scrollTop ≤ row ∧ row ≤ s.scrollBottom

/-- Only the cell under the cursor is another one, and the cursor goes one column on. -/
def PrintsInPlace (s t : Screen) : Prop := ∃ cell, t = { s with
    cells := Function.update s.cells s.row (Function.update (s.cells s.row) s.col cell)
    col := s.col + 1 }

/-- The region is the same, and no row outside it is another one. -/
structure Scrolls (s t : Screen) : Prop where
  top : t.scrollTop = s.scrollTop
  bottom : t.scrollBottom = s.scrollBottom
  cells : ∀ row, ¬s.InRegion row → t.cells row = s.cells row

/-- One change behind another. -/
theorem Scrolls.trans {u : Screen} (h : s.Scrolls t) (h' : t.Scrolls u) : s.Scrolls u where
  top := h'.top.trans h.top
  bottom := h'.bottom.trans h.bottom
  cells row hrow := by
    have hrow' : ¬t.InRegion row := by
      unfold InRegion
      rw [h.top, h.bottom]
      exact hrow
    rw [h'.cells row hrow', h.cells row hrow]

private theorem scrollIfNeeded_of_ne (hrow : s.row < layout.rows)
    (hne : s.row ≠ s.scrollBottom + 1) :
    s.scrollIfNeeded layout = s := by
  rw [scrollIfNeeded, if_neg hne, if_neg (Nat.not_le.mpr hrow)]

/-- The region scrolls when the cursor is one row below it, and takes the cursor in. -/
theorem scrolls_scrollIfNeeded (s : Screen) (hbottom : s.scrollBottom < layout.rows)
    (htop : s.scrollTop ≤ s.scrollBottom)
    (hrow : s.row ≤ s.scrollBottom + 1) :
    s.Scrolls (s.scrollIfNeeded layout) ∧
      (s.scrollIfNeeded layout).row = min s.row s.scrollBottom := by
  by_cases hscroll : s.row = s.scrollBottom + 1
  · have hmin : min s.scrollBottom (layout.rows - 1) = s.scrollBottom := by omega
    rw [scrollIfNeeded, if_pos hscroll, scrollRegionUp, hmin, if_neg (Nat.not_lt.mpr htop)]
    refine ⟨⟨rfl, rfl, fun row hout => if_pos ?_⟩, ?_⟩
    · unfold InRegion at hout
      omega
    · show s.scrollBottom = _
      omega
  · rw [scrollIfNeeded_of_ne (by omega) hscroll]
    exact ⟨⟨rfl, rfl, fun _ _ => rfl⟩, by omega⟩

/-- Before the scrolling the cursor goes down by one row at most, and only its own row changes. -/
theorem type_scrolls (layout : Layout) (codepoint : UInt32) (hin : s.InRegion s.row) :
    s.Scrolls (s.type layout codepoint) ∧ (s.type layout codepoint).row ≤ s.row + 1 := by
  have hwrite : ∀ row, ¬s.InRegion row → (s.write codepoint).cells row = s.cells row := by
    intro row hrow
    apply Function.update_of_ne
    rintro rfl
    exact hrow hin
  constructor
  · unfold type
    split_ifs <;> refine ⟨rfl, rfl, ?_⟩ <;> first | exact hwrite | exact fun _ _ => rfl
  · simp only [type, write]
    split_ifs
    all_goals simp
    all_goals omega

private theorem le_type_space (layout : Layout) (s : Screen) : s.row ≤ (s.type layout 32).row := by
  show s.row ≤
    (if s.col + 1 ≥ layout.columns then { s.write 32 with row := s.row + 1, col := 0 }
      else s.write 32).row
  split_ifs
  · exact Nat.le_succ s.row
  · exact Nat.le_refl s.row

section Inside

variable (hbottom : s.scrollBottom < layout.rows) (hin : s.InRegion s.row)
include hbottom hin

/-- A character is typed, and the region scrolls if it has to. -/
theorem put_scrolls (codepoint : UInt32) :
    s.Scrolls ((s.type layout codepoint).scrollIfNeeded layout) ∧
      (s.row ≤ (s.type layout codepoint).row →
        s.InRegion ((s.type layout codepoint).scrollIfNeeded layout).row) := by
  obtain ⟨htype, hrow⟩ := type_scrolls layout codepoint hin
  obtain ⟨htop, hle⟩ := hin
  obtain ⟨hscroll, hrow'⟩ := scrolls_scrollIfNeeded (s.type layout codepoint)
    (by rw [htype.bottom]; exact hbottom) (by rw [htype.top, htype.bottom]; omega)
      (by rw [htype.bottom]; omega)
  refine ⟨htype.trans hscroll, fun hdown => ?_⟩
  rw [hrow', htype.bottom]
  unfold InRegion
  omega

/-- A tab is a number of blanks, and after each of them the cursor is in the region. -/
theorem spaces_scrolls (spaces : Nat) :
    s.Scrolls ((fun s => (s.type layout 32).scrollIfNeeded layout)^[spaces] s) := by
  induction spaces generalizing s with
  | zero => exact ⟨rfl, rfl, fun _ _ => rfl⟩
  | succ spaces ih =>
    obtain ⟨hscroll, hrow⟩ := put_scrolls hbottom hin 32
    rw [Function.iterate_succ_apply]
    refine hscroll.trans (ih (by rw [hscroll.bottom]; exact hbottom) ?_)
    unfold InRegion
    rw [hscroll.top, hscroll.bottom]
    exact hrow (le_type_space layout s)

private theorem putCodepoint_scrolls (codepoint : UInt32) :
    s.Scrolls (s.putCodepoint layout codepoint) := by
  unfold putCodepoint
  split
  · exact spaces_scrolls hbottom hin _
  · exact (put_scrolls hbottom hin _).1

end Inside

/-! ## Outside the region -/

/-- A code point that is no control character is written, and then the region may scroll. -/
theorem putCodepoint_printable (hprint : 32 ≤ codepoint) (hdel : codepoint ≠ 127)
    (hcol : s.col + 1 < layout.columns) :
    s.putCodepoint layout codepoint = (s.write (shown codepoint)).scrollIfNeeded layout := by
  have hshown : 32 ≤ shown codepoint ∧ shown codepoint ≠ 127 := by
    unfold shown
    split_ifs
    · decide
    · exact ⟨hprint, hdel⟩
  have hne : ∀ d : UInt32, d < 32 → shown codepoint ≠ d :=
    fun d hd heq => UInt32.not_le.mpr (heq ▸ hd) hshown.1
  rw [putCodepoint, if_neg (hne 9 (by decide)), type, if_neg (hne 10 (by decide)),
    if_neg (hne 13 (by decide)),
    if_neg (not_or.mpr ⟨hne 8 (by decide), hshown.2⟩), if_pos hshown.1,
      if_neg (Nat.not_le.mpr hcol)]

private theorem printsInPlace_iff (h : s.Valid layout) (hprint : 32 ≤ codepoint)
    (hdel : codepoint ≠ 127)
    (hcol : s.col + 1 < layout.columns) :
    s.PrintsInPlace (s.putCodepoint layout codepoint) ↔ s.row ≠ s.scrollBottom + 1 := by
  rw [putCodepoint_printable hprint hdel hcol]
  constructor
  · -- the cursor is taken into the region
    rintro ⟨cell, hprinted⟩ hbelow
    unfold scrollIfNeeded at hprinted
    rw [if_pos (show (s.write _).row = (s.write _).scrollBottom + 1 from hbelow)] at hprinted
    have hrow : s.scrollBottom = s.row := congrArg row hprinted
    omega
  · intro hne
    rw [scrollIfNeeded_of_ne (s := s.write _) h.row_lt hne]
    exact ⟨_, rfl⟩

private theorem lineFeed_cells (h : s.Valid layout) (hout : ¬s.InRegion s.row) :
    (s.putCodepoint layout 10).cells = s.cells := by
  have hne : s.row + 1 ≠ s.scrollBottom + 1 := by
    have htop := h.top_le
    unfold InRegion at hout
    omega
  show (Screen.scrollIfNeeded layout { s with row := s.row + 1, col := 0 }).cells = s.cells
  rw [scrollIfNeeded, if_neg hne]
  split <;> rfl

/-- Outside the region a printed character stays in its cell unless the cursor is on the row below
    the region, and a line feed changes no row. Inside it, no row outside changes. -/
theorem printing_frame (layout : Layout) (s : Screen) (h : s.Valid layout) :
    (¬s.InRegion s.row → (s.putCodepoint layout 10).cells = s.cells ∧
      ∀ codepoint, 32 ≤ codepoint → codepoint ≠ 127 → s.col + 1 < layout.columns →
        (s.PrintsInPlace (s.putCodepoint layout codepoint) ↔ s.row ≠ s.scrollBottom + 1)) ∧
    (s.InRegion s.row → ∀ codepoint row, ¬s.InRegion row →
      (s.putCodepoint layout codepoint).cells row = s.cells row) := by
  refine ⟨fun hout => ⟨lineFeed_cells h hout, fun codepoint hprint hdel hcol => ?_⟩,
    fun hin codepoint => ?_⟩
  · exact printsInPlace_iff h hprint hdel hcol
  · exact (putCodepoint_scrolls h.bottom_lt hin codepoint).cells

/-- An 80 by 25 screen whose status line is kept out of the region. -/
def statusLine : Screen :=
  { cells := fun _ _ => ⟨0, 0, 0, false⟩, row := 24, col := 0, foreground := 0xAAAAAA
    foregroundIndex := 7, background := 0, backgroundExplicit := false, bold := false
    reverse := false, scrollTop := 0, scrollBottom := 22 }

/-- A character in a line below the region. -/
theorem statusLine_printed : statusLine.PrintsInPlace (statusLine.putCodepoint ⟨25, 80⟩ 65) :=
  ((printing_frame ⟨25, 80⟩ statusLine ⟨by decide, by decide, by decide⟩).1
    (by unfold InRegion; decide)).2 65
    (by decide) (by decide) (by decide) |>.mpr (by decide)

/-- One row higher, what is printed scrolls the region and goes on in it. -/
theorem statusLine_scrolled :
    ¬{ statusLine with row := 23 }.PrintsInPlace
      ({ statusLine with row := 23 }.putCodepoint ⟨25, 80⟩ 65) := by
  rintro ⟨cell, hprinted⟩
  have hrow : 22 = 23 := congrArg row hprinted
  omega

end Screen
end Tunix.Tty
