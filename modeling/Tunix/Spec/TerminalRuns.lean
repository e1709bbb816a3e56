import Tunix.Spec.TerminalFrame

/-!
# Runs of calls on a screen

No sequence of calls takes the cursor off the screen or the scroll region out of it.
-/

namespace Tunix.Tty.Screen

variable {layout : Layout} {s t : Screen} {c : UInt32}

/-- The cursor is in a cell of the screen, and the region is on it. -/
structure Safe (layout : Layout) (s : Screen) : Prop extends s.Valid layout where
  col_lt : s.col < layout.columns

section

variable (hbottom : s.scrollBottom < layout.rows) (htop : s.scrollTop ≤ s.scrollBottom)
include hbottom htop

private theorem safe_scrollIfNeeded (hrow : s.row ≤ layout.rows) (hcol : s.col < layout.columns) :
    (s.scrollIfNeeded layout).Safe layout := by
  unfold scrollIfNeeded scrollRegionUp
  dsimp only
  split_ifs <;> refine ⟨⟨?_, hbottom, htop⟩, hcol⟩ <;> grind

private theorem safe_cursorSet (hcol : 0 < layout.columns) (row col : Int) :
    (s.cursorSet layout row col).Safe layout := by
  refine ⟨⟨?_, hbottom, htop⟩, ?_⟩ <;> simp only [cursorSet] <;> omega

end

/-- Before the region scrolls the cursor may be on the row below the screen. -/
theorem Safe.put (h : s.Safe layout) : ((s.type layout c).scrollIfNeeded layout).Safe layout := by
  obtain ⟨⟨hrow, hbottom, htop⟩, hcol⟩ := h
  apply safe_scrollIfNeeded <;> simp only [type, write] <;> split_ifs <;> simp_all <;> omega

private theorem Safe.step (h : s.Safe layout) (call : Call) : (s.step layout call).Safe layout := by
  obtain ⟨⟨hrow, hbottom, htop⟩, hcol⟩ := id h
  have hcols : 0 < layout.columns := by omega
  cases call with
  | putCodepoint c =>
    show (s.putCodepoint layout c).Safe layout
    unfold putCodepoint
    split_ifs
    · exact Function.Iterate.rec (Safe layout) h (fun _ h => h.put) _
    · exact h.put
  | clear => exact ⟨⟨Nat.zero_lt_of_lt hrow, hbottom, htop⟩, hcols⟩
  | cursorMove => exact safe_cursorSet hbottom htop hcols _ _
  | cursorSet => exact safe_cursorSet hbottom htop hcols _ _
  | setScrollRegion top bottom =>
    simp only [Screen.step, setScrollRegion]
    split_ifs
    -- what is refused changes nothing
    all_goals first | exact h | apply safe_cursorSet _ _ hcols
    all_goals (dsimp only; omega)

/-- Every call finds the cursor in a cell of the screen. -/
theorem safe_of_run (calls : List Call) (h : s.Safe layout) :
    (calls.foldl (step layout) s).Safe layout :=
  List.foldlRecOn calls _ h fun _ h call _ => h.step call

/-- A character below the region, and a cursor that is sent too far. -/
theorem statusLine_safe :
    ([.putCodepoint 65, .cursorMove (-3) 100].foldl (step ⟨25, 80⟩) statusLine).Safe ⟨25, 80⟩ :=
  safe_of_run _ ⟨⟨by decide, by decide, by decide⟩, by decide⟩

/-- The cursor is in the region of `s`, and no row outside it is another one. -/
def Within (s t : Screen) : Prop := s.Scrolls t ∧ s.InRegion t.row

private theorem Within.put (h : s.Within t) (hbottom : s.scrollBottom < layout.rows)
    (hc : c ≠ 8 ∧ c ≠ 127) : s.Within ((t.type layout c).scrollIfNeeded layout) := by
  obtain ⟨hscroll, hrow⟩ := h
  have hsame : t.InRegion = s.InRegion := by
    funext row
    rw [InRegion, hscroll.top, hscroll.bottom]
    rfl
  obtain ⟨hscroll', hrow'⟩ := put_scrolls (by rw [hscroll.bottom]; exact hbottom) (hsame ▸ hrow) c
  refine ⟨hscroll.trans hscroll', hsame ▸ hrow' ?_⟩
  simp only [type, write, hc]
  split_ifs <;> simp_all

/-- A text without backspaces that starts in the region stays in it. -/
theorem within_text (text : List UInt32) (hbottom : s.scrollBottom < layout.rows)
    (hin : s.InRegion s.row)
    (htext : ∀ c ∈ text, c ≠ 8 ∧ c ≠ 127) : s.Within (text.foldl (putCodepoint layout) s) := by
  apply List.foldlRecOn text _ ⟨⟨rfl, rfl, fun _ _ => rfl⟩, hin⟩
  intro t h c hc
  unfold putCodepoint
  split_ifs
  -- a tab is a number of blanks
  · exact Function.Iterate.rec s.Within h (fun _ h => h.put hbottom (by decide)) _
  · apply h.put hbottom
    unfold shown
    split_ifs
    exacts [by decide, htext c hc]

/-- A letter, a tab and a line feed on the last line of the region, which scrolls. -/
theorem within_tab : { statusLine with row := 22 }.Within
    ([65, 9, 10].foldl (putCodepoint ⟨25, 80⟩) { statusLine with row := 22 }) :=
  within_text _ (by decide) ⟨by decide, by decide⟩ (by simp)

end Tunix.Tty.Screen
