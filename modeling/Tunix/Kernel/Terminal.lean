import Mathlib.Logic.Function.Iterate

/-!
# Console screens

`terminal_put_codepoint` with the scroll region, from `kernel/tty/terminal.c`. What is drawn on the
frame buffer is left out: a screen is its cells, its cursor and its attributes.
-/

namespace Tunix.Tty

/-- `struct console_layout` -/
structure Layout where
  rows : Nat
  columns : Nat

/-- `struct console_cell`; of the flags only `CELL_BG_EXPLICIT` is used. -/
structure Cell where
  codepoint : UInt32
  foreground : UInt32
  background : UInt32
  backgroundExplicit : Bool

/-- `struct terminal_screen` -/
structure Screen where
  cells : Nat → Nat → Cell
  row : Nat
  col : Nat
  foreground : UInt32
  foregroundIndex : Int
  background : UInt32
  backgroundExplicit : Bool
  bold : Bool
  reverse : Bool
  scrollTop : Nat
  scrollBottom : Nat

/-- `ansi_palette`. -/
def ansiPalette : List UInt32 :=
  [0x000000, 0xAA0000, 0x00AA00, 0xAA5500, 0x0000AA, 0xAA00AA, 0x00AAAA, 0xAAAAAA,
    0x555555, 0xFF5555, 0x55FF55, 0xFFFF55, 0x5555FF, 0xFF55FF, 0x55FFFF, 0xFFFFFF]

variable (layout : Layout) (s : Screen)

/-- `scroll_region_up` -/
def Screen.scrollRegionUp (top bottom count : Nat) : Screen :=
  let bottom := min bottom (layout.rows - 1)
  if bottom < top then s
  else
    let count := min (max count 1) (bottom - top + 1)
    { s with cells := fun row =>
        if row < top ∨ bottom < row then s.cells row
        else if row + count ≤ bottom then s.cells (row + count)
        else fun _ => ⟨0, 0, 0, false⟩ }

/-- `terminal_scroll_if_needed` -/
def Screen.scrollIfNeeded : Screen :=
  if s.row = s.scrollBottom + 1 then
    { s.scrollRegionUp layout s.scrollTop s.scrollBottom 1 with row := s.scrollBottom }
  else if s.row ≥ layout.rows then { s with row := layout.rows - 1 }
  else s

/-- The cell that is written for a code point. -/
def Screen.pen (codepoint : UInt32) : Cell :=
  let foreground :=
    if s.bold ∧ 0 ≤ s.foregroundIndex ∧
      s.foregroundIndex < 8 then ansiPalette.getD (s.foregroundIndex.toNat + 8) 0
    else s.foreground
  if s.reverse then ⟨codepoint, s.background, foreground, true⟩
  else ⟨codepoint, foreground, s.background, s.backgroundExplicit⟩

/-- A character at the cursor, which goes on. -/
def Screen.write (codepoint : UInt32) : Screen := { s with
    cells := Function.update s.cells s.row (Function.update (s.cells s.row) s.col (s.pen codepoint))
    col := s.col + 1 }

/-- `terminal_put_codepoint` up to `terminal_scroll_if_needed`, for a code point that is no tab. -/
def Screen.type (codepoint : UInt32) : Screen :=
  if codepoint = 10 then { s with row := s.row + 1, col := 0 }
  else if codepoint = 13 then { s with col := 0 }
  else if codepoint = 8 ∨ codepoint = 127 then
    if s.col > 0 then { s with col := s.col - 1 }
    else if s.row > 0 then { s with row := s.row - 1, col := layout.columns - 1 }
    else s
  else if codepoint ≥ 32 then
    if s.col + 1 ≥ layout.columns then { s.write codepoint with row := s.row + 1, col := 0 }
    else s.write codepoint
  else s

/-- What is no code point is shown as the replacement character. -/
def shown (codepoint : UInt32) : UInt32 :=
  if codepoint > 0x10FFFF ∨ (codepoint ≥ 0xD800 ∧ codepoint ≤ 0xDFFF) then 0xFFFD else codepoint

/-- `terminal_put_codepoint` -/
def Screen.putCodepoint (codepoint : UInt32) : Screen :=
  if shown codepoint = 9 then (fun s => (s.type layout 32).scrollIfNeeded layout)^[8 - s.col % 8] s
  else (s.type layout (shown codepoint)).scrollIfNeeded layout

/-- `terminal_cursor_set` -/
def Screen.cursorSet (row col : Int) : Screen :=
  { s with row := min row.toNat (layout.rows - 1), col := min col.toNat (layout.columns - 1) }

/-- `terminal_set_scroll_region` -/
def Screen.setScrollRegion (top bottom : Int) : Screen :=
  if top ≤ 0 ∧ bottom ≤ 0 then
    Screen.cursorSet layout { s with scrollTop := 0, scrollBottom := layout.rows - 1 } 0 0
  else
    let top := if top ≤ 0 then 1 else top
    let bottom := if bottom ≤ 0 then (layout.rows : Int) else bottom
    if top ≥ bottom ∨ bottom > layout.rows then s
    else Screen.cursorSet layout
      { s with scrollTop := (top - 1).toNat, scrollBottom := (bottom - 1).toNat } 0 0

/-- The calls that move the cursor or the region of a screen. `terminal_set_alternate_screen`, which
    moves both to the origin or back to where they were, is left out. -/
inductive Call
  | putCodepoint (codepoint : UInt32)
  | clear
  | cursorMove (rowDelta colDelta : Int)
  | cursorSet (row col : Int)
  | setScrollRegion (top bottom : Int)

/-- The screen after a call. -/
def Screen.step : Call → Screen
  | .putCodepoint codepoint => s.putCodepoint layout codepoint
  | .clear => { s with cells := fun _ _ => ⟨0, 0, 0, false⟩, row := 0, col := 0 }
  | .cursorMove rowDelta colDelta => s.cursorSet layout (s.row + rowDelta) (s.col + colDelta)
  | .cursorSet row col => s.cursorSet layout row col
  | .setScrollRegion top bottom => s.setScrollRegion layout top bottom

end Tunix.Tty
