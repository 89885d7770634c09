import Mathlib.Data.List.Basic

/-!
# The terminal buffer

The screen that `TerminalBuffer.swift` keeps and the commands that move its cursor or scroll it.
An overflow of `Int` and a range that ends before it starts stop the program: there a function has
no result.
-/

namespace AlpineOnIOS.Terminal

structure CellAttributes where
  bold : Bool := false
  underline : Bool := false
  reverse : Bool := false
  deriving DecidableEq

inductive TerminalColor
  | default
  | indexed (index : Int)
  | rgb (red green blue : UInt8)
  deriving DecidableEq

structure TerminalCell where
  character : Char := ' '
  fg : TerminalColor := .default
  bg : TerminalColor := .default
  attrs : CellAttributes := {}
  deriving DecidableEq

def emptyRow (cols : Nat) : List TerminalCell := List.replicate cols {}

structure TerminalBuffer where
  cols : Nat
  rows : Nat
  cursorRow : Nat
  cursorCol : Nat
  grid : List (List TerminalCell)
  scrollback : List (List TerminalCell)
  scrollTop : Nat
  scrollBottom : Nat
  currentFG : TerminalColor
  currentBG : TerminalColor
  currentAttrs : CellAttributes
  ordered : scrollTop ≤ scrollBottom
  fits : scrollBottom < rows
  framed : grid.length = rows

/-- The largest `Int`. -/
def intMax : Nat := 0x7FFFFFFFFFFFFFFF

/-- The sum of two numbers, where it is an `Int`. -/
def checkedAdd (first second : Nat) : Option Nat :=
  if first + second ≤ intMax then some (first + second) else none

namespace TerminalBuffer

/-- A fresh buffer of at least one row. -/
def create (cols rows : Nat) (positive : 0 < rows) : TerminalBuffer where
  cols := cols
  rows := rows
  cursorRow := 0
  cursorCol := 0
  grid := List.replicate rows (emptyRow cols)
  scrollback := []
  scrollTop := 0
  scrollBottom := rows - 1
  currentFG := .default
  currentBG := .default
  currentAttrs := {}
  ordered := Nat.zero_le _
  fits := by omega
  framed := List.length_replicate

variable (buffer : TerminalBuffer) (n : Nat)

def moveCursorUp : TerminalBuffer :=
  { buffer with cursorRow := max buffer.scrollTop (buffer.cursorRow - max n 1) }

def moveCursorDown : Option TerminalBuffer :=
  (checkedAdd buffer.cursorRow (max n 1)).map fun row =>
    { buffer with cursorRow := min buffer.scrollBottom row }

def moveCursorForward : Option TerminalBuffer :=
  (checkedAdd buffer.cursorCol (max n 1)).map fun col =>
    { buffer with cursorCol := min (buffer.cols - 1) col }

def moveCursorBack : TerminalBuffer :=
  { buffer with cursorCol := buffer.cursorCol - max n 1 }

def setCursorPosition (row col : Nat) : TerminalBuffer :=
  { buffer with cursorRow := min row (buffer.rows - 1), cursorCol := min col (buffer.cols - 1) }

def setScrollRegion (top bottom : Nat) : TerminalBuffer :=
  { buffer with
    scrollTop := min top (buffer.rows - 1)
    scrollBottom := max (min top (buffer.rows - 1)) (min bottom (buffer.rows - 1))
    ordered := by omega
    fits := by have := buffer.fits; omega }

/-- The sequences that move the cursor. -/
inductive Motion
  | up
  | down
  | forward
  | back
  deriving DecidableEq

/-- What `executeCSI` does for a motion. -/
def move : Motion → Option TerminalBuffer
  | .up => some (buffer.moveCursorUp n)
  | .down => buffer.moveCursorDown n
  | .forward => buffer.moveCursorForward n
  | .back => some (buffer.moveCursorBack n)

/-- The cursor is in the scroll region. -/
def inside : Bool := buffer.scrollTop ≤ buffer.cursorRow ∧ buffer.cursorRow ≤ buffer.scrollBottom

/-- Where a motion by a count should take the cursor: at most to the margin. -/
def target (count : Nat) : Motion → Nat × Nat
  | .up => (buffer.cursorRow - min count
      (buffer.cursorRow - if buffer.inside then buffer.scrollTop else 0), buffer.cursorCol)
  | .down => (buffer.cursorRow + min count
      ((if buffer.inside then buffer.scrollBottom else buffer.rows - 1) - buffer.cursorRow),
      buffer.cursorCol)
  | .forward => (buffer.cursorRow,
      buffer.cursorCol + min count (buffer.cols - 1 - buffer.cursorCol))
  | .back => (buffer.cursorRow, buffer.cursorCol - min count buffer.cursorCol)

/-- The cursor does not move the other way. -/
def Onward (next : TerminalBuffer) : Motion → Prop
  | .up => next.cursorRow ≤ buffer.cursorRow
  | .down => buffer.cursorRow ≤ next.cursorRow
  | .forward => buffer.cursorCol ≤ next.cursorCol
  | .back => next.cursorCol ≤ buffer.cursorCol

/-- A motion goes its way by its count or to the margin, and nothing else changes. -/
def Clamped (motion : Motion) : Prop :=
  ∃ next, buffer.move n motion = some next ∧ buffer.Onward next motion ∧
    next = { buffer with
      cursorRow := (buffer.target (max n 1) motion).1
      cursorCol := (buffer.target (max n 1) motion).2 }

/-- The cursor is where the unconditional clamp to the region does no harm. -/
def Clear (count : Nat) : Motion → Prop
  | .up => buffer.scrollTop ≤ buffer.cursorRow ∧
      (buffer.cursorRow ≤ buffer.scrollBottom ∨ buffer.scrollTop ≤ buffer.cursorRow - count)
  | .down => buffer.cursorRow + count ≤ intMax ∧ buffer.cursorRow ≤ buffer.scrollBottom ∧
      (buffer.scrollTop ≤ buffer.cursorRow ∨ buffer.cursorRow + count ≤ buffer.scrollBottom ∨
        buffer.scrollBottom = buffer.rows - 1)
  | .forward => buffer.cursorCol + count ≤ intMax ∧ buffer.cursorCol ≤ buffer.cols - 1
  | .back => True

/-- A motion is clamped as it should be exactly where the clamp to the region does no harm. -/
theorem motion_clamped_iff (motion : Motion) :
    buffer.Clamped n motion ↔ buffer.Clear (max n 1) motion := by
  have ordered := buffer.ordered
  have fits := buffer.fits
  cases motion with
  | up =>
    simp only [Clamped, move, moveCursorUp, Onward, target, Clear, inside, Option.some.injEq,
      exists_eq_left', mk.injEq, decide_eq_true_eq, true_and, and_true]
    split <;> omega
  | down =>
    simp only [Clamped, move, moveCursorDown, checkedAdd, Onward, target, Clear, inside,
      decide_eq_true_eq]
    split
    · simp
      split <;> omega
    · simp
      omega
  | forward =>
    simp only [Clamped, move, moveCursorForward, checkedAdd, Onward, target, Clear]
    split <;> simp <;> omega
  | back =>
    simp only [Clamped, move, moveCursorBack, Onward, target, Clear, Option.some.injEq,
      exists_eq_left', mk.injEq, true_and, and_true, iff_true]
    omega

/-- With the region at lines 5 to 10 the cursor is at home, and moving it up takes it down. -/
theorem up_moves_down :
    let buffer := ((create 80 24 (by decide)).setScrollRegion 4 9).setCursorPosition 0 0
    buffer.cursorRow = 0 ∧ (buffer.moveCursorUp 1).cursorRow = 4 ∧ ¬buffer.Clamped 1 .up := by
  refine ⟨rfl, rfl, ?_⟩
  rintro ⟨next, moved, onward, -⟩
  cases moved
  exact absurd (show 4 ≤ 0 from onward) (by decide)

end TerminalBuffer

end AlpineOnIOS.Terminal
