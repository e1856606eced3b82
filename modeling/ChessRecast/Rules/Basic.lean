import ChessRecast.Lib.Grid

/-!
# The vocabulary both engines share

The program carries its rules twice: in the C engine (`native/engine`) and in the Dart
application (`lib/board`, `lib/mods`). Both speak of colours, piece types, game mods and
squares of the 8x8 board; these types stand for both of their enumerations.
-/

namespace ChessRecast

/-- `Color` in C, `PieceColor` in Dart. -/
inductive Color where
  | white
  | black
deriving DecidableEq, Repr

/-- `color_opposite` in C, `PieceColor.opposite` in Dart. -/
def Color.opposite : Color → Color
  | .white => .black
  | .black => .white

/-- The six piece types (C numbers them in this order). -/
inductive PieceType where
  | pawn
  | knight
  | bishop
  | rook
  | queen
  | king
deriving DecidableEq, Repr

/-- `GameMod` in C, `ModsEnum` in Dart. -/
inductive Mod where
  | classic
  | mercenary
  | heir
  | truce
  | friendlyFire
  | kingsBattle
  | saveQueen
  | succession
deriving DecidableEq, Repr

abbrev Man := Color × PieceType

/-- A square by row and column, rank 1 being row 0 and the a-file column 0. -/
structure Position where
  row : ℤ
  col : ℤ
deriving DecidableEq, Repr

namespace Color

@[simp] theorem opposite_opposite (c : Color) : c.opposite.opposite = c := by cases c <;> rfl

@[simp] theorem opposite_ne (c : Color) : c.opposite ≠ c := by cases c <;> decide

@[simp] theorem ne_opposite (c : Color) : c ≠ c.opposite := by cases c <;> decide

theorem ne_iff_eq_opposite {c d : Color} : c ≠ d ↔ c = d.opposite := by
  cases c <;> cases d <;> decide

end Color

namespace Position

/-- `Position.isValid`: the square is on the board. -/
def IsValid (p : Position) : Prop := Grid.Inside 8 p.row p.col

instance (p : Position) : Decidable p.IsValid :=
  inferInstanceAs (Decidable (Grid.Inside 8 p.row p.col))

/-- `Position.offset`. -/
def offset (p : Position) (rowOffset colOffset : ℤ) : Position :=
  ⟨p.row + rowOffset, p.col + colOffset⟩

@[simp] theorem offset_row (p : Position) (dr dc : ℤ) : (p.offset dr dc).row = p.row + dr := rfl

@[simp] theorem offset_col (p : Position) (dr dc : ℤ) : (p.offset dr dc).col = p.col + dc := rfl

theorem isValid_iff (p : Position) :
    p.IsValid ↔ 0 ≤ p.row ∧ p.row < 8 ∧ 0 ≤ p.col ∧ p.col < 8 := Iff.rfl

theorem eq_iff {p q : Position} : p = q ↔ p.row = q.row ∧ p.col = q.col := by
  cases p; cases q; simp

end Position

/-- Row direction in which the pawns of a colour advance. -/
def Color.forward : Color → ℤ
  | .white => 1
  | .black => -1

/-- The queens' own half in Save the Queen: rows 0-3 for white, rows 4-7 for black. -/
def Color.OwnHalf (c : Color) (row : ℤ) : Prop :=
  match c with
  | .white => row ≤ 3
  | .black => row ≥ 4

instance (c : Color) (row : ℤ) : Decidable (c.OwnHalf row) := by
  cases c <;> unfold Color.OwnHalf <;> infer_instance

end ChessRecast
