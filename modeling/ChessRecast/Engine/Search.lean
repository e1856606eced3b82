import ChessRecast.Engine.Movegen

/-!
# Search primitives on the board (`search.c`)

The terminal tests at the head of `quiescence` and `alpha_beta`, and the null move that
`alpha_beta` plays on the board itself. A terminal test returns its score, or `none` where C
goes on.
-/

namespace ChessRecast.Engine

def mateScore : ℤ := 100000

/-! ## Terminal tests -/

/-- The queen of a colour, the first on the board, stands in its own half on the enemy's prison
square: the escape objective of Save the Queen. -/
def StqEscaped (b : Board) (c : Color) : Prop :=
  b.pieces c .queen ≠ 0 ∧ StqIsOwnHalf (bbLsb (b.pieces c .queen)) c ∧
    StqOnPrison (bbLsb (b.pieces c .queen)) c.opposite

instance (b : Board) (c : Color) : Decidable (StqEscaped b c) :=
  inferInstanceAs (Decidable (_ ∧ _ ∧ _))

/-- The colour of the escaped queen that the last move captured. -/
def stqCapturedQueen (b : Board) : Option Color :=
  if b.ply > 0 then
    let u := b.history (b.ply - 1)
    match u.captured with
    | some (c, .queen) => if u.capturedSq ≠ sqNone ∧ StqIsOwnHalf u.capturedSq c then some c else none
    | _ => none
  else none

def stqTerminalScore (b : Board) (ply : ℤ) : Option ℤ :=
  if b.mod ≠ .saveQueen then none
  else if StqEscaped b b.side then some (mateScore - ply)
  else if StqEscaped b b.side.opposite then some (-(mateScore - ply))
  else match stqCapturedQueen b with
    | some c => some (if c = b.side then -(mateScore - ply) else mateScore - ply)
    | none => none

/-- Succession: a colour that has lost a queen, or its last pawn, before promoting a king. -/
def SuccLost (b : Board) (c : Color) : Prop :=
  (bbPopcount (b.pieces c .queen) < 2 ∨ b.pieces c .pawn = 0) ∧ b.heirPromoted c = false

instance (b : Board) (c : Color) : Decidable (SuccLost b c) :=
  inferInstanceAs (Decidable ((_ ∨ _) ∧ _))

/-- "Succession: terminal states", the same in `quiescence` and `alpha_beta`. -/
def succTerminalScore (b : Board) (ply : ℤ) : Option ℤ :=
  if b.mod ≠ .succession then none
  else if b.heirPromoted b.side.opposite then some (-(mateScore - ply))
  else if SuccLost b b.side then some (-(mateScore - ply))
  else if SuccLost b b.side.opposite then some (mateScore - ply)
  else none

/-! ## The null move -/

/-- "Null-move pruning": the turn passes, the hash follows with two keys at most. -/
def nullMove (b : Board) : Board :=
  let hash := b.hash ^^^ zobSide
  { b with
    side := b.side.opposite
    hash := if b.epSquare ≠ sqNone then hash ^^^ zobEp b.epSquare else hash
    epSquare := sqNone }

/-- The fields that `alpha_beta` saves before the null move and writes back after it. -/
structure NullSave where
  side : Color
  epSquare : ℤ
  hash : BitVec 64

/-- `sv_side`, `sv_ep` and `sv_hash` -/
def saveNull (b : Board) : NullSave := ⟨b.side, b.epSquare, b.hash⟩

def endNullMove (s : NullSave) (b : Board) : Board :=
  { b with side := s.side, epSquare := s.epSquare, hash := s.hash }

end ChessRecast.Engine
