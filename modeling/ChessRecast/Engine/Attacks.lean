import ChessRecast.Engine.Board

/-!
# Attack detection (`board_attacks.c`)

The tables that `init_attacks` fills are written as the functions that fill them, and the
sliding attacks as the loops that compute them.
-/

namespace ChessRecast.Engine

/-! ## Attack tables -/

/-- One table entry: the on-board squares at the given offsets. -/
def stepTable (offsets : List (ℤ × ℤ)) (sq : ℤ) : Bitboard :=
  offsets.foldl (fun bb d =>
    let nr := sqRow sq + d.1
    let nc := sqCol sq + d.2
    if Grid.Inside 8 nr nc then bbSet bb (SQ nr nc) else bb) 0

/-- `knight_attacks[sq]` -/
def knightAttacks (sq : ℤ) : Bitboard :=
  stepTable [(-2, -1), (-2, 1), (-1, -2), (-1, 2), (1, -2), (1, 2), (2, -1), (2, 1)] sq

/-- `king_attacks[sq]` -/
def kingAttacks (sq : ℤ) : Bitboard :=
  stepTable [(-1, -1), (-1, 0), (-1, 1), (0, -1), (0, 1), (1, -1), (1, 0), (1, 1)] sq

/-- `pawn_attacks[c][sq]` -/
def pawnAttacks (c : Color) (sq : ℤ) : Bitboard :=
  let r := sqRow sq
  let col := sqCol sq
  match c with
  | .white =>
    let bb := if r < 7 ∧ col > 0 then bbSet 0 (SQ (r + 1) (col - 1)) else 0
    if r < 7 ∧ col < 7 then bbSet bb (SQ (r + 1) (col + 1)) else bb
  | .black =>
    let bb := if r > 0 ∧ col > 0 then bbSet 0 (SQ (r - 1) (col - 1)) else 0
    if r > 0 ∧ col < 7 then bbSet bb (SQ (r - 1) (col + 1)) else bb

/-! ## Sliding attacks -/

/-- The `while` loop for one direction. It leaves the board within eight rounds. -/
def slideRay (occ : Bitboard) (dr dc : ℤ) : ℕ → ℤ → ℤ → Bitboard → Bitboard
  | 0, _, _, attacks => attacks
  | fuel + 1, nr, nc, attacks =>
    if Grid.Inside 8 nr nc then
      let s := SQ nr nc
      let attacks := bbSet attacks s
      if bbHas occ s then attacks else slideRay occ dr dc fuel (nr + dr) (nc + dc) attacks
    else attacks

/-- The loop over the directions of a slider. -/
def slideAttacks (dirs : List (ℤ × ℤ)) (sq : ℤ) (occ : Bitboard) : Bitboard :=
  dirs.foldl (fun attacks d =>
    slideRay occ d.1 d.2 8 (sqRow sq + d.1) (sqCol sq + d.2) attacks) 0

def bishopAttacksCalc (sq : ℤ) (occ : Bitboard) : Bitboard :=
  slideAttacks [(1, 1), (1, -1), (-1, 1), (-1, -1)] sq occ

def rookAttacksCalc (sq : ℤ) (occ : Bitboard) : Bitboard :=
  slideAttacks [(1, 0), (-1, 0), (0, 1), (0, -1)] sq occ

/-! ## Is a square attacked? -/

/-- Queens that attack: in Save the Queen, prisoners are taken out one by one. -/
def effectiveQueens (b : Board) (att : Color) : Bitboard :=
  let queens := b.pieces att .queen
  if b.mod = .saveQueen then
    (bbSquares queens).foldl (fun eff qsq =>
      if ¬ StqIsOwnHalf qsq att then eff &&& ~~~bbSq qsq else eff) queens
  else queens

/-- `board_square_attacked(b, sq, by)` -/
def boardSquareAttacked (b : Board) (sq : ℤ) (att : Color) : Bool :=
  let kbPhase1 := b.mod = .kingsBattle ∧ b.kbUnlocked = false
  if ¬ kbPhase1 ∧ knightAttacks sq &&& b.pieces att .knight ≠ 0 then true
  else if kingAttacks sq &&& b.pieces att .king ≠ 0 then true
  else if b.mod = .mercenary ∧ kingAttacks sq &&& b.pieces att .pawn ≠ 0 then true
  -- pawns seen from the defender's side
  else if b.mod ≠ .mercenary ∧ pawnAttacks att.opposite sq &&& b.pieces att .pawn ≠ 0 then true
  else if kbPhase1 then false
  else if bishopAttacksCalc sq b.all &&& (b.pieces att .bishop ||| effectiveQueens b att) ≠ 0 then
    true
  else if rookAttacksCalc sq b.all &&& (b.pieces att .rook ||| effectiveQueens b att) ≠ 0 then
    true
  else false

def heirCheckApplies (b : Board) (side : Color) : Bool :=
  b.heirPromoted side || b.pieces side .pawn = 0

def boardInCheck (b : Board) (side : Color) : Bool :=
  let kingBB := b.pieces side .king
  if kingBB = 0 then false
  else if b.mod = .heir ∧ heirCheckApplies b side = false then false
  else if b.mod = .truce ∧ b.truceActive = true then false
  else boardSquareAttacked b (bbLsb kingBB) side.opposite

end ChessRecast.Engine
