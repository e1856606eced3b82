import ChessRecast.App.Board

/-!
# Attack detection in the Dart application (`piece.dart`, `special_cases.dart`)
-/

namespace ChessRecast.App

/-! ## `Position` relations -/

def isOnDiagonalWith (p other : Position) : Bool :=
  let dx := |p.col - other.col|
  let dy := |p.row - other.row|
  decide (dx = dy ∧ dx ≠ 0)

def isOnSameRankWith (p other : Position) : Bool := decide (p.row = other.row ∧ p.col ≠ other.col)

def isOnSameFileWith (p other : Position) : Bool := decide (p.col = other.col ∧ p.row ≠ other.row)

/-- King-like step: `_canKingAttack`, and the Mercenary pawn's
`_canPawnAttackLikeKingInMercenaryMode`. -/
def kingLike (p target : Position) : Bool :=
  let dx := |target.col - p.col|
  let dy := |target.row - p.row|
  decide (dx ≤ 1 ∧ dy ≤ 1 ∧ (dx ≠ 0 ∨ dy ≠ 0))

/-! ## `ChessPiece.canAttack` -/

namespace ChessPiece

def canPawnAttack (p : ChessPiece) (target : Position) : Bool :=
  let attackRow := p.position.row + p.color.forward
  decide (target.row = attackRow ∧
    (target.col = p.position.col - 1 ∨ target.col = p.position.col + 1))

def canKnightAttack (p : ChessPiece) (target : Position) : Bool :=
  let dx := |target.col - p.position.col|
  let dy := |target.row - p.position.row|
  decide ((dx = 2 ∧ dy = 1) ∨ (dx = 1 ∧ dy = 2))

/-- `_isPathBlocked`: in Phase 1 of Kings' Battle only pawns and kings block. -/
def isPathBlocked (p : ChessPiece) (target : Position) (allPieces : List ChessPiece)
    (gameType : Mod) (kingsKillUnlocked : Bool) : Bool :=
  let dx := target.col - p.position.col
  let dy := target.row - p.position.row
  let distance := if |dx| > |dy| then |dx| else |dy|
  let isKingsBattlePhase1 := gameType = .kingsBattle ∧ kingsKillUnlocked = false
  (List.range' 1 (distance.toNat - 1)).any fun i =>
    let checkPos : Position :=
      ⟨p.position.row + dy.sign * i, p.position.col + dx.sign * i⟩
    match Keyed.lookup ChessPiece.position allPieces checkPos with
    | some q => !decide (isKingsBattlePhase1 ∧ q.type ≠ .pawn ∧ q.type ≠ .king)
    | none => false

def canRookAttack (p : ChessPiece) (target : Position) (allPieces : List ChessPiece)
    (gameType : Mod) (kingsKillUnlocked : Bool) : Bool :=
  if !isOnSameRankWith p.position target && !isOnSameFileWith p.position target then false
  else !isPathBlocked p target allPieces gameType kingsKillUnlocked

def canBishopAttack (p : ChessPiece) (target : Position) (allPieces : List ChessPiece)
    (gameType : Mod) (kingsKillUnlocked : Bool) : Bool :=
  if !isOnDiagonalWith p.position target then false
  else !isPathBlocked p target allPieces gameType kingsKillUnlocked

def canAttack (p : ChessPiece) (target : Position) (allPieces : List ChessPiece)
    (gameType : Mod) (kingsKillUnlocked : Bool) : Bool :=
  if p.position = target then false
  else if gameType = .kingsBattle ∧ kingsKillUnlocked = false ∧ p.type ≠ .pawn ∧
      p.type ≠ .king then false
  else match p.type with
    | .pawn => p.canPawnAttack target
    | .rook => p.canRookAttack target allPieces gameType kingsKillUnlocked
    | .knight => p.canKnightAttack target
    | .bishop => p.canBishopAttack target allPieces gameType kingsKillUnlocked
    | .queen => p.canRookAttack target allPieces gameType kingsKillUnlocked ||
        p.canBishopAttack target allPieces gameType kingsKillUnlocked
    | .king => kingLike p.position target

end ChessPiece

/-! ## Phase 2 of Kings' Battle, recomputed from the history -/

def ChessMove.isKingsKill (m : ChessMove) : Bool :=
  m.piece.type = .king && m.capturedPiece.any fun q => q.type = .pawn

/-- A non-capturing king move. -/
def ChessMove.isIdleKing (m : ChessMove) : Bool :=
  m.piece.type = .king && m.capturedPiece.isNone

/-- The loop over the history, with its two local variables. -/
def phase2Loop : List ChessMove → ℕ → Bool → Bool
  | [], _, deadlockUnlocked => deadlockUnlocked
  | move :: history, trailingIdleKings, deadlockUnlocked =>
    if move.isKingsKill then true
    else if move.piece.type = .pawn ∧ move.isPromotion = true then true
    else if move.isIdleKing then
      phase2Loop history (trailingIdleKings + 1)
        (if trailingIdleKings + 1 ≥ 6 then true else deadlockUnlocked)
    else phase2Loop history 0 deadlockUnlocked

namespace ChessBoard

/-- `_isKingsBattlePhase2Unlocked`, a copy of `KingsBattle._isPhase2Unlocked`. -/
def isKingsBattlePhase2Unlocked (b : ChessBoard) : Bool := phase2Loop b.moveHistory 0 false

/-! ## Is a square attacked? -/

/-- Does this piece attack the position? The body of the loop in `isPositionUnderAttack`. -/
def pieceAttacks (b : ChessBoard) (position : Position) (piece : ChessPiece) : Bool :=
  -- Heir: kings always control the squares next to them against an enemy king
  if b.gameType = .heir ∧ piece.type = .king ∧
      (b.getPieceAt position).any (fun q => q.type = .king) = true then
    piece.canAttack position b.pieces b.gameType false
  else if b.gameType = .kingsBattle ∧ b.isKingsBattlePhase2Unlocked = false ∧
      piece.type ≠ .pawn ∧ piece.type ≠ .king then false
  else if b.gameType = .saveQueen ∧ piece.type = .queen ∧
      ¬ piece.color.OwnHalf piece.position.row then false
  else if b.gameType = .mercenary ∧ piece.type = .pawn then kingLike piece.position position
  else piece.canAttack position b.pieces b.gameType b.isKingsBattlePhase2Unlocked

def isPositionUnderAttack (b : ChessBoard) (position : Position) (attackingColor : Color) : Bool :=
  (b.getPiecesOfColor attackingColor).any (b.pieceAttacks position)

def isKingInCheck (b : ChessBoard) (kingColor : Color) : Bool :=
  match b.getKing kingColor with
  | none => false
  | some king => b.isPositionUnderAttack king.position kingColor.opposite

end ChessBoard

end ChessRecast.App
