import ChessRecast.App.Mods

/-!
# Move generation in the Dart application (`generation.dart`)
-/

namespace ChessRecast.App

namespace ChessBoard

/-! ## Pawns -/

/-- Forward moves of `_getPawnMoves`. -/
def pawnForward (b : ChessBoard) (pawn : ChessPiece) : List ChessMove :=
  let direction := pawn.color.forward
  let startRow : ℤ := if pawn.color = .white then 1 else 6
  let oneStep := pawn.position.offset direction 0
  let twoStep := pawn.position.offset (direction * 2) 0
  if oneStep.IsValid ∧ b.getPieceAt oneStep = none then
    (if oneStep.row = lastRank pawn.color then
      createMovesWithPromotionCheck pawn oneStep none (b.getPromotionPieces pawn.color oneStep)
    else [ChessMove.simple pawn.position oneStep pawn none]) ++
    (if pawn.position.row = startRow ∧ twoStep.IsValid ∧ b.getPieceAt twoStep = none then
      [ChessMove.simple pawn.position twoStep pawn none]
    else [])
  else []

/-- Diagonal capture of an enemy piece. -/
def pawnDiagonal (b : ChessBoard) (pawn : ChessPiece) (capturePos : Position) : List ChessMove :=
  match b.getPieceAt capturePos with
  | some target =>
    if target.color ≠ pawn.color then
      if capturePos.row = lastRank pawn.color then
        createMovesWithPromotionCheck pawn capturePos (some target)
          (b.getPromotionPieces pawn.color capturePos)
      else [ChessMove.simple pawn.position capturePos pawn (some target)]
    else []
  | none => []

/-- En passant: the piece beside the pawn has to be a pawn, of whatever colour. -/
def pawnEnPassant (b : ChessBoard) (pawn : ChessPiece) (capturePos : Position) :
    List ChessMove :=
  if some capturePos = b.enPassantTarget then
    match b.getPieceAt ⟨pawn.position.row, capturePos.col⟩ with
    | some capturedPawn =>
      if capturedPawn.type = .pawn then
        [ChessMove.enPassant pawn.position capturePos pawn capturedPawn]
      else []
    | none => []
  else []

def getPawnMoves (b : ChessBoard) (pawn : ChessPiece) : List ChessMove :=
  if b.gameType = .mercenary then b.mercenaryPawnMoves pawn
  else
    b.pawnForward pawn ++
      [-1, 1].flatMap fun colOffset =>
        let capturePos := pawn.position.offset pawn.color.forward colOffset
        if capturePos.IsValid then
          b.pawnDiagonal pawn capturePos ++ b.pawnEnPassant pawn capturePos
        else []

/-! ## Pieces -/

def getRookMoves (b : ChessBoard) (rook : ChessPiece) : List ChessMove :=
  b.generateSlidingMoves rook [(-1, 0), (1, 0), (0, -1), (0, 1)]

def getKnightMoves (b : ChessBoard) (knight : ChessPiece) : List ChessMove :=
  b.generateStepMoves knight
    [(-2, -1), (-2, 1), (-1, -2), (-1, 2), (1, -2), (1, 2), (2, -1), (2, 1)]

def getBishopMoves (b : ChessBoard) (bishop : ChessPiece) : List ChessMove :=
  b.generateSlidingMoves bishop [(-1, -1), (-1, 1), (1, -1), (1, 1)]

def getQueenMoves (b : ChessBoard) (queen : ChessPiece) : List ChessMove :=
  b.getRookMoves queen ++ b.getBishopMoves queen

/-- Kingside castling flag of a colour. -/
def kingsideFlag (b : ChessBoard) : Color → Bool
  | .white => b.whiteCanCastleKingside
  | .black => b.blackCanCastleKingside

/-- Queenside castling flag of a colour. -/
def queensideFlag (b : ChessBoard) : Color → Bool
  | .white => b.whiteCanCastleQueenside
  | .black => b.blackCanCastleQueenside

/-- The castling moves of `_getKingMoves`: the move starts where this king stands. -/
def castlingMoves (b : ChessBoard) (king : ChessPiece) : List ChessMove :=
  let row := kingRow king.color
  (if b.kingsideFlag king.color && b.canCastleKingside king.color then
    [ChessMove.castling king.position ⟨row, 6⟩ king] else []) ++
  (if b.queensideFlag king.color && b.canCastleQueenside king.color then
    [ChessMove.castling king.position ⟨row, 2⟩ king] else [])

def getKingMoves (b : ChessBoard) (king : ChessPiece) : List ChessMove :=
  b.generateStepMoves king kingOffsets ++ b.castlingMoves king

def getPotentialMoves (b : ChessBoard) (piece : ChessPiece) : List ChessMove :=
  match piece.type with
  | .pawn => b.getPawnMoves piece
  | .rook => b.getRookMoves piece
  | .knight => b.getKnightMoves piece
  | .bishop => b.getBishopMoves piece
  | .queen => b.getQueenMoves piece
  | .king => b.getKingMoves piece

/-! ## Valid moves -/

def applyRulesetFilter (b : ChessBoard) (moves : List ChessMove) (piece : ChessPiece) :
    List ChessMove :=
  match b.gameType with
  | .truce => b.truceFilter moves piece
  | .friendlyFire => b.friendlyFireFilter moves piece
  | .kingsBattle => b.kingsBattleFilter moves piece
  | .saveQueen => b.saveTheQueenFilter moves piece
  | _ => moves

/-- Heir: the king would stand next to the enemy king. -/
def nextToEnemyKing (b : ChessBoard) (move : ChessMove) : Bool :=
  match (b.makeMoveForValidation move).getKing b.currentPlayer.opposite with
  | some opponentKing =>
    let rowDiff := |opponentKing.position.row - move.toPos.row|
    let colDiff := |opponentKing.position.col - move.toPos.col|
    decide (rowDiff ≤ 1 ∧ colDiff ≤ 1 ∧ (rowDiff ≠ 0 ∨ colDiff ≠ 0))
  | none => false

/-- One round of the loop of `getValidMovesFor`: is the move kept? -/
def keepsMove (b : ChessBoard) (move : ChessMove) : Bool :=
  if move.capturedPiece.any (fun q => q.type = .king) ∧ b.gameType ≠ .heir then false
  else
    let kingInCheck := (b.makeMoveForValidation move).isKingInCheck b.currentPlayer
    if b.gameType = .truce ∧ b.isTruceActive = true then true
    else if b.gameType = .heir ∧ move.piece.type = .king ∧ b.nextToEnemyKing move = true then false
    else if b.gameType = .heir ∧ b.shouldApplyCheckRules b.currentPlayer = false then true
    else !kingInCheck

def getValidMovesFor (b : ChessBoard) (position : Position) : List ChessMove :=
  match b.getPieceAt position with
  | some piece =>
    if piece.color ≠ b.currentPlayer then []
    else (b.applyRulesetFilter (b.getPotentialMoves piece) piece).filter b.keepsMove
  | none => []

end ChessBoard

end ChessRecast.App
