import ChessRecast.App.Generation

/-!
# Playing a move in the Dart application (`execution.dart`, `draw_rules.dart`)
-/

namespace ChessRecast.App

/-! ## Draw rules -/

/-- The side has its king and nothing else. -/
def onlyKing : List ChessPiece → Bool
  | [p] => p.type = .king
  | _ => false

def isMercenaryAcceleratedEndgame (whitePieces blackPieces : List ChessPiece) : Bool :=
  if !onlyKing whitePieces && !onlyKing blackPieces then false
  else
    let strongerSide := if onlyKing whitePieces then blackPieces else whitePieces
    let hasPawn := strongerSide.any fun p => p.type = .pawn
    if !hasPawn then true
    else strongerSide.length = 2 && strongerSide.any (fun p => p.type = .king) && hasPawn

def fiftyMoveThreshold (gameType : Mod) (whitePieces blackPieces : List ChessPiece) : ℤ :=
  if gameType = .succession then 50
  else if gameType = .mercenary ∧ isMercenaryAcceleratedEndgame whitePieces blackPieces = true then
    50
  else 100

def shouldResetHalfMoveClock (gameType : Mod) (isPawnMove isCapture : Bool) : Bool :=
  if isCapture then true else isPawnMove && gameType ≠ .mercenary

def queenCaptureRepeatThreshold : ℤ := 3

def countType (side : List ChessPiece) (type : PieceType) : ℕ :=
  (side.filter fun p => p.type = type).length

/-- The one piece that is not a king is a bishop or a knight. -/
def onlyMinor : List ChessPiece → Bool
  | [p] => p.type = .bishop || p.type = .knight
  | _ => false

/-- One bishop each, on squares of the same colour. -/
def sameColorBishops : List ChessPiece → List ChessPiece → Bool
  | [p], [q] => (p.position.row + p.position.col) % 2 = (q.position.row + q.position.col) % 2
  | _, _ => false

def isInsufficientMaterialClassic (whitePieces blackPieces : List ChessPiece) : Bool :=
  let white := whitePieces.length
  let black := blackPieces.length
  let bishops := fun (side : List ChessPiece) => side.filter fun p => p.type = .bishop
  if white = 1 ∧ black = 1 then true
  else if ((white = 2 ∧ black = 1) ∨ (white = 1 ∧ black = 2)) ∧
      onlyMinor ((whitePieces ++ blackPieces).filter fun p => p.type ≠ .king) = true then true
  else white = 2 && black = 2 && sameColorBishops (bishops whitePieces) (bishops blackPieces)

def isInsufficientMaterialMercenary (whitePieces blackPieces : List ChessPiece) : Bool :=
  let totalPieces := whitePieces.length + blackPieces.length
  if totalPieces = 2 then true
  else if countType whitePieces .pawn > 0 ∨ countType blackPieces .pawn > 0 then false
  else if totalPieces = 4 ∧ countType whitePieces .knight = 1 ∧
      countType blackPieces .knight = 1 then true
  else isInsufficientMaterialClassic whitePieces blackPieces

def isInsufficientMaterial (gameType : Mod) (whitePieces blackPieces : List ChessPiece) : Bool :=
  match gameType with
  | .mercenary => isInsufficientMaterialMercenary whitePieces blackPieces
  | .heir => onlyKing whitePieces && onlyKing blackPieces
  | _ => isInsufficientMaterialClassic whitePieces blackPieces

namespace ChessBoard

def canClaimFiftyMoveRule (b : ChessBoard) : Bool :=
  decide (b.halfMoveClock ≥
    fiftyMoveThreshold b.gameType (b.getPiecesOfColor .white) (b.getPiecesOfColor .black))

def hasThreefoldRepetition (b : ChessBoard) : Bool :=
  decide (3 ≤ b.positionHistory.countP fun key => key = b.getPositionKey)

def shouldAutoDraw (b : ChessBoard) : Bool :=
  b.canClaimFiftyMoveRule || b.hasThreefoldRepetition ||
    (b.gameType = .saveQueen &&
      b.queenCaptureCounter.any fun entry => entry.2 ≥ queenCaptureRepeatThreshold)

end ChessBoard

/-! ## `makeMove` -/

/-- `computeEnPassantTargetForMove`; the average of two rows of the board is not negative, so
Dart's truncating division is the one used here. -/
def computeEnPassantTargetForMove (move : ChessMove) : Option Position :=
  if move.piece.type ≠ .pawn then none
  else if |move.toPos.row - move.fromPos.row| = 2 then
    some ⟨(move.fromPos.row + move.toPos.row).tdiv 2, move.fromPos.col⟩
  else none

structure CastlingRights where
  whiteKingside : Bool
  whiteQueenside : Bool
  blackKingside : Bool
  blackQueenside : Bool
deriving DecidableEq, Repr

/-- The piece that left makes its own side lose rights: the king both, a rook the one of the
corner it left. -/
def rightsAfterLeaving (move : ChessMove) (r : CastlingRights) : CastlingRights :=
  match move.piece.type, move.piece.color with
  | .king, .white => { r with whiteKingside := false, whiteQueenside := false }
  | .king, .black => { r with blackKingside := false, blackQueenside := false }
  | .rook, .white =>
    if move.fromPos = ⟨0, 0⟩ then { r with whiteQueenside := false }
    else if move.fromPos = ⟨0, 7⟩ then { r with whiteKingside := false }
    else r
  | .rook, .black =>
    if move.fromPos = ⟨7, 0⟩ then { r with blackQueenside := false }
    else if move.fromPos = ⟨7, 7⟩ then { r with blackKingside := false }
    else r
  | _, _ => r

/-- A rook captured on its corner. -/
def rightsAfterCapture (move : ChessMove) (r : CastlingRights) : CastlingRights :=
  if move.capturedPiece.any (fun q => q.type = .rook) then
    if move.toPos = ⟨0, 0⟩ then { r with whiteQueenside := false }
    else if move.toPos = ⟨0, 7⟩ then { r with whiteKingside := false }
    else if move.toPos = ⟨7, 0⟩ then { r with blackQueenside := false }
    else if move.toPos = ⟨7, 7⟩ then { r with blackKingside := false }
    else r
  else r

def computeNewCastlingRights (move : ChessMove) (r : CastlingRights) : CastlingRights :=
  rightsAfterCapture move (rightsAfterLeaving move r)

/-- The `switch` on `move.promotionPiece`, with its fallback. -/
def promotedType : Option Char → PieceType
  | some 'Q' => .queen
  | some 'R' => .rook
  | some 'B' => .bishop
  | some 'N' => .knight
  | some 'K' => .king
  | _ => .queen

/-- The piece that `makeMove` adds on the target square: a promoted piece is a new one, which
has not moved. -/
def placedPiece (move : ChessMove) : ChessPiece :=
  if move.isPromotion then
    { type := promotedType move.promotionPiece, color := move.piece.color, position := move.toPos }
  else move.piece.movedTo move.toPos

namespace ChessBoard

def castlingRights (b : ChessBoard) : CastlingRights :=
  ⟨b.whiteCanCastleKingside, b.whiteCanCastleQueenside, b.blackCanCastleKingside,
    b.blackCanCastleQueenside⟩

/-- The piece list of `makeMove`. -/
def makePieces (b : ChessBoard) (move : ChessMove) : List ChessPiece :=
  let newPieces := b.pieces.filter fun piece => piece.position ≠ move.fromPos
  let newPieces := match move.capturedPiece with
    | some captured =>
      if move.isEnPassant then newPieces.filter fun piece => piece ≠ captured
      else newPieces.filter fun piece => piece.position ≠ move.toPos
    | none => newPieces
  let newPieces := newPieces ++ [placedPiece move]
  if move.isCastling then b.performCastlingRookMove newPieces move.fromPos move.toPos
  else newPieces

/-- The has-promoted-king flag of a colour after the move. -/
def makePromotedKing (b : ChessBoard) (move : ChessMove) (color : Color) : Bool :=
  if b.gameType = .heir ∧ move.isPromotion = true ∧ move.promotionPiece = some 'K' ∧
      move.piece.color = color then true
  else b.hasPromotedKing color

/-- `map[key] = value` on an association list. -/
def setEntry {α β : Type} [DecidableEq α] (entries : List (α × β)) (key : α) (value : β) :
    List (α × β) :=
  if entries.any fun e => e.1 = key then
    entries.map fun e => if e.1 = key then (key, value) else e
  else entries ++ [(key, value)]

/-- The `escapedQueens` map after the move. -/
def makeEscapedQueens (b : ChessBoard) (move : ChessMove) : List (Color × Bool) :=
  if b.gameType = .saveQueen ∧ move.piece.type = .queen then
    setEntry b.escapedQueens move.piece.color (decide (move.piece.color.OwnHalf move.toPos.row))
  else b.escapedQueens

/-- The board that `makeMove` builds first. -/
def makeMoveBoard (b : ChessBoard) (move : ChessMove) : ChessBoard :=
  let castling := computeNewCastlingRights move b.castlingRights
  let shouldResetClock :=
    shouldResetHalfMoveClock b.gameType (move.piece.type = .pawn) move.capturedPiece.isSome
  b.copyWith
    { pieces := some (b.makePieces move)
      currentPlayer := some b.currentPlayer.opposite
      moveHistory := some (b.moveHistory ++ [move])
      enPassantTarget := computeEnPassantTargetForMove move
      whiteCanCastleKingside := some castling.whiteKingside
      whiteCanCastleQueenside := some castling.whiteQueenside
      blackCanCastleKingside := some castling.blackKingside
      blackCanCastleQueenside := some castling.blackQueenside
      whiteHasPromotedKing := some (b.makePromotedKing move .white)
      blackHasPromotedKing := some (b.makePromotedKing move .black)
      halfMoveClock := some (if shouldResetClock then 0 else b.halfMoveClock + 1)
      fullMoveNumber :=
        some (if b.currentPlayer = .black then b.fullMoveNumber + 1 else b.fullMoveNumber)
      escapedQueens := some (b.makeEscapedQueens move) }

def makeMove (b : ChessBoard) (move : ChessMove) : ChessBoard :=
  let newBoard := b.makeMoveBoard move
  let newBoard := newBoard.copyWith
    { positionHistory := some (b.positionHistory ++ [newBoard.getPositionKey]) }
  if newBoard.shouldAutoDraw then newBoard.copyWith { gameStatus := some .draw } else newBoard

end ChessBoard

end ChessRecast.App
