import ChessRecast.App.Execution

/-!
# The orchestrator of the Dart application (`orchestrator.dart`)

Validation and execution of a move with the special handling of each mod, and the game status
that follows. Logging is left out. `executeMove` throws on an invalid move; here it is `none`.
-/

namespace ChessRecast.App

namespace ChessBoard

def validateTruceMove (b : ChessBoard) (move : ChessMove) : Bool :=
  !(!b.isTruceBroken && b.pieceHasMoved move.piece)

def isKingInCheckTruce (b : ChessBoard) (kingColor : Color) : Bool :=
  if b.isTruceActive then false else b.isKingInCheck kingColor

def isValidMove (b : ChessBoard) (move : ChessMove) : Bool :=
  if b.gameType = .truce ∧ b.validateTruceMove move = false then false
  else (b.getValidMovesFor move.fromPos).any fun validMove => validMove = move

def hasValidMoves (b : ChessBoard) : Bool :=
  (b.getPiecesOfColor b.currentPlayer).any fun piece =>
    !(b.getValidMovesFor piece.position).isEmpty

def getAllValidMoves (b : ChessBoard) : List ChessMove :=
  (b.getPiecesOfColor b.currentPlayer).flatMap fun piece => b.getValidMovesFor piece.position

/-! ## Special moves -/

/-- `KingsBattle.handleSpecialMove`: a king's kill unlocks Phase 2 and keeps the turn. -/
def kingsBattleSpecialMove (b : ChessBoard) (move : ChessMove) : Option ChessBoard :=
  if b.isPhase2Unlocked then none
  else if move.isKingsKill then
    let newBoard := b.makeMove move
    some (newBoard.copyWith { currentPlayer := some newBoard.currentPlayer.opposite })
  else none

/-- The key under which a repeated capture of a prisoner queen is counted. -/
def captureKey (move : ChessMove) (queenColor : Color) : List Char :=
  let colorName := fun (c : Color) => match c with
    | .white => "PieceColor.white".toList
    | .black => "PieceColor.black".toList
  let typeName := match move.piece.type with
    | .pawn => "pawn".toList
    | .knight => "knight".toList
    | .bishop => "bishop".toList
    | .rook => "rook".toList
    | .queen => "queen".toList
    | .king => "king".toList
  colorName move.piece.color ++ '_' :: typeName ++ '_' :: intText move.fromPos.row ++
    '_' :: intText move.fromPos.col ++ "_captures_".toList ++ colorName queenColor

/-- The part of `SaveTheQueen.handleSpecialMove` for a captured prisoner: with a free prison the
queen goes back there, unmoved. -/
def reprison (b : ChessBoard) (move : ChessMove) (capturedQueen : ChessPiece) : ChessBoard :=
  let prisonPosition := queenPrison capturedQueen.color
  let newBoard := b.makeMove move
  if b.pieces.any fun p => p.position = prisonPosition then newBoard
  else
    let key := captureKey move capturedQueen.color
    let count := ((b.queenCaptureCounter.find? fun e => e.1 = key).map Prod.snd).getD 0
    newBoard.copyWith
      { pieces := some (newBoard.pieces ++
          [{ capturedQueen with position := prisonPosition, hasMoved := false }])
        queenCaptureCounter := some (setEntry b.queenCaptureCounter key (count + 1)) }

/-- `SaveTheQueen.handleSpecialMove` -/
def saveTheQueenSpecialMove (b : ChessBoard) (move : ChessMove) : Option ChessBoard :=
  if move.piece.type = .queen ∧ move.piece.color.OwnHalf move.toPos.row ∧
      move.toPos = queenPrison move.piece.color.opposite then
    some ((b.makeMove move).copyWith { gameStatus := some .checkmate })
  else match move.capturedPiece with
    | some capturedQueen =>
      if capturedQueen.type = .queen then
        if capturedQueen.color.OwnHalf move.toPos.row then
          some ((b.makeMove move).copyWith { gameStatus := some .checkmate })
        else some (b.reprison move capturedQueen)
      else none
    | none => none

/-- Succession: promotion to king on a safe square wins at once. -/
def kingPromotionWin (b : ChessBoard) (move : ChessMove) : Option ChessBoard :=
  if move.isPromotion = true ∧ move.promotionPiece = some 'K' ∧
      b.isPositionUnderAttack move.toPos move.piece.color.opposite = false then
    some ((b.makeMove move).copyWith { gameStatus := some .checkmate })
  else none

/-- `Succession.handleSpecialMove` -/
def successionSpecialMove (b : ChessBoard) (move : ChessMove) : Option ChessBoard :=
  match move.capturedPiece with
  | some captured =>
    if captured.type = .pawn then
      let newBoard := b.makeMove move
      if (newBoard.pawnsOf captured.color).isEmpty then
        some (newBoard.copyWith { gameStatus := some .checkmate })
      else some newBoard
    else b.kingPromotionWin move
  | none => b.kingPromotionWin move

/-- The `handleSpecialMove` of the mod; Heir keeps the default and Truce only logs. -/
def handleSpecialMove (b : ChessBoard) (move : ChessMove) : Option ChessBoard :=
  match b.gameType with
  | .kingsBattle => b.kingsBattleSpecialMove move
  | .saveQueen => b.saveTheQueenSpecialMove move
  | .succession => b.successionSpecialMove move
  | _ => none

/-! ## Game status -/

/-- Status of a side under ordinary check rules. -/
def checkStatus (inCheck hasMoves : Bool) : GameStatus :=
  match inCheck, hasMoves with
  | true, true => .check
  | true, false => .checkmate
  | false, true => .ongoing
  | false, false => .stalemate

/-- The draw conditions at the end of each status function; `_isDrawByRepetition` is constantly
false. -/
def withDraws (b : ChessBoard) (newStatus : GameStatus) : ChessBoard :=
  let draw :=
    isInsufficientMaterial b.gameType (b.getPiecesOfColor .white) (b.getPiecesOfColor .black) ||
      b.canClaimFiftyMoveRule
  b.copyWith { gameStatus := some (if draw then .draw else newStatus) }

/-- Heir: the colour has lost, having no king and no pawn or no second promotion. -/
def heirLost (b : ChessBoard) (color : Color) : Bool :=
  (b.kingsOf color).isEmpty && ((b.pawnsOf color).isEmpty || b.hasPromotedKing color)

def updateHeirGameStatus (b : ChessBoard) : ChessBoard :=
  let hasMoves := b.hasValidMoves
  let player := b.currentPlayer
  let kingless := (b.getKing player).isNone
  if b.heirLost .white || b.heirLost .black then b.copyWith { gameStatus := some .checkmate }
  else if b.shouldApplyCheckRules player && b.isKingInCheck player then
    b.copyWith { gameStatus := some (if hasMoves then .check else .checkmate) }
  else if b.shouldApplyCheckRules player && kingless && !hasMoves then
    b.copyWith { gameStatus := some .checkmate }
  else b.withDraws
    (if hasMoves then .ongoing else if kingless then .checkmate else .stalemate)

def updateTruceGameStatus (b : ChessBoard) : ChessBoard :=
  b.withDraws (checkStatus (b.isKingInCheckTruce b.currentPlayer) b.hasValidMoves)

def updateGameStatus (b : ChessBoard) : ChessBoard :=
  let needsKings := b.gameType ≠ .heir ∧ b.gameType ≠ .succession
  if needsKings ∧ (b.getKing .white).isNone = true then
    b.copyWith { gameStatus := some .checkmate, currentPlayer := some .white }
  else if needsKings ∧ (b.getKing .black).isNone = true then
    b.copyWith { gameStatus := some .checkmate, currentPlayer := some .black }
  else if b.gameStatus = .checkmate ∨ b.gameStatus = .stalemate ∨ b.gameStatus = .draw then b
  else match b.gameType with
    | .heir => b.updateHeirGameStatus
    | .truce => b.updateTruceGameStatus
    | _ => b.withDraws (checkStatus (b.isKingInCheck b.currentPlayer) b.hasValidMoves)

def getWinner (b : ChessBoard) : Option Color :=
  if b.gameStatus = .checkmate then some b.currentPlayer.opposite else none

def executeMove (b : ChessBoard) (move : ChessMove) : Option ChessBoard :=
  if b.isValidMove move then
    some ((b.handleSpecialMove move).getD (b.makeMove move)).updateGameStatus
  else none

end ChessBoard

end ChessRecast.App
