import ChessRecast.App.Moves

/-!
# The rulesets of the Dart application (`lib/mods`)

Promotion options, move filters and the phase tests of the game mods. Handlers that play a
move (`handleSpecialMove`) are in `Orchestrator`.
-/

namespace ChessRecast.App

namespace ChessBoard

/-! ## Heir -/

def shouldApplyCheckRules (b : ChessBoard) (color : Color) : Bool :=
  b.hasPromotedKing color || (b.pawnsOf color).isEmpty

/-- `Heir.getPromotionPieces` at a promotion square; `none` is Dart's `null`. -/
def heirPromotionPieces (b : ChessBoard) (color : Color) (promotionPosition : Position) :
    Option (List Char) :=
  let hasKing := (b.getKing color).isSome
  let hasPromotedKing := b.hasPromotedKing color
  let canPromoteToKing :=
    !hasPromotedKing && !b.isPositionUnderAttack promotionPosition color.opposite
  if !hasKing && !hasPromotedKing then
    if canPromoteToKing then some ['K'] else some []
  else if canPromoteToKing then some ['Q', 'R', 'B', 'N', 'K']
  else none

/-! ## Succession -/

/-- `Succession.getPromotionPieces` at a promotion square. -/
def successionPromotionPieces (b : ChessBoard) (color : Color) (promotionPosition : Position) :
    List Char :=
  let isLastPawn := (b.pawnsOf color).length = 1
  let squareUnderAttack := b.isPositionUnderAttack promotionPosition color.opposite
  if isLastPawn then
    if squareUnderAttack then [] else ['K']
  else ['R', 'B', 'N'] ++ (if squareUnderAttack then [] else ['K'])

def getPromotionPieces (b : ChessBoard) (color : Color) (promotionPosition : Position) :
    List Char :=
  match b.gameType with
  | .mercenary => []
  | .saveQueen => ['R', 'B', 'N']
  | .heir => (b.heirPromotionPieces color promotionPosition).getD ['Q', 'R', 'B', 'N']
  | .succession => b.successionPromotionPieces color promotionPosition
  | _ => ['Q', 'R', 'B', 'N']

/-! ## Mercenary -/

/-- The eight king-like offsets, in the order of the Dart lists. -/
def kingOffsets : List (ℤ × ℤ) :=
  [(-1, -1), (-1, 0), (-1, 1), (0, -1), (0, 1), (1, -1), (1, 0), (1, 1)]

/-- `Mercenary.getPawnMoves` -/
def mercenaryPawnMoves (b : ChessBoard) (pawn : ChessPiece) : List ChessMove :=
  kingOffsets.flatMap fun d =>
    let newPos := pawn.position.offset d.1 d.2
    if newPos.IsValid then
      match b.getPieceAt newPos with
      | none => [ChessMove.simple pawn.position newPos pawn none]
      | some target =>
        if target.color ≠ pawn.color then
          if target.type = .king ∧ b.gameType ≠ .heir then []
          else [ChessMove.simple pawn.position newPos pawn (some target)]
        else []
    else []

/-! ## Friendly Fire -/

/-- `_isPathClear`: the loop from the square after `from` up to `to`. A line of the board is
left behind within eight rounds. -/
def pathClearLoop (b : ChessBoard) (toPos : Position) (dr dc : ℤ) : ℕ → ℤ → ℤ → Bool
  | 0, _, _ => true
  | n + 1, row, col =>
    if row ≠ toPos.row ∨ col ≠ toPos.col then
      if (b.getPieceAt ⟨row, col⟩).isSome then false
      else pathClearLoop b toPos dr dc n (row + dr) (col + dc)
    else true

def isPathClear (b : ChessBoard) (fromPos toPos : Position) : Bool :=
  let dr := (toPos.row - fromPos.row).sign
  let dc := (toPos.col - fromPos.col).sign
  b.pathClearLoop toPos dr dc 8 (fromPos.row + dr) (fromPos.col + dc)

def canPieceReach (b : ChessBoard) (piece : ChessPiece) (target : Position) : Bool :=
  let rowDiff := target.row - piece.position.row
  let colDiff := target.col - piece.position.col
  match piece.type with
  | .pawn =>
    decide (target.row = piece.position.row + piece.color.forward ∧
      (target.col = piece.position.col - 1 ∨ target.col = piece.position.col + 1))
  | .knight => decide ((|rowDiff| = 2 ∧ |colDiff| = 1) ∨ (|rowDiff| = 1 ∧ |colDiff| = 2))
  | .bishop => if |rowDiff| ≠ |colDiff| then false else b.isPathClear piece.position target
  | .rook => if rowDiff ≠ 0 ∧ colDiff ≠ 0 then false else b.isPathClear piece.position target
  | .queen =>
    if ¬ |rowDiff| = |colDiff| ∧ ¬ (rowDiff = 0 ∨ colDiff = 0) then false
    else b.isPathClear piece.position target
  | .king => decide (|rowDiff| ≤ 1 ∧ |colDiff| ≤ 1)

/-- `FriendlyFire.filterMoves` -/
def friendlyFireFilter (b : ChessBoard) (moves : List ChessMove) (piece : ChessPiece) :
    List ChessMove :=
  let friendlyPieces := b.pieces.filter fun p =>
    p.color = piece.color ∧ p.type ≠ .king ∧ p.hasMoved = true ∧ p.position ≠ piece.position
  friendlyPieces.foldl (fun expandedMoves friendlyPiece =>
    if b.canPieceReach piece friendlyPiece.position then
      let move := ChessMove.simple piece.position friendlyPiece.position piece (some friendlyPiece)
      if expandedMoves.any fun m => m.fromPos = move.fromPos ∧ m.toPos = move.toPos then
        expandedMoves
      else expandedMoves ++ [move]
    else expandedMoves) moves

/-! ## Kings' Battle -/

def isPhase2Unlocked (b : ChessBoard) : Bool := phase2Loop b.moveHistory 0 false

/-- `KingsBattle.filterMoves` -/
def kingsBattleFilter (b : ChessBoard) (moves : List ChessMove) (piece : ChessPiece) :
    List ChessMove :=
  if b.isPhase2Unlocked then moves
  else if piece.type ≠ .king ∧ piece.type ≠ .pawn then []
  else if piece.type = .king then
    moves.filter fun move => !move.capturedPiece.any fun q => q.type = .king
  else moves

/-! ## Save the Queen -/

/-- `whiteQueenPrison` (d8) and `blackQueenPrison` (d1). -/
def queenPrison : Color → Position
  | .white => ⟨7, 3⟩
  | .black => ⟨0, 3⟩

/-- The two positions are at most one square apart. -/
def isAdjacent (p q : Position) : Bool := decide (|p.row - q.row| ≤ 1 ∧ |p.col - q.col| ≤ 1)

/-- The queen-takes-queen test at the head of `SaveTheQueen.filterMoves`. -/
def queenTakesQueenOk (b : ChessBoard) (piece : ChessPiece) (move : ChessMove) : Bool :=
  match b.getPieceAt move.toPos with
  | some target =>
    if target.type = .queen then
      if move.toPos ≠ queenPrison target.color then false
      else isAdjacent move.toPos piece.position
    else true
  | none => true

def prisonerMoves (b : ChessBoard) (piece : ChessPiece) : List ChessMove :=
  kingOffsets.flatMap fun d =>
    let targetPos := piece.position.offset d.1 d.2
    if targetPos.row < 0 ∨ targetPos.row > 7 ∨ targetPos.col < 0 ∨ targetPos.col > 7 then []
    else match b.getPieceAt targetPos with
      | some _ => []
      | none => [ChessMove.simple piece.position targetPos piece none]

/-- The test for pieces other than queens: no capture of a queen on its prison square, or of a
prisoner whose prison is occupied. -/
def takesQueenOk (b : ChessBoard) (move : ChessMove) : Bool :=
  match b.getPieceAt move.toPos with
  | some target =>
    if target.type = .queen then
      if target.position = queenPrison target.color then false
      else if ¬ target.color.OwnHalf target.position.row then
        !b.pieces.any fun p => p.position = queenPrison target.color
      else true
    else true
  | none => true

/-- `SaveTheQueen.filterMoves` -/
def saveTheQueenFilter (b : ChessBoard) (moves : List ChessMove) (piece : ChessPiece) :
    List ChessMove :=
  if piece.type = .queen then
    let filteredMoves := moves.filter (b.queenTakesQueenOk piece)
    if piece.color.OwnHalf piece.position.row then
      filteredMoves.filter fun move =>
        if piece.color.OwnHalf move.toPos.row then true
        else isAdjacent move.toPos piece.position && move.capturedPiece.isNone
    else b.prisonerMoves piece
  else moves.filter b.takesQueenOk

/-! ## Truce -/

def pieceHasMoved (b : ChessBoard) (piece : ChessPiece) : Bool :=
  piece.hasMoved ||
    b.moveHistory.any fun move => move.piece.color = piece.color ∧ move.toPos = piece.position

def moveGivesCheck (b : ChessBoard) (move : ChessMove) : Bool :=
  let opponentColor := move.piece.color.opposite
  match b.getKing opponentColor with
  | none => false
  | some _ =>
    let simBoard := b.makeMoveForValidation move
    match simBoard.getKing opponentColor with
    | none => false
    | some opponentKing => simBoard.isPositionUnderAttack opponentKing.position move.piece.color

def pawnTruceMoves (b : ChessBoard) (piece : ChessPiece) : List ChessMove :=
  let direction := piece.color.forward
  let startRow : ℤ := if piece.color = .white then 1 else 6
  let oneStep := piece.position.offset direction 0
  if oneStep.IsValid ∧ b.getPieceAt oneStep = none then
    let twoStep := piece.position.offset (direction * 2) 0
    createMovesWithPromotionCheck piece oneStep none (b.getPromotionPieces piece.color oneStep) ++
      (if piece.position.row = startRow ∧ twoStep.IsValid ∧ b.getPieceAt twoStep = none then
        [ChessMove.simple piece.position twoStep piece none]
      else [])
  else []

def candidateTruceMoves (b : ChessBoard) (piece : ChessPiece) : List ChessMove :=
  let quiet := fun (moves : List ChessMove) => moves.filter fun m => m.capturedPiece.isNone
  match piece.type with
  | .pawn => b.pawnTruceMoves piece
  | .rook => quiet (b.generateSlidingMoves piece [(1, 0), (-1, 0), (0, 1), (0, -1)])
  | .knight =>
    quiet (b.generateStepMoves piece
      [(-2, -1), (-2, 1), (-1, -2), (-1, 2), (1, -2), (1, 2), (2, -1), (2, 1)])
  | .bishop => quiet (b.generateSlidingMoves piece [(1, 1), (1, -1), (-1, 1), (-1, -1)])
  | .queen =>
    quiet (b.generateSlidingMoves piece
      [(1, 0), (-1, 0), (0, 1), (0, -1), (1, 1), (1, -1), (-1, 1), (-1, -1)])
  | .king =>
    let row := kingRow piece.color
    quiet (b.generateStepMoves piece
      [(1, 0), (-1, 0), (0, 1), (0, -1), (1, 1), (1, -1), (-1, 1), (-1, -1)]) ++
    (if piece.position = ⟨row, 4⟩ then
      (if b.canCastleKingside piece.color then
        [ChessMove.castling piece.position ⟨row, 6⟩ piece] else []) ++
      (if b.canCastleQueenside piece.color then
        [ChessMove.castling piece.position ⟨row, 2⟩ piece] else [])
    else [])

def hasLegalTruceMove (b : ChessBoard) (piece : ChessPiece) : Bool :=
  (b.candidateTruceMoves piece).any fun move => !b.moveGivesCheck move

/-- `Truce._isTruceBroken`: every piece of the side to move has moved or has no truce move. -/
def isTruceBroken (b : ChessBoard) : Bool :=
  let currentPieces := b.getPiecesOfColor b.currentPlayer
  if currentPieces.isEmpty then true
  else
    let exhaustedCount := (currentPieces.filter fun piece =>
      b.pieceHasMoved piece || !b.hasLegalTruceMove piece).length
    decide (exhaustedCount ≥ currentPieces.length)

def isTruceActive (b : ChessBoard) : Bool := !b.isTruceBroken

/-- `Truce.filterMoves` -/
def truceFilter (b : ChessBoard) (moves : List ChessMove) (piece : ChessPiece) :
    List ChessMove :=
  if b.isTruceBroken then moves
  else if b.pieceHasMoved piece then []
  else (moves.filter fun move => move.capturedPiece.isNone).filter fun move =>
    !b.moveGivesCheck move

/-- Square index of a position, as the bitboards handed to C number the squares. -/
def squareIndex (p : Position) : ℕ := (p.row * 8 + p.col).toNat

def getTruceFrozenBitboard (b : ChessBoard) : BitVec 64 :=
  if b.isTruceBroken then 0
  else b.pieces.foldl (fun frozen piece =>
    if b.pieceHasMoved piece then frozen ||| (1#64 <<< squareIndex piece.position)
    else frozen) 0

end ChessBoard

end ChessRecast.App
