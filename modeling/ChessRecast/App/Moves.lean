import ChessRecast.App.Attack

/-!
# Move helpers and the validation copy (`helpers.dart`, `validation.dart`)
-/

namespace ChessRecast.App

def ChessMove.simple (fromPos toPos : Position) (piece : ChessPiece)
    (capturedPiece : Option ChessPiece) : ChessMove :=
  { fromPos, toPos, piece, capturedPiece }

def ChessMove.castling (fromPos toPos : Position) (piece : ChessPiece) : ChessMove :=
  { fromPos, toPos, piece, isCastling := true }

def ChessMove.enPassant (fromPos toPos : Position) (piece capturedPiece : ChessPiece) :
    ChessMove :=
  { fromPos, toPos, piece, capturedPiece := some capturedPiece, isEnPassant := true }

def ChessMove.promotion (fromPos toPos : Position) (piece : ChessPiece)
    (capturedPiece : Option ChessPiece) (promotionPiece : Char) : ChessMove :=
  { fromPos, toPos, piece, capturedPiece, isPromotion := true,
    promotionPiece := some promotionPiece }

namespace ChessBoard

/-! ## Sliding and stepping -/

/-- The inner loop of `generateSlidingMoves`, `n` rounds from step `i` on. -/
def slideDir (b : ChessBoard) (piece : ChessPiece) (dr dc : ℤ) : ℕ → ℤ → List ChessMove
  | 0, _ => []
  | n + 1, i =>
    let newPos := piece.position.offset (dr * i) (dc * i)
    if newPos.IsValid then
      match b.getPieceAt newPos with
      | none =>
        ChessMove.simple piece.position newPos piece none :: slideDir b piece dr dc n (i + 1)
      | some target =>
        if target.color ≠ piece.color then
          [ChessMove.simple piece.position newPos piece (some target)]
        else []
    else []

def generateSlidingMoves (b : ChessBoard) (piece : ChessPiece) (directions : List (ℤ × ℤ)) :
    List ChessMove :=
  directions.flatMap fun d => b.slideDir piece d.1 d.2 7 1

def generateStepMoves (b : ChessBoard) (piece : ChessPiece) (offsets : List (ℤ × ℤ)) :
    List ChessMove :=
  offsets.flatMap fun d =>
    let newPos := piece.position.offset d.1 d.2
    if newPos.IsValid then
      let target := b.getPieceAt newPos
      if target.all (fun q => q.color ≠ piece.color) then
        [ChessMove.simple piece.position newPos piece target]
      else []
    else []

def lastRank : Color → ℤ
  | .white => 7
  | .black => 0

def createMovesWithPromotionCheck (piece : ChessPiece) (toPos : Position)
    (capturedPiece : Option ChessPiece) (promotionOptions : List Char) : List ChessMove :=
  if piece.type = .pawn ∧ toPos.row = lastRank piece.color then
    promotionOptions.map fun promotionPiece =>
      ChessMove.promotion piece.position toPos piece capturedPiece promotionPiece
  else [ChessMove.simple piece.position toPos piece capturedPiece]

/-! ## Castling -/

/-- Home row of a colour's king. -/
def kingRow : Color → ℤ
  | .white => 0
  | .black => 7

/-- The tests that `canCastleKingside` and `canCastleQueenside` share: the columns of the
rook, of the squares that must be empty and of those that must not be attacked. -/
def canCastle (b : ChessBoard) (color : Color) (rookCol : ℤ) (empties safes : List ℤ) : Bool :=
  let row := kingRow color
  match b.getKing color with
  | none => false
  | some king =>
    if king.position ≠ ⟨row, 4⟩ then false
    else if (b.getPieceAt ⟨row, rookCol⟩).all
        (fun rook => rook.type ≠ .rook || rook.color ≠ color) then false
    else if empties.any (fun col => (b.getPieceAt ⟨row, col⟩).isSome) then false
    else if b.isKingInCheck color then false
    else !safes.any fun col => b.isPositionUnderAttack ⟨row, col⟩ color.opposite

def canCastleKingside (b : ChessBoard) (color : Color) : Bool :=
  b.canCastle color 7 [5, 6] [5, 6]

def canCastleQueenside (b : ChessBoard) (color : Color) : Bool :=
  b.canCastle color 0 [1, 2, 3] [2, 3]

/-- `performCastlingRookMove` on the list `newPieces`; the rook is read from this board. -/
def performCastlingRookMove (b : ChessBoard) (newPieces : List ChessPiece)
    (kingFrom kingTo : Position) : List ChessPiece :=
  let row := kingFrom.row
  let isKingside := kingTo.col = 6
  let rookPos : Position := ⟨row, if isKingside then 7 else 0⟩
  let rookTo : Position := ⟨row, if isKingside then 5 else 3⟩
  let newPieces := newPieces.filter fun piece => piece.position ≠ rookPos
  match b.getPieceAt rookPos with
  | some rook => newPieces ++ [rook.movedTo rookTo]
  | none => newPieces

/-! ## The validation copy -/

/-- The `switch` on `promotionPiece.toUpperCase()`. -/
def validationPromotedType (m : ChessMove) (letter : Char) : PieceType :=
  match letter.toUpper with
  | 'Q' => .queen
  | 'R' => .rook
  | 'B' => .bishop
  | 'N' => .knight
  | 'K' => .king
  | _ => m.piece.type

/-- The moved piece of the validation copy, with its promotion. -/
def validationMovedPiece (m : ChessMove) : ChessPiece :=
  match m.isPromotion, m.promotionPiece with
  | true, some letter =>
    { m.piece.movedTo m.toPos with type := validationPromotedType m letter }
  | _, _ => m.piece.movedTo m.toPos

/-- The piece list of `makeMoveForValidation`; its loops run backwards and stop at the first
match. -/
def validationPieces (b : ChessBoard) (m : ChessMove) : List ChessPiece :=
  let newPieces := Keyed.eraseLast (fun p => p.position = m.fromPos) b.pieces
  let newPieces := match m.capturedPiece with
    | some captured =>
      if m.isEnPassant then Keyed.eraseLast (fun p => p = captured) newPieces
      else Keyed.eraseLast (fun p => p.position = m.toPos) newPieces
    | none => newPieces
  let newPieces := newPieces ++ [validationMovedPiece m]
  if m.isCastling then b.performCastlingRookMove newPieces m.fromPos m.toPos else newPieces

def makeMoveForValidation (b : ChessBoard) (m : ChessMove) : ChessBoard :=
  b.copyWith
    { pieces := some (b.validationPieces m)
      currentPlayer := some b.currentPlayer.opposite
      moveHistory := some (b.moveHistory ++ [m])
      enPassantTarget := b.enPassantTarget }

end ChessBoard

end ChessRecast.App
