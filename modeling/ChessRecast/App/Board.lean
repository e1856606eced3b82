import ChessRecast.Lib.Keyed
import ChessRecast.Rules.Basic

/-!
# The board of the Dart application (`board.dart`, `piece.dart`, `move.dart`, `position.dart`)

A `ChessBoard` holds its pieces as a list, together with the whole move history. Strings are
lists of characters; Dart's one-letter promotion strings are characters.
-/

namespace ChessRecast.App

/-! ## Pieces and moves -/

structure ChessPiece where
  type : PieceType
  color : Color
  position : Position
  hasMoved : Bool := false
deriving DecidableEq, Repr

def ChessPiece.movedTo (p : ChessPiece) (newPosition : Position) : ChessPiece :=
  { p with position := newPosition, hasMoved := true }

def ChessPiece.man (p : ChessPiece) : Man := (p.color, p.type)

structure ChessMove where
  fromPos : Position
  toPos : Position
  piece : ChessPiece
  capturedPiece : Option ChessPiece := none
  isEnPassant : Bool := false
  isCastling : Bool := false
  isPromotion : Bool := false
  promotionPiece : Option Char := none
deriving DecidableEq, Repr

inductive GameStatus where
  | ongoing
  | check
  | checkmate
  | stalemate
  | draw
deriving DecidableEq, Repr

/-! ## The board -/

/-- `ChessBoard`. The two Dart maps are association lists. -/
structure ChessBoard where
  pieces : List ChessPiece
  currentPlayer : Color := .white
  gameStatus : GameStatus := .ongoing
  enPassantTarget : Option Position := none
  whiteCanCastleKingside : Bool := true
  whiteCanCastleQueenside : Bool := true
  blackCanCastleKingside : Bool := true
  blackCanCastleQueenside : Bool := true
  halfMoveClock : ℤ := 0
  fullMoveNumber : ℤ := 1
  moveHistory : List ChessMove := []
  gameType : Mod := .classic
  whiteHasPromotedKing : Bool := false
  blackHasPromotedKing : Bool := false
  positionHistory : List (List Char) := []
  escapedQueens : List (Color × Bool) := []
  queenCaptureCounter : List (List Char × ℤ) := []
deriving DecidableEq, Repr

/-- The named arguments of `copyWith`; an argument left out is `null`. -/
structure CopyWith where
  pieces : Option (List ChessPiece) := none
  currentPlayer : Option Color := none
  gameStatus : Option GameStatus := none
  enPassantTarget : Option Position := none
  whiteCanCastleKingside : Option Bool := none
  whiteCanCastleQueenside : Option Bool := none
  blackCanCastleKingside : Option Bool := none
  blackCanCastleQueenside : Option Bool := none
  halfMoveClock : Option ℤ := none
  fullMoveNumber : Option ℤ := none
  moveHistory : Option (List ChessMove) := none
  gameType : Option Mod := none
  whiteHasPromotedKing : Option Bool := none
  blackHasPromotedKing : Option Bool := none
  positionHistory : Option (List (List Char)) := none
  escapedQueens : Option (List (Color × Bool)) := none
  queenCaptureCounter : Option (List (List Char × ℤ)) := none

namespace ChessBoard

/-- `copyWith`: every field is `argument ?? this.field`, so a `null` en-passant target keeps
the old one. -/
def copyWith (b : ChessBoard) (u : CopyWith) : ChessBoard where
  pieces := u.pieces.getD b.pieces
  currentPlayer := u.currentPlayer.getD b.currentPlayer
  gameStatus := u.gameStatus.getD b.gameStatus
  enPassantTarget := u.enPassantTarget.or b.enPassantTarget
  whiteCanCastleKingside := u.whiteCanCastleKingside.getD b.whiteCanCastleKingside
  whiteCanCastleQueenside := u.whiteCanCastleQueenside.getD b.whiteCanCastleQueenside
  blackCanCastleKingside := u.blackCanCastleKingside.getD b.blackCanCastleKingside
  blackCanCastleQueenside := u.blackCanCastleQueenside.getD b.blackCanCastleQueenside
  halfMoveClock := u.halfMoveClock.getD b.halfMoveClock
  fullMoveNumber := u.fullMoveNumber.getD b.fullMoveNumber
  moveHistory := u.moveHistory.getD b.moveHistory
  gameType := u.gameType.getD b.gameType
  whiteHasPromotedKing := u.whiteHasPromotedKing.getD b.whiteHasPromotedKing
  blackHasPromotedKing := u.blackHasPromotedKing.getD b.blackHasPromotedKing
  positionHistory := u.positionHistory.getD b.positionHistory
  escapedQueens := u.escapedQueens.getD b.escapedQueens
  queenCaptureCounter := u.queenCaptureCounter.getD b.queenCaptureCounter

/-- `getPieceAt`: the first piece of the list on the square. -/
def getPieceAt (b : ChessBoard) (position : Position) : Option ChessPiece :=
  Keyed.lookup ChessPiece.position b.pieces position

def getPiecesOfColor (b : ChessBoard) (color : Color) : List ChessPiece :=
  b.pieces.filter fun p => p.color = color

/-- `getKing`: the first king of the list. -/
def getKing (b : ChessBoard) (color : Color) : Option ChessPiece :=
  b.pieces.find? fun p => p.type = .king ∧ p.color = color

/-- The has-promoted-king flag of a colour. -/
def hasPromotedKing (b : ChessBoard) : Color → Bool
  | .white => b.whiteHasPromotedKing
  | .black => b.blackHasPromotedKing

def pawnsOf (b : ChessBoard) (color : Color) : List ChessPiece :=
  b.pieces.filter fun p => p.type = .pawn ∧ p.color = color

def kingsOf (b : ChessBoard) (color : Color) : List ChessPiece :=
  b.pieces.filter fun p => p.type = .king ∧ p.color = color

end ChessBoard

/-! ## Texts -/

/-- `int.toString()` -/
def intText (n : ℤ) : List Char :=
  if n < 0 then '-' :: Nat.toDigits 10 n.natAbs else Nat.toDigits 10 n.toNat

def algebraic (p : Position) : List Char :=
  Char.ofNat ('a'.toNat + p.col).toNat :: intText (p.row + 1)

def symbol : PieceType → Char
  | .pawn => 'p'
  | .rook => 'r'
  | .knight => 'n'
  | .bishop => 'b'
  | .queen => 'q'
  | .king => 'k'

def fenSymbol (p : ChessPiece) : Char :=
  if p.color = .white then (symbol p.type).toUpper else symbol p.type

/-- `type.name[0].toUpperCase()`, the letter used in position keys. -/
def nameInitial : PieceType → Char
  | .pawn => 'P'
  | .rook => 'R'
  | .knight => 'K'
  | .bishop => 'B'
  | .queen => 'Q'
  | .king => 'K'

namespace ChessBoard

/-- One rank of `toFEN`, from column `col` on, with `emptyCount` squares pending. -/
def rankText (b : ChessBoard) (row : ℤ) : ℕ → ℤ → ℕ → List Char
  | 0, _, emptyCount => if emptyCount > 0 then Nat.toDigits 10 emptyCount else []
  | n + 1, col, emptyCount =>
    match b.getPieceAt ⟨row, col⟩ with
    | none => rankText b row n (col + 1) (emptyCount + 1)
    | some piece =>
      (if emptyCount > 0 then Nat.toDigits 10 emptyCount else []) ++
        fenSymbol piece :: rankText b row n (col + 1) 0

/-- The ranks of `toFEN` from `row` down to 0. -/
def ranksText (b : ChessBoard) : ℕ → List Char
  | 0 => rankText b 0 8 0 0
  | row + 1 => rankText b (row + 1) 8 0 0 ++ '/' :: ranksText b row

def toFEN (b : ChessBoard) : List Char :=
  ranksText b 7 ++ [' ', if b.currentPlayer = .white then 'w' else 'b']

/-- The four castling letters that apply. -/
def castlingLetters (b : ChessBoard) : List Char :=
  (if b.whiteCanCastleKingside then ['K'] else []) ++
  (if b.whiteCanCastleQueenside then ['Q'] else []) ++
  (if b.blackCanCastleKingside then ['k'] else []) ++
  (if b.blackCanCastleQueenside then ['q'] else [])

/-- `enPassantTarget?.algebraic ?? '-'` -/
def epText (b : ChessBoard) : List Char :=
  match b.enPassantTarget with
  | some p => algebraic p
  | none => ['-']

def toNativeFEN (b : ChessBoard) : List Char :=
  let castlingField := if b.castlingLetters = [] then ['-'] else b.castlingLetters
  b.toFEN ++ ' ' :: castlingField ++ ' ' :: b.epText ++ ' ' :: intText b.halfMoveClock ++
    ' ' :: intText b.fullMoveNumber

/-- `getPositionKey`: in the mailbox of Dart a later piece overwrites an earlier one. -/
def getPositionKey (b : ChessBoard) : List Char :=
  let cell := fun (i : ℕ) =>
    b.pieces.reverse.find? fun p => p.position.row * 8 + p.position.col = (i : ℤ)
  let squares := (List.range 64).flatMap fun i =>
    match cell i with
    | some p =>
      (if p.color = .white then 'W' else 'B') :: nameInitial p.type ::
        (algebraic p.position ++ ['|'])
    | none => []
  squares ++ ':' :: (if b.currentPlayer = .white then 'W' else 'B') :: ':' ::
    (b.castlingLetters ++ ':' :: b.epText)

end ChessBoard

/-! ## Initial boards -/

/-- The pieces of `ChessBoard.initial` in the order in which they are added. -/
def initialPieces (gameType : Mod) : List ChessPiece :=
  let cols := [0, 1, 2, 3, 4, 5, 6, 7]
  let pieceOrder : List (ℤ × PieceType) :=
    [(0, .rook), (1, .knight), (2, .bishop), (3, .queen), (4, .king), (5, .bishop),
      (6, .knight), (7, .rook)]
  (cols.flatMap fun col =>
    [{ type := .pawn, color := .white, position := ⟨1, col⟩ },
     { type := .pawn, color := .black, position := ⟨6, col⟩ }]) ++
  pieceOrder.flatMap fun entry =>
    -- Save the Queen swaps the queens
    let swap := gameType = .saveQueen ∧ entry.2 = .queen
    [{ type := entry.2, color := .white, position := ⟨if swap then 7 else 0, entry.1⟩ },
     { type := entry.2, color := .black, position := ⟨if swap then 0 else 7, entry.1⟩ }]

/-- `Succession.getInitialBoard`: two queens and no king on each side, all castling flags set. -/
def successionInitialBoard : ChessBoard :=
  let cols := [0, 1, 2, 3, 4, 5, 6, 7]
  let pieceOrder : List (ℤ × PieceType) :=
    [(0, .rook), (1, .knight), (2, .bishop), (3, .queen), (4, .queen), (5, .bishop),
      (6, .knight), (7, .rook)]
  let back := fun (color : Color) (row : ℤ) =>
    pieceOrder.map fun entry =>
      { type := entry.2, color := color, position := ⟨row, entry.1⟩ : ChessPiece }
  let pawns := fun (color : Color) (row : ℤ) =>
    cols.map fun col => { type := .pawn, color := color, position := ⟨row, col⟩ : ChessPiece }
  { pieces := back .white 0 ++ pawns .white 1 ++ back .black 7 ++ pawns .black 6
    gameType := .succession }

def ChessBoard.initial (gameType : Mod) : ChessBoard :=
  if gameType = .succession then successionInitialBoard
  else
    let board : ChessBoard :=
      { pieces := initialPieces gameType
        gameType := gameType
        escapedQueens :=
          if gameType = .saveQueen then [(.white, false), (.black, false)] else [] }
    board.copyWith { positionHistory := some [board.getPositionKey] }

end ChessRecast.App
