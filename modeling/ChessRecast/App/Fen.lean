import ChessRecast.App.Board

/-!
# Reading FEN strings (`ChessBoard.fromFEN`)

A Dart string is the list of its UTF-16 code units, lone surrogates included. `fromFEN` splits it
at blanks; missing fields have defaults. The messages of the errors are those of the source.
-/

namespace ChessRecast.App

/-! ## Strings -/

/-- The code units of a text. -/
def codeUnits (s : List Char) : List UInt16 :=
  s.flatMap fun ch =>
    if ch.toNat < 0x10000 then [UInt16.ofNat ch.toNat]
    else [UInt16.ofNat (0xd800 + (ch.toNat - 0x10000) / 0x400),
      UInt16.ofNat (0xdc00 + (ch.toNat - 0x10000) % 0x400)]

/-- The code unit of an ASCII character. -/
def unit (ch : Char) : UInt16 := UInt16.ofNat ch.toNat

/-- What `fromFEN` throws. `RangeError` is a subclass of `ArgumentError`, `FormatException` is
not. -/
inductive DartError where
  | argument (message : List UInt16)
  | range (index : ℤ)
  | format (source : List UInt16)
deriving DecidableEq, Repr

/-- `e is ArgumentError` -/
def DartError.isArgumentError : DartError → Bool
  | argument _ => true
  | range _ => true
  | format _ => false

/-! ## `int.tryParse` and `int.parse` -/

/-- White space, as `trim` removes it. -/
def isWhitespace (u : UInt16) : Bool :=
  0x09 ≤ u && u ≤ 0x0d || u = 0x20 || u = 0x85 || u = 0xa0 || u = 0x1680 ||
    0x2000 ≤ u && u ≤ 0x200a || u = 0x2028 || u = 0x2029 || u = 0x202f || u = 0x205f ||
    u = 0x3000 || u = 0xfeff

def trim (s : List UInt16) : List UInt16 :=
  ((s.dropWhile isWhitespace).reverse.dropWhile isWhitespace).reverse

/-- The value of a digit below `radix`. -/
def digitValue (radix : ℕ) (u : UInt16) : Option ℕ :=
  let d :=
    if unit '0' ≤ u ∧ u ≤ unit '9' then u.toNat - 48
    else if unit 'a' ≤ u ∧ u ≤ unit 'z' then u.toNat - 87
    else if unit 'A' ≤ u ∧ u ≤ unit 'Z' then u.toNat - 55
    else radix
  if d < radix then some d else none

def parseDigits (radix : ℕ) : List UInt16 → ℕ → Option ℕ
  | [], n => some n
  | u :: s, n => (digitValue radix u).bind fun d => parseDigits radix s (n * radix + d)

/-- A hexadecimal number behind its `0x`; a positive one may use all 64 bits. -/
def parseHex (negative : Bool) (s : List UInt16) : Option ℤ :=
  if s = [] then none
  else (parseDigits 16 s 0).bind fun n =>
    if negative then if n ≤ 2 ^ 63 then some (-n) else none
    else if n < 2 ^ 63 then some n
    else if n < 2 ^ 64 then some (n - 2 ^ 64)
    else none

/-- A decimal number of 64 bits. -/
def parseDecimal (negative : Bool) (s : List UInt16) : Option ℤ :=
  if s = [] then none
  else (parseDigits 10 s 0).bind fun n =>
    let value : ℤ := if negative then -n else n
    if -2 ^ 63 ≤ value ∧ value < 2 ^ 63 then some value else none

/-- A number behind its sign. -/
def parseUnsigned (negative : Bool) (s : List UInt16) : Option ℤ :=
  match s with
  | zero :: x :: digits =>
    if zero = unit '0' ∧ (x = unit 'x' ∨ x = unit 'X') then parseHex negative digits
    else parseDecimal negative s
  | s => parseDecimal negative s

/-- `int.tryParse` -/
def intTryParse (source : List UInt16) : Option ℤ :=
  match trim source with
  | [] => none
  | first :: s =>
    if first = unit '-' then parseUnsigned true s
    else if first = unit '+' then parseUnsigned false s
    else parseUnsigned false (first :: s)

/-- `int.parse` -/
def intParse (source : List UInt16) : Except DartError ℤ :=
  match intTryParse source with
  | some n => .ok n
  | none => .error (.format source)

/-! ## Squares -/

def fromAlgebraic (algebraic : List UInt16) : Except DartError Position :=
  let invalid := DartError.argument (codeUnits "Invalid algebraic notation: ".toList ++ algebraic)
  match algebraic with
  | [file, rank] => do
    let col : ℤ := file.toNat - 'a'.toNat
    let row := (← intParse [rank]) - 1
    if col < 0 ∨ col > 7 ∨ row < 0 ∨ row > 7 then throw invalid else return ⟨row, col⟩
  | _ => .error invalid

/-! ## Piece placement -/

/-- `toLowerCase` of one code unit. Beside the ASCII capitals only the Kelvin sign has a lower case
letter of ASCII. -/
def toLowerCase (u : UInt16) : UInt16 :=
  if unit 'A' ≤ u ∧ u ≤ unit 'Z' then u + 0x20 else if u = 0x212a then unit 'k' else u

/-- `char == char.toUpperCase()`, for the code units that name a piece. -/
def isUpperCase (u : UInt16) : Bool := ¬ (unit 'a' ≤ u ∧ u ≤ unit 'z')

/-- The `switch (char.toLowerCase())` -/
def pieceTypeOf (u : UInt16) : Option PieceType :=
  if toLowerCase u = unit 'p' then some .pawn
  else if toLowerCase u = unit 'n' then some .knight
  else if toLowerCase u = unit 'b' then some .bishop
  else if toLowerCase u = unit 'r' then some .rook
  else if toLowerCase u = unit 'q' then some .queen
  else if toLowerCase u = unit 'k' then some .king
  else none

/-- `char.contains(RegExp(r'[1-8]'))` -/
def isFileCount (u : UInt16) : Bool := unit '1' ≤ u ∧ u ≤ unit '8'

/-- The loop over one rank, from file `fileIndex` on. -/
def parseRank (row : ℤ) : List UInt16 → ℤ → Except DartError (List ChessPiece)
  | [], _ => .ok []
  | char :: rank, fileIndex =>
    if isFileCount char then parseRank row rank (fileIndex + (char.toNat - '0'.toNat))
    else
      match pieceTypeOf char with
      | none => .error (.argument (codeUnits "Invalid FEN: unknown piece ".toList ++ [char]))
      | some type => do
        let piece : ChessPiece :=
          { type := type
            color := if isUpperCase char then .white else .black
            position := ⟨row, fileIndex⟩ }
        let pieces ← parseRank row rank (fileIndex + 1)
        return piece :: pieces

/-- The loop over the ranks, the first of them being row `row`. -/
def parseRanks : List (List UInt16) → ℤ → Except DartError (List ChessPiece)
  | [], _ => .ok []
  | rank :: ranks, row => do
    let pieces ← parseRank row rank 0
    let others ← parseRanks ranks (row - 1)
    return pieces ++ others

namespace ChessBoard

/-- The index that `getPositionKey` writes a piece to. -/
def mailboxIndex (p : ChessPiece) : ℤ := p.position.row * 8 + p.position.col

/-- `getPositionKey` on any list of pieces: the mailbox has 64 entries. -/
def positionKey (b : ChessBoard) : Except DartError (List Char) :=
  match b.pieces.find? fun p => ¬ (0 ≤ mailboxIndex p ∧ mailboxIndex p < 64) with
  | some p => .error (.range (mailboxIndex p))
  | none => .ok b.getPositionKey

/-- A castling right: a missing field leaves them all, and `-` has none of the letters. -/
def castlingRight (field : Option (List UInt16)) (letter : Char) : Bool :=
  match field with
  | none => true
  | some field => if field = [unit '-'] then false else field.contains (unit letter)

def parseEnPassantTarget (field : Option (List UInt16)) : Except DartError (Option Position) :=
  match field with
  | none => .ok none
  | some field => if field = [unit '-'] then .ok none else do return some (← fromAlgebraic field)

/-- The board of the fields `parts`; a missing clock is 0, a missing move number 1. -/
def ofFields (parts : List (List UInt16)) (pieces : List ChessPiece)
    (enPassantTarget : Option Position) (gameType : Mod) : ChessBoard where
  pieces := pieces
  currentPlayer := if parts[1]? = some [unit 'b'] then .black else .white
  whiteCanCastleKingside := castlingRight parts[2]? 'K'
  whiteCanCastleQueenside := castlingRight parts[2]? 'Q'
  blackCanCastleKingside := castlingRight parts[2]? 'k'
  blackCanCastleQueenside := castlingRight parts[2]? 'q'
  enPassantTarget := enPassantTarget
  halfMoveClock := (parts[4]?.bind intTryParse).getD 0
  fullMoveNumber := (parts[5]?.bind intTryParse).getD 1
  gameType := gameType

def fromFEN (fen : List UInt16) (gameType : Mod := .classic) : Except DartError ChessBoard :=
  let parts := fen.splitOn (unit ' ')
  if parts = [] then .error (.argument (codeUnits "Invalid FEN: empty string".toList))
  else
    let ranks := (parts.headD []).splitOn (unit '/')
    if ranks.length ≠ 8 then .error (.argument (codeUnits "Invalid FEN: must have 8 ranks".toList))
    else do
      let pieces ← parseRanks ranks 7
      let enPassantTarget ← parseEnPassantTarget parts[3]?
      let board := ofFields parts pieces enPassantTarget gameType
      let key ← board.positionKey
      return board.copyWith { positionHistory := some [key] }

end ChessBoard

end ChessRecast.App
