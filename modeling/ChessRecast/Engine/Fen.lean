import ChessRecast.Engine.Board

/-!
# Reading and writing FEN strings (`board_fen.c`)

`board_set_fen` scans a character buffer with an index that only grows. The model scans the
list of the bytes from the pointer on (the string, its terminator and whatever follows it in
memory): `fen[i]` is the head of what is left and `i++` drops it. Bytes are written as the
characters with that code.
-/

namespace ChessRecast.Engine

/-- `fen[i]` for the rest of the buffer; past the buffer there is a terminator. -/
def peek (fen : List Char) : Char := fen.headD '\x00'

/-- `if (fen[i] == ' ') i++;` -/
def skipSpace (fen : List Char) : List Char := if peek fen = ' ' then fen.tail else fen

/-- The condition that ends a field: the terminator or a blank. -/
def fieldEnd (ch : Char) : Bool := ch = '\x00' || ch = ' '

/-- Value of a character in C arithmetic (plain `char` is signed). -/
def charVal (ch : Char) : ℤ := if ch.toNat < 128 then ch.toNat else ch.toNat - 256

/-- The `switch (tolower(ch))`: letters outside ASCII are no piece. -/
def fenPieceType (ch : Char) : Option PieceType :=
  match ch.toLower with
  | 'p' => some .pawn
  | 'n' => some .knight
  | 'b' => some .bishop
  | 'r' => some .rook
  | 'q' => some .queen
  | 'k' => some .king
  | _ => none

/-- "1. Piece placement" -/
def parsePlacement : List Char → ℤ → ℤ → Views → Views × List Char
  | [], _, _, v => (v, [])
  | ch :: fen, row, col, v =>
    if fieldEnd ch then (v, ch :: fen)
    else if ch = '/' then parsePlacement fen (row - 1) 0 v
    else if '1' ≤ ch ∧ ch ≤ '8' then parsePlacement fen row (col + (ch.toNat - '0'.toNat)) v
    else
      let c := if ch.isUpper then Color.white else Color.black
      let v := match fenPieceType ch with
        | some t => if row ≥ 0 ∧ col < 8 then boardPlace v (SQ row col) c t else v
        | none => v
      parsePlacement fen row (col + 1) v

/-- `while (fen[i] && fen[i] != ' ') i++;` -/
def skipField (fen : List Char) : List Char := fen.dropWhile fun ch => !fieldEnd ch

/-- "3. Castling" -/
def parseCastling : List Char → BitVec 8 → BitVec 8 × List Char
  | [], r => (r, [])
  | ch :: fen, r =>
    if fieldEnd ch then (r, ch :: fen)
    else
      let r := match ch with
        | 'K' => r ||| 1
        | 'Q' => r ||| 2
        | 'k' => r ||| 4
        | 'q' => r ||| 8
        | _ => r
      parseCastling fen r

/-- "4. En passant"; after a file letter the next byte is read whatever it is. -/
def parseEp (fen : List Char) : ℤ × List Char :=
  if peek fen = '-' then (sqNone, fen.tail)
  else if 'a' ≤ peek fen ∧ peek fen ≤ 'h' then
    let epc := charVal (peek fen) - charVal 'a'
    let fen := fen.tail
    let epr := charVal (peek fen) - charVal '1'
    (SQ epr epc, fen.tail)
  else (sqNone, fen)

/-- "5. Halfmove clock" -/
def parseHalfmove : List Char → ℤ → ℤ × List Char
  | [], n => (n, [])
  | ch :: fen, n =>
    if fieldEnd ch then (n, ch :: fen)
    else parseHalfmove fen (n * 10 + (charVal ch - charVal '0'))

/-- "6. Fullmove number" -/
def parseFullmove : List Char → ℤ → ℤ
  | [], n => n
  | ch :: fen, n =>
    if '0' ≤ ch ∧ ch ≤ '9' then parseFullmove fen (n * 10 + (charVal ch - charVal '0')) else n

def boardSetFen (fen : List Char) : Board :=
  let b := boardClear
  let (views, fen) := parsePlacement fen 7 0 b.toViews
  let fen := skipSpace fen
  let side := if peek fen = 'b' then Color.black else Color.white
  let fen := skipSpace (skipField fen)
  let (castling, fen) := parseCastling fen 0
  let fen := skipSpace fen
  let (ep, fen) := parseEp fen
  let fen := skipSpace fen
  let (halfmove, fen) := parseHalfmove fen 0
  let fen := skipSpace fen
  let fullmove := parseFullmove fen 0
  boardRefresh
    { b with
      toViews := views
      side := side
      castling := castling
      epSquare := ep
      halfmove := halfmove
      fullmove := if fullmove < 1 then 1 else fullmove }

/-! ## Writing -/

/-- `syms[PIECE_TYPE(p)]`, in upper case for White. -/
def pieceSymbol (man : Man) : Char :=
  let ch := match man.2 with
    | .pawn => 'p'
    | .knight => 'n'
    | .bishop => 'b'
    | .rook => 'r'
    | .queen => 'q'
    | .king => 'k'
  if man.1 = .white then ch.toUpper else ch

/-- `if (empty > 0) buf[pos++] = '0' + empty;` -/
def emptyDigit (empty : ℕ) : List Char :=
  if empty > 0 then [Char.ofNat ('0'.toNat + empty)] else []

/-- The columns of one row, `n` of them from `col` on, with `empty` squares pending. -/
def rowText (v : Views) (row : ℤ) : ℕ → ℤ → ℕ → List Char
  | 0, _, empty => emptyDigit empty
  | n + 1, col, empty =>
    match v.mailbox (SQ row col) with
    | none => rowText v row n (col + 1) (empty + 1)
    | some man => emptyDigit empty ++ pieceSymbol man :: rowText v row n (col + 1) 0

/-- The rows from `row` down to 0. -/
def rowsText (v : Views) : ℕ → List Char
  | 0 => rowText v 0 8 0 0
  | row + 1 => rowText v (row + 1) 8 0 0 ++ '/' :: rowsText v row

def castlingText (castling : BitVec 8) : List Char :=
  if castling = 0 then ['-']
  else
    (if castling &&& castleWK ≠ 0 then ['K'] else []) ++
    (if castling &&& castleWQ ≠ 0 then ['Q'] else []) ++
    (if castling &&& castleBK ≠ 0 then ['k'] else []) ++
    (if castling &&& castleBQ ≠ 0 then ['q'] else [])

def epSquareText (ep : ℤ) : List Char :=
  if ep = sqNone then ['-']
  else [Char.ofNat ('a'.toNat + sqCol ep).toNat, Char.ofNat ('1'.toNat + sqRow ep).toNat]

/-- `%d` -/
def decimalText (n : ℤ) : List Char :=
  if n < 0 then '-' :: Nat.toDigits 10 n.natAbs else Nat.toDigits 10 n.toNat

/-- The characters that `board_get_fen` writes before the terminator. -/
def fenText (b : Board) : List Char :=
  rowsText b.toViews 7 ++ [' ', if b.side = .white then 'w' else 'b', ' '] ++
    castlingText b.castling ++ ' ' :: epSquareText b.epSquare ++
    ' ' :: decimalText b.halfmove ++ ' ' :: decimalText b.fullmove

/-- `board_get_fen`: the string in the buffer. Only `snprintf` looks at `bufsize`, so without room
for the text and its terminator the code writes past the buffer; that is `none`. -/
def boardGetFen (b : Board) (bufsize : ℤ) : Option (List Char) :=
  if (fenText b).length < bufsize then some (fenText b) else none

end ChessRecast.Engine
