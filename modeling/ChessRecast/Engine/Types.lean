import ChessRecast.Lib.Bits
import ChessRecast.Rules.Basic

/-!
# Types of the C engine (`types.h`)

A `Square` is an `int8_t` (a1 is 0, h8 is 63), written as an integer here; `SQ` wraps as the
conversion to `int8_t` does. A bitboard is a 64-bit word. The packed `Piece`
byte is the pair of its colour and type, with `PIECE_EMPTY` as `none`; the packed `Move` word
is the record of its eight fields, with `PIECE_NONE` as `none`.
-/

namespace ChessRecast.Engine

/-- The values of an `int`. -/
def InInt (n : ℤ) : Prop := -2 ^ 31 ≤ n ∧ n < 2 ^ 31

instance (n : ℤ) : Decidable (InInt n) := inferInstanceAs (Decidable (_ ∧ _))

/-! ## Squares -/

def sqNone : ℤ := -1

/-- `SQ(row, col)`, with the conversion to `int8_t`. -/
def SQ (row col : ℤ) : ℤ := (row * 8 + col + 128) % 256 - 128

/-- `SQ_ROW(sq)`, the arithmetic shift `sq >> 3`. -/
def sqRow (sq : ℤ) : ℤ := sq / 8

/-- `SQ_COL(sq)`, that is `sq & 7`. -/
def sqCol (sq : ℤ) : ℤ := sq % 8

/-- `SQ_VALID(sq)` -/
def SqValid (sq : ℤ) : Prop := 0 ≤ sq ∧ sq < 64

instance (sq : ℤ) : Decidable (SqValid sq) := inferInstanceAs (Decidable (_ ∧ _))

/-! ## Bitboards -/

/-- `uint64_t Bitboard` -/
abbrev Bitboard := BitVec 64

/-- `BB_SQ(sq)` -/
def bbSq (sq : ℤ) : Bitboard := Bits.single 64 sq.toNat

/-- `BB_SET(bb, sq)` -/
def bbSet (bb : Bitboard) (sq : ℤ) : Bitboard := bb ||| bbSq sq

/-- `BB_CLR(bb, sq)` -/
def bbClr (bb : Bitboard) (sq : ℤ) : Bitboard := bb &&& ~~~bbSq sq

/-- `BB_HAS(bb, sq)` -/
def bbHas (bb : Bitboard) (sq : ℤ) : Bool := bb.getLsbD sq.toNat

def bbLsb (bb : Bitboard) : ℤ := Bits.lowest bb

/-- The squares a loop `while (bb) { sq = bb_pop_lsb(&bb); ... }` visits. -/
def bbSquares (bb : Bitboard) : List ℤ := (Bits.toList bb).map Int.ofNat

def bbPopcount (bb : Bitboard) : ℕ := (Bits.toList bb).length

/-! ## Pieces and moves -/

/-- `Piece`; `PIECE_EMPTY` is `none`. -/
abbrev Piece := Option Man

/-- `PIECE_TYPE(p)` -/
def pieceType (p : Piece) : Option PieceType := p.map Prod.snd

/-- The fields of a `Move` word. -/
structure Move where
  fromSq : ℤ
  toSq : ℤ
  piece : PieceType
  captured : Option PieceType
  castle : Bool
  ep : Bool
  promo : Bool
  promoType : Option PieceType
deriving DecidableEq, Repr

/-- `MOVE_IS_CAPTURE(m)` -/
def Move.isCapture (m : Move) : Bool := m.captured.isSome

def moveSimple (fromSq toSq : ℤ) (piece : PieceType) : Move :=
  ⟨fromSq, toSq, piece, none, false, false, false, none⟩

def moveCapture (fromSq toSq : ℤ) (piece : PieceType) (captured : Option PieceType) : Move :=
  ⟨fromSq, toSq, piece, captured, false, false, false, none⟩

/-- `move_encode` of a promotion. -/
def movePromo (fromSq toSq : ℤ) (captured : Option PieceType) (promoType : PieceType) : Move :=
  ⟨fromSq, toSq, .pawn, captured, false, false, true, some promoType⟩

def maxMoves : ℕ := 256

/-- `movelist_add`: a move that no longer fits is dropped. -/
def movelistAdd (ml : List Move) (m : Move) : List Move :=
  if ml.length < maxMoves then ml ++ [m] else ml

/-! ## Castling rights -/

def castleWK : BitVec 8 := 1

def castleWQ : BitVec 8 := 2

def castleBK : BitVec 8 := 4

def castleBQ : BitVec 8 := 8

/-! ## Save the Queen helpers -/

/-- `STQ_WHITE_PRISON` (d8) and `STQ_BLACK_PRISON` (d1): where a colour's queen is held. -/
def stqPrison : Color → ℤ
  | .white => SQ 7 3
  | .black => SQ 0 3

def StqIsOwnHalf (sq : ℤ) (c : Color) : Prop := c.OwnHalf (sqRow sq)

instance (sq : ℤ) (c : Color) : Decidable (StqIsOwnHalf sq c) :=
  inferInstanceAs (Decidable (c.OwnHalf (sqRow sq)))

def StqOnPrison (sq : ℤ) (c : Color) : Prop := sq = stqPrison c

instance (sq : ℤ) (c : Color) : Decidable (StqOnPrison sq c) :=
  inferInstanceAs (Decidable (sq = stqPrison c))

end ChessRecast.Engine
