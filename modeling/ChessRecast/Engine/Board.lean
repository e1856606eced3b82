import ChessRecast.Engine.Types

/-!
# The board record of the C engine (`board.h`, `board.c`, `board_zobrist.c`)

The four redundant views of the placement (one bitboard per colour and type, the occupancy of
each colour, the occupancy of both, the mailbox) are grouped in `Views`; `board_place` and
`board_remove` touch nothing else. `Board` adds the game state and the undo stack.
-/

namespace ChessRecast.Engine

def maxHistory : ℕ := 512

/-- The placement, four times over. -/
structure Views where
  pieces : Color → PieceType → Bitboard
  occupied : Color → Bitboard
  all : Bitboard
  mailbox : ℤ → Piece

/-- One entry of the undo stack. -/
structure Undo where
  move : Move
  captured : Piece
  capturedSq : ℤ
  castling : BitVec 8
  epSquare : ℤ
  halfmove : ℤ
  hash : BitVec 64
  heirPromoted : Color → Bool
  truceActive : Bool
  truceFrozen : Bitboard
  ffMoved : Bitboard
  kbUnlocked : Bool
  kbIdleKings : ℕ
  kbBonus : Bool
  stqReprisoned : Bool
  stqReprisonSq : ℤ

structure Board extends Views where
  side : Color
  castling : BitVec 8
  epSquare : ℤ
  halfmove : ℤ
  fullmove : ℤ
  mod : Mod
  heirPromoted : Color → Bool
  truceActive : Bool
  truceFrozen : Bitboard
  ffMoved : Bitboard
  kbUnlocked : Bool
  kbIdleKings : ℕ
  hash : BitVec 64
  history : ℕ → Undo
  ply : ℕ

/-- The all-zero undo entry that `memset` leaves behind. -/
def Undo.zero : Undo where
  move := ⟨0, 0, .pawn, some .pawn, false, false, false, some .pawn⟩
  captured := some (.white, .pawn)
  capturedSq := 0
  castling := 0
  epSquare := 0
  halfmove := 0
  hash := 0
  heirPromoted := fun _ => false
  truceActive := false
  truceFrozen := 0
  ffMoved := 0
  kbUnlocked := false
  kbIdleKings := 0
  kbBonus := false
  stqReprisoned := false
  stqReprisonSq := 0

/-! ## Placement primitives -/

def boardClear : Board where
  pieces := fun _ _ => 0
  occupied := fun _ => 0
  all := 0
  mailbox := fun _ => none
  side := .white
  castling := 0
  epSquare := sqNone
  halfmove := 0
  fullmove := 0
  mod := .classic
  heirPromoted := fun _ => false
  truceActive := false
  truceFrozen := 0
  ffMoved := 0
  kbUnlocked := false
  kbIdleKings := 0
  hash := 0
  history := fun _ => Undo.zero
  ply := 0

def boardPlace (v : Views) (sq : ℤ) (c : Color) (t : PieceType) : Views where
  mailbox := fun s => if s = sq then some (c, t) else v.mailbox s
  pieces := fun c' t' => if c' = c ∧ t' = t then bbSet (v.pieces c' t') sq else v.pieces c' t'
  occupied := fun c' => if c' = c then bbSet (v.occupied c') sq else v.occupied c'
  all := bbSet v.all sq

def boardRemove (v : Views) (sq : ℤ) : Views :=
  match v.mailbox sq with
  | none => v
  | some (c, t) =>
    { pieces := fun c' t' => if c' = c ∧ t' = t then bbClr (v.pieces c' t') sq else v.pieces c' t'
      occupied := fun c' => if c' = c then bbClr (v.occupied c') sq else v.occupied c'
      all := bbClr v.all sq
      mailbox := fun s => if s = sq then none else v.mailbox s }

/-! ## Zobrist hashing -/

def xorNext (s : BitVec 64) : BitVec 64 :=
  let s := s ^^^ (s <<< 13)
  let s := s ^^^ (s >>> 7)
  s ^^^ (s <<< 17)

/-- The `n`-th key that `zobrist_init` draws. -/
def zobKey (n : ℕ) : BitVec 64 := xorNext^[n + 1] 0x12345678ABCDEF01

/-- Index of a colour in the tables of C. -/
def colorIdx : Color → ℕ
  | .white => 0
  | .black => 1

/-- Index of a piece type in the tables of C. -/
def typeIdx : PieceType → ℕ
  | .pawn => 0
  | .knight => 1
  | .bishop => 2
  | .rook => 3
  | .queen => 4
  | .king => 5

/-- `zob_piece[c][t][sq]`; the tables below follow in the order `zobrist_init` fills them. -/
def zobPiece (c : Color) (t : PieceType) (sq : ℤ) : BitVec 64 :=
  zobKey (colorIdx c * 384 + typeIdx t * 64 + sq.toNat)

def zobSide : BitVec 64 := zobKey 768

/-- `zob_castle[i]` -/
def zobCastle (castling : BitVec 8) : BitVec 64 := zobKey (769 + castling.toNat)

/-- `zob_ep[sq]` -/
def zobEp (sq : ℤ) : BitVec 64 := zobKey (785 + sq.toNat)

/-- `zob_heir_promoted[c]` -/
def zobHeirPromoted (c : Color) : BitVec 64 := zobKey (849 + colorIdx c)

def zobTruceActive : BitVec 64 := zobKey 851

def zobKbUnlocked : BitVec 64 := zobKey 852

/-- The piece types in the order of the C enumeration. -/
def pieceTypes : List PieceType := [.pawn, .knight, .bishop, .rook, .queen, .king]

def zobristCompute (b : Board) : BitVec 64 :=
  let h := [Color.white, .black].foldl (fun h c =>
    pieceTypes.foldl (fun h t =>
      (bbSquares (b.pieces c t)).foldl (fun h sq => h ^^^ zobPiece c t sq) h) h) 0
  let h := if b.side = .black then h ^^^ zobSide else h
  let h := h ^^^ zobCastle b.castling
  let h := if b.epSquare ≠ sqNone then h ^^^ zobEp b.epSquare else h
  let h := [Color.white, .black].foldl (fun h c =>
    if b.heirPromoted c then h ^^^ zobHeirPromoted c else h) h
  let h := if b.truceActive then h ^^^ zobTruceActive else h
  if b.kbUnlocked then h ^^^ zobKbUnlocked else h

def boardRefresh (b : Board) : Board :=
  let occ := fun c => pieceTypes.foldl (fun bb t => bb ||| b.pieces c t) 0
  let b := { b with occupied := occ, all := occ .white ||| occ .black }
  { b with hash := zobristCompute b }

end ChessRecast.Engine
