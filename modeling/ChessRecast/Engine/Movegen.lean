import ChessRecast.Engine.Attacks
import ChessRecast.Engine.Make

/-!
# Move generation (`movegen.c`, `movegen_pawns.c`, `movegen_pieces.c`, `movegen_legal.c`)

Every generator of C appends to a move list. Here it returns the moves in the order in which
they are appended; `fillMovelist` appends them with `movelist_add`, which is where the limit of
`MAX_MOVES` acts.
-/

namespace ChessRecast.Engine

/-- `b->mod == MOD_TRUCE && b->truce_active` -/
def truceNoCap (b : Board) : Bool := b.mod = .truce && b.truceActive

/-- `b->mod == MOD_KINGS_BATTLE && !b->kb_unlocked` -/
def kbLocked (b : Board) : Bool := b.mod = .kingsBattle && !b.kbUnlocked

/-- Save the Queen: a prisoner queen is protected while its prison square is occupied. -/
def StqProtected (b : Board) (toSq : ℤ) (capt : PieceType) : Prop :=
  b.mod = .saveQueen ∧ capt = .queen ∧ ¬ StqIsOwnHalf toSq b.side.opposite ∧
    b.mailbox (stqPrison b.side.opposite) ≠ none

instance (b : Board) (toSq : ℤ) (capt : PieceType) : Decidable (StqProtected b toSq capt) :=
  inferInstanceAs (Decidable (_ ∧ _ ∧ _ ∧ _))

/-! ## Pawns -/

/-- Row from which a pawn may step twice. -/
def rank2 : Color → ℤ
  | .white => 1
  | .black => 6

def rank7 : Color → ℤ
  | .white => 6
  | .black => 1

def succAddPromos (b : Board) (fromSq toSq : ℤ) (capt : Option PieceType) : List Move :=
  let us := b.side
  let hasKing := b.pieces us .king ≠ 0
  let isLastPawn := bbPopcount (b.pieces us .pawn) ≤ 1
  let sqSafe := boardSquareAttacked b toSq us.opposite = false
  if isLastPawn ∧ ¬ hasKing then
    if sqSafe then [movePromo fromSq toSq capt .king] else []
  else
    [PieceType.rook, .bishop, .knight].map (movePromo fromSq toSq capt) ++
      (if ¬ hasKing ∧ sqSafe then [movePromo fromSq toSq capt .king] else [])

/-- Heir: mandatory king promotion when there is no king and none was promoted. -/
def heirPromos (b : Board) (fromSq toSq : ℤ) (capt : Option PieceType) : List Move :=
  let hasKing := b.pieces b.side .king ≠ 0
  let canPromoKing := b.heirPromoted b.side = false
  if ¬ hasKing ∧ canPromoKing then [movePromo fromSq toSq capt .king]
  else
    [PieceType.queen, .rook, .bishop, .knight].map (movePromo fromSq toSq capt) ++
      (if canPromoKing then [movePromo fromSq toSq capt .king] else [])

/-- The promotions of a pawn that reaches the last rank. -/
def pawnPromos (b : Board) (fromSq toSq : ℤ) (capt : Option PieceType) : List Move :=
  if b.mod = .heir then heirPromos b fromSq toSq capt
  else if b.mod = .succession then succAddPromos b fromSq toSq capt
  else
    -- no queen in Save the Queen
    let promos := if b.mod = .saveQueen then [PieceType.rook, .bishop, .knight]
      else [PieceType.queen, .rook, .bishop, .knight]
    promos.map (movePromo fromSq toSq capt)

/-- Mercenary: pawns move like kings. -/
def mercenaryPawnMoves (b : Board) (sq : ℤ) (capturesOnly : Bool) : List Move :=
  let targets := kingAttacks sq
  (if capturesOnly then []
    else (bbSquares (targets &&& ~~~b.all)).map fun toSq => moveSimple sq toSq .pawn) ++
  (if truceNoCap b then []
    else (bbSquares (targets &&& b.occupied b.side.opposite)).flatMap fun toSq =>
      let capt := pieceType (b.mailbox toSq)
      if capt = some .king then [] else [moveCapture sq toSq .pawn capt])

/-- "Single push" and "Double push" -/
def pawnPushes (b : Board) (sq : ℤ) (capturesOnly : Bool) : List Move :=
  let dir := b.side.forward
  let r := sqRow sq
  let c := sqCol sq
  let one := SQ (r + dir) c
  if capturesOnly = false ∧ SqValid one ∧ b.mailbox one = none then
    if r = rank7 b.side then pawnPromos b sq one none
    else
      let two := SQ (r + 2 * dir) c
      moveSimple sq one .pawn ::
        (if r = rank2 b.side ∧ b.mailbox two = none then [moveSimple sq two .pawn] else [])
  else []

/-- Capture of an enemy piece, once the `continue` cases are excluded. -/
def pawnTakesEnemy (b : Board) (sq toSq : ℤ) : List Move :=
  match b.mailbox toSq with
  | some (c, capt) =>
    if c = b.side.opposite then
      if sqRow sq = rank7 b.side then pawnPromos b sq toSq (some capt)
      else [moveCapture sq toSq .pawn (some capt)]
    else []
  | none => []

/-- Friendly Fire: capture of an own moved piece. -/
def pawnTakesOwn (b : Board) (sq toSq : ℤ) : List Move :=
  match b.mailbox toSq with
  | some (c, capt) =>
    if b.mod = .friendlyFire ∧ c = b.side ∧ capt ≠ .king ∧ bbHas b.ffMoved toSq = true then
      if sqRow sq = rank7 b.side then
        [PieceType.queen, .rook, .bishop, .knight].map (movePromo sq toSq (some capt))
      else [moveCapture sq toSq .pawn (some capt)]
    else []
  | none => []

/-- "En passant" -/
def pawnTakesEp (b : Board) (sq toSq : ℤ) : List Move :=
  if toSq = b.epSquare ∧ b.epSquare ≠ sqNone then
    let capSq := SQ (sqRow sq) (sqCol toSq)
    match b.mailbox capSq with
    | some (c, t) =>
      if c = b.side.opposite then [⟨sq, toSq, .pawn, some t, false, true, false, none⟩] else []
    | none => []
  else []

/-- The cases in which the capture loop goes on to the next direction at once. -/
def PawnSkips (b : Board) (toSq : ℤ) : Prop :=
  match b.mailbox toSq with
  | some (c, capt) =>
    c = b.side.opposite ∧ ((capt = .king ∧ b.mod ≠ .heir) ∨ StqProtected b toSq capt)
  | none => False

instance (b : Board) (toSq : ℤ) : Decidable (PawnSkips b toSq) := by
  unfold PawnSkips
  split <;> infer_instance

/-- One round of the capture loop, `dc` being -1 or 1. -/
def pawnCaptures (b : Board) (sq : ℤ) (dc : ℤ) : List Move :=
  let nc := sqCol sq + dc
  let toSq := SQ (sqRow sq + b.side.forward) nc
  if nc < 0 ∨ nc > 7 then []
  else if ¬ SqValid toSq then []
  else if PawnSkips b toSq then []
  else pawnTakesEnemy b sq toSq ++ pawnTakesOwn b sq toSq ++ pawnTakesEp b sq toSq

def genPawnMoves (b : Board) (capturesOnly : Bool) : List Move :=
  let pawns := b.pieces b.side .pawn
  let pawns := if truceNoCap b then pawns &&& ~~~b.truceFrozen else pawns
  (bbSquares pawns).flatMap fun sq =>
    if b.mod = .mercenary then mercenaryPawnMoves b sq capturesOnly
    else
      pawnPushes b sq capturesOnly ++
        (if truceNoCap b then [] else pawnCaptures b sq (-1) ++ pawnCaptures b sq 1)

/-! ## Pieces -/

/-- The attack set of a piece type from a square. -/
def attackSet (b : Board) (pt : PieceType) (sq : ℤ) : Bitboard :=
  match pt with
  | .knight => knightAttacks sq
  | .bishop => bishopAttacksCalc sq b.all
  | .rook => rookAttacksCalc sq b.all
  | .queen => bishopAttacksCalc sq b.all ||| rookAttacksCalc sq b.all
  | .king => kingAttacks sq
  | .pawn => 0

/-- The queens' own half of the board as a bitboard. -/
def halfMask : Color → Bitboard
  | .white => 0x00000000FFFFFFFF
  | .black => 0xFFFFFFFF00000000

/-- Save the Queen: where an escaped queen may go in its own half. -/
def stqOwnTargets (b : Board) (sq : ℤ) (capturesOnly : Bool) : Bitboard :=
  let us := b.side
  let them := us.opposite
  let half := halfMask us
  let sliding := bishopAttacksCalc sq b.all ||| rookAttacksCalc sq b.all
  let sliding := sliding &&& ~~~b.occupied us
  let sliding := sliding &&& ~~~b.pieces them .queen
  let own := sliding &&& half
  let own := if capturesOnly then own &&& b.occupied them else own
  -- the opponent's queen on its prison square, only from an adjacent square
  let themPq := b.pieces them .queen &&& half
  let psq := bbLsb themPq
  if themPq ≠ 0 ∧ StqOnPrison psq them ∧ kingAttacks sq &&& bbSq psq ≠ 0 then own ||| bbSq psq
  else own

/-- Save the Queen: special queen movement rules. -/
def stqQueenMoves (b : Board) (sq : ℤ) (capturesOnly : Bool) : List Move :=
  let us := b.side
  if ¬ StqIsOwnHalf sq us then
    if capturesOnly then []
    else (bbSquares (kingAttacks sq &&& ~~~b.all)).map fun toSq => moveSimple sq toSq .queen
  else
    ((bbSquares (stqOwnTargets b sq capturesOnly)).flatMap fun toSq =>
      match b.mailbox toSq with
      | some (_, capt) => if capt = .king then [] else [moveCapture sq toSq .queen (some capt)]
      | none => [moveSimple sq toSq .queen]) ++
    (if capturesOnly then []
      else (bbSquares (kingAttacks sq &&& ~~~b.all &&& ~~~halfMask us)).map fun toSq =>
        moveSimple sq toSq .queen)

/-- The masks that `gen_piece_moves` lays over the attack set. -/
def pieceTargets (b : Board) (pt : PieceType) (sq : ℤ) (capturesOnly : Bool) : Bitboard :=
  let us := b.side
  let them := us.opposite
  let t := attackSet b pt sq
  let t := if b.mod = .friendlyFire then
      t &&& ~~~((b.occupied us &&& ~~~b.ffMoved) ||| b.pieces us .king)
    else t &&& ~~~b.occupied us
  let oppKing := b.pieces them .king
  let t := if pt = .king ∧ b.mod = .heir ∧ oppKing ≠ 0 then
      t &&& ~~~kingAttacks (bbLsb oppKing) &&& ~~~bbSq (bbLsb oppKing)
    else t
  let t := if pt = .king ∧ kbLocked b = true then t &&& ~~~b.pieces them .king else t
  let t := if truceNoCap b then t &&& ~~~b.occupied them else t
  if capturesOnly then
    if b.mod = .friendlyFire then
      t &&& (b.occupied them ||| (b.occupied us &&& b.ffMoved &&& ~~~b.pieces us .king))
    else t &&& b.occupied them
  else t

/-- The final loop of `gen_piece_moves` over the target squares. -/
def pieceMovesFrom (b : Board) (pt : PieceType) (sq : ℤ) (capturesOnly : Bool) : List Move :=
  (bbSquares (pieceTargets b pt sq capturesOnly)).flatMap fun toSq =>
    match b.mailbox toSq with
    | some (_, capt) =>
      if capt = .king ∧ (b.mod ≠ .heir ∨ pt = .king) then []
      else if StqProtected b toSq capt then []
      else [moveCapture sq toSq pt (some capt)]
    | none => [moveSimple sq toSq pt]

def genPieceMoves (b : Board) (pt : PieceType) (capturesOnly : Bool) : List Move :=
  if kbLocked b = true ∧ pt ≠ .king then []
  else
    let pcs := b.pieces b.side pt
    let pcs := if truceNoCap b then pcs &&& ~~~b.truceFrozen else pcs
    (bbSquares pcs).flatMap fun sq =>
      if b.mod = .saveQueen ∧ pt = .queen then stqQueenMoves b sq capturesOnly
      else pieceMovesFrom b pt sq capturesOnly

/-! ## Castling -/

/-- Castling has to leave, cross and reach unattacked squares. -/
def needCheckSafe (b : Board) : Bool :=
  if b.mod = .heir ∧ heirCheckApplies b b.side = false then false
  else if truceNoCap b then false
  else true

/-- One castling move: its right, the squares that must be empty and those that must be safe. -/
def tryCastle (b : Board) (right : BitVec 8) (empties safes : List ℤ)
    (fromSq toSq : ℤ) : List Move :=
  if b.castling &&& right ≠ 0 ∧ (∀ s ∈ empties, b.mailbox s = none) ∧
      (needCheckSafe b = true →
        ∀ s ∈ safes, boardSquareAttacked b s b.side.opposite = false) then
    [⟨fromSq, toSq, .king, none, true, false, false, none⟩]
  else []

/-- The two castling moves of a colour. -/
def castlesOf (b : Board) : Color → List Move
  | .white =>
    tryCastle b castleWK [SQ 0 5, SQ 0 6] [SQ 0 5, SQ 0 6] (SQ 0 4) (SQ 0 6) ++
    tryCastle b castleWQ [SQ 0 1, SQ 0 2, SQ 0 3] [SQ 0 2, SQ 0 3] (SQ 0 4) (SQ 0 2)
  | .black =>
    tryCastle b castleBK [SQ 7 5, SQ 7 6] [SQ 7 5, SQ 7 6] (SQ 7 4) (SQ 7 6) ++
    tryCastle b castleBQ [SQ 7 1, SQ 7 2, SQ 7 3] [SQ 7 2, SQ 7 3] (SQ 7 4) (SQ 7 2)

def genCastling (b : Board) : List Move :=
  if kbLocked b then []
  else if truceNoCap b = true ∧ b.truceFrozen &&& bbSq (bbLsb (b.pieces b.side .king)) ≠ 0 then []
  else if needCheckSafe b = true ∧ boardInCheck b b.side = true then []
  else castlesOf b b.side

/-! ## Legality and the public interface -/

/-- The verdict of `is_legal` once the move has been made. -/
def legalAfter (b : Board) (mover : Color) : Bool :=
  if boardInCheck b mover then false
  else if truceNoCap b then
    let theirKing := b.pieces mover.opposite .king
    if theirKing ≠ 0 then !boardSquareAttacked b (bbLsb theirKing) mover else true
  else true

/-- `is_legal`: the verdict, and the scratch board after make and unmake. -/
def isLegal (b : Board) (m : Move) : Bool × Board :=
  let made := boardMakeMove b m
  (legalAfter made b.side, boardUnmakeMove made)

/-- Append moves to an empty list with `movelist_add`. -/
def fillMovelist (ms : List Move) : List Move := ms.foldl movelistAdd []

/-- The legality loop over the pseudo-legal moves, on the scratch board `tmp`. -/
def filterLegal : Board → List Move → List Move → List Move
  | _, [], ml => ml
  | tmp, m :: ms, ml =>
    let (legal, tmp) := isLegal tmp m
    filterLegal tmp ms (if legal then movelistAdd ml m else ml)

/-- Pseudo-legal moves in the order in which they are generated. -/
def pseudoMoves (b : Board) : List Move :=
  genPawnMoves b false ++ genPieceMoves b .knight false ++ genPieceMoves b .bishop false ++
    genPieceMoves b .rook false ++ genPieceMoves b .queen false ++ genPieceMoves b .king false ++
    genCastling b

def generateMoves (b : Board) : List Move := filterLegal b (fillMovelist (pseudoMoves b)) []

/-- Pseudo-legal captures in the order in which they are generated; castling takes nothing. -/
def pseudoCaptures (b : Board) : List Move :=
  genPawnMoves b true ++ genPieceMoves b .knight true ++ genPieceMoves b .bishop true ++
    genPieceMoves b .rook true ++ genPieceMoves b .queen true ++ genPieceMoves b .king true

def generateCaptures (b : Board) : List Move :=
  if truceNoCap b then [] else filterLegal b (fillMovelist (pseudoCaptures b)) []

end ChessRecast.Engine
