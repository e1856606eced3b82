import ChessRecast.Engine.Board

/-!
# Making and unmaking moves (`board_make.c`)

`board_make_move` is one long function; each of its commented sections is a definition here,
and `boardMakeMove` puts them together. The undo entry is completed before it is stored, so
the later writes of C into `history[idx]` are part of `makeUndo`.
-/

namespace ChessRecast.Engine

/-- The rook move that belongs to a castling move with target `toSq`: the corner it leaves,
the square it goes to and the colour that C writes there. -/
def castleRook (toSq : ℤ) : Option (ℤ × ℤ × Color) :=
  if toSq = SQ 0 6 then some (SQ 0 7, SQ 0 5, .white)
  else if toSq = SQ 0 2 then some (SQ 0 0, SQ 0 3, .white)
  else if toSq = SQ 7 6 then some (SQ 7 7, SQ 7 5, .black)
  else if toSq = SQ 7 2 then some (SQ 7 0, SQ 7 3, .black)
  else none

/-- Square of the pawn taken en passant: the row of `from`, the column of `to`. -/
def epCapSq (m : Move) : ℤ := SQ (sqRow m.fromSq) (sqCol m.toSq)

/-! ## Captures -/

/-- Save the Queen: the captured queen goes back to its prison square. -/
def StqReprisons (b : Board) (m : Move) : Prop :=
  b.mod = .saveQueen ∧ pieceType (b.mailbox m.toSq) = some .queen ∧
    ¬ StqIsOwnHalf m.toSq b.side.opposite ∧ b.mailbox (stqPrison b.side.opposite) = none

instance (b : Board) (m : Move) : Decidable (StqReprisons b m) :=
  inferInstanceAs (Decidable (_ ∧ _ ∧ _ ∧ _))

/-- The undo entry after the section on captures. -/
def captureUndo (b : Board) (m : Move) : Undo :=
  let u : Undo :=
    { move := m, captured := none, capturedSq := sqNone, castling := b.castling,
      epSquare := b.epSquare, halfmove := b.halfmove, hash := b.hash,
      heirPromoted := b.heirPromoted, truceActive := b.truceActive,
      truceFrozen := b.truceFrozen, ffMoved := b.ffMoved, kbUnlocked := b.kbUnlocked,
      kbIdleKings := b.kbIdleKings, kbBonus := false, stqReprisoned := false,
      stqReprisonSq := sqNone }
  if m.ep then { u with captured := b.mailbox (epCapSq m), capturedSq := epCapSq m }
  else if m.isCapture then
    let u := { u with captured := b.mailbox m.toSq, capturedSq := m.toSq }
    if StqReprisons b m then
      { u with stqReprisoned := true, stqReprisonSq := stqPrison b.side.opposite }
    else u
  else u

/-- The placement after the section on captures. -/
def captureViews (b : Board) (m : Move) : Views :=
  if m.ep then boardRemove b.toViews (epCapSq m)
  else if m.isCapture then
    let v := boardRemove b.toViews m.toSq
    if StqReprisons b m then boardPlace v (stqPrison b.side.opposite) b.side.opposite .queen else v
  else b.toViews

/-! ## Moving the piece and the castling rook -/

/-- The type that stands on the target square after the move. -/
def placedType (m : Move) : PieceType := if m.promo then m.promoType.getD m.piece else m.piece

/-- "Move the piece" and "Castling: also move the rook". -/
def makeViews (b : Board) (m : Move) : Views :=
  let v := boardRemove (captureViews b m) m.fromSq
  let v := boardPlace v m.toSq b.side (placedType m)
  if m.castle then
    match castleRook m.toSq with
    | some (corner, target, c) => boardPlace (boardRemove v corner) target c .rook
    | none => v
  else v

/-! ## State updates -/

/-- Heir and Succession: a pawn has promoted to king. -/
def makeHeirPromoted (b : Board) (m : Move) : Color → Bool := fun c =>
  if c = b.side ∧ m.promo = true ∧ m.promoType = some .king ∧
      (b.mod = .heir ∨ b.mod = .succession) then true
  else b.heirPromoted c

/-- The rook's part of the two bitboards of moved pieces. -/
def castleMark (m : Move) (bb : Bitboard) : Bitboard :=
  if m.castle then
    match castleRook m.toSq with
    | some (corner, target, _) => bbSet (bbClr bb corner) target
    | none => bb
  else bb

/-- Truce: which squares hold pieces that have moved. -/
def makeTruceFrozen (b : Board) (m : Move) : Bitboard :=
  if b.mod = .truce ∧ b.truceActive = true then
    let bb := bbSet (bbClr b.truceFrozen m.fromSq) m.toSq
    let bb :=
      if m.ep then bbClr bb (epCapSq m)
      else if m.isCapture then bbSet (bbClr bb m.toSq) m.toSq
      else bb
    castleMark m bb
  else b.truceFrozen

/-- Friendly Fire: which squares hold pieces that have moved. -/
def makeFfMoved (b : Board) (m : Move) : Bitboard :=
  if b.mod = .friendlyFire then
    let bb := bbSet (bbClr b.ffMoved m.fromSq) m.toSq
    let bb := if m.ep then bbClr bb (epCapSq m) else bb
    castleMark m bb
  else b.ffMoved

/-- `if (cond) b->castling &= ~mask;` -/
def clearRights (cond : Bool) (mask rights : BitVec 8) : BitVec 8 :=
  if cond then rights &&& ~~~mask else rights

/-- "Update castling rights" -/
def makeCastling (b : Board) (m : Move) : BitVec 8 :=
  let r := b.castling
  let r := clearRights (m.piece = .king && b.side = .white) (castleWK ||| castleWQ) r
  let r := clearRights (m.piece = .king && b.side = .black) (castleBK ||| castleBQ) r
  let r := clearRights (m.piece = .rook && m.fromSq = SQ 0 0) castleWQ r
  let r := clearRights (m.piece = .rook && m.fromSq = SQ 0 7) castleWK r
  let r := clearRights (m.piece = .rook && m.fromSq = SQ 7 0) castleBQ r
  let r := clearRights (m.piece = .rook && m.fromSq = SQ 7 7) castleBK r
  -- a rook captured on its starting square
  let r := clearRights (m.toSq = SQ 0 0) castleWQ r
  let r := clearRights (m.toSq = SQ 0 7) castleWK r
  let r := clearRights (m.toSq = SQ 7 0) castleBQ r
  clearRights (m.toSq = SQ 7 7) castleBK r

/-- "En passant square" -/
def makeEpSquare (b : Board) (m : Move) : ℤ :=
  if b.mod ≠ .mercenary ∧ m.piece = .pawn ∧
      (m.toSq - m.fromSq = 16 ∨ m.toSq - m.fromSq = -16) then
    SQ ((sqRow m.fromSq + sqRow m.toSq) / 2) (sqCol m.fromSq)
  else sqNone

/-- The Kings' Battle state: unlocked flag, idle-king count, bonus move. -/
structure KbState where
  unlocked : Bool
  idleKings : ℕ
  bonus : Bool
deriving DecidableEq, Repr

/-- "King's Battle: detect Phase-2 unlock triggers" -/
def makeKb (b : Board) (m : Move) : KbState :=
  if b.mod = .kingsBattle ∧ b.kbUnlocked = false then
    if m.piece = .king ∧ m.isCapture = true ∧
        pieceType (captureUndo b m).captured = some .pawn then
      ⟨true, 0, true⟩
    else if m.piece = .pawn ∧ m.promo = true then
      ⟨true, 0, false⟩
    else if m.piece = .king ∧ m.isCapture = false then
      let idle := if b.kbIdleKings < 255 then b.kbIdleKings + 1 else b.kbIdleKings
      ⟨decide (6 ≤ idle), idle, false⟩
    else
      ⟨false, 0, false⟩
  else ⟨b.kbUnlocked, b.kbIdleKings, false⟩

def makeUndo (b : Board) (m : Move) : Undo :=
  { captureUndo b m with kbBonus := (makeKb b m).bonus }

/-- Store an undo entry; an index past the array is dropped. -/
def pushHistory (history : ℕ → Undo) (idx : ℕ) (u : Undo) : ℕ → Undo := fun i =>
  if i = idx ∧ idx < maxHistory then u else history i

/-- The board before the final hash update. -/
def makeUnhashed (b : Board) (m : Move) : Board where
  toViews := makeViews b m
  side := if (makeKb b m).bonus then b.side else b.side.opposite
  castling := makeCastling b m
  epSquare := makeEpSquare b m
  halfmove := if m.piece = .pawn ∨ m.isCapture = true then 0 else b.halfmove + 1
  fullmove := if b.side = .black then b.fullmove + 1 else b.fullmove
  mod := b.mod
  heirPromoted := makeHeirPromoted b m
  truceActive := b.truceActive
  truceFrozen := makeTruceFrozen b m
  ffMoved := makeFfMoved b m
  kbUnlocked := (makeKb b m).unlocked
  kbIdleKings := (makeKb b m).idleKings
  hash := b.hash
  history := pushHistory b.history b.ply (makeUndo b m)
  ply := b.ply + 1

def boardMakeMove (b : Board) (m : Move) : Board :=
  { makeUnhashed b m with hash := zobristCompute (makeUnhashed b m) }

/-! ## Unmake -/

/-- The placement part of `board_unmake_move`, for the undo entry `u` of a move of `us`. -/
def unmakeViews (v : Views) (u : Undo) (us : Color) : Views :=
  let v := boardRemove v u.move.toSq
  let v := boardPlace v u.move.fromSq us u.move.piece
  let v := if u.stqReprisoned = true ∧ u.stqReprisonSq ≠ sqNone then
    boardRemove v u.stqReprisonSq else v
  let v := match u.captured with
    | some (c, t) => boardPlace v u.capturedSq c t
    | none => v
  if u.move.castle then
    match castleRook u.move.toSq with
    | some (corner, target, c) => boardPlace (boardRemove v target) corner c .rook
    | none => v
  else v

def boardUnmakeMove (b : Board) : Board :=
  let u := b.history (b.ply - 1)
  let us := if u.kbBonus then b.side else b.side.opposite
  { b with
    toViews := unmakeViews b.toViews u us
    ply := b.ply - 1
    side := us
    castling := u.castling
    epSquare := u.epSquare
    halfmove := u.halfmove
    hash := u.hash
    heirPromoted := u.heirPromoted
    truceActive := u.truceActive
    truceFrozen := u.truceFrozen
    ffMoved := u.ffMoved
    kbUnlocked := u.kbUnlocked
    kbIdleKings := u.kbIdleKings
    fullmove := if us = .black then b.fullmove - 1 else b.fullmove }

end ChessRecast.Engine
