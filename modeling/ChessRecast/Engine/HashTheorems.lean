import ChessRecast.Engine.MakeTheorems
import ChessRecast.Engine.Search

/-!
# The Zobrist key: coherence and what it covers

`zobrist_compute` is a base (placement, side, castling, en passant) xor the keys of the variant
flags. The search keeps the stored hash equal to it along make, unmake and null moves. The key
leaves out which men have moved and the idle-king count; two boards that agree on these as well
have the same moves.
-/

namespace ChessRecast.Engine

/-! ## The key -/

/-- The keys of the men on the board. -/
def zobristMen (pieces : Color → PieceType → Bitboard) : BitVec 64 :=
  [Color.white, .black].foldl (fun h c =>
    pieceTypes.foldl (fun h t =>
      (bbSquares (pieces c t)).foldl (fun h sq => h ^^^ zobPiece c t sq) h) h) 0

/-- The part of the key that needs no variant state. -/
def zobristBase (b : Board) : BitVec 64 :=
  zobristMen b.pieces ^^^ (if b.side = .black then zobSide else 0) ^^^ zobCastle b.castling ^^^
    (if b.epSquare ≠ sqNone then zobEp b.epSquare else 0)

/-- The keys of the variant flags that are set. -/
def zobristFlags (heirPromoted : Color → Bool) (truceActive kbUnlocked : Bool) : BitVec 64 :=
  (if heirPromoted .white then zobHeirPromoted .white else 0) ^^^
  (if heirPromoted .black then zobHeirPromoted .black else 0) ^^^
  (if truceActive then zobTruceActive else 0) ^^^
  (if kbUnlocked then zobKbUnlocked else 0)

private theorem xor_if {p : Prop} [Decidable p] (h k : BitVec 64) :
    (if p then h ^^^ k else h) = h ^^^ (if p then k else 0) := by
  split
  · rfl
  · exact (BitVec.xor_zero).symm

theorem zobristCompute_eq (b : Board) : zobristCompute b =
    zobristBase b ^^^ zobristFlags b.heirPromoted b.truceActive b.kbUnlocked := by
  unfold zobristCompute zobristBase zobristFlags
  rw [show [Color.white, .black].foldl (fun h c => pieceTypes.foldl (fun h t =>
    (bbSquares (b.pieces c t)).foldl (fun h sq => h ^^^ zobPiece c t sq) h) h) 0 =
      zobristMen b.pieces from rfl]
  generalize zobristMen b.pieces = men
  simp only [List.foldl_cons, List.foldl_nil, xor_if]
  ac_rfl

/-- The stored hash is the key of the board. -/
def HashCoherent (b : Board) : Prop := b.hash = zobristCompute b

theorem hashCoherent_boardMakeMove (b : Board) (m : Move) : HashCoherent (boardMakeMove b m) := rfl

theorem hashCoherent_boardRefresh (b : Board) : HashCoherent (boardRefresh b) := rfl

theorem hashCoherent_boardSetFen (fen : List Char) : HashCoherent (boardSetFen fen) := by
  unfold boardSetFen
  exact hashCoherent_boardRefresh _

private theorem xor_cancel (x y : BitVec 64) : x ^^^ y ^^^ y = x := by
  rw [BitVec.xor_assoc, BitVec.xor_self, BitVec.xor_zero]

/-- The null move changes the key by the two words that it xors in. -/
theorem zobristBase_nullMove (b : Board) : zobristBase (nullMove b) = zobristBase b ^^^ zobSide ^^^
    (if b.epSquare ≠ sqNone then zobEp b.epSquare else 0) := by
  show zobristMen b.pieces ^^^ (if b.side.opposite = .black then zobSide else 0) ^^^
    zobCastle b.castling ^^^ (if sqNone ≠ sqNone then zobEp sqNone else 0) = _
  unfold zobristBase
  rw [if_neg (not_not.mpr rfl)]
  generalize (if b.epSquare ≠ sqNone then zobEp b.epSquare else 0) = e
  generalize zobristMen b.pieces = men
  generalize zobCastle b.castling = c
  generalize zobSide = s
  cases b.side with
  | white =>
    simp only [Color.opposite, reduceCtorEq, if_true, if_false]
    rw [show (0 : BitVec 64) = 0#64 from rfl, BitVec.xor_zero, BitVec.xor_zero]
    rw [show men ^^^ c ^^^ e ^^^ s ^^^ e = men ^^^ s ^^^ c ^^^ e ^^^ e by ac_rfl, xor_cancel]
  | black =>
    simp only [Color.opposite, reduceCtorEq, if_true, if_false]
    rw [show (0 : BitVec 64) = 0#64 from rfl, BitVec.xor_zero, BitVec.xor_zero]
    rw [show men ^^^ s ^^^ c ^^^ e ^^^ s ^^^ e = men ^^^ c ^^^ s ^^^ s ^^^ e ^^^ e by ac_rfl,
      xor_cancel, xor_cancel]

theorem HashCoherent.nullMove {b : Board} (h : HashCoherent b) : HashCoherent (nullMove b) := by
  unfold HashCoherent at h ⊢
  rw [zobristCompute_eq, zobristBase_nullMove]
  show (if b.epSquare ≠ sqNone then b.hash ^^^ zobSide ^^^ zobEp b.epSquare
    else b.hash ^^^ zobSide) = _ ^^^ zobristFlags b.heirPromoted b.truceActive b.kbUnlocked
  rw [xor_if, h, zobristCompute_eq]
  generalize zobSide = s
  ac_rfl

/-! ## The boards of a search -/

/-- What is open on the search stack: a made move, or a null move with the saved fields. -/
inductive SearchFrame where
  | made
  | null (saved : NullSave)

/-- The boards that a search started on `root` looks at, with what is open on its stack. It
makes, unmakes and passes in any order; `ok` restricts the moves it makes. A re-search on a copy
of a board (`kb_verify_child_score`) goes on from that board. -/
inductive SearchRun (ok : Board → Move → Prop) (root : Board) : List SearchFrame → Board → Prop
  | root : SearchRun ok root [] root
  | make {stack : List SearchFrame} {b : Board} {m : Move} : SearchRun ok root stack b → ok b m →
      SearchRun ok root (.made :: stack) (boardMakeMove b m)
  | unmake {stack : List SearchFrame} {b : Board} : SearchRun ok root (.made :: stack) b →
      SearchRun ok root stack (boardUnmakeMove b)
  | nullMove {stack : List SearchFrame} {b : Board} : SearchRun ok root stack b →
      SearchRun ok root (.null (saveNull b) :: stack) (nullMove b)
  | endNullMove {stack : List SearchFrame} {saved : NullSave} {b : Board} :
      SearchRun ok root (.null saved :: stack) b → SearchRun ok root stack (endNullMove saved b)

/-- The move can be made and unmade: it is well formed, and the undo stack has room. -/
def Undoable (b : Board) (m : Move) : Prop := WellFormed b m ∧ b.ply < maxHistory

/-- What is open on the stack explains the board. -/
def SearchNested (root : Board) : List SearchFrame → Board → Prop
  | [], b => Agree root b
  | .made :: stack, b => ∃ prev m, SearchNested root stack prev ∧ RepInv prev.toViews ∧
      Undoable prev m ∧ Agree (boardMakeMove prev m) b
  | .null saved :: stack, b => ∃ prev, SearchNested root stack prev ∧ RepInv prev.toViews ∧
      saved = saveNull prev ∧ Agree (nullMove prev) b

theorem SearchNested.congr {root : Board} {stack : List SearchFrame} {b b' : Board}
    (h : SearchNested root stack b) (ha : Agree b b') : SearchNested root stack b' := by
  match stack, h with
  | [], h => exact h.trans ha
  | .made :: _, ⟨prev, m, hprev, hrep, hok, hb⟩ => exact ⟨prev, m, hprev, hrep, hok, hb.trans ha⟩
  | .null _ :: _, ⟨prev, hprev, hrep, hs, hb⟩ => exact ⟨prev, hprev, hrep, hs, hb.trans ha⟩

/-- The end of a null move gives the board before it. -/
theorem Agree.endNullMove {prev b : Board} (h : Agree (nullMove prev) b) :
    Agree prev (endNullMove (saveNull prev) b) := by
  refine ⟨?_, h.below⟩
  have hr := h.restored
  unfold Restored at hr ⊢
  rw [hr]
  rfl

theorem SearchRun.nested {root : Board} {stack : List SearchFrame} {b : Board}
    (hrun : SearchRun Undoable root stack b) (h : RepInv root.toViews) :
    RepInv b.toViews ∧ SearchNested root stack b := by
  induction hrun with
  | root => exact ⟨h, Agree.refl _⟩
  | make _ hok ih =>
    exact ⟨repInv_boardMakeMove ih.1 hok.1, _, _, ih.2, ih.1, hok, Agree.refl _⟩
  | unmake _ ih =>
    obtain ⟨-, prev, m, hprev, hrep, hok, hb⟩ := ih
    have hback := (Agree.of_make hrep hok.1 hok.2).trans (hb.unmake (Nat.succ_pos _))
    exact ⟨hback.restored.repInv hrep, hprev.congr hback⟩
  | nullMove _ ih => exact ⟨ih.1, _, ih.2, ih.1, rfl, Agree.refl _⟩
  | endNullMove _ ih =>
    obtain ⟨-, prev, hprev, hrep, rfl, hb⟩ := ih
    exact ⟨hb.endNullMove.restored.repInv hrep, hprev.congr hb.endNullMove⟩

theorem HashCoherent.congr {b b' : Board} (h : HashCoherent b) (ha : Agree b b') :
    HashCoherent b' := by
  have hr := ha.restored
  unfold Restored at hr
  rw [hr]
  exact h

theorem SearchNested.hashCoherent {root : Board} (hroot : HashCoherent root)
    (stack : List SearchFrame) : ∀ b, SearchNested root stack b → HashCoherent b := by
  induction stack with
  | nil => exact fun b hb => hroot.congr hb
  | cons frame stack ih =>
    intro b hb
    match frame, hb with
    | .made, ⟨prev, m, _, _, _, hb⟩ => exact (hashCoherent_boardMakeMove prev m).congr hb
    | .null _, ⟨prev, hprev, _, _, hb⟩ => exact (ih prev hprev).nullMove.congr hb

/-- What leaving a frame does. -/
def SearchFrame.close (b : Board) : SearchFrame → Board
  | .made => boardUnmakeMove b
  | .null saved => endNullMove saved b

/-- From wherever it stands, a search that leaves its open frames is back at its root. -/
theorem search_unwinds (root b : Board) (stack : List SearchFrame) (h : RepInv root.toViews)
    (hrun : SearchRun Undoable root stack b) : Agree root (stack.foldl SearchFrame.close b) := by
  induction stack generalizing b with
  | nil => exact (hrun.nested h).2
  | cons frame stack ih =>
    cases frame with
    | made => exact ih _ hrun.unmake
    | null saved => exact ih _ hrun.endNullMove

theorem search_unwinds_null : Agree prisonerBoard
    (endNullMove (saveNull prisonerBoard) (nullMove prisonerBoard)) :=
  search_unwinds _ _ [_] ((repInv_boardSetFen _).withMod _) (.nullMove .root)

end ChessRecast.Engine
