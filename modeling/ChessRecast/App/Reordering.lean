import ChessRecast.App.Placement
import ChessRecast.App.PositionKeys
import ChessRecast.Lib.Views

/-!
# The order of the piece list

The rules read the piece list square by square, except that `getKing` takes the first king of a
colour. So a board whose pieces are listed in another order, the kings of each colour apart, plays
like the first one.
-/

namespace ChessRecast.App

open Rules

/-- What is read of a piece list in its order: the men on a square and the kings of a colour. -/
inductive View
  | square (z : Position)
  | kings (c : Color)

def View.shows : View → ChessPiece → Bool
  | .square z, p => p.position = z
  | .kings c, p => p.type = .king ∧ p.color = c

theorem View.exists_shows (p : ChessPiece) : ∃ v : View, v.shows p = true :=
  ⟨.square p.position, decide_eq_true rfl⟩

/-- The lists differ in the order of their pieces only, and not in that of kings of a colour. -/
def Reorders (l l' : List ChessPiece) : Prop := Views.Agree View.shows l l'

section Lists

variable {l l' : List ChessPiece}

theorem Reorders.perm (h : Reorders l l') : l.Perm l' := Views.Agree.perm View.exists_shows h

theorem Reorders.lookup (h : Reorders l l') (z : Position) :
    Keyed.lookup ChessPiece.position l z = Keyed.lookup ChessPiece.position l' z :=
  Views.Agree.find? h (.square z)

theorem reorders_of_perm (hd : Keyed.Distinct ChessPiece.position l) (h : l.Perm l')
    (hkings : ∀ c, (l.filter fun p => p.type = .king ∧ p.color = c) =
      l'.filter fun p => p.type = .king ∧ p.color = c) : Reorders l l'
  | .square z => Views.filter_key_eq_of_perm hd h z
  | .kings c => hkings c

/-- What is asked of the pieces of a colour one by one does not depend on their order. -/
theorem any_filter_of_perm (h : l.Perm l') (p : ChessPiece → Bool) {q q' : ChessPiece → Bool}
    (hq : ∀ a, q a = q' a) : (l.filter p).any q = (l'.filter p).any q' := by
  rw [funext hq]
  exact (h.filter p).any_eq

end Lists

/-! ## Draw rules -/

section Draws

variable {w w' b b' : List ChessPiece}

/-- A permutation of at most one record is no change. -/
theorem eq_or_many (h : w.Perm w') :
    w = w' ∨ (∃ p q rest, w = p :: q :: rest) ∧ ∃ p q rest, w' = p :: q :: rest := by
  match w, w', h with
  | [], w', h => exact .inl h.nil_eq
  | [p], w', h => exact .inl h.singleton_eq
  | _ :: _ :: _, [], h => exact absurd h.length_eq (by simp)
  | _ :: _ :: _, [_], h => exact absurd h.length_eq (by simp)
  | p :: q :: rest, p' :: q' :: rest', h => exact .inr ⟨⟨p, q, rest, rfl⟩, p', q', rest', rfl⟩

theorem onlyKing_of_perm (h : w.Perm w') : onlyKing w = onlyKing w' := by
  obtain rfl | ⟨⟨p, q, rest, rfl⟩, p', q', rest', rfl⟩ := eq_or_many h <;> rfl

theorem onlyMinor_of_perm (h : w.Perm w') : onlyMinor w = onlyMinor w' := by
  obtain rfl | ⟨⟨p, q, rest, rfl⟩, p', q', rest', rfl⟩ := eq_or_many h <;> rfl

theorem sameColorBishops_of_perm (hw : w.Perm w') (hb : b.Perm b') :
    sameColorBishops w b = sameColorBishops w' b' := by
  obtain rfl | ⟨⟨p, q, rest, rfl⟩, p', q', rest', rfl⟩ := eq_or_many hw
  · obtain rfl | ⟨⟨p, q, rest, rfl⟩, p', q', rest', rfl⟩ := eq_or_many hb
    · rfl
    · match w with
      | [] => rfl
      | [_] => rfl
      | _ :: _ :: _ => rfl
  · rfl

theorem countType_of_perm (h : w.Perm w') (t : PieceType) : countType w t = countType w' t :=
  (h.filter _).length_eq

theorem fiftyMoveThreshold_of_perm (mod : Mod) (hw : w.Perm w') (hb : b.Perm b') :
    fiftyMoveThreshold mod w b = fiftyMoveThreshold mod w' b' := by
  have hany : ∀ p : ChessPiece → Bool, w.any p = w'.any p ∧ b.any p = b'.any p :=
    fun p => ⟨hw.any_eq, hb.any_eq⟩
  unfold fiftyMoveThreshold isMercenaryAcceleratedEndgame
  rw [onlyKing_of_perm hw, onlyKing_of_perm hb]
  -- the stronger side is the same on both boards
  by_cases hlone : onlyKing w' = true
  · simp only [hlone, if_true, (hany _).2, hb.length_eq]
  · simp only [hlone, Bool.false_eq_true, if_false, (hany _).1, hw.length_eq]

theorem isInsufficientMaterialClassic_of_perm (hw : w.Perm w') (hb : b.Perm b') :
    isInsufficientMaterialClassic w b = isInsufficientMaterialClassic w' b' := by
  unfold isInsufficientMaterialClassic
  dsimp only
  rw [hw.length_eq, hb.length_eq, onlyMinor_of_perm ((hw.append hb).filter _),
    sameColorBishops_of_perm (hw.filter _) (hb.filter _)]

theorem isInsufficientMaterial_of_perm (mod : Mod) (hw : w.Perm w') (hb : b.Perm b') :
    isInsufficientMaterial mod w b = isInsufficientMaterial mod w' b' := by
  unfold isInsufficientMaterial isInsufficientMaterialMercenary
  rw [onlyKing_of_perm hw, onlyKing_of_perm hb, isInsufficientMaterialClassic_of_perm hw hb,
    hw.length_eq, hb.length_eq]
  simp only [countType_of_perm hw, countType_of_perm hb]

end Draws

/-! ## Attacks -/

namespace ChessBoard

/-- The board with its pieces listed in another order. -/
def reordered (d : ChessBoard) (l : List ChessPiece) : ChessBoard := { d with pieces := l }

section Attacks

variable {d : ChessBoard} {l : List ChessPiece} (h : Reorders d.pieces l)

include h

theorem getPieceAt_reordered (z : Position) : (d.reordered l).getPieceAt z = d.getPieceAt z :=
  (h.lookup z).symm

theorem kingsOf_reordered (c : Color) : (d.reordered l).kingsOf c = d.kingsOf c := (h (.kings c)).symm

theorem getKing_reordered (c : Color) : (d.reordered l).getKing c = d.getKing c :=
  (Views.Agree.find? h (.kings c)).symm

theorem pawnsOf_reordered (c : Color) : ((d.reordered l).pawnsOf c).Perm (d.pawnsOf c) :=
  (h.perm.filter _).symm

theorem getPiecesOfColor_reordered (c : Color) :
    ((d.reordered l).getPiecesOfColor c).Perm (d.getPiecesOfColor c) :=
  (h.perm.filter _).symm

theorem canAttack_reordered (p : ChessPiece) (z : Position) (mod : Mod) (unlocked : Bool) :
    p.canAttack z l mod unlocked = p.canAttack z d.pieces mod unlocked := by
  unfold ChessPiece.canAttack ChessPiece.canRookAttack ChessPiece.canBishopAttack
    ChessPiece.isPathBlocked
  simp only [h.lookup]

theorem pieceAttacks_reordered (z : Position) (p : ChessPiece) :
    (d.reordered l).pieceAttacks z p = d.pieceAttacks z p := by
  unfold pieceAttacks
  rw [getPieceAt_reordered h]
  unfold reordered
  simp only [canAttack_reordered h]
  rfl

theorem isPositionUnderAttack_reordered (z : Position) (c : Color) :
    (d.reordered l).isPositionUnderAttack z c = d.isPositionUnderAttack z c :=
  any_filter_of_perm h.perm.symm _ (pieceAttacks_reordered h z)

theorem isKingInCheck_reordered (c : Color) :
    (d.reordered l).isKingInCheck c = d.isKingInCheck c := by
  unfold isKingInCheck
  simp only [getKing_reordered h, isPositionUnderAttack_reordered h]

theorem canCastle_reordered (c : Color) (rookCol : ℤ) (empties safes : List ℤ) :
    (d.reordered l).canCastle c rookCol empties safes = d.canCastle c rookCol empties safes := by
  unfold canCastle
  simp only [getKing_reordered h, getPieceAt_reordered h, isKingInCheck_reordered h,
    isPositionUnderAttack_reordered h]

end Attacks

/-! ## Moves -/

section Moves

variable {d : ChessBoard} {l : List ChessPiece} (h : Reorders d.pieces l)

include h

theorem slideDir_reordered (p : ChessPiece) (dr dc : ℤ) (n : ℕ) : ∀ i,
    (d.reordered l).slideDir p dr dc n i = d.slideDir p dr dc n i := by
  induction n with
  | zero => exact fun _ => rfl
  | succ n ih =>
    intro i
    unfold slideDir
    simp only [getPieceAt_reordered h, ih]

theorem generateSlidingMoves_reordered (p : ChessPiece) (directions : List (ℤ × ℤ)) :
    (d.reordered l).generateSlidingMoves p directions = d.generateSlidingMoves p directions := by
  unfold generateSlidingMoves
  simp only [slideDir_reordered h]

theorem generateStepMoves_reordered (p : ChessPiece) (offsets : List (ℤ × ℤ)) :
    (d.reordered l).generateStepMoves p offsets = d.generateStepMoves p offsets := by
  unfold generateStepMoves
  simp only [getPieceAt_reordered h]

theorem shouldApplyCheckRules_reordered (c : Color) :
    (d.reordered l).shouldApplyCheckRules c = d.shouldApplyCheckRules c := by
  unfold shouldApplyCheckRules
  rw [(pawnsOf_reordered h c).isEmpty_eq]
  rfl

theorem getPromotionPieces_reordered (c : Color) (z : Position) :
    (d.reordered l).getPromotionPieces c z = d.getPromotionPieces c z := by
  unfold getPromotionPieces heirPromotionPieces successionPromotionPieces
  rw [getKing_reordered h, isPositionUnderAttack_reordered h, (pawnsOf_reordered h c).length_eq]
  rfl

theorem pawnMoves_reordered (p : ChessPiece) :
    (d.reordered l).getPawnMoves p = d.getPawnMoves p := by
  unfold getPawnMoves mercenaryPawnMoves pawnForward pawnDiagonal pawnEnPassant
  simp only [getPieceAt_reordered h, getPromotionPieces_reordered h]
  rfl

theorem castlingMoves_reordered (p : ChessPiece) :
    (d.reordered l).castlingMoves p = d.castlingMoves p := by
  unfold castlingMoves canCastleKingside canCastleQueenside
  simp only [canCastle_reordered h]
  rfl

theorem getPotentialMoves_reordered (p : ChessPiece) :
    (d.reordered l).getPotentialMoves p = d.getPotentialMoves p := by
  unfold getPotentialMoves getQueenMoves getRookMoves getBishopMoves getKnightMoves getKingMoves
  simp only [pawnMoves_reordered h, generateSlidingMoves_reordered h,
    generateStepMoves_reordered h, castlingMoves_reordered h]

/-! ## The validation copy -/

theorem performCastlingRookMove_reordered {k k' : List ChessPiece} (hk : Reorders k k')
    (kingFrom kingTo : Position) :
    Reorders (d.performCastlingRookMove k kingFrom kingTo)
      ((d.reordered l).performCastlingRookMove k' kingFrom kingTo) := by
  unfold performCastlingRookMove
  dsimp only
  rw [getPieceAt_reordered h]
  cases d.getPieceAt _ with
  | none => exact Views.Agree.filter hk _
  | some rook => exact Views.Agree.concat (Views.Agree.filter hk _) _

/-- The end of both functions that play a move on the piece list. -/
theorem placed_reordered {k k' : List ChessPiece} (hk : Reorders k k') (placed : ChessPiece)
    (m : ChessMove) :
    Reorders (if m.isCastling then d.performCastlingRookMove (k ++ [placed]) m.fromPos m.toPos
        else k ++ [placed])
      (if m.isCastling then
          (d.reordered l).performCastlingRookMove (k' ++ [placed]) m.fromPos m.toPos
        else k' ++ [placed]) := by
  split
  · exact performCastlingRookMove_reordered h (Views.Agree.concat hk _) _ _
  · exact Views.Agree.concat hk _

theorem validationPieces_reordered (m : ChessMove) :
    Reorders (d.validationPieces m) ((d.reordered l).validationPieces m) := by
  have hleft : Reorders (Keyed.eraseLast (fun p => p.position = m.fromPos) d.pieces)
      (Keyed.eraseLast (fun p => p.position = m.fromPos) (d.reordered l).pieces) :=
    Views.Agree.eraseLast_view h (.square m.fromPos)
  unfold validationPieces
  cases m.capturedPiece with
  | none => exact placed_reordered h hleft _ m
  | some q =>
    cases m.isEnPassant with
    | true =>
      have hfound := Views.find?_eq_of_perm ((List.reverse_perm _).trans
        (hleft.perm.trans (List.reverse_perm _).symm)) q
      exact placed_reordered h (Views.Agree.eraseLast hleft hfound) _ m
    | false => exact placed_reordered h (Views.Agree.eraseLast_view hleft (.square m.toPos)) _ m

theorem isKingInCheck_validation_reordered (m : ChessMove) (c : Color) :
    ((d.reordered l).makeMoveForValidation m).isKingInCheck c =
      (d.makeMoveForValidation m).isKingInCheck c :=
  isKingInCheck_reordered (d := d.makeMoveForValidation m) (validationPieces_reordered h m) c

theorem getKing_validation_reordered (m : ChessMove) (c : Color) :
    ((d.reordered l).makeMoveForValidation m).getKing c = (d.makeMoveForValidation m).getKing c :=
  getKing_reordered (d := d.makeMoveForValidation m) (validationPieces_reordered h m) c

theorem nextToEnemyKing_reordered (m : ChessMove) :
    (d.reordered l).nextToEnemyKing m = d.nextToEnemyKing m := by
  unfold nextToEnemyKing
  simp only [getKing_validation_reordered h]
  rfl

/-! ## Rulesets -/

theorem moveGivesCheck_reordered (m : ChessMove) :
    (d.reordered l).moveGivesCheck m = d.moveGivesCheck m := by
  have hattack : ∀ z c, ((d.reordered l).makeMoveForValidation m).isPositionUnderAttack z c =
      (d.makeMoveForValidation m).isPositionUnderAttack z c :=
    isPositionUnderAttack_reordered (d := d.makeMoveForValidation m)
      (validationPieces_reordered h m)
  unfold moveGivesCheck
  simp only [getKing_reordered h, getKing_validation_reordered h, hattack]

theorem hasLegalTruceMove_reordered (p : ChessPiece) :
    (d.reordered l).hasLegalTruceMove p = d.hasLegalTruceMove p := by
  unfold hasLegalTruceMove candidateTruceMoves pawnTruceMoves canCastleKingside canCastleQueenside
  simp only [getPieceAt_reordered h, getPromotionPieces_reordered h,
    generateSlidingMoves_reordered h, generateStepMoves_reordered h, canCastle_reordered h,
    moveGivesCheck_reordered h]

theorem isTruceBroken_reordered : (d.reordered l).isTruceBroken = d.isTruceBroken := by
  have hside := getPiecesOfColor_reordered h d.currentPlayer
  unfold isTruceBroken
  simp only [hasLegalTruceMove_reordered h]
  have hcount := (hside.filter fun p => d.pieceHasMoved p || !d.hasLegalTruceMove p).length_eq
  show (if ((d.reordered l).getPiecesOfColor d.currentPlayer).isEmpty then true else
    decide ((((d.reordered l).getPiecesOfColor d.currentPlayer).filter fun p =>
      d.pieceHasMoved p || !d.hasLegalTruceMove p).length ≥
        ((d.reordered l).getPiecesOfColor d.currentPlayer).length)) = _
  rw [hside.isEmpty_eq, hcount, hside.length_eq]

theorem truceFilter_reordered (moves : List ChessMove) (p : ChessPiece) :
    (d.reordered l).truceFilter moves p = d.truceFilter moves p := by
  unfold truceFilter
  simp only [isTruceBroken_reordered h, moveGivesCheck_reordered h]
  rfl

theorem pathClearLoop_reordered (z : Position) (dr dc : ℤ) (n : ℕ) : ∀ row col,
    (d.reordered l).pathClearLoop z dr dc n row col = d.pathClearLoop z dr dc n row col := by
  induction n with
  | zero => exact fun _ _ => rfl
  | succ n ih =>
    intro row col
    unfold pathClearLoop
    simp only [getPieceAt_reordered h, ih]

theorem canPieceReach_reordered (p : ChessPiece) (z : Position) :
    (d.reordered l).canPieceReach p z = d.canPieceReach p z := by
  unfold canPieceReach isPathClear
  simp only [pathClearLoop_reordered h]

theorem mem_friendlyFireFilter_reordered (moves : List ChessMove) (p : ChessPiece)
    (m : ChessMove) :
    m ∈ (d.reordered l).friendlyFireFilter moves p ↔ m ∈ d.friendlyFireFilter moves p := by
  have hfriends : Reorders (d.friendlyPieces p) ((d.reordered l).friendlyPieces p) :=
    Views.Agree.filter h _
  rw [mem_friendlyFireFilter_iff, mem_friendlyFireFilter_iff]
  unfold Adds
  simp only [hfriends.lookup, canPieceReach_reordered h]

theorem saveTheQueenFilter_reordered (moves : List ChessMove) (p : ChessPiece) :
    (d.reordered l).saveTheQueenFilter moves p = d.saveTheQueenFilter moves p := by
  have hany : ∀ q : ChessPiece → Bool, (d.reordered l).pieces.any q = d.pieces.any q :=
    fun q => h.perm.symm.any_eq
  unfold saveTheQueenFilter queenTakesQueenOk takesQueenOk prisonerMoves
  simp only [getPieceAt_reordered h, hany]

theorem mem_applyRulesetFilter_reordered (moves : List ChessMove) (p : ChessPiece)
    (m : ChessMove) :
    m ∈ (d.reordered l).applyRulesetFilter moves p ↔ m ∈ d.applyRulesetFilter moves p := by
  have hmod : (d.reordered l).gameType = d.gameType := rfl
  unfold applyRulesetFilter
  rw [hmod]
  cases d.gameType with
  | friendlyFire => exact mem_friendlyFireFilter_reordered h moves p m
  | truce => simp only [truceFilter_reordered h]
  | saveQueen => simp only [saveTheQueenFilter_reordered h]
  | _ => exact Iff.rfl

theorem keepsMove_reordered (m : ChessMove) : (d.reordered l).keepsMove m = d.keepsMove m := by
  unfold keepsMove isTruceActive
  simp only [nextToEnemyKing_reordered h, shouldApplyCheckRules_reordered h,
    isTruceBroken_reordered h, isKingInCheck_validation_reordered h]
  rfl

theorem mem_getValidMovesFor_reordered (z : Position) (m : ChessMove) :
    m ∈ (d.reordered l).getValidMovesFor z ↔ m ∈ d.getValidMovesFor z := by
  unfold getValidMovesFor
  rw [getPieceAt_reordered h]
  cases d.getPieceAt z with
  | none => exact Iff.rfl
  | some p =>
    have hplayer : (d.reordered l).currentPlayer = d.currentPlayer := rfl
    dsimp only
    rw [hplayer]
    by_cases hcolor : p.color ≠ d.currentPlayer
    · rw [if_pos hcolor, if_pos hcolor]
    · rw [if_neg hcolor, if_neg hcolor, List.mem_filter, List.mem_filter,
        mem_applyRulesetFilter_reordered h, getPotentialMoves_reordered h, keepsMove_reordered h]

theorem hasValidMoves_reordered : (d.reordered l).hasValidMoves = d.hasValidMoves := by
  refine any_filter_of_perm h.perm.symm _ fun p => ?_
  rw [Bool.not_inj_iff, Bool.eq_iff_iff, List.isEmpty_iff, List.isEmpty_iff,
    List.eq_nil_iff_forall_not_mem, List.eq_nil_iff_forall_not_mem]
  simp only [mem_getValidMovesFor_reordered h]

end Moves

/-! ## Playing a move -/

/-- The boards are equal up to the order of their pieces. -/
def Alike (d e : ChessBoard) : Prop := ∃ l, Reorders d.pieces l ∧ e = d.reordered l

theorem Alike.copyWith {d e : ChessBoard} (h : d.Alike e) (u : CopyWith) (hu : u.pieces = none) :
    (d.copyWith u).Alike (e.copyWith u) := by
  obtain ⟨l, hl, rfl⟩ := h
  refine ⟨l, ?_, ?_⟩
  · unfold ChessBoard.copyWith
    rw [hu]
    exact hl
  · unfold ChessBoard.copyWith reordered
    rw [hu]
    rfl

theorem Alike.ite {c : Prop} [Decidable c] {a a' b b' : ChessBoard} (ha : a.Alike a')
    (hb : b.Alike b') : (if c then a else b).Alike (if c then a' else b') := by
  split
  · exact ha
  · exact hb

section Playing

variable {d : ChessBoard} {l : List ChessPiece} {m : ChessMove}

theorem getPositionKey_reordered (h : Reorders d.pieces l)
    (hvalid : ∀ p ∈ d.pieces, p.position.IsValid) :
    (d.reordered l).getPositionKey = d.getPositionKey := by
  have htop : ∀ z, (d.reordered l).top z = d.top z := by
    intro z
    unfold top
    exact congrArg _ (Views.Agree.find? (Views.Agree.reverse h) (.square z)).symm
  rw [getPositionKey_eq hvalid, getPositionKey_eq fun p hp => hvalid p (h.perm.mem_iff.mpr hp)]
  unfold squaresText
  simp only [htop]
  rfl

theorem makePieces_reordered (h : Reorders d.pieces l) (m : ChessMove) :
    Reorders (d.makePieces m) ((d.reordered l).makePieces m) := by
  have hleft : Reorders (d.pieces.filter fun p => p.position ≠ m.fromPos)
      ((d.reordered l).pieces.filter fun p => p.position ≠ m.fromPos) :=
    Views.Agree.filter h _
  unfold makePieces
  cases m.capturedPiece with
  | none => exact placed_reordered h hleft _ m
  | some q =>
    cases m.isEnPassant with
    | true => exact placed_reordered h (Views.Agree.filter hleft _) _ m
    | false => exact placed_reordered h (Views.Agree.filter hleft _) _ m

theorem canClaimFiftyMoveRule_reordered (h : Reorders d.pieces l) :
    (d.reordered l).canClaimFiftyMoveRule = d.canClaimFiftyMoveRule := by
  unfold canClaimFiftyMoveRule
  rw [fiftyMoveThreshold_of_perm _ (getPiecesOfColor_reordered h .white)
    (getPiecesOfColor_reordered h .black)]
  rfl

theorem makeMove_alike (h : Reorders d.pieces l)
    (hvalid : ∀ p ∈ d.makePieces m, p.position.IsValid) :
    (d.makeMove m).Alike ((d.reordered l).makeMove m) := by
  have hmade : Reorders (d.makeMoveBoard m).pieces ((d.reordered l).makePieces m) :=
    makePieces_reordered h m
  have hkey : ((d.reordered l).makeMoveBoard m).getPositionKey =
      (d.makeMoveBoard m).getPositionKey := getPositionKey_reordered hmade hvalid
  have hrecorded : (d.reordered l).recorded m =
      (d.recorded m).reordered ((d.reordered l).makePieces m) := by
    unfold recorded
    rw [hkey]
    rfl
  have hdraw : ((d.recorded m).reordered ((d.reordered l).makePieces m)).shouldAutoDraw =
      (d.recorded m).shouldAutoDraw := by
    unfold shouldAutoDraw hasThreefoldRepetition
    rw [canClaimFiftyMoveRule_reordered (d := d.recorded m) hmade,
      getPositionKey_reordered (d := d.recorded m) hmade hvalid]
    rfl
  have hboard : (d.recorded m).Alike ((d.reordered l).recorded m) := ⟨_, hmade, hrecorded⟩
  rw [makeMove_eq_recorded, makeMove_eq_recorded, hrecorded, hdraw, ← hrecorded]
  split
  · exact hboard.copyWith _ rfl
  · exact hboard

theorem kingsBattle_alike (hmade : (d.makeMove m).Alike ((d.reordered l).makeMove m)) :
    ((d.kingsBattleSpecialMove m).getD (d.makeMove m)).Alike
      (((d.reordered l).kingsBattleSpecialMove m).getD ((d.reordered l).makeMove m)) := by
  have hphase : (d.reordered l).isPhase2Unlocked = d.isPhase2Unlocked := rfl
  unfold kingsBattleSpecialMove
  rw [hphase]
  cases d.isPhase2Unlocked with
  | true => exact hmade
  | false =>
    cases m.isKingsKill with
    | true =>
      obtain ⟨k, hk, heq⟩ := hmade
      dsimp only
      rw [heq]
      exact Alike.copyWith ⟨k, hk, rfl⟩ _ rfl
    | false => exact hmade

theorem reprison_alike (h : Reorders d.pieces l)
    (hmade : (d.makeMove m).Alike ((d.reordered l).makeMove m)) (q : ChessPiece) :
    (d.reprison m q).Alike ((d.reordered l).reprison m q) := by
  have hfree : ((d.reordered l).pieces.any fun p => p.position = queenPrison q.color) =
      d.pieces.any fun p => p.position = queenPrison q.color := h.perm.symm.any_eq
  unfold reprison
  dsimp only
  rw [hfree]
  refine .ite hmade ?_
  obtain ⟨k, hk, heq⟩ := hmade
  rw [heq]
  exact ⟨k ++ [_], Views.Agree.concat hk _, rfl⟩

theorem saveTheQueen_alike (h : Reorders d.pieces l)
    (hmade : (d.makeMove m).Alike ((d.reordered l).makeMove m)) :
    ((d.saveTheQueenSpecialMove m).getD (d.makeMove m)).Alike
      (((d.reordered l).saveTheQueenSpecialMove m).getD ((d.reordered l).makeMove m)) := by
  have hwin := hmade.copyWith { gameStatus := some .checkmate } rfl
  unfold saveTheQueenSpecialMove
  by_cases hescape : m.piece.type = .queen ∧ m.piece.color.OwnHalf m.toPos.row ∧
      m.toPos = queenPrison m.piece.color.opposite
  · rw [if_pos hescape, if_pos hescape]
    exact hwin
  · rw [if_neg hescape, if_neg hescape]
    cases m.capturedPiece with
    | none => exact hmade
    | some q =>
      dsimp only
      by_cases hqueen : q.type = .queen
      · rw [if_pos hqueen, if_pos hqueen]
        by_cases hhome : q.color.OwnHalf m.toPos.row
        · rw [if_pos hhome, if_pos hhome]
          exact hwin
        · rw [if_neg hhome, if_neg hhome]
          exact reprison_alike h hmade q
      · rw [if_neg hqueen, if_neg hqueen]
        exact hmade

theorem kingPromotionWin_alike (h : Reorders d.pieces l)
    (hmade : (d.makeMove m).Alike ((d.reordered l).makeMove m)) :
    ((d.kingPromotionWin m).getD (d.makeMove m)).Alike
      (((d.reordered l).kingPromotionWin m).getD ((d.reordered l).makeMove m)) := by
  unfold kingPromotionWin
  rw [isPositionUnderAttack_reordered h]
  split
  · exact hmade.copyWith { gameStatus := some .checkmate } rfl
  · exact hmade

theorem succession_alike (h : Reorders d.pieces l)
    (hmade : (d.makeMove m).Alike ((d.reordered l).makeMove m)) :
    ((d.successionSpecialMove m).getD (d.makeMove m)).Alike
      (((d.reordered l).successionSpecialMove m).getD ((d.reordered l).makeMove m)) := by
  unfold successionSpecialMove
  cases m.capturedPiece with
  | none => exact kingPromotionWin_alike h hmade
  | some q =>
    dsimp only
    by_cases hpawn : q.type = .pawn
    · rw [if_pos hpawn, if_pos hpawn]
      obtain ⟨k, hk, heq⟩ := hmade
      have hboard : (d.makeMove m).Alike ((d.makeMove m).reordered k) := ⟨k, hk, rfl⟩
      rw [heq, (pawnsOf_reordered hk q.color).isEmpty_eq]
      split
      · exact hboard.copyWith { gameStatus := some .checkmate } rfl
      · exact hboard
    · rw [if_neg hpawn, if_neg hpawn]
      exact kingPromotionWin_alike h hmade

theorem played_alike (h : Reorders d.pieces l)
    (hvalid : ∀ p ∈ d.makePieces m, p.position.IsValid) :
    (d.played m).Alike ((d.reordered l).played m) := by
  have hmade := makeMove_alike (m := m) h hvalid
  have hmod : (d.reordered l).gameType = d.gameType := rfl
  unfold played handleSpecialMove
  rw [hmod]
  cases d.gameType with
  | kingsBattle => exact kingsBattle_alike hmade
  | saveQueen => exact saveTheQueen_alike h hmade
  | succession => exact succession_alike h hmade
  | _ => exact hmade

/-! ## The new status -/

theorem withDraws_alike (h : Reorders d.pieces l) (status : GameStatus) :
    (d.withDraws status).Alike ((d.reordered l).withDraws status) := by
  unfold withDraws
  rw [isInsufficientMaterial_of_perm _ (getPiecesOfColor_reordered h .white)
    (getPiecesOfColor_reordered h .black), canClaimFiftyMoveRule_reordered h]
  exact Alike.copyWith ⟨l, h, rfl⟩ _ rfl

theorem updateHeirGameStatus_alike (h : Reorders d.pieces l) :
    d.updateHeirGameStatus.Alike (d.reordered l).updateHeirGameStatus := by
  have hlost : ∀ c, (d.reordered l).heirLost c = d.heirLost c := by
    intro c
    unfold heirLost
    rw [kingsOf_reordered h, (pawnsOf_reordered h c).isEmpty_eq]
    rfl
  have hplayer : (d.reordered l).currentPlayer = d.currentPlayer := rfl
  have hboard : d.Alike (d.reordered l) := ⟨l, h, rfl⟩
  unfold updateHeirGameStatus
  simp only [hlost, hplayer, getKing_reordered h, hasValidMoves_reordered h,
    shouldApplyCheckRules_reordered h, isKingInCheck_reordered h]
  exact .ite (hboard.copyWith _ rfl) (.ite (hboard.copyWith _ rfl)
    (.ite (hboard.copyWith _ rfl) (withDraws_alike h _)))

theorem updateGameStatus_alike {d e : ChessBoard} (hboard : d.Alike e) :
    d.updateGameStatus.Alike e.updateGameStatus := by
  obtain ⟨l, h, rfl⟩ := hboard
  have hboard : d.Alike (d.reordered l) := ⟨l, h, rfl⟩
  have hfields : (d.reordered l).gameType = d.gameType ∧
      (d.reordered l).gameStatus = d.gameStatus ∧
      (d.reordered l).currentPlayer = d.currentPlayer := ⟨rfl, rfl, rfl⟩
  unfold updateGameStatus updateTruceGameStatus isKingInCheckTruce isTruceActive
  simp only [hfields, getKing_reordered h, hasValidMoves_reordered h, isTruceBroken_reordered h,
    isKingInCheck_reordered h]
  refine .ite (hboard.copyWith _ rfl) (.ite (hboard.copyWith _ rfl) (.ite hboard ?_))
  cases d.gameType with
  | heir => exact updateHeirGameStatus_alike h
  | _ => exact withDraws_alike h _

theorem Alike.next {d e : ChessBoard} (hboard : d.Alike e)
    (hvalid : ∀ p ∈ d.pieces, p.position.IsValid) (hmem : m ∈ d.getValidMovesFor m.fromPos) :
    (d.next m).Alike (e.next m) := by
  obtain ⟨l, h, rfl⟩ := hboard
  refine updateGameStatus_alike (played_alike h fun p hp => ?_)
  refine valid_next hvalid (moving_of_mem hvalid hmem) p ?_
  rw [next_pieces]
  exact List.mem_append_left _ hp

end Playing

section Texts

variable {d : ChessBoard} {l : List ChessPiece} (h : Reorders d.pieces l)

include h

theorem rankText_reordered (row : ℤ) (n : ℕ) : ∀ col emptyCount,
    (d.reordered l).rankText row n col emptyCount = d.rankText row n col emptyCount := by
  induction n with
  | zero => exact fun _ _ => rfl
  | succ n ih =>
    intro col emptyCount
    unfold rankText
    simp only [getPieceAt_reordered h, ih]

theorem ranksText_reordered (row : ℕ) : (d.reordered l).ranksText row = d.ranksText row := by
  induction row with
  | zero => exact rankText_reordered h 0 8 0 0
  | succ row ih =>
    unfold ranksText
    rw [ih, rankText_reordered h]

theorem toFEN_reordered : (d.reordered l).toFEN = d.toFEN := by
  unfold toFEN
  rw [ranksText_reordered h]
  rfl

theorem toNativeFEN_reordered : (d.reordered l).toNativeFEN = d.toNativeFEN := by
  unfold toNativeFEN
  rw [toFEN_reordered h]
  rfl

theorem placement_reordered (z : Position) : (d.reordered l).placement z = d.placement z := by
  unfold placement
  rw [getPieceAt_reordered h]

end Texts

/-- A board with its pieces in another order, the kings of each colour apart, has the same moves,
texts and checks, and is led to the same position and status by each legal move. -/
theorem order_independent (d : ChessBoard) (l : List ChessPiece) (hd : d.Tidy)
    (hperm : d.pieces.Perm l) (hkings : ∀ c, d.kingsOf c = (d.reordered l).kingsOf c) :
    (∀ z m, m ∈ d.getValidMovesFor z ↔ m ∈ (d.reordered l).getValidMovesFor z) ∧
    d.toFEN = (d.reordered l).toFEN ∧ d.toNativeFEN = (d.reordered l).toNativeFEN ∧
    (∀ c, d.isKingInCheck c = (d.reordered l).isKingInCheck c) ∧
    ∀ m d' e', d.executeMove m = some d' → (d.reordered l).executeMove m = some e' →
      (∀ z, d'.placement z = e'.placement z) ∧ d'.currentPlayer = e'.currentPlayer ∧
      d'.gameStatus = e'.gameStatus := by
  have h : Reorders d.pieces l := reorders_of_perm hd.distinct hperm hkings
  refine ⟨fun z m => (mem_getValidMovesFor_reordered h z m).symm, (toFEN_reordered h).symm,
    (toNativeFEN_reordered h).symm, fun c => (isKingInCheck_reordered h c).symm, ?_⟩
  intro m d' e' hd' he'
  have hmem := mem_of_executeMove hd'
  obtain rfl := eq_next_of_executeMove hd'
  obtain rfl := eq_next_of_executeMove he'
  obtain ⟨k, hk, heq⟩ := Alike.next ⟨l, h, rfl⟩ hd.valid hmem
  rw [heq]
  exact ⟨fun z => (placement_reordered hk z).symm, rfl, rfl⟩

theorem order_independent_start :
    (initial .classic).pieces.Perm (initial .classic).pieces.reverse ∧
    ∀ c, (initial .classic).isKingInCheck c =
      ((initial .classic).reordered (initial .classic).pieces.reverse).isKingInCheck c := by
  have hperm := (List.reverse_perm (initial .classic).pieces).symm
  refine ⟨hperm, (order_independent _ _ (gameInv_initial .classic).tidy hperm ?_).2.2.2.1⟩
  intro c
  cases c <;> decide +kernel

/-- Heir, two white kings: the rook on a8 attacks the one on a1. -/
def twoKings (first second : Position) : ChessBoard where
  pieces := [⟨.king, .white, first, true⟩, ⟨.king, .white, second, true⟩,
    ⟨.rook, .black, ⟨7, 0⟩, true⟩, ⟨.king, .black, ⟨7, 7⟩, true⟩]
  gameType := .heir
  whiteHasPromotedKing := true

/-- The first king of the list decides. -/
theorem check_follows_order : (twoKings ⟨0, 4⟩ ⟨0, 0⟩).Tidy ∧
    (twoKings ⟨0, 4⟩ ⟨0, 0⟩).pieces.Perm (twoKings ⟨0, 0⟩ ⟨0, 4⟩).pieces ∧
    (twoKings ⟨0, 0⟩ ⟨0, 4⟩) =
      (twoKings ⟨0, 4⟩ ⟨0, 0⟩).reordered (twoKings ⟨0, 0⟩ ⟨0, 4⟩).pieces ∧
    (twoKings ⟨0, 4⟩ ⟨0, 0⟩).isKingInCheck .white = false ∧
    (twoKings ⟨0, 0⟩ ⟨0, 4⟩).isKingInCheck .white = true :=
  ⟨⟨by decide, by decide⟩, .swap _ _ _, rfl, by decide, by decide⟩

end ChessBoard

end ChessRecast.App
