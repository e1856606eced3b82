import ChessRecast.App.BookTheorems
import ChessRecast.App.Orchestrator

/-!
# King safety in the Dart application

Both the validation copy and `makeMove` put the pieces where `Rules.after` says; the loop of
`getValidMovesFor` asks whether the king is `Checked` there.
-/

namespace ChessRecast.App

open Rules

namespace ChessBoard

/-! ## The placement after a move -/

section Placement

variable {d u : ChessBoard} {m : ChessMove} {placed : ChessPiece}

theorem placement_moved (hd : d.Tidy) (hm : d.Proper m) (hp : placed.position = m.toPos)
    (hman : placed.man = (m.piece.color, m.view.promo.getD m.piece.type))
    (hu : u.pieces = d.movedPieces m placed) : u.placement = after d.placement m.view := by
  funext q
  have hsrc : d.placement m.view.src = some (m.piece.color, m.piece.type) :=
    placement_eq_some.mpr ⟨m.piece, hm.from_holds, rfl⟩
  have hrook : ((d.getPieceAt m.view.rookSrc).map fun rook => rook.movedTo m.view.rookDst).map
      ChessPiece.man = d.placement m.view.rookSrc := by
    unfold placement
    cases d.getPieceAt m.view.rookSrc <;> rfl
  unfold after
  rw [hsrc]
  unfold placement at hrook ⊢
  rw [getPieceAt, hu, lookup_movedPieces hd hm hp]
  simp only [apply_ite (Option.map ChessPiece.man), hrook, Option.map_none, Option.map_some, hman]
  rfl

theorem validationMovedPiece_position : (validationMovedPiece m).position = m.toPos := by
  unfold validationMovedPiece
  split <;> rfl

theorem validationMovedPiece_man (hm : d.Proper m) :
    (validationMovedPiece m).man = (m.piece.color, m.view.promo.getD m.piece.type) := by
  unfold validationMovedPiece ChessMove.view
  cases hpromo : m.isPromotion with
  | false => rfl
  | true =>
    obtain ⟨letter, hletter, heq⟩ := hm.promo hpromo
    rw [heq]
    simp only [List.mem_cons, List.not_mem_nil, or_false] at hletter
    rcases hletter with rfl | rfl | rfl | rfl | rfl <;> rfl

theorem placedPiece_position : (placedPiece m).position = m.toPos := by
  unfold placedPiece
  split <;> rfl

theorem placedPiece_man :
    (placedPiece m).man = (m.piece.color, m.view.promo.getD m.piece.type) := by
  unfold placedPiece ChessMove.view
  cases m.isPromotion <;> rfl

theorem validation_pieces (hd : d.Tidy) : (d.makeMoveForValidation m).pieces =
    d.movedPieces m (validationMovedPiece m) := validationPieces_eq hd

theorem placement_makeMoveForValidation (hd : d.Tidy) (hm : d.Proper m) :
    (d.makeMoveForValidation m).placement = after d.placement m.view :=
  placement_moved hd hm validationMovedPiece_position (validationMovedPiece_man hm)
    (validation_pieces hd)

theorem tidy_makeMoveForValidation (hd : d.Tidy) (hm : d.Proper m) :
    (d.makeMoveForValidation m).Tidy :=
  tidy_movedPieces hd hm validationMovedPiece_position (validation_pieces hd)

theorem placement_makeMove (hd : d.Tidy) (hm : d.Proper m) :
    (d.makeMove m).placement = after d.placement m.view :=
  placement_moved hd hm placedPiece_position placedPiece_man (makeMove_pieces d m)

theorem tidy_makeMove (hd : d.Tidy) (hm : d.Proper m) : (d.makeMove m).Tidy :=
  tidy_movedPieces hd hm placedPiece_position (makeMove_pieces d m)

end Placement

/-! ## Check -/

section Check

variable {d : ChessBoard} {m : ChessMove} {c : Color}

theorem getKing_eq_some (hd : d.Tidy) (hone : OneKing d.placement c) {king : ChessPiece}
    (hmem : king ∈ d.pieces) (hman : king.man = (c, .king)) : d.getKing c = some king := by
  have hplace := placement_of_mem hd hmem
  cases hk : d.getKing c with
  | none =>
    have hno := List.find?_eq_none.mp hk king hmem
    obtain ⟨hcolor, htype⟩ := Prod.mk.inj hman
    simp [htype, hcolor] at hno
  | some king' =>
    obtain ⟨hmem', htype, hcolor⟩ := mem_of_getKing hk
    have hplace' := placement_of_mem hd hmem'
    rw [show (king.color, king.type) = (c, .king) from hman] at hplace
    rw [hcolor, htype] at hplace'
    have hpos := hone _ _ hplace' hplace
    exact congrArg some (hd.distinct.eq_of_key hmem' hmem hpos)

/-- A man that occurs at most once stands on at most one square. -/
theorem unique_of_filter {t : PieceType}
    (h : (d.pieces.filter fun p => p.type = t ∧ p.color = c).length ≤ 1) {k k' : Position}
    (hk : d.placement k = some (c, t)) (hk' : d.placement k' = some (c, t)) : k = k' := by
  obtain ⟨q, hq, hman⟩ := placement_eq_some.mp hk
  obtain ⟨q', hq', hman'⟩ := placement_eq_some.mp hk'
  obtain ⟨hmem, rfl⟩ := mem_of_getPieceAt hq
  obtain ⟨hmem', rfl⟩ := mem_of_getPieceAt hq'
  have hin : ∀ p ∈ d.pieces, p.man = (c, t) →
      p ∈ d.pieces.filter fun p => p.type = t ∧ p.color = c := by
    intro p hp hpm
    obtain ⟨hc, ht⟩ := Prod.mk.inj hpm
    exact List.mem_filter.mpr ⟨hp, by simp [hc, ht]⟩
  have h1 := hin q hmem hman
  have h2 := hin q' hmem' hman'
  generalize (d.pieces.filter fun p => p.type = t ∧ p.color = c) = ks at h h1 h2
  rcases ks with _ | ⟨x, _ | ⟨y, rest⟩⟩
  · cases h1
  · rw [List.mem_singleton.mp h1, List.mem_singleton.mp h2]
  · simp at h

theorem oneKing_of_kingsOf (h : (d.kingsOf c).length ≤ 1) : OneKing d.placement c :=
  fun _ _ hk hk' => unique_of_filter h hk hk'

theorem kingFound_of_oneKing (hd : d.Tidy) (hone : OneKing d.placement d.currentPlayer) :
    d.KingFound := fun _ hmem hman => getKing_eq_some hd hone hmem hman

theorem isKingInCheck_iff (hd : d.Tidy) (hone : OneKing d.placement c) :
    d.isKingInCheck c = true ↔
      Checked d.gameType d.isKingsBattlePhase2Unlocked d.placement c := by
  unfold isKingInCheck Checked
  cases hk : d.getKing c with
  | none =>
    simp only [Bool.false_eq_true, false_iff]
    rintro ⟨k, hplace, -⟩
    obtain ⟨king, hat, hman⟩ := placement_eq_some.mp hplace
    rw [getKing_eq_some hd hone (mem_of_getPieceAt hat).1 hman] at hk
    cases hk
  | some king =>
    obtain ⟨hmem, htype, hcolor⟩ := mem_of_getKing hk
    have hplace := placement_of_mem hd hmem
    rw [hcolor, htype] at hplace
    show d.isPositionUnderAttack king.position c.opposite = true ↔ _
    rw [isPositionUnderAttack_iff hd (hd.valid king hmem)]
    constructor
    · exact fun ha => ⟨king.position, hplace, ha⟩
    · rintro ⟨k, hk', ha⟩
      rwa [hone _ _ hplace hk']

/-- Is Phase 2 unlocked after the move? -/
def unlockedAfter (d : ChessBoard) (m : ChessMove) : Bool :=
  phase2Loop (d.moveHistory ++ [m]) 0 false

def TakesKing (m : ChessMove) : Prop := ∃ q, m.capturedPiece = some q ∧ q.type = .king

theorem oneKing_view (hm : d.Proper m) (hone : OneKing d.placement c)
    (hpromo : m.view.promo ≠ some .king) : OneKing (after d.placement m.view) c := by
  apply hone.after hpromo
  intro hc
  obtain ⟨-, hcol, -, hto, -⟩ := hm.castle hc
  intro heq
  have := congrArg Position.col heq
  simp only [MoveView.rookSrc, ChessMove.view, hcol] at this
  rcases hto with hto | hto <;> simp [hto] at this

/-- The validation copy is in check exactly when the king is attacked after the move. -/
theorem validation_checked_iff (hd : d.Tidy) (hm : d.Proper m)
    (hone : OneKing (after d.placement m.view) c) :
    (d.makeMoveForValidation m).isKingInCheck c = true ↔
      Checked d.gameType (d.unlockedAfter m) (after d.placement m.view) c := by
  have hplace := placement_makeMoveForValidation hd hm
  rw [isKingInCheck_iff (tidy_makeMoveForValidation hd hm) (by rw [hplace]; exact hone), hplace]
  rfl

theorem validation_check_iff (hd : d.Tidy) (hm : d.Proper m) (hone : OneKing d.placement c)
    (hpromo : m.view.promo ≠ some .king) :
    (d.makeMoveForValidation m).isKingInCheck c = true ↔
      Checked d.gameType (d.unlockedAfter m) (after d.placement m.view) c :=
  validation_checked_iff hd hm (oneKing_view hm hone hpromo)

/-- Under ordinary check rules a move is kept when it takes no king and leaves the own king
unattacked. -/
theorem keepsMove_iff (hheir : d.gameType ≠ .heir)
    (htruce : ¬ (d.gameType = .truce ∧ d.isTruceActive = true)) :
    d.keepsMove m = true ↔ ¬ TakesKing m ∧
      (d.makeMoveForValidation m).isKingInCheck d.currentPlayer = false := by
  have htakes : m.capturedPiece.any (fun q => q.type = .king) = true ↔ TakesKing m := by
    unfold TakesKing
    cases m.capturedPiece <;> simp
  unfold keepsMove
  dsimp only
  by_cases hk : TakesKing m
  · rw [if_pos ⟨htakes.mpr hk, hheir⟩]
    simp [hk]
  · rw [if_neg fun h => hk (htakes.mp h.1), if_neg htruce, if_neg fun h => hheir h.1,
      if_neg fun h => hheir h.1]
    simp [hk]

end Check

/-! ## The offered moves by their views -/

/-- A move of the side to move that passes its ruleset. -/
def Filtered (d : ChessBoard) (m : ChessMove) : Prop :=
  ∃ piece ∈ d.pieces, piece.color = d.currentPlayer ∧
    m ∈ d.applyRulesetFilter (d.getPotentialMoves piece) piece

/-- `getAllValidMoves` offers a move with this view. -/
def Offers (d : ChessBoard) (v : MoveView) : Prop := ∃ m ∈ d.getAllValidMoves, m.view = v

/-- The en-passant target is an empty square directly behind an enemy pawn. -/
def EpSound (d : ChessBoard) : Prop :=
  ∀ t, d.enPassantTarget = some t → t.IsValid ∧ d.placement t = none ∧
    d.placement (t.offset (-d.currentPlayer.forward) 0) = some (d.currentPlayer.opposite, .pawn)

section Offered

variable {d : ChessBoard} {m : ChessMove} {v : MoveView} {piece : ChessPiece}

theorem offers_iff (hd : d.Tidy) :
    d.Offers v ↔ ∃ m, d.Filtered m ∧ d.keepsMove m = true ∧ m.view = v := by
  unfold Offers getAllValidMoves getPiecesOfColor
  simp only [List.mem_flatMap, List.mem_filter, mem_getValidMovesFor]
  constructor
  · rintro ⟨m, ⟨piece, ⟨hmem, hcolor⟩, piece', hat, -, hm, hkeep⟩, hv⟩
    rw [hd.getPieceAt_iff.mpr ⟨hmem, rfl⟩] at hat
    obtain rfl := Option.some.inj hat
    exact ⟨m, ⟨piece, hmem, of_decide_eq_true hcolor, hm⟩, hkeep, hv⟩
  · rintro ⟨m, ⟨piece, hmem, hcolor, hm⟩, hkeep, hv⟩
    exact ⟨m, ⟨piece, ⟨hmem, decide_eq_true hcolor⟩, piece, hd.getPieceAt_iff.mpr ⟨hmem, rfl⟩,
      hcolor, hm, hkeep⟩, hv⟩

/-- The shapes of the moves that pass a ruleset. -/
inductive Shape (d : ChessBoard) (piece : ChessPiece) (m : ChessMove) : Prop
  | plain (toPos : Position) (hto : toPos.IsValid) (hne : piece.position ≠ toPos)
      (heq : m = d.plainMove piece toPos)
  | arrives (toPos : Position) (hp : piece.type = .pawn) (hto : toPos.IsValid)
      (hne : piece.position ≠ toPos) (harr : d.Arrives piece toPos m)
  | enPassant (toPos : Position) (captured : ChessPiece) (hp : piece.type = .pawn)
      (hto : toPos.IsValid) (hstep : PawnStep piece.color piece.position toPos)
      (htarget : d.enPassantTarget = some toPos)
      (hcap : d.getPieceAt ⟨piece.position.row, toPos.col⟩ = some captured)
      (htype : captured.type = .pawn)
      (heq : m = ChessMove.enPassant piece.position toPos piece captured)
  | castling (w : Wing) (hk : piece.type = .king) (hflag : d.castleFlag piece.color w = true)
      (hcan : d.canCastleTo piece.color w = true)
      (heq : m = ChessMove.castling piece.position ⟨homeRow piece.color, w.kingTo⟩ piece)

theorem shape_of_getPawnMoves (hp : piece.type = .pawn) (hm : m ∈ d.getPawnMoves piece) :
    d.Shape piece m := by
  by_cases hmod : d.gameType = .mercenary
  · rw [getPawnMoves, if_pos hmod] at hm
    obtain ⟨toPos, hto, hstep, -, -, heq⟩ := (mem_mercenaryPawnMoves hmod).mp hm
    exact .plain toPos hto hstep.2.2 heq
  · rcases (mem_getPawnMoves hmod).mp hm with hm | ⟨toPos, hto, hstep, hm | hm⟩
    · obtain ⟨hone, -, hkind⟩ := (mem_pawnForward hp).mp hm
      have hne : ∀ n : ℤ, n ≠ 0 →
          piece.position ≠ piece.position.offset (piece.color.forward * n) 0 := by
        intro n hn heq
        have := congrArg Position.row heq
        simp only [Position.offset_row] at this
        cases hc : piece.color <;> rw [hc] at this <;> simp only [Color.forward] at this <;> omega
      rcases hkind with harr | ⟨-, htwo, -, heq⟩
      · exact .arrives _ hp hone (by simpa using hne 1 one_ne_zero) harr
      · exact .plain _ htwo (hne 2 two_ne_zero) heq
    · exact .arrives toPos hp hto hstep.ne ((mem_pawnDiagonal hp).mp hm).2
    · obtain ⟨htarget, captured, hcap, htype, heq⟩ := mem_pawnEnPassant.mp hm
      exact .enPassant toPos captured hp hto hstep htarget hcap htype heq

theorem shape_of_getPotentialMoves (hv : piece.position.IsValid)
    (hm : m ∈ d.getPotentialMoves piece) : d.Shape piece m := by
  by_cases hp : piece.type = .pawn
  · rw [getPotentialMoves, hp] at hm
    exact shape_of_getPawnMoves hp hm
  · rcases (mem_getPotentialMoves hv hp).mp hm with ⟨toPos, hto, hreach, -, heq⟩ | ⟨hk, hm⟩
    · exact .plain toPos hto hreach.ne heq
    · obtain ⟨w, hflag, hcan, heq⟩ := mem_castlingMoves.mp hm
      exact .castling w hk hflag hcan heq

/-- A self-capture of Friendly Fire names the piece it takes, which need not be the first one on
its square. -/
theorem shape_or_selfCapture (hv : piece.position.IsValid)
    (hm : m ∈ d.applyRulesetFilter (d.getPotentialMoves piece) piece) :
    d.Shape piece m ∨ (d.gameType = .friendlyFire ∧ ∃ f, d.SelfCapture piece f m) := by
  rcases mem_applyRulesetFilter_cases hm with hm | hself | ⟨-, hm⟩
  · exact .inl (shape_of_getPotentialMoves hv hm)
  · exact .inr hself
  · obtain ⟨toPos, hto, hstep, hfree, heq⟩ := mem_prisonerMoves.mp hm
    exact .inl (.plain toPos hto hstep.2.2 heq)

theorem shape_of_filtered (hd : d.Tidy) (hpiece : piece ∈ d.pieces)
    (hm : m ∈ d.applyRulesetFilter (d.getPotentialMoves piece) piece) : d.Shape piece m := by
  rcases shape_or_selfCapture (hd.valid piece hpiece) hm with
    hshape | ⟨-, f, ⟨hf, -, -, -, hne⟩, -, rfl⟩
  · exact hshape
  · refine .plain f.position (hd.valid f hf) (Ne.symm hne) ?_
    rw [plainMove, hd.getPieceAt_iff.mpr ⟨hf, rfl⟩]

/-- A castling move has to start from the king that Dart finds first, an en-passant capture to end
on an empty square. -/
theorem Shape.proper_of (hd : d.Tidy) (hpiece : piece ∈ d.pieces)
    (hking : m.isCastling = true → d.getKing piece.color = some piece)
    (hempty : m.isEnPassant = true → d.getPieceAt m.toPos = none)
    (h : d.Shape piece m) : d.Proper m := by
  cases h with
  | plain toPos hto hne heq => exact heq ▸ proper_plainMove hd hpiece hto hne
  | arrives toPos hp hto hne harr => exact proper_arrives hd hpiece hto hne harr
  | enPassant toPos captured hp hto hstep htarget hcap htype heq =>
    subst heq
    exact
      { from_holds := hd.getPieceAt_iff.mpr ⟨hpiece, rfl⟩
        to_valid := hto
        from_ne_to := hstep.ne
        captured := fun h => by cases h
        ep := fun _ => ⟨rfl, hempty rfl, by
          show toPos.col ≠ piece.position.col
          have := hstep.2
          omega, captured, rfl, hcap⟩
        castle := fun h => by cases h
        promo := fun h => by cases h }
  | castling w hk hflag hcan heq =>
    subst heq
    exact proper_castling hd hpiece (hking rfl) hcan

theorem Arrives.flags {pawn : ChessPiece} {toPos : Position} (h : d.Arrives pawn toPos m) :
    m.isCastling = false ∧ m.isEnPassant = false := by
  unfold Arrives at h
  split at h
  · obtain ⟨letter, -, rfl⟩ := h
    exact ⟨rfl, rfl⟩
  · subst h
    exact ⟨rfl, rfl⟩

theorem Shape.king_of_castling (h : d.Shape piece m) (hc : m.isCastling = true) :
    piece.type = .king := by
  cases h with
  | plain toPos hto hne heq => subst heq; cases hc
  | arrives toPos hp hto hne harr => rw [harr.flags.1] at hc; cases hc
  | enPassant toPos captured hp hto hstep htarget hcap htype heq => subst heq; cases hc
  | castling w hk hflag hcan heq => exact hk

theorem Shape.target_of_enPassant (h : d.Shape piece m) (hep : m.isEnPassant = true) :
    d.enPassantTarget = some m.toPos := by
  cases h with
  | plain toPos hto hne heq => subst heq; cases hep
  | arrives toPos hp hto hne harr => rw [harr.flags.2] at hep; cases hep
  | enPassant toPos captured hp hto hstep htarget hcap htype heq => subst heq; exact htarget
  | castling w hk hflag hcan heq => subst heq; cases hep

/-- With a sound target en-passant captures end on an empty square. -/
theorem Shape.empty_of_enPassant (h : d.Shape piece m) (hsound : d.EpSound)
    (hep : m.isEnPassant = true) : d.getPieceAt m.toPos = none :=
  placement_eq_none.mp (hsound _ (h.target_of_enPassant hep)).2.1

/-- Moves that pass a ruleset are proper, en-passant captures when the target is sound. -/
theorem Shape.proper (hd : d.Tidy) (hking : d.KingFound) (hpiece : piece ∈ d.pieces)
    (hcolor : piece.color = d.currentPlayer) (hep : m.isEnPassant = true → d.EpSound)
    (h : d.Shape piece m) : d.Proper m := by
  refine h.proper_of hd hpiece (fun hc => ?_) fun hpassant => ?_
  · rw [hcolor]
    exact hking piece hpiece (by rw [ChessPiece.man, hcolor, h.king_of_castling hc])
  · exact h.empty_of_enPassant (hep hpassant) hpassant

theorem Filtered.proper (hd : d.Tidy) (hking : d.KingFound)
    (hep : m.isEnPassant = true → d.EpSound) (h : d.Filtered m) : d.Proper m := by
  obtain ⟨piece, hpiece, hcolor, hm⟩ := h
  exact (shape_of_filtered hd hpiece hm).proper hd hking hpiece hcolor hep

def NoKing (d : ChessBoard) (z : Position) : Prop := ∀ q, d.getPieceAt z = some q → q.type ≠ .king

theorem Shape.takesKing_iff_of_empty (hempty : m.isEnPassant = true → d.getPieceAt m.toPos = none)
    (h : d.Shape piece m) : ¬ TakesKing m ↔ d.NoKing m.toPos := by
  have hcaptured : m.capturedPiece = d.getPieceAt m.toPos → (¬ TakesKing m ↔ d.NoKing m.toPos) := by
    intro heq
    unfold TakesKing NoKing
    rw [heq]
    push Not
    rfl
  cases h with
  | plain toPos hto hne heq => exact hcaptured (heq ▸ rfl)
  | arrives toPos hp hto hne harr =>
    apply hcaptured
    unfold Arrives at harr
    split at harr
    · obtain ⟨letter, -, rfl⟩ := harr
      rfl
    · rw [harr]
      rfl
  | enPassant toPos captured hp hto hstep htarget hcap htype heq =>
    subst heq
    have hno : ¬ TakesKing (ChessMove.enPassant piece.position toPos piece captured) := by
      rintro ⟨q, hq, hk⟩
      obtain rfl := Option.some.inj hq
      rw [htype] at hk
      cases hk
    refine iff_of_true hno ?_
    intro q hq
    rw [hempty rfl] at hq
    cases hq
  | castling w hk hflag hcan heq =>
    apply hcaptured
    obtain ⟨-, -, hcols, -⟩ := (canCastleTo_iff _ _).mp hcan
    subst heq
    exact (hcols w.kingTo (by cases w <;> decide)).symm

theorem Shape.takesKing_iff (hep : m.isEnPassant = true → d.EpSound) (h : d.Shape piece m) :
    ¬ TakesKing m ↔ d.NoKing m.toPos :=
  h.takesKing_iff_of_empty fun hpassant => h.empty_of_enPassant (hep hpassant) hpassant

/-- Promotion to king is an option of Heir and Succession only. -/
theorem promotedType_ne_king (hheir : d.gameType ≠ .heir) (hsucc : d.gameType ≠ .succession)
    {c : Color} {toPos : Position} :
    ∀ letter ∈ d.getPromotionPieces c toPos, promotedType (some letter) ≠ .king := by
  unfold getPromotionPieces
  split
  · simp
  · simp [promotedType]
  · rename_i hmod
    exact absurd hmod hheir
  · rename_i hmod
    exact absurd hmod hsucc
  · simp [promotedType]

/-- A promotion: the piece is a pawn and the letter one of those on offer. -/
theorem Shape.promotionLetter (h : d.Shape piece m) (hpromo : m.isPromotion = true) :
    piece.type = .pawn ∧
      ∃ letter ∈ d.getPromotionPieces piece.color m.toPos, m.promotionPiece = some letter := by
  cases h with
  | plain toPos hto hne heq => subst heq; cases hpromo
  | enPassant toPos captured hp hto hstep htarget hcap htype heq => subst heq; cases hpromo
  | castling w hk hflag hcan heq => subst heq; cases hpromo
  | arrives toPos hp hto hne harr =>
    refine ⟨hp, ?_⟩
    unfold Arrives at harr
    split at harr
    · obtain ⟨letter, hletter, rfl⟩ := harr
      exact ⟨letter, hletter, rfl⟩
    · subst harr
      cases hpromo

theorem Shape.promo_ne_king (hheir : d.gameType ≠ .heir) (hsucc : d.gameType ≠ .succession)
    (h : d.Shape piece m) : m.view.promo ≠ some .king := by
  show (if m.isPromotion then some (promotedType m.promotionPiece) else none) ≠ _
  by_cases hpromo : m.isPromotion = true
  · obtain ⟨-, letter, hletter, heq⟩ := h.promotionLetter hpromo
    rw [if_pos hpromo, heq]
    exact fun hking => promotedType_ne_king hheir hsucc letter hletter (Option.some.inj hking)
  · rw [if_neg hpromo]
    exact nofun

/-- The generators never take an own piece. -/
theorem notOwn_of_getPotentialMoves (hv : piece.position.IsValid)
    (hep : m.isEnPassant = true → d.getPieceAt m.toPos = none)
    (hm : m ∈ d.getPotentialMoves piece) : d.NotOwn piece m.toPos := by
  have hempty : ∀ {z}, d.getPieceAt z = none → d.NotOwn piece z := by
    intro z hz q hq
    rw [hz] at hq
    cases hq
  by_cases hp : piece.type = .pawn
  · rw [getPotentialMoves, hp] at hm
    by_cases hmod : d.gameType = .mercenary
    · rw [getPawnMoves, if_pos hmod] at hm
      obtain ⟨toPos, -, -, hown, -, rfl⟩ := (mem_mercenaryPawnMoves hmod).mp hm
      exact hown
    · rcases (mem_getPawnMoves hmod).mp hm with hm | ⟨toPos, hto, hstep, hm | hm⟩
      · obtain ⟨-, hfront, hkind | ⟨-, -, hfree, rfl⟩⟩ := (mem_pawnForward hp).mp hm
        · rw [hkind.toPos_eq]
          exact hempty hfront
        · exact hempty hfree
      · obtain ⟨⟨target, htarget, hne⟩, hkind⟩ := (mem_pawnDiagonal hp).mp hm
        rw [hkind.toPos_eq]
        intro q hq
        rw [htarget] at hq
        exact Option.some.inj hq ▸ hne
      · obtain ⟨-, captured, -, -, rfl⟩ := mem_pawnEnPassant.mp hm
        exact hempty (hep rfl)
  · rcases (mem_getPotentialMoves hv hp).mp hm with ⟨toPos, -, -, hown, rfl⟩ | ⟨-, hm⟩
    · exact hown
    · obtain ⟨w, -, hcan, rfl⟩ := mem_castlingMoves.mp hm
      obtain ⟨-, -, hfree, -⟩ := (canCastleTo_iff _ _).mp hcan
      exact hempty (hfree w.kingTo (by cases w <;> decide))

theorem notOwn_of_filtered (hv : piece.position.IsValid) (hff : d.gameType ≠ .friendlyFire)
    (hep : m.isEnPassant = true → d.getPieceAt m.toPos = none)
    (hm : m ∈ d.applyRulesetFilter (d.getPotentialMoves piece) piece) :
    d.NotOwn piece m.toPos := by
  rcases mem_applyRulesetFilter_cases hm with hm | ⟨hmod, -⟩ | ⟨-, hm⟩
  · exact notOwn_of_getPotentialMoves hv hep hm
  · exact absurd hmod hff
  · obtain ⟨toPos, -, -, hfree, rfl⟩ := mem_prisonerMoves.mp hm
    intro q hq
    rw [show d.getPieceAt toPos = some q from hq] at hfree
    cases hfree

/-- The test of the validation copy by the view; `unlocked` is the phase of Kings' Battle after
the move. -/
theorem validation_safe_iff (hd : d.Tidy) (hone : OneKing d.placement d.currentPlayer)
    (hheir : d.gameType ≠ .heir) (hsucc : d.gameType ≠ .succession) (hm : d.Filtered m)
    (hep : m.isEnPassant = true → d.EpSound) {unlocked : Bool}
    (hphase : d.gameType = .kingsBattle → d.unlockedAfter m = unlocked) :
    (d.makeMoveForValidation m).isKingInCheck d.currentPlayer = false ↔
      ¬ Checked d.gameType unlocked (after d.placement m.view) d.currentPlayer := by
  have hproper := hm.proper hd (kingFound_of_oneKing hd hone) hep
  obtain ⟨piece, hpiece, -, hmem⟩ := hm
  have hpromo := (shape_of_filtered hd hpiece hmem).promo_ne_king hheir hsucc
  rw [← Bool.not_eq_true, not_iff_not, validation_check_iff hd hproper hone hpromo]
  by_cases hkb : d.gameType = .kingsBattle
  · rw [hphase hkb]
  · exact checked_phase hkb _ _ _ _

/-- What Dart offers under ordinary check rules, for a ruleset that lets the `free` pieces land
where `lands` says, when safety is a matter of the view. -/
theorem offers_iff_book (hd : d.Tidy) (hking : d.KingFound) (hep : v.ep = true → d.EpSound)
    (hheir : d.gameType ≠ .heir) (htruce : ¬ (d.gameType = .truce ∧ d.isTruceActive = true))
    {free : ChessPiece → Prop} {lands : ChessPiece → Position → Prop} {safe : Prop}
    (hempty : ∀ piece z, piece.type ≠ .queen → d.getPieceAt z = none → lands piece z)
    (hfilter : ∀ piece ∈ d.pieces, piece.color = d.currentPlayer → ∀ m, m.view = v →
      ((m ∈ d.applyRulesetFilter (d.getPotentialMoves piece) piece ∧ d.NoKing m.toPos) ↔
        (free piece ∧ m ∈ d.getPotentialMoves piece ∧ lands piece m.toPos)))
    (hL : ∀ m, d.Filtered m → m.view = v →
      ((d.makeMoveForValidation m).isKingInCheck d.currentPlayer = false ↔ safe)) :
    d.Offers v ↔ (d.appBook free lands).Allows v ∧ safe := by
  have hept : v.ep = true → ∀ t, d.enPassantTarget = some t → d.getPieceAt t = none :=
    fun h t ht => placement_eq_none.mp (hep h t ht).2.1
  have hepm : ∀ {m : ChessMove}, m.view = v → m.isEnPassant = true → d.EpSound :=
    fun hv h => hep (hv ▸ h)
  rw [offers_iff hd, ← exists_potential_iff hd hking hempty hept]
  constructor
  · rintro ⟨m, ⟨piece, hpiece, hcolor, hm⟩, hkeep, hv⟩
    obtain ⟨hno, hsafe⟩ := (keepsMove_iff hheir htruce).mp hkeep
    rw [(shape_of_filtered hd hpiece hm).takesKing_iff (hepm hv)] at hno
    obtain ⟨hfree, hpot, hlands⟩ := (hfilter piece hpiece hcolor m hv).mp ⟨hm, hno⟩
    exact ⟨⟨piece, hpiece, hcolor, hfree, m, hpot, hlands, hv⟩,
      (hL m ⟨piece, hpiece, hcolor, hm⟩ hv).mp hsafe⟩
  · rintro ⟨⟨piece, hpiece, hcolor, hfree, m, hpot, hlands, hv⟩, hsafe⟩
    obtain ⟨hm, hno⟩ := (hfilter piece hpiece hcolor m hv).mpr ⟨hfree, hpot, hlands⟩
    rw [← (shape_of_filtered hd hpiece hm).takesKing_iff (hepm hv)] at hno
    refine ⟨m, ⟨piece, hpiece, hcolor, hm⟩, (keepsMove_iff hheir htruce).mpr ⟨hno, ?_⟩, hv⟩
    exact (hL m ⟨piece, hpiece, hcolor, hm⟩ hv).mpr hsafe

/-- Friendly Fire: an own man that has moved and is no king stands on the square. -/
def OwnTarget (d : ChessBoard) (z : Position) : Prop :=
  d.gameType = .friendlyFire ∧ ∃ f, d.getPieceAt z = some f ∧ f.color = d.currentPlayer ∧
    f.type ≠ .king ∧ f.hasMoved = true

/-- Phase 1 of Kings' Battle leaves only kings and pawns free to move. -/
def Unlocked (d : ChessBoard) (piece : ChessPiece) : Prop :=
  d.gameType = .kingsBattle → d.isPhase2Unlocked = false →
    piece.type = .king ∨ piece.type = .pawn

theorem mem_plainRuleset (hff : d.gameType ≠ .friendlyFire) (hstq : d.gameType ≠ .saveQueen)
    (htruce : d.gameType = .truce → d.isTruceBroken = true) (hd : d.Tidy)
    (hpiece : piece ∈ d.pieces) :
    (m ∈ d.applyRulesetFilter (d.getPotentialMoves piece) piece ∧ d.NoKing m.toPos) ↔
      (d.Unlocked piece ∧ m ∈ d.getPotentialMoves piece ∧ d.NoKing m.toPos) := by
  rw [← and_assoc]
  refine and_congr_left fun hno => ?_
  unfold applyRulesetFilter Unlocked
  split
  · rename_i hmod
    simp [truceFilter, htruce hmod, hmod]
  · rename_i hmod
    exact absurd hmod hff
  · rename_i hmod
    unfold kingsBattleFilter
    by_cases hphase : d.isPhase2Unlocked = true
    · simp [hphase]
    · rw [if_neg hphase]
      rw [Bool.not_eq_true] at hphase
      simp only [hmod, hphase, forall_const]
      by_cases hfree : piece.type ≠ .king ∧ piece.type ≠ .pawn
      · rw [if_pos hfree]
        simp [hfree.1, hfree.2]
      · rw [if_neg hfree]
        have hkind : piece.type = .king ∨ piece.type = .pawn := by tauto
        simp only [hkind, true_and]
        by_cases hk : piece.type = .king
        · rw [if_pos hk, List.mem_filter, and_iff_left_iff_imp]
          intro hm
          have hkeep : ¬ TakesKing m := by
            have hplain := (moveOf_getPotentialMoves hm).plain (by rw [hk]; decide)
            rw [(shape_of_getPotentialMoves (hd.valid piece hpiece) hm).takesKing_iff
              fun h => by rw [hplain.1] at h; cases h]
            exact hno
          unfold TakesKing at hkeep
          cases hq : m.capturedPiece with
          | none => rfl
          | some q =>
            have : q.type ≠ .king := fun hk => hkeep ⟨q, hq, hk⟩
            simp [this]
        · rw [if_neg hk]
  · rename_i hmod
    exact absurd hmod hstq
  · rename_i hkb _
    exact ⟨fun hm => ⟨fun hmod => absurd hmod hkb, hm⟩, fun hm => hm.2⟩

end Offered

end ChessBoard

end ChessRecast.App
