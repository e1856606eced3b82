import ChessRecast.App.OrchestratorTheorems
import ChessRecast.Bridge.SaveQueen

/-!
# Executing a move on both sides

A move that both engines offer leads from a Dart board and the board handed over to C to boards
that show the same position again: men, turn, castling rights and both clocks.
-/

namespace ChessRecast.Bridge

open Rules Engine App

/-! ## The move of C -/

/-- A Dart move in the encoding of C. -/
def engineMove (m : ChessMove) : Move where
  fromSq := ofPos m.fromPos
  toSq := ofPos m.toPos
  piece := m.piece.type
  captured := m.capturedPiece.map ChessPiece.type
  castle := m.isCastling
  ep := m.isEnPassant
  promo := m.isPromotion
  promoType := if m.isPromotion then some (promotedType m.promotionPiece) else none

section Encoding

variable {d : ChessBoard} {b : Board} {m : ChessMove} {cm : Move}

theorem view_engineMove (hfrom : m.fromPos.IsValid) (hto : m.toPos.IsValid) :
    (engineMove m).view = m.view := by
  have hpromo : (if m.isPromotion then (engineMove m).promoType else none) = m.view.promo := by
    show (if m.isPromotion then
      if m.isPromotion then some (promotedType m.promotionPiece) else none else none) =
      if m.isPromotion then some (promotedType m.promotionPiece) else none
    cases m.isPromotion <;> rfl
  show MoveView.mk (toPos (ofPos m.fromPos)) (toPos (ofPos m.toPos))
    (if m.isPromotion then (engineMove m).promoType else none) m.isCastling m.isEnPassant = _
  rw [toPos_ofPos hfrom, toPos_ofPos hto, hpromo]
  rfl

/-- An en-passant capture takes an enemy pawn. -/
def TakesEnemyPawn (d : ChessBoard) (m : ChessMove) : Prop :=
  m.isEnPassant = true → ∀ q, m.capturedPiece = some q → q.color = d.currentPlayer.opposite

theorem wellFormed_engineMove (h : Sim d b) (hm : d.Sound m) (henemy : TakesEnemyPawn d m) :
    WellFormed b (engineMove m) := by
  have hfrom : m.fromPos.IsValid := h.tidy.valid_of_getPieceAt hm.from_holds
  have hman : ∀ z : Position, z.IsValid →
      pieceType (b.mailbox (ofPos z)) = (d.getPieceAt z).map ChessPiece.type := by
    intro z hz
    rw [h.mailbox hz]
    show ((d.getPieceAt z).map ChessPiece.man).map Prod.snd = _
    rw [Option.map_map]
    rfl
  have hcap : m.isEnPassant = false →
      (engineMove m).captured = pieceType (b.mailbox (engineMove m).toSq) := by
    intro hep
    show m.capturedPiece.map ChessPiece.type = pieceType (b.mailbox (ofPos m.toPos))
    rw [hman _ hm.to_valid, hm.captured hep]
  exact
    { from_valid := sqValid_ofPos hfrom
      to_valid := sqValid_ofPos hm.to_valid
      from_ne_to := fun heq => hm.from_ne_to (by
        rw [← toPos_ofPos hfrom, ← toPos_ofPos hm.to_valid]
        exact congrArg toPos heq)
      from_holds := by
        show b.mailbox (ofPos m.fromPos) = some (b.side, m.piece.type)
        rw [h.mailbox hfrom, h.side_eq, ← hm.mover]
        exact ChessBoard.placement_eq_some.mpr ⟨_, hm.from_holds, rfl⟩
      captured_eq := hcap
      ep_ok := by
        intro hep
        obtain ⟨hc, hempty, -, q, hq, hat⟩ := hm.ep hep
        obtain ⟨hpawn, htype⟩ := hm.passant hep
        have hvalid : m.view.epSquare.IsValid := h.tidy.valid_of_getPieceAt hat
        refine ⟨hpawn, ?_, ?_, ?_, hc⟩
        · show m.capturedPiece.map ChessPiece.type = some .pawn
          rw [hq, Option.map_some, htype q hq]
        · show b.mailbox (ofPos m.toPos) = none
          rw [h.mailbox hm.to_valid]
          exact ChessBoard.placement_eq_none.mpr hempty
        · have hsq : epCapSq (engineMove m) = ofPos m.view.epSquare := by
            show SQ (sqRow (ofPos m.fromPos)) (sqCol (ofPos m.toPos)) = SQ m.fromPos.row m.toPos.col
            rw [ofPos, ofPos, sqRow_SQ hfrom, sqCol_SQ hm.to_valid]
          rw [hsq, h.mailbox hvalid, h.side_eq, ← henemy hep q hq, ← htype q hq]
          exact ChessBoard.placement_eq_some.mpr ⟨q, hat, rfl⟩
      castle_ok := by
        intro hc
        obtain ⟨hking, hnone, ⟨w, hto⟩, hhome, hrook⟩ := hm.castles hc
        obtain ⟨-, -, -, -, -, hdst, -⟩ := hm.castle hc
        have hrow : ∀ c : Color, 0 ≤ homeRow c ∧ homeRow c < 8 := by
          intro c
          cases c <;> decide
        have hkingTo : 0 ≤ w.kingTo ∧ w.kingTo < 8 := by cases w <;> decide
        have hsrc : m.view.rookSrc = ⟨homeRow m.piece.color, w.rookCol⟩ := by
          show (⟨m.fromPos.row, if m.toPos.col = 6 then 7 else 0⟩ : Position) = _
          rw [hhome, hto]
          cases w <;> rfl
        have hto' : m.view.rookDst = ⟨homeRow m.piece.color, w.rookTo⟩ := by
          show (⟨m.fromPos.row, if m.toPos.col = 6 then 5 else 3⟩ : Position) = _
          rw [hhome, hto]
          cases w <;> rfl
        rw [hsrc] at hrook
        rw [hto'] at hdst
        have hside : m.piece.color = b.side := hm.mover.trans h.side_eq.symm
        rw [hside] at hto hhome hrook hdst
        refine ⟨hking, by rw [engineMove, hnone]; rfl, corner b.side w,
          SQ (homeRow b.side) w.rookTo, ?_, ?_, ?_, ?_⟩
        · show castleRook (ofPos m.toPos) = _
          rw [hto]
          exact castleRook_homeRow b.side w
        · show ofPos m.fromPos = SQ (sqRow (ofPos m.toPos)) 4
          rw [hto, hhome, ofPos, ofPos, sqRow_SQ ⟨(hrow _).1, (hrow _).2, hkingTo⟩]
        · rw [← hrook]
          exact h.mailbox (isValid_home (rookCol_bounds w))
        · rw [show SQ (homeRow b.side) w.rookTo = ofPos ⟨homeRow b.side, w.rookTo⟩ from rfl,
            h.mailbox (isValid_home (by cases w <;> decide))]
          exact ChessBoard.placement_eq_none.mpr hdst
      promo_ok := by
        intro hp
        refine ⟨hm.promotes hp, ?_⟩
        show (if m.isPromotion then _ else none) ≠ none
        rw [show m.isPromotion = true from hp]
        exact Option.some_ne_none _ }

/-- A generated move with the view of a Dart move is that move. -/
theorem eq_engineMove (h : Sim d b) (hep : EpInv b) (hm : d.Sound m)
    (henemy : TakesEnemyPawn d m) (hcm : cm ∈ pseudoMoves b) (hv : cm.view = m.view) :
    cm = engineMove m := by
  have hfrom : m.fromPos.IsValid := h.tidy.valid_of_getPieceAt hm.from_holds
  rcases castle_or_mem h.rep hcm with ⟨w, -, -, rfl⟩ | ⟨-, hmem⟩
  · have hsrc : ofPos m.fromPos = SQ (homeRow b.side) 4 := by
      rw [← show toPos (SQ (homeRow b.side) 4) = m.fromPos from congrArg MoveView.src hv]
      exact ofPos_toPos (sqValid_SQ (isValid_home (by norm_num)))
    have hdst : ofPos m.toPos = SQ (homeRow b.side) w.kingTo := by
      rw [← show toPos (SQ (homeRow b.side) w.kingTo) = m.toPos from congrArg MoveView.dst hv]
      exact ofPos_toPos (sqValid_SQ (isValid_home (by cases w <;> decide)))
    have hc : true = m.isCastling := congrArg MoveView.castle hv
    have hpassant : false = m.isEnPassant := congrArg MoveView.ep hv
    have hpromo : m.isPromotion = false := by
      have hnone : none = if m.isPromotion then some (promotedType m.promotionPiece) else none :=
        congrArg MoveView.promo hv
      by_contra hp
      rw [if_pos (by simpa using hp)] at hnone
      cases hnone
    obtain ⟨hking, hnone, -⟩ := hm.castles hc.symm
    unfold engineMove castleMove
    rw [hsrc, hdst, hking, hnone, ← hc, ← hpassant, hpromo]
    rfl
  · have wf := wellFormed_of_mem_pseudoMoves (genSafe_withoutRights h.rep hep) hmem
    refine eq_of_wellFormed (b := b) ⟨wf.from_valid, wf.to_valid, wf.from_ne_to, wf.from_holds,
      wf.captured_eq, wf.ep_ok, wf.castle_ok, wf.promo_ok⟩ (wellFormed_engineMove h hm henemy)
      (promoType_of_mem_pseudoMoves h.rep hcm) (fun hp => if_neg ?_)
      (hv.trans (view_engineMove hfrom hm.to_valid).symm)
    rw [show m.isPromotion = false from hp]
    decide

theorem fromPos_of_castling (h : Sim d b) (hcm : cm ∈ pseudoMoves b) (hv : cm.view = m.view)
    (hc : m.isCastling = true) : m.fromPos = ⟨homeRow d.currentPlayer, 4⟩ := by
  rcases castle_or_mem h.rep hcm with ⟨w, -, -, rfl⟩ | ⟨hno, -⟩
  · rw [show m.fromPos = toPos (SQ (homeRow b.side) 4) from (congrArg MoveView.src hv).symm,
      h.side_eq]
    exact toPos_ofPos (isValid_home (by norm_num))
  · rw [← show cm.castle = m.isCastling from congrArg MoveView.castle hv, hno] at hc
    cases hc

/-- With a sound target an en-passant capture takes an enemy pawn. -/
theorem takesEnemyPawn_of_shape {piece : ChessPiece} (hcolor : piece.color = d.currentPlayer)
    (hep : d.EpSound) (h : d.Shape piece m) : TakesEnemyPawn d m := by
  intro hpassant q hq
  cases h with
  | plain toPos hto hne heq => subst heq; cases hpassant
  | arrives toPos hp hto hne harr => rw [harr.flags.2] at hpassant; cases hpassant
  | castling w hk hflag hcan heq => subst heq; cases hpassant
  | enPassant toPos captured hp hto hstep htarget hcap htype heq =>
    subst heq
    obtain rfl := Option.some.inj hq
    obtain ⟨-, -, hpawn⟩ := hep _ htarget
    have hsq : toPos.offset (-d.currentPlayer.forward) 0 = ⟨piece.position.row, toPos.col⟩ := by
      rw [Position.eq_iff, Position.offset_row, Position.offset_col, hstep.1, hcolor]
      constructor <;> dsimp only <;> omega
    rw [hsq] at hpawn
    obtain ⟨q, hq', hman⟩ := ChessBoard.placement_eq_some.mp hpawn
    rw [hcap] at hq'
    rw [Option.some.inj hq']
    exact congrArg Prod.fst hman

end Encoding

/-! ## The boards after the move -/

section Executed

variable {d : ChessBoard} {b : Board} {m : ChessMove}

/-- Both engines take a right away for the same moves, as long as it comes with its rook. -/
theorem hasRight_engineMove (h : Sim d b) (hm : d.Sound m)
    (hrooks : ∀ c w, d.castleFlag c w = true →
      d.placement ⟨homeRow c, w.rookCol⟩ = some (c, .rook)) (c : Color) (w : Wing) :
    HasRight (makeCastling b (engineMove m)) c w ↔ (d.makeMove m).castleFlag c w = true := by
  have hfrom : m.fromPos.IsValid := h.tidy.valid_of_getPieceAt hm.from_holds
  have hcorner : ∀ {z : Position}, z.IsValid →
      (ofPos z = corner c w ↔ z = ⟨homeRow c, w.rookCol⟩) := by
    intro z hz
    refine ⟨fun heq => ?_, fun heq => by rw [heq]; rfl⟩
    rw [← toPos_ofPos hz, heq]
    exact toPos_ofPos (isValid_home (rookCol_bounds w))
  rw [hasRight_makeCastling, ChessBoard.castleFlag_makeMove, h.rights]
  refine and_congr_right fun hflag => ?_
  have hrook := hrooks c w hflag
  refine and_congr ?_ (and_congr ?_ ?_)
  · -- the king's move
    show ¬ (m.piece.type = .king ∧ b.side = c) ↔ _
    rw [h.side_eq, ← hm.mover]
  · -- the rook leaves: what stands on the corner is the rook of this colour
    show ¬ (m.piece.type = .rook ∧ ofPos m.fromPos = corner c w) ↔ _
    rw [hcorner hfrom]
    refine not_congr (and_congr_right fun _ => ⟨fun heq => ⟨?_, heq⟩, fun heq => heq.2⟩)
    rw [← heq] at hrook
    obtain ⟨q, hq, hman⟩ := ChessBoard.placement_eq_some.mp hrook
    rw [hm.from_holds] at hq
    rw [Option.some.inj hq]
    exact congrArg Prod.fst hman
  · -- a move to the corner takes that rook
    show ofPos m.toPos ≠ corner c w ↔ _
    rw [Ne, hcorner hm.to_valid]
    refine not_congr ⟨fun heq => ⟨?_, heq⟩, fun heq => heq.2⟩
    rw [← heq] at hrook
    obtain ⟨q, hq, hman⟩ := ChessBoard.placement_eq_some.mp hrook
    have hep : m.isEnPassant = false := by
      by_contra hep
      rw [(hm.ep (by simpa using hep)).2.1] at hq
      cases hq
    rw [hm.captured hep, hq]
    exact decide_eq_true (congrArg Prod.snd hman)

/-- The bonus move of C is the kept turn of Dart. -/
theorem bonus_engineMove (h : Sim d b) (hm : d.Sound m) :
    (makeKb b (engineMove m)).bonus = true ↔ d.KeepsTurn m := by
  have hkill : ((engineMove m).piece = .king ∧ (engineMove m).isCapture = true ∧
      pieceType (captureUndo b (engineMove m)).captured = some .pawn) ↔ m.isKingsKill = true := by
    have hflag : m.isKingsKill = true ↔ m.piece.type = .king ∧
        m.capturedPiece.any (fun q => q.type = .pawn) = true := by
      rw [ChessMove.isKingsKill, Bool.and_eq_true, decide_eq_true_eq]
    rw [hflag]
    refine and_congr_right fun (hking : m.piece.type = .king) => ?_
    have hep : m.isEnPassant = false := by
      by_contra hep
      rw [(hm.passant (by simpa using hep)).1] at hking
      cases hking
    cases hcap : m.capturedPiece with
    | none =>
      have hno : (engineMove m).isCapture = false := by
        show (m.capturedPiece.map ChessPiece.type).isSome = false
        rw [hcap]
        rfl
      rw [hno]
      simp
    | some q =>
      have hyes : (engineMove m).isCapture = true := by
        show (m.capturedPiece.map ChessPiece.type).isSome = true
        rw [hcap]
        rfl
      have hat : d.getPieceAt m.toPos = some q := by rw [← hm.captured hep, hcap]
      have hundo : (captureUndo b (engineMove m)).captured = some q.man := by
        have hmail : b.mailbox (engineMove m).toSq = some q.man := by
          show b.mailbox (ofPos m.toPos) = _
          rw [h.mailbox hm.to_valid]
          exact ChessBoard.placement_eq_some.mpr ⟨q, hat, rfl⟩
        unfold captureUndo
        dsimp only
        rw [show (engineMove m).ep = false from hep, hyes, hmail]
        split_ifs <;> first | rfl | contradiction
      rw [hundo, hyes]
      show true = true ∧ some q.type = some .pawn ↔ decide (q.type = .pawn) = true
      simp
  unfold makeKb ChessBoard.KeepsTurn
  by_cases hphase : b.mod = .kingsBattle ∧ b.kbUnlocked = false
  · have hlocked : d.gameType = .kingsBattle ∧ d.isPhase2Unlocked = false := by
      rw [h.mod_eq] at hphase
      exact ⟨hphase.1, h.phase hphase.1 ▸ hphase.2⟩
    rw [if_pos hphase]
    by_cases hk : m.isKingsKill = true
    · rw [if_pos (hkill.mpr hk)]
      exact ⟨fun _ => ⟨hlocked.1, hlocked.2, hk⟩, fun _ => rfl⟩
    · rw [if_neg fun hc => hk (hkill.mp hc)]
      refine ⟨fun hb => ?_, fun hc => absurd hc.2.2 hk⟩
      split_ifs at hb
  · rw [if_neg hphase]
    refine ⟨fun hb => (by cases hb), fun hc => absurd ⟨?_, ?_⟩ hphase⟩
    · rw [h.mod_eq, hc.1]
    · rw [h.phase hc.1, hc.2.1]

/-- C puts back the queen that Dart puts back. -/
theorem reprisons_engineMove (h : Sim d b) (hm : d.Sound m) (hown : d.gameType = .saveQueen →
    d.NotOwn m.piece m.toPos) : Reprisons b (engineMove m) ↔
      ∃ q, m.capturedPiece = some q ∧ d.Returns m q ∧ q.color = d.currentPlayer.opposite := by
  constructor
  · rintro ⟨hep, hcap, hmod, hqueen, hhalf, hfree⟩
    have hep' : m.isEnPassant = false := hep
    obtain ⟨q, hq⟩ : ∃ q, m.capturedPiece = some q := by
      cases hcap' : m.capturedPiece with
      | none =>
        rw [show (engineMove m).isCapture = (m.capturedPiece.map ChessPiece.type).isSome from rfl,
          hcap'] at hcap
        cases hcap
      | some q => exact ⟨q, rfl⟩
    have hat : d.getPieceAt m.toPos = some q := by rw [← hm.captured hep', hq]
    rw [h.mod_eq] at hmod
    have hcolor : q.color = d.currentPlayer.opposite := by
      rw [← hm.mover]
      exact Color.ne_iff_eq_opposite.mp (hown hmod q hat)
    have htype : q.type = .queen := by
      rw [show (engineMove m).toSq = ofPos m.toPos from rfl, h.mailbox hm.to_valid,
        ChessBoard.placement_eq_some.mpr ⟨q, hat, rfl⟩] at hqueen
      exact Option.some.inj hqueen
    rw [h.side_eq, ← ofPos_queenPrison, h.mailbox (isValid_queenPrison _), ← hcolor] at hfree
    have hnone := ChessBoard.placement_eq_none.mp hfree
    refine ⟨q, hq, ⟨hmod, ?_, htype, ?_, ?_⟩, hcolor⟩
    · -- the enemy's prison is where its own prisoner would stand: it is not free
      rintro ⟨-, -, hto⟩
      rw [hm.mover, ← hcolor] at hto
      rw [hto, hnone] at hat
      cases hat
    · rw [hcolor, ← h.side_eq, ← stqIsOwnHalf_iff hm.to_valid]
      exact hhalf
    · rw [← Bool.not_eq_true, any_position_iff h.tidy]
      exact not_not.mpr hnone
  · rintro ⟨q, hq, ⟨hmod, -, htype, hhalf, hany⟩, hcolor⟩
    have hep : m.isEnPassant = false := by
      by_contra hep
      have hpawn := (hm.passant (by simpa using hep)).2 q hq
      rw [htype] at hpawn
      cases hpawn
    have hat : d.getPieceAt m.toPos = some q := by rw [← hm.captured hep, hq]
    refine ⟨hep, ?_, by rw [h.mod_eq, hmod], ?_, ?_, ?_⟩
    · show (m.capturedPiece.map ChessPiece.type).isSome = true
      rw [hq]
      rfl
    · rw [show (engineMove m).toSq = ofPos m.toPos from rfl, h.mailbox hm.to_valid,
        ChessBoard.placement_eq_some.mpr ⟨q, hat, rfl⟩]
      exact congrArg some htype
    · show ¬ StqIsOwnHalf (ofPos m.toPos) b.side.opposite
      rw [stqIsOwnHalf_iff hm.to_valid, h.side_eq, ← hcolor]
      exact hhalf
    · rw [h.side_eq, ← hcolor, ← ofPos_queenPrison, h.mailbox (isValid_queenPrison _)]
      rw [ChessBoard.placement_eq_none]
      by_contra hsome
      exact absurd ((any_position_iff h.tidy _).mpr hsome) (by rw [hany]; decide)

/-- What a Dart board and a C board have in common after a move. -/
structure SameState (d : ChessBoard) (b : Board) : Prop where
  placement_eq : placement b.toViews = d.placement
  side_eq : b.side = d.currentPlayer
  rights : ∀ c w, HasRight b.castling c w ↔ d.castleFlag c w = true
  halfmove_eq : b.halfmove = d.halfMoveClock
  fullmove_eq : b.fullmove = d.fullMoveNumber

/-- A position of any mod: where check rules need them both sides have a king, a castling right
comes with its rook, the en-passant target is sound. -/
structure PlayablePosition (d : ChessBoard) : Prop where
  tidy : d.Tidy
  kings : ChessBoard.NeedsKings d.gameType → ∀ c, d.kingsOf c ≠ []
  rooks : ∀ c w, d.castleFlag c w = true → d.placement ⟨homeRow c, w.rookCol⟩ = some (c, .rook)
  enPassant : d.EpSound
  clocks : 0 ≤ d.halfMoveClock ∧ 1 ≤ d.fullMoveNumber

theorem placement_engineMove (h : Sim d b) (hm : d.Sound m) (henemy : TakesEnemyPawn d m)
    (hown : d.gameType = .saveQueen → d.NotOwn m.piece m.toPos) (player : Color)
    (status : GameStatus) (counter : List (List Char × ℤ)) :
    placement (boardMakeMove b (engineMove m)).toViews =
      (d.settled m player status counter).placement := by
  have hview := view_engineMove (h.tidy.valid_of_getPieceAt hm.from_holds) hm.to_valid
  have wf := wellFormed_engineMove h hm henemy
  funext z
  rw [placement_boardMakeMove h.rep wf, hview, h.placement_eq,
    ChessBoard.placement_settled h.tidy hm]
  have hprison : toPos (stqPrison b.side.opposite) =
      ChessBoard.queenPrison d.currentPlayer.opposite := by
    rw [← ofPos_queenPrison, toPos_ofPos (isValid_queenPrison _), h.side_eq]
  rw [hprison]
  by_cases hre : Reprisons b (engineMove m)
  · -- the queen is put back
    obtain ⟨q, hq, hr, hcolor⟩ := (reprisons_engineMove h hm hown).mp hre
    have hlist : d.returnedQueen m =
        [{ q with position := ChessBoard.queenPrison q.color, hasMoved := false }] := by
      unfold ChessBoard.returnedQueen
      rw [hq]
      exact if_pos hr
    rw [hlist]
    by_cases hz : z = ChessBoard.queenPrison d.currentPlayer.opposite
    · rw [if_pos ⟨hre, hz⟩, hz, ← hcolor, hm.prison_free hq hr]
      have hfound : Keyed.lookup ChessPiece.position
          [{ q with position := ChessBoard.queenPrison q.color, hasMoved := false }]
          (ChessBoard.queenPrison q.color) =
          some { q with position := ChessBoard.queenPrison q.color, hasMoved := false } := by
        simp [Keyed.lookup]
      rw [hfound, h.side_eq, ← hcolor, ← hr.2.2.1]
      rfl
    · have hnone : Keyed.lookup ChessPiece.position
          [{ q with position := ChessBoard.queenPrison q.color, hasMoved := false }] z = none := by
        rw [Keyed.lookup_eq_none_iff]
        intro a ha heq
        rw [List.mem_singleton.mp ha] at heq
        exact hz (by rw [← hcolor]; exact heq.symm)
      rw [if_neg fun hc => hz hc.2, hnone]
      exact Option.or_none.symm
  · have hnil : d.returnedQueen m = [] := by
      rcases d.returnedQueen_cases (m := m) with hnil | ⟨q, hq, hr, -⟩
      · exact hnil
      · refine absurd ((reprisons_engineMove h hm hown).mpr ⟨q, hq, hr, ?_⟩) hre
        have hep : m.isEnPassant = false := by
          by_contra hep
          have hpawn := (hm.passant (by simpa using hep)).2 q hq
          rw [hr.2.2.1] at hpawn
          cases hpawn
        rw [← hm.mover]
        exact Color.ne_iff_eq_opposite.mp (hown hr.1 q (by rw [← hm.captured hep, hq]))
    rw [if_neg fun hc => hre hc.1, hnil]
    exact Option.or_none.symm

/-- The boards after the move show the same position, but for the clock of a quiet pawn move in
Mercenary. -/
theorem sameState_settled_iff (h : Sim d b) (hm : d.Sound m) (henemy : TakesEnemyPawn d m)
    (hown : d.gameType = .saveQueen → d.NotOwn m.piece m.toPos)
    (hrooks : ∀ c w, d.castleFlag c w = true →
      d.placement ⟨homeRow c, w.rookCol⟩ = some (c, .rook))
    (hnonneg : 0 ≤ d.halfMoveClock) (hhalf : b.halfmove = d.halfMoveClock)
    (hfull : b.fullmove = d.fullMoveNumber) (status : GameStatus)
    (counter : List (List Char × ℤ)) :
    SameState (d.settled m (if d.KeepsTurn m then d.currentPlayer else d.currentPlayer.opposite)
      status counter) (boardMakeMove b (engineMove m)) ↔
      ¬ (d.gameType = .mercenary ∧ m.piece.type = .pawn ∧ m.capturedPiece = none) := by
  -- the two clocks
  have hclock : (boardMakeMove b (engineMove m)).halfmove =
      if m.piece.type = .pawn ∨ m.capturedPiece.isSome = true then 0 else d.halfMoveClock + 1 := by
    show (if m.piece.type = .pawn ∨ (m.capturedPiece.map ChessPiece.type).isSome = true then 0
      else b.halfmove + 1) = _
    rw [Option.isSome_map, hhalf]
  have hclock' : (d.makeMove m).halfMoveClock =
      if m.capturedPiece.isSome = true ∨ (m.piece.type = .pawn ∧ d.gameType ≠ .mercenary) then 0
      else d.halfMoveClock + 1 := by
    rw [ChessBoard.makeMove_halfMoveClock, shouldResetHalfMoveClock]
    cases m.capturedPiece.isSome <;> simp
  constructor
  · rintro hsame ⟨hmod, hpawn, hnone⟩
    have heq : (boardMakeMove b (engineMove m)).halfmove =
        (d.makeMove m).halfMoveClock := hsame.halfmove_eq
    rw [hclock, hclock', hnone, if_pos (.inl hpawn), if_neg (by simp [hmod])] at heq
    have := hnonneg
    omega
  · intro hquiet
    exact
      { placement_eq := placement_engineMove h hm henemy hown _ _ _
        side_eq := by
          show (if (makeKb b (engineMove m)).bonus then b.side
            else b.side.opposite) = if d.KeepsTurn m then _ else _
          rw [h.side_eq]
          exact if_congr (bonus_engineMove h hm) rfl rfl
        rights := hasRight_engineMove h hm hrooks
        halfmove_eq := by
          show (boardMakeMove b (engineMove m)).halfmove = (d.makeMove m).halfMoveClock
          rw [hclock, hclock']
          refine if_congr ?_ rfl rfl
          constructor
          · rintro (hpawn | hcap)
            · by_cases hcap : m.capturedPiece = none
              · exact .inr ⟨hpawn, fun hmod => hquiet ⟨hmod, hpawn, hcap⟩⟩
              · exact .inl (Option.isSome_iff_ne_none.mpr hcap)
            · exact .inl hcap
          · rintro (hcap | ⟨hpawn, -⟩)
            · exact .inr hcap
            · exact .inl hpawn
        fullmove_eq := by
          show (if b.side = .black then b.fullmove + 1
            else b.fullmove) = (d.makeMove m).fullMoveNumber
          rw [h.side_eq, hfull, ChessBoard.makeMove_fullMoveNumber] }

end Executed

/-! ## Main result -/

/-- For a move that both engines offer, executing it in Dart and making it in C lead to the same
position, except that a quiet pawn move of Mercenary resets the half-move clock of C only. -/
theorem execution_commutes_iff (d : ChessBoard) (hd : PlayablePosition d) (m : ChessMove)
    (d' : ChessBoard) (hexec : d.executeMove m = some d') (cm : Move)
    (hcm : cm ∈ generateMoves (handOver d)) (hview : cm.view = m.view) :
    SameState d' (boardMakeMove (handOver d) cm) ↔
      ¬ (d.gameType = .mercenary ∧ m.piece.type = .pawn ∧ m.capturedPiece = none) := by
  have hvalid : ∀ t, d.enPassantTarget = some t → t.IsValid := fun t ht => (hd.enPassant t ht).1
  have hsim := sim_handOver hd.tidy hvalid
  have hreads := reads_handOver hd.tidy hvalid
  have hmem : cm ∈ pseudoMoves (handOver d) := mem_pseudoMoves_of_generated hcm
  -- the move as Dart offers it
  have hoffer := ChessBoard.mem_of_executeMove hexec
  obtain ⟨piece, hat, hcolor, hfilter, hkeeps⟩ := ChessBoard.mem_getValidMovesFor.mp hoffer
  have hpiece := (ChessBoard.mem_of_getPieceAt hat).1
  have hshape := ChessBoard.shape_of_filtered hd.tidy hpiece hfilter
  have hm : d.Sound m := hshape.sound hd.tidy hpiece hcolor
    (fun hc => hcolor ▸ fromPos_of_castling hsim hmem hview hc)
    (hshape.empty_of_enPassant hd.enPassant)
  have henemy := takesEnemyPawn_of_shape hcolor hd.enPassant hshape
  have hown : d.gameType = .saveQueen → d.NotOwn m.piece m.toPos := by
    intro hmod
    rw [(ChessBoard.moveOf_applyRulesetFilter hfilter).piece_eq]
    exact ChessBoard.notOwn_of_filtered (hd.tidy.valid _ hpiece) (by rw [hmod]; decide)
      (hshape.empty_of_enPassant hd.enPassant) hfilter
  have hkings : ChessBoard.NeedsKings d.gameType →
      d.NoKing m.toPos ∧ ∀ c, ∃ k, d.placement k = some (c, .king) := by
    intro hneeds
    refine ⟨(hshape.takesKing_iff fun _ => hd.enPassant).mp
      (ChessBoard.not_takesKing_of_keepsMove hneeds.1 hkeeps), fun c => ?_⟩
    obtain ⟨king, hking⟩ := List.exists_mem_of_ne_nil _ (hd.kings hneeds c)
    obtain ⟨hin, htest⟩ := List.mem_filter.mp hking
    obtain ⟨htype, hkc⟩ := of_decide_eq_true htest
    exact ⟨king.position, by rw [ChessBoard.placement_of_mem hd.tidy hin, htype, hkc]⟩
  obtain ⟨status, counter, rfl⟩ := ChessBoard.executeMove_eq hd.tidy hm hkings hexec
  obtain rfl := eq_engineMove hsim (hsim.epInv hd.enPassant hreads.ep_eq) hm henemy hmem hview
  obtain ⟨hhalf, hfull⟩ := hreads.clocks hd.clocks.1 hd.clocks.2
  exact sameState_settled_iff hsim hm henemy hown hd.rooks hd.clocks.1 hhalf hfull status counter

theorem playablePosition_initial (mod : Mod) : PlayablePosition (ChessBoard.initial mod) where
  tidy := ⟨by cases mod <;> decide +kernel, by cases mod <;> decide +kernel⟩
  kings := by
    intro hneeds c
    cases mod with
    | heir => exact absurd rfl hneeds.1
    | succession => exact absurd rfl hneeds.2
    | _ => cases c <;> decide +kernel
  rooks := by
    intro c w _
    cases mod <;> cases c <;> cases w <;> decide +kernel
  enPassant := by
    intro t ht
    cases mod <;> cases ht
  clocks := by cases mod <;> decide +kernel

/-- A pawn of the starting position goes ahead one square. -/
def firstStep (col : ℤ) : ChessMove :=
  ChessMove.simple ⟨1, col⟩ ⟨2, col⟩ ⟨.pawn, .white, ⟨1, col⟩, false⟩ none

theorem executeMove_firstStep (mod : Mod) (hvalid : (ChessBoard.initial mod).isValidMove
    (firstStep 4) = true) : (ChessBoard.initial mod).executeMove (firstStep 4) =
      some ((ChessBoard.initial mod).played (firstStep 4)).updateGameStatus := if_pos hvalid

theorem execution_commutes_start : SameState
    ((ChessBoard.initial .classic).played (firstStep 4)).updateGameStatus
    (boardMakeMove (startBoard .classic) (moveSimple (SQ 1 4) (SQ 2 4) .pawn)) :=
  (execution_commutes_iff _ (playablePosition_initial .classic) (firstStep 4) _
    (executeMove_firstStep .classic (by decide +kernel)) (moveSimple (SQ 1 4) (SQ 2 4) .pawn)
    (by decide +kernel) (by decide +kernel)).mpr (by decide +kernel)

/-- In Mercenary the pawn's step sets the clock of C to 0 and that of Dart to 1. -/
theorem mercenary_pawn_step_clocks_differ : ∃ d' : ChessBoard,
    PlayablePosition (ChessBoard.initial .mercenary) ∧
    (ChessBoard.initial .mercenary).executeMove (firstStep 4) = some d' ∧
    moveSimple (SQ 1 4) (SQ 2 4) .pawn ∈ generateMoves (startBoard .mercenary) ∧
    (moveSimple (SQ 1 4) (SQ 2 4) .pawn).view = (firstStep 4).view ∧
    ¬ SameState d'
      (boardMakeMove (startBoard .mercenary) (moveSimple (SQ 1 4) (SQ 2 4) .pawn)) := by
  refine ⟨_, playablePosition_initial .mercenary,
    executeMove_firstStep .mercenary (by decide +kernel), by decide +kernel, by decide +kernel,
    fun hsame => ?_⟩
  have hdart : ((ChessBoard.initial .mercenary).played (firstStep 4)).updateGameStatus.halfMoveClock
      = 1 := by decide +kernel
  have hc : (boardMakeMove (startBoard .mercenary)
      (moveSimple (SQ 1 4) (SQ 2 4) .pawn)).halfmove = 0 := rfl
  have heq := hsame.halfmove_eq
  rw [hdart, hc] at heq
  cases heq

end ChessRecast.Bridge
