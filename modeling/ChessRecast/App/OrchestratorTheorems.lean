import ChessRecast.App.SafetyTheorems

/-!
# What `executeMove` changes

The handlers of the mods all play the move with `makeMove`. Beyond that they set the status, and
two of them touch the game: Kings' Battle keeps the turn after the king's first kill, and Save
the Queen puts a captured prisoner back.
-/

namespace ChessRecast.App

open Rules

/-! ## Castling rights -/

/-- The flag of a colour and a wing. -/
def CastlingRights.flag (r : CastlingRights) : Color → Wing → Bool
  | .white, .king => r.whiteKingside
  | .white, .queen => r.whiteQueenside
  | .black, .king => r.blackKingside
  | .black, .queen => r.blackQueenside

theorem flag_rightsAfterLeaving (m : ChessMove) (r : CastlingRights) (c : Color) (w : Wing) :
    (rightsAfterLeaving m r).flag c w = true ↔ r.flag c w = true ∧
      ¬ (m.piece.type = .king ∧ m.piece.color = c) ∧
      ¬ (m.piece.type = .rook ∧ m.piece.color = c ∧ m.fromPos = ⟨homeRow c, w.rookCol⟩) := by
  unfold rightsAfterLeaving
  cases m.piece.type with
  | pawn | knight | bishop | queen => simp
  | king => cases m.piece.color <;> cases c <;> simp [CastlingRights.flag] <;> cases w <;> simp
  | rook =>
    cases m.piece.color <;> dsimp only <;> split_ifs with h0 h7 <;> cases c <;> cases w <;>
      simp_all [CastlingRights.flag, homeRow, Wing.rookCol]

theorem flag_rightsAfterCapture (m : ChessMove) (r : CastlingRights) (c : Color) (w : Wing) :
    (rightsAfterCapture m r).flag c w = true ↔ r.flag c w = true ∧
      ¬ (m.capturedPiece.any (fun q => q.type = .rook) = true ∧
        m.toPos = ⟨homeRow c, w.rookCol⟩) := by
  unfold rightsAfterCapture
  split_ifs with hrook h1 h2 h3 h4 <;> cases c <;> cases w <;>
    simp_all [CastlingRights.flag, homeRow, Wing.rookCol]

namespace ChessBoard

theorem castleFlag_eq_flag (d : ChessBoard) (c : Color) (w : Wing) :
    d.castleFlag c w = d.castlingRights.flag c w := by
  cases c <;> cases w <;> rfl

/-- How a right is lost: by its king, by its rook leaving the corner, or by a capture there. -/
theorem castleFlag_makeMove (d : ChessBoard) (m : ChessMove) (c : Color) (w : Wing) :
    (d.makeMove m).castleFlag c w = true ↔
    d.castleFlag c w = true ∧ ¬ (m.piece.type = .king ∧ m.piece.color = c) ∧
      ¬ (m.piece.type = .rook ∧ m.piece.color = c ∧ m.fromPos = ⟨homeRow c, w.rookCol⟩) ∧
      ¬ (m.capturedPiece.any (fun q => q.type = .rook) = true ∧
        m.toPos = ⟨homeRow c, w.rookCol⟩) := by
  rw [castleFlag_eq_flag, castleFlag_eq_flag, makeMove_castlingRights, computeNewCastlingRights,
    flag_rightsAfterCapture, flag_rightsAfterLeaving, and_assoc, and_assoc]

/-! ## Special moves -/

/-- The board after the special handling of the mod, before its status. -/
def played (d : ChessBoard) (m : ChessMove) : ChessBoard :=
  (d.handleSpecialMove m).getD (d.makeMove m)

/-- Kings' Battle: the move unlocks Phase 2 and its player moves again. -/
def KeepsTurn (d : ChessBoard) (m : ChessMove) : Prop :=
  d.gameType = .kingsBattle ∧ d.isPhase2Unlocked = false ∧ m.isKingsKill = true

instance (d : ChessBoard) (m : ChessMove) : Decidable (d.KeepsTurn m) :=
  inferInstanceAs (Decidable (_ ∧ _ ∧ _))

/-- Save the Queen: the queen reaches the enemy's prison square in its own half. -/
def Escapes (m : ChessMove) : Prop :=
  m.piece.type = .queen ∧ m.piece.color.OwnHalf m.toPos.row ∧
    m.toPos = queenPrison m.piece.color.opposite

instance (m : ChessMove) : Decidable (Escapes m) := inferInstanceAs (Decidable (_ ∧ _ ∧ _))

/-- Save the Queen: the captured piece is a prisoner queen whose prison is free. -/
def Returns (d : ChessBoard) (m : ChessMove) (q : ChessPiece) : Prop :=
  d.gameType = .saveQueen ∧ ¬ Escapes m ∧ q.type = .queen ∧ ¬ q.color.OwnHalf m.toPos.row ∧
    (d.pieces.any fun p => p.position = queenPrison q.color) = false

instance (d : ChessBoard) (m : ChessMove) (q : ChessPiece) : Decidable (d.Returns m q) :=
  inferInstanceAs (Decidable (_ ∧ _ ∧ _ ∧ _ ∧ _))

/-- The queen that goes back to its prison, as a list of new pieces. -/
def returnedQueen (d : ChessBoard) (m : ChessMove) : List ChessPiece :=
  match m.capturedPiece with
  | some q =>
    if d.Returns m q then [{ q with position := queenPrison q.color, hasMoved := false }] else []
  | none => []

/-- `makeMove`, with the pieces that were put back, another player, status and counter. -/
def settled (d : ChessBoard) (m : ChessMove) (player : Color) (status : GameStatus)
    (counter : List (List Char × ℤ)) : ChessBoard :=
  (d.makeMove m).copyWith
    { pieces := some (d.makePieces m ++ d.returnedQueen m)
      currentPlayer := some player
      gameStatus := some status
      queenCaptureCounter := some counter }

section Executed

variable {d : ChessBoard} {m : ChessMove}

theorem returnedQueen_eq_nil (hmod : d.gameType ≠ .saveQueen) : d.returnedQueen m = [] := by
  unfold returnedQueen
  cases m.capturedPiece with
  | none => rfl
  | some q => exact if_neg fun h => hmod h.1

/-- A board that differs from `makeMove` in its status and its player only. -/
theorem copyWith_eq_settled (hnil : d.returnedQueen m = []) (player : Color)
    (status : GameStatus) : (d.makeMove m).copyWith
      { currentPlayer := some player, gameStatus := some status } =
      d.settled m player status (d.makeMove m).queenCaptureCounter := by
  unfold settled
  rw [hnil, List.append_nil, ← makeMove_pieces]
  rfl

/-- The handler of Save the Queen adds the returned queen and nothing else. -/
theorem saveTheQueenSpecialMove_eq (hmod : d.gameType = .saveQueen) : ∃ status counter,
    (d.saveTheQueenSpecialMove m).getD (d.makeMove m) =
      d.settled m d.currentPlayer.opposite status counter := by
  rw [← makeMove_currentPlayer d m]
  -- nothing is put back
  have hplain : ∀ status, d.returnedQueen m = [] →
      (d.makeMove m).copyWith { gameStatus := some status } =
        d.settled m (d.makeMove m).currentPlayer status (d.makeMove m).queenCaptureCounter :=
    fun status hnil => copyWith_eq_settled hnil _ status
  unfold saveTheQueenSpecialMove
  by_cases hesc : m.piece.type = .queen ∧ m.piece.color.OwnHalf m.toPos.row ∧
      m.toPos = queenPrison m.piece.color.opposite
  · rw [if_pos hesc]
    refine ⟨_, _, hplain .checkmate ?_⟩
    unfold returnedQueen
    cases m.capturedPiece with
    | none => rfl
    | some q => exact if_neg fun h => h.2.1 hesc
  · rw [if_neg hesc]
    cases hcap : m.capturedPiece with
    | none =>
      refine ⟨_, _, hplain (d.makeMove m).gameStatus ?_⟩
      unfold returnedQueen
      rw [hcap]
    | some q =>
      dsimp only
      by_cases hq : q.type = .queen
      · rw [if_pos hq]
        by_cases hhalf : q.color.OwnHalf m.toPos.row
        · rw [if_pos hhalf]
          refine ⟨_, _, hplain .checkmate ?_⟩
          unfold returnedQueen
          rw [hcap]
          exact if_neg fun h => h.2.2.2.1 hhalf
        · rw [if_neg hhalf]
          unfold reprison
          dsimp only
          by_cases hfree : (d.pieces.any fun p => p.position = queenPrison q.color) = true
          · rw [if_pos hfree]
            refine ⟨_, _, hplain (d.makeMove m).gameStatus ?_⟩
            unfold returnedQueen
            rw [hcap]
            exact if_neg fun h => absurd hfree (by rw [h.2.2.2.2]; decide)
          · rw [if_neg hfree]
            let count := ((d.queenCaptureCounter.find? fun e =>
              e.1 = captureKey m q.color).map Prod.snd).getD 0
            refine ⟨(d.makeMove m).gameStatus,
              setEntry d.queenCaptureCounter (captureKey m q.color) (count + 1), ?_⟩
            unfold settled returnedQueen
            rw [hcap]
            dsimp only
            rw [if_pos ⟨hmod, hesc, hq, hhalf, Bool.eq_false_of_not_eq_true hfree⟩,
              ← makeMove_pieces]
            rfl
      · rw [if_neg hq]
        refine ⟨_, _, hplain (d.makeMove m).gameStatus ?_⟩
        unfold returnedQueen
        rw [hcap]
        exact if_neg fun h => hq h.2.2.1

theorem played_eq (d : ChessBoard) (m : ChessMove) : ∃ status counter, d.played m =
    d.settled m (if d.KeepsTurn m then d.currentPlayer else d.currentPlayer.opposite)
      status counter := by
  -- the handlers that change the status only
  have hplain : ∀ status, d.gameType ≠ .saveQueen → ¬ d.KeepsTurn m →
      (d.makeMove m).copyWith { gameStatus := some status } = d.settled m
        (if d.KeepsTurn m then d.currentPlayer else d.currentPlayer.opposite) status
        (d.makeMove m).queenCaptureCounter := by
    intro status hmod hkeep
    rw [if_neg hkeep, ← makeMove_currentPlayer d m]
    exact copyWith_eq_settled (returnedQueen_eq_nil hmod) _ status
  have hkeeps : d.gameType ≠ .kingsBattle → ¬ d.KeepsTurn m := fun hmod h => hmod h.1
  unfold played handleSpecialMove
  cases hmod : d.gameType with
  | saveQueen =>
    rw [if_neg (hkeeps (by rw [hmod]; decide))]
    exact saveTheQueenSpecialMove_eq hmod
  | kingsBattle =>
    unfold kingsBattleSpecialMove
    by_cases hkeep : d.KeepsTurn m
    · dsimp only
      rw [if_pos hkeep, if_neg (by rw [hkeep.2.1]; decide), if_pos hkeep.2.2,
        makeMove_currentPlayer, Color.opposite_opposite]
      exact ⟨_, _, copyWith_eq_settled (returnedQueen_eq_nil (by rw [hmod]; decide)) _
        (d.makeMove m).gameStatus⟩
    · refine ⟨_, _, Eq.trans ?_ (hplain (d.makeMove m).gameStatus (by rw [hmod]; decide) hkeep)⟩
      dsimp only
      by_cases hphase : d.isPhase2Unlocked = true
      · rw [if_pos hphase]
        rfl
      · rw [if_neg hphase, if_neg fun hkill =>
          hkeep ⟨hmod, Bool.eq_false_of_not_eq_true hphase, hkill⟩]
        rfl
  | succession =>
    have hne : d.gameType ≠ .saveQueen := by rw [hmod]; decide
    have hno : ¬ d.KeepsTurn m := hkeeps (by rw [hmod]; decide)
    generalize (if d.KeepsTurn m then d.currentPlayer else d.currentPlayer.opposite) = player
      at hplain ⊢
    -- both branches of the king promotion
    have hwin : ∃ status counter, (d.kingPromotionWin m).getD (d.makeMove m) =
        d.settled m player status counter := by
      unfold kingPromotionWin
      split
      · exact ⟨_, _, hplain .checkmate hne hno⟩
      · exact ⟨_, _, hplain (d.makeMove m).gameStatus hne hno⟩
    dsimp only
    unfold successionSpecialMove
    cases m.capturedPiece with
    | none => exact hwin
    | some captured =>
      dsimp only
      by_cases hpawn : captured.type = .pawn
      · rw [if_pos hpawn]
        split
        · exact ⟨_, _, hplain .checkmate hne hno⟩
        · exact ⟨_, _, hplain (d.makeMove m).gameStatus hne hno⟩
      · rw [if_neg hpawn]
        exact hwin
  | classic | mercenary | heir | truce | friendlyFire =>
    exact ⟨_, _, hplain (d.makeMove m).gameStatus (by rw [hmod]; decide)
      (hkeeps (by rw [hmod]; decide))⟩

/-- The mods in which a side without a king has lost. -/
def NeedsKings (gameType : Mod) : Prop := gameType ≠ .heir ∧ gameType ≠ .succession

instance (gameType : Mod) : Decidable (NeedsKings gameType) := inferInstanceAs (Decidable (_ ∧ _))

/-- The status functions write the status, and the player only where a king is missing. -/
theorem updateGameStatus_eq (hkings : NeedsKings d.gameType →
    ∀ c, (d.getKing c).isNone = false) : ∃ status,
    d.updateGameStatus = d.copyWith { gameStatus := some status } := by
  unfold updateGameStatus
  dsimp only
  rw [if_neg fun h => by rw [hkings h.1] at h; exact absurd h.2 (by decide),
    if_neg fun h => by rw [hkings h.1] at h; exact absurd h.2 (by decide)]
  split
  · exact ⟨d.gameStatus, rfl⟩
  · split
    · unfold updateHeirGameStatus
      dsimp only
      repeat' split
      all_goals exact ⟨_, rfl⟩
    · exact ⟨_, rfl⟩
    · exact ⟨_, rfl⟩

end Executed

/-! ## The men after the move -/

/-- A proper move of the side to move, with what the kinds of moves say about the men in it. -/
structure Sound (d : ChessBoard) (m : ChessMove) : Prop extends d.Proper m where
  mover : m.piece.color = d.currentPlayer
  passant : m.isEnPassant = true → m.piece.type = .pawn ∧
    ∀ q, m.capturedPiece = some q → q.type = .pawn
  castles : m.isCastling = true → m.piece.type = .king ∧ m.capturedPiece = none ∧
    (∃ w : Wing, m.toPos = ⟨homeRow m.piece.color, w.kingTo⟩) ∧
    m.fromPos = ⟨homeRow m.piece.color, 4⟩ ∧
    d.placement m.view.rookSrc = some (m.piece.color, .rook)
  promotes : m.isPromotion = true → m.piece.type = .pawn

section Sound

variable {d : ChessBoard} {m : ChessMove} {piece : ChessPiece} {c : Color}

/-- The king of a castling move that starts on the home square is the one Dart finds. -/
theorem getKing_of_canCastleTo (hd : d.Tidy) (hpiece : piece ∈ d.pieces) {w : Wing}
    (hcan : d.canCastleTo piece.color w = true)
    (hhome : piece.position = ⟨homeRow piece.color, 4⟩) : d.getKing piece.color = some piece := by
  obtain ⟨⟨king, hking, hpos⟩, -⟩ := (canCastleTo_iff _ _).mp hcan
  rw [hking, hd.distinct.eq_of_key (mem_of_getKing hking).1 hpiece (hpos.trans hhome.symm)]

theorem Shape.sound (hd : d.Tidy) (hpiece : piece ∈ d.pieces)
    (hcolor : piece.color = d.currentPlayer)
    (hhome : m.isCastling = true → m.fromPos = ⟨homeRow piece.color, 4⟩)
    (hempty : m.isEnPassant = true → d.getPieceAt m.toPos = none)
    (h : d.Shape piece m) : d.Sound m := by
  have hking : m.isCastling = true → d.getKing piece.color = some piece := by
    intro hc
    cases h with
    | plain toPos hto hne heq => subst heq; cases hc
    | arrives toPos hp hto hne harr => rw [harr.flags.1] at hc; cases hc
    | enPassant toPos captured hp hto hstep htarget hcap htype heq => subst heq; cases hc
    | castling w hk hflag hcan heq =>
      exact getKing_of_canCastleTo hd hpiece hcan (by rw [← hhome hc, heq]; rfl)
  have hproper := h.proper_of hd hpiece hking hempty
  cases h with
  | plain toPos hto hne heq =>
    subst heq
    exact ⟨hproper, hcolor, fun hep => (by cases hep), fun hc => (by cases hc), fun hp => (by cases hp)⟩
  | arrives toPos hp hto hne harr =>
    have hpiece : m.piece = piece := (moveOf_arrives hp harr).piece_eq
    refine ⟨hproper, by rw [hpiece, hcolor], fun hep => ?_, fun hc => ?_, fun _ => by rw [hpiece, hp]⟩
    · rw [harr.flags.2] at hep; cases hep
    · rw [harr.flags.1] at hc; cases hc
  | enPassant toPos captured hp hto hstep htarget hcap htype heq =>
    subst heq
    refine ⟨hproper, hcolor, fun _ => ⟨hp, fun q hq => ?_⟩, fun hc => (by cases hc),
      fun hp => (by cases hp)⟩
    rw [← Option.some.inj hq]
    exact htype
  | castling w hk hflag hcan heq =>
    subst heq
    refine ⟨hproper, hcolor, fun hep => (by cases hep), fun hc => ?_, fun hp => (by cases hp)⟩
    obtain ⟨-, ⟨rook, hrook, hman⟩, -⟩ := (canCastleTo_iff _ _).mp hcan
    refine ⟨hk, rfl, ⟨w, rfl⟩, hhome hc, ?_⟩
    have hsrc : (ChessMove.castling piece.position ⟨homeRow piece.color, w.kingTo⟩
        piece).view.rookSrc = ⟨homeRow piece.color, w.rookCol⟩ := by
      show (⟨piece.position.row, if w.kingTo = 6 then 7 else 0⟩ : Position) = _
      rw [show piece.position = ⟨homeRow piece.color, 4⟩ from hhome hc]
      cases w <;> rfl
    rw [hsrc]
    exact placement_eq_some.mpr ⟨rook, hrook, hman⟩

/-- A man that neither moves nor is taken stays where it is. -/
theorem Sound.after_of_ne (hm : d.Sound m) {k : Position} {man : Man}
    (hk : d.placement k = some man) (hfrom : k ≠ m.fromPos) (hto : k ≠ m.toPos)
    (hep : m.isEnPassant = true → k ≠ m.view.epSquare)
    (hrook : m.isCastling = true → k ≠ m.view.rookSrc) :
    after d.placement m.view k = some man := by
  unfold after
  rw [if_neg, if_neg, if_neg (show k ≠ m.view.dst from hto),
    if_neg (show k ≠ m.view.src from hfrom), if_neg, hk]
  · rintro ⟨hpassant, heq⟩
    exact hep hpassant heq
  · rintro ⟨hc, heq⟩
    exact hrook hc heq
  · rintro ⟨hc, rfl⟩
    rw [placement_eq_none.mpr (hm.castle hc).2.2.2.2.2.1] at hk
    cases hk

theorem Sound.after_of_staying (hm : d.Sound m) {k : Position} {man : Man}
    (hk : d.placement k = some man) (hfrom : k ≠ m.fromPos) (hto : k ≠ m.toPos)
    (hpawn : man.2 ≠ .pawn) (hrook : m.isCastling = true → k ≠ m.view.rookSrc) :
    after d.placement m.view k = some man := by
  refine hm.after_of_ne hk hfrom hto ?_ hrook
  rintro hpassant rfl
  obtain ⟨-, -, -, q, hcap, hq⟩ := hm.ep hpassant
  obtain ⟨q', hq', hman⟩ := placement_eq_some.mp hk
  rw [hq] at hq'
  rw [← Option.some.inj hq'] at hman
  exact hpawn (by rw [← hman]; exact (hm.passant hpassant).2 q hcap)

theorem Sound.after_to (hm : d.Sound m) : after d.placement m.view m.toPos =
    some (d.currentPlayer, m.view.promo.getD m.piece.type) := by
  have hman : d.placement m.fromPos = some (d.currentPlayer, m.piece.type) := by
    rw [← hm.mover]
    exact placement_eq_some.mpr ⟨_, hm.from_holds, rfl⟩
  unfold after
  rw [if_neg, if_neg, if_pos (show m.toPos = m.view.dst from rfl)]
  · rw [show m.view.src = m.fromPos from rfl, hman]
    rfl
  · rintro ⟨hc, heq⟩
    have hrook := (hm.castles hc).2.2.2.2
    rw [← heq] at hrook
    rw [placement_eq_none.mpr (hm.castle hc).2.2.2.2.1] at hrook
    cases hrook
  · rintro ⟨hc, heq⟩
    exact (hm.toProper.rookDst_ne hc).1 heq.symm

/-- No move but the capture of a king leaves a side without one. -/
theorem Sound.exists_king (hm : d.Sound m) (hno : d.NoKing m.toPos)
    (h : ∃ k, d.placement k = some (c, .king)) :
    ∃ k, after d.placement m.view k = some (c, .king) := by
  obtain ⟨k, hk⟩ := h
  by_cases hfrom : k = m.fromPos
  · subst hfrom
    obtain ⟨q, hq, hman⟩ := placement_eq_some.mp hk
    rw [hm.from_holds] at hq
    obtain rfl := Option.some.inj hq
    have hcolor : m.piece.color = c := congrArg Prod.fst hman
    have htype : m.piece.type = .king := congrArg Prod.snd hman
    have hpromo : m.isPromotion = false := by
      by_contra hp
      rw [hm.promotes (by simpa using hp)] at htype
      cases htype
    refine ⟨m.toPos, ?_⟩
    rw [hm.after_to, ← hm.mover, hcolor]
    show some (c, (if m.isPromotion then some (promotedType m.promotionPiece) else none).getD
      m.piece.type) = _
    rw [hpromo, htype]
    rfl
  · have hto : k ≠ m.toPos := by
      rintro rfl
      obtain ⟨q, hq, hman⟩ := placement_eq_some.mp hk
      exact hno q hq (congrArg Prod.snd hman)
    refine ⟨k, hm.after_of_staying hk hfrom hto nofun fun hc heq => ?_⟩
    rw [heq, (hm.castles hc).2.2.2.2] at hk
    cases hk

/-! ### The returned queen -/

theorem returnedQueen_cases : d.returnedQueen m = [] ∨ ∃ q, m.capturedPiece = some q ∧
    d.Returns m q ∧
    d.returnedQueen m = [{ q with position := queenPrison q.color, hasMoved := false }] := by
  unfold returnedQueen
  cases m.capturedPiece with
  | none => exact .inl rfl
  | some q =>
    by_cases hq : d.Returns m q
    · exact .inr ⟨q, rfl, hq, if_pos hq⟩
    · exact .inl (if_neg hq)

/-- The prison of a queen that goes back is still free after the move. -/
theorem Sound.prison_free (hm : d.Sound m) {q : ChessPiece} (hcap : m.capturedPiece = some q)
    (hr : d.Returns m q) : after d.placement m.view (queenPrison q.color) = none := by
  obtain ⟨-, -, hqueen, -, hany⟩ := hr
  have hfree : d.getPieceAt (queenPrison q.color) = none := by
    rw [getPieceAt, Keyed.lookup_eq_none_iff]
    intro p hp heq
    exact absurd (List.any_eq_true.mpr ⟨p, hp, decide_eq_true heq⟩) (by rw [hany]; decide)
  have hep : m.isEnPassant = false := by
    by_contra h
    have hpawn := (hm.passant (by simpa using h)).2 q hcap
    rw [hqueen] at hpawn
    cases hpawn
  have hc : m.isCastling = false := by
    by_contra h
    rw [(hm.castles (by simpa using h)).2.1] at hcap
    cases hcap
  have hto : queenPrison q.color ≠ m.toPos := by
    intro heq
    rw [heq, ← hm.captured hep, hcap] at hfree
    cases hfree
  have hview : m.view.castle ≠ true := by
    rw [show m.view.castle = m.isCastling from rfl, hc]
    decide
  unfold after
  rw [if_neg fun h => hview h.1, if_neg fun h => hview h.1,
    if_neg (show queenPrison q.color ≠ m.view.dst from hto)]
  split_ifs
  · rfl
  · rfl
  · exact placement_eq_none.mpr hfree

theorem placement_settled (hd : d.Tidy) (hm : d.Sound m) (player : Color) (status : GameStatus)
    (counter : List (List Char × ℤ)) (z : Position) :
    (d.settled m player status counter).placement z = (after d.placement m.view z).or
      ((Keyed.lookup ChessPiece.position (d.returnedQueen m) z).map ChessPiece.man) := by
  rw [← placement_makeMove hd hm.toProper]
  show (Keyed.lookup ChessPiece.position (d.makePieces m ++ d.returnedQueen m) z).map
    ChessPiece.man = _
  rw [Keyed.lookup_append, Option.map_or, ← makeMove_pieces]
  rfl

/-- Without a returned queen the placement is the one after the move. -/
theorem placement_settled_of_nil (hd : d.Tidy) (hm : d.Sound m) (hnil : d.returnedQueen m = [])
    (player : Color) (status : GameStatus) (counter : List (List Char × ℤ)) :
    (d.settled m player status counter).placement = after d.placement m.view := by
  funext z
  rw [placement_settled hd hm, hnil]
  exact Option.or_none

theorem isValid_prison (c : Color) : (queenPrison c).IsValid := by cases c <;> decide

theorem tidy_settled (hd : d.Tidy) (hm : d.Sound m) (player : Color) (status : GameStatus)
    (counter : List (List Char × ℤ)) : (d.settled m player status counter).Tidy := by
  have hmade := tidy_makeMove hd hm.toProper
  have hpieces : (d.settled m player status counter).pieces =
      (d.makeMove m).pieces ++ d.returnedQueen m := by
    rw [makeMove_pieces]
    rfl
  rcases d.returnedQueen_cases (m := m) with hnil | ⟨q, hcap, hr, heq⟩
  · rw [hnil, List.append_nil] at hpieces
    exact ⟨hpieces ▸ hmade.valid, hpieces ▸ hmade.distinct⟩
  · rw [heq] at hpieces
    have hfree : (d.makeMove m).getPieceAt (queenPrison q.color) = none := by
      rw [← placement_eq_none, placement_makeMove hd hm.toProper]
      exact hm.prison_free hcap hr
    refine ⟨?_, hpieces ▸ hmade.distinct.append_singleton hfree⟩
    intro p hp
    rw [hpieces, List.mem_append, List.mem_singleton] at hp
    rcases hp with hp | rfl
    · exact hmade.valid p hp
    · exact isValid_prison q.color

/-! ### Kings -/

theorem getKing_isNone_iff (hd : d.Tidy) :
    (d.getKing c).isNone = false ↔ ∃ k, d.placement k = some (c, .king) := by
  constructor
  · intro h
    cases hking : d.getKing c with
    | none => rw [hking] at h; cases h
    | some king =>
      obtain ⟨hmem, htype, hcolor⟩ := mem_of_getKing hking
      refine ⟨king.position, ?_⟩
      rw [placement_of_mem hd hmem, htype, hcolor]
  · rintro ⟨k, hk⟩
    obtain ⟨q, hq, hman⟩ := placement_eq_some.mp hk
    have hmem := (mem_of_getPieceAt hq).1
    cases hking : d.getKing c with
    | some king => rfl
    | none =>
      have hnone := List.find?_eq_none.mp hking q hmem
      have htype : q.type = .king := congrArg Prod.snd hman
      have hcolor : q.color = c := congrArg Prod.fst hman
      exact absurd (decide_eq_true ⟨htype, hcolor⟩) hnone

/-- Outside Heir no offered move takes a king. -/
theorem not_takesKing_of_keepsMove (hheir : d.gameType ≠ .heir) (h : d.keepsMove m = true) :
    ¬ TakesKing m := by
  rintro ⟨q, hq, hking⟩
  have hany : m.capturedPiece.any (fun q => q.type = .king) = true := by
    rw [hq]
    exact decide_eq_true hking
  rw [keepsMove, if_pos ⟨hany, hheir⟩] at h
  cases h

theorem mem_of_executeMove {d' : ChessBoard} (h : d.executeMove m = some d') :
    m ∈ d.getValidMovesFor m.fromPos := by
  unfold executeMove at h
  split at h
  · rename_i hvalid
    unfold isValidMove at hvalid
    split at hvalid
    · cases hvalid
    · obtain ⟨m', hm', heq⟩ := List.any_eq_true.mp hvalid
      exact of_decide_eq_true heq ▸ hm'
  · cases h

/-- `executeMove` is `makeMove`, apart from the returned queen, the turn, the status and the
counter. -/
theorem executeMove_eq {d' : ChessBoard} (hd : d.Tidy) (hm : d.Sound m)
    (hkings : NeedsKings d.gameType → d.NoKing m.toPos ∧
      ∀ c, ∃ k, d.placement k = some (c, .king))
    (h : d.executeMove m = some d') : ∃ status counter, d' = d.settled m
      (if d.KeepsTurn m then d.currentPlayer else d.currentPlayer.opposite) status counter := by
  obtain ⟨status, counter, hplayed⟩ := d.played_eq m
  generalize (if d.KeepsTurn m then d.currentPlayer else d.currentPlayer.opposite) = player
    at hplayed ⊢
  have hstatus : ∃ status, (d.played m).updateGameStatus =
      (d.played m).copyWith { gameStatus := some status } := by
    refine updateGameStatus_eq fun hneeds c => ?_
    rw [hplayed] at hneeds ⊢
    rw [getKing_isNone_iff (tidy_settled hd hm _ _ _)]
    have hneeds' : NeedsKings d.gameType := by
      rw [← makeMove_gameType d m]
      exact hneeds
    obtain ⟨hno, hall⟩ := hkings hneeds'
    obtain ⟨k, hk⟩ := hm.exists_king hno (hall c)
    refine ⟨k, ?_⟩
    rw [placement_settled hd hm, hk]
    rfl
  obtain ⟨status', hstatus⟩ := hstatus
  unfold executeMove at h
  split at h
  · rw [show (d.handleSpecialMove m).getD (d.makeMove m) = d.played m from rfl, hstatus,
      hplayed] at h
    exact ⟨status', counter, (Option.some.inj h).symm⟩
  · cases h

end Sound

end ChessBoard

end ChessRecast.App
