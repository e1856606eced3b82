import ChessRecast.App.Runs

/-!
# The verdict of a move

What `executeMove` reports as the game status: the automatic draws of `makeMove` come first, then
the wins of the special handlers, then mate, and the draws of the status functions last.
-/

namespace ChessRecast.App

open Rules

namespace ChessBoard

/-! ## The status before the status functions -/

/-- The move wins by a rule of its mod: Save the Queen (a queen gets home or takes a free queen)
and Succession (the enemy's last pawn is taken, or a pawn becomes king on a safe square). -/
def WinsNow (d : ChessBoard) (m : ChessMove) : Prop :=
  (d.gameType = .saveQueen ∧ (Escapes m ∨
    ∃ q, m.capturedPiece = some q ∧ q.type = .queen ∧ q.color.OwnHalf m.toPos.row)) ∨
  (d.gameType = .succession ∧
    ((∃ q, m.capturedPiece = some q ∧ q.type = .pawn ∧ (d.makeMove m).pawnsOf q.color = []) ∨
      ((∀ q, m.capturedPiece = some q → q.type ≠ .pawn) ∧ m.isPromotion = true ∧
        m.promotionPiece = some 'K' ∧
        d.isPositionUnderAttack m.toPos m.piece.color.opposite = false)))

/-- The half-move clock after the move. -/
def clockAfter (d : ChessBoard) (m : ChessMove) : ℤ :=
  if shouldResetHalfMoveClock d.gameType (m.piece.type = .pawn) m.capturedPiece.isSome then 0
  else d.halfMoveClock + 1

/-- The pieces of a colour after the move, a queen sent back to its prison among them. -/
def sideAfter (d : ChessBoard) (m : ChessMove) (c : Color) : List ChessPiece :=
  (d.makePieces m ++ d.returnedQueen m).filter fun p => p.color = c

/-- The draws that `makeMove` declares: the clock has run out, the new position stood on the board
twice before, or a queen was sent back to its prison three times by the same piece. -/
def AutoDraws (d : ChessBoard) (m : ChessMove) : Prop :=
  fiftyMoveThreshold d.gameType (d.sideAfter m .white) (d.sideAfter m .black) ≤ d.clockAfter m ∨
  2 ≤ d.positionHistory.countP (fun key => key = (d.makeMoveBoard m).getPositionKey) ∨
  (d.gameType = .saveQueen ∧
    ∃ entry ∈ d.queenCaptureCounter, queenCaptureRepeatThreshold ≤ entry.2)

instance (d : ChessBoard) (m : ChessMove) : Decidable (d.AutoDraws m) :=
  inferInstanceAs (Decidable (_ ∨ _ ∨ _))

section Played

variable {d : ChessBoard} {m : ChessMove}

/-- The board of `makeMove` before its automatic draw. -/
def recorded (d : ChessBoard) (m : ChessMove) : ChessBoard :=
  (d.makeMoveBoard m).copyWith
    { positionHistory := some (d.positionHistory ++ [(d.makeMoveBoard m).getPositionKey]) }

theorem makeMove_eq_recorded (d : ChessBoard) (m : ChessMove) : d.makeMove m =
    if (d.recorded m).shouldAutoDraw then (d.recorded m).copyWith { gameStatus := some .draw }
    else d.recorded m := rfl

/-- The threshold looks at the pieces in Mercenary only, where no queen is sent back. -/
theorem fiftyMoveThreshold_recorded : fiftyMoveThreshold d.gameType
    ((d.recorded m).getPiecesOfColor .white) ((d.recorded m).getPiecesOfColor .black) =
    fiftyMoveThreshold d.gameType (d.sideAfter m .white) (d.sideAfter m .black) := by
  by_cases hmod : d.gameType = .mercenary
  · have hside : ∀ c, d.sideAfter m c = (d.recorded m).getPiecesOfColor c := by
      intro c
      unfold sideAfter
      rw [returnedQueen_eq_nil (by rw [hmod]; decide), List.append_nil]
      rfl
    rw [hside, hside]
  · unfold fiftyMoveThreshold
    simp only [hmod, false_and, if_false]

theorem shouldAutoDraw_iff : (d.recorded m).shouldAutoDraw = true ↔ d.AutoDraws m := by
  have hclock : (d.recorded m).canClaimFiftyMoveRule = true ↔
      fiftyMoveThreshold d.gameType (d.sideAfter m .white) (d.sideAfter m .black) ≤
        d.clockAfter m := by
    rw [← fiftyMoveThreshold_recorded]
    exact decide_eq_true_iff
  have hrepeat : (d.recorded m).hasThreefoldRepetition = true ↔
      2 ≤ d.positionHistory.countP fun key => key = (d.makeMoveBoard m).getPositionKey := by
    -- the new key itself is the third occurrence
    have hcount : (d.recorded m).positionHistory.countP
        (fun key => key = (d.recorded m).getPositionKey) =
        d.positionHistory.countP (fun key => key = (d.makeMoveBoard m).getPositionKey) + 1 := by
      show (d.positionHistory ++ [(d.makeMoveBoard m).getPositionKey]).countP
        (fun key => key = (d.makeMoveBoard m).getPositionKey) = _
      rw [List.countP_append, List.countP_singleton, if_pos (decide_eq_true rfl)]
    unfold hasThreefoldRepetition
    rw [decide_eq_true_iff, hcount]
    omega
  have hcounter : ((d.recorded m).gameType = .saveQueen &&
      (d.recorded m).queenCaptureCounter.any fun entry => entry.2 ≥ queenCaptureRepeatThreshold)
        = true ↔ d.gameType = .saveQueen ∧
          ∃ entry ∈ d.queenCaptureCounter, queenCaptureRepeatThreshold ≤ entry.2 := by
    rw [Bool.and_eq_true, decide_eq_true_iff, List.any_eq_true]
    exact and_congr_right fun _ => exists_congr fun entry =>
      and_congr_right fun _ => decide_eq_true_iff
  unfold shouldAutoDraw AutoDraws
  rw [Bool.or_eq_true, Bool.or_eq_true, hclock, hrepeat, hcounter, or_assoc]

theorem gameStatus_makeMove_of_autoDraws (h : d.AutoDraws m) :
    (d.makeMove m).gameStatus = .draw := by
  rw [makeMove_eq_recorded, if_pos (shouldAutoDraw_iff.mpr h)]
  rfl

theorem gameStatus_makeMove_of_not (h : ¬ d.AutoDraws m) :
    (d.makeMove m).gameStatus = d.gameStatus := by
  rw [makeMove_eq_recorded, if_neg fun hauto => h (shouldAutoDraw_iff.mp hauto)]
  rfl

/-- A win of the special handlers overrules an automatic draw. -/
theorem gameStatus_played_of_winsNow (h : d.WinsNow m) : (d.played m).gameStatus = .checkmate := by
  unfold played handleSpecialMove
  rcases h with ⟨hmod, h⟩ | ⟨hmod, h⟩
  · rw [hmod]
    show ((d.saveTheQueenSpecialMove m).getD (d.makeMove m)).gameStatus = _
    unfold saveTheQueenSpecialMove
    by_cases hesc : Escapes m
    · unfold Escapes at hesc
      rw [if_pos hesc]
      rfl
    · obtain ⟨q, hcap, hq, hhalf⟩ := h.resolve_left hesc
      unfold Escapes at hesc
      rw [if_neg hesc, hcap]
      dsimp only
      rw [if_pos hq, if_pos hhalf]
      rfl
  · rw [hmod]
    show ((d.successionSpecialMove m).getD (d.makeMove m)).gameStatus = _
    unfold successionSpecialMove
    rcases h with ⟨q, hcap, hq, hlast⟩ | ⟨hno, hpromo, hletter, hsafe⟩
    · rw [hcap]
      dsimp only
      rw [if_pos hq, if_pos (by rw [hlast]; rfl)]
      rfl
    · have hwin : d.kingPromotionWin m =
          some ((d.makeMove m).copyWith { gameStatus := some .checkmate }) :=
        if_pos ⟨hpromo, hletter, hsafe⟩
      cases hcap : m.capturedPiece with
      | none =>
        dsimp only
        rw [hwin]
        rfl
      | some q =>
        dsimp only
        rw [if_neg (hno q hcap), hwin]
        rfl

theorem gameStatus_played_of_not (h : ¬ d.WinsNow m) :
    (d.played m).gameStatus = (d.makeMove m).gameStatus := by
  unfold played handleSpecialMove
  cases hmod : d.gameType with
  | classic | mercenary | heir | truce | friendlyFire => rfl
  | kingsBattle =>
    dsimp only
    unfold kingsBattleSpecialMove
    split_ifs <;> rfl
  | saveQueen =>
    dsimp only
    unfold saveTheQueenSpecialMove
    have hesc : ¬ Escapes m := fun hesc => h (.inl ⟨hmod, .inl hesc⟩)
    unfold Escapes at hesc
    rw [if_neg hesc]
    cases hcap : m.capturedPiece with
    | none => rfl
    | some q =>
      dsimp only
      by_cases hq : q.type = .queen
      · have hhalf : ¬ q.color.OwnHalf m.toPos.row :=
          fun hhalf => h (.inl ⟨hmod, .inr ⟨q, hcap, hq, hhalf⟩⟩)
        rw [if_pos hq, if_neg hhalf]
        unfold reprison
        dsimp only [Option.getD_some]
        split <;> rfl
      · rw [if_neg hq]
        rfl
  | succession =>
    dsimp only
    unfold successionSpecialMove
    have hking : (∀ q, m.capturedPiece = some q → q.type ≠ .pawn) →
        d.kingPromotionWin m = none := fun hno =>
      if_neg fun hwin => h (.inr ⟨hmod, .inr ⟨hno, hwin⟩⟩)
    cases hcap : m.capturedPiece with
    | none =>
      dsimp only
      rw [hking (by rw [hcap]; nofun)]
      rfl
    | some q =>
      dsimp only
      by_cases hq : q.type = .pawn
      · have hleft : (d.makeMove m).pawnsOf q.color ≠ [] :=
          fun hlast => h (.inr ⟨hmod, .inl ⟨q, hcap, hq, hlast⟩⟩)
        rw [if_pos hq, if_neg (by rwa [List.isEmpty_iff])]
        rfl
      · have hno : ∀ q', m.capturedPiece = some q' → q'.type ≠ .pawn := by
          intro q' hq'
          rw [hcap] at hq'
          cases hq'
          exact hq
        rw [if_neg hq, hking hno]
        rfl

end Played

/-! ## The status functions -/

/-- The side to move is in check under the rules of the mod. -/
def InCheck (d : ChessBoard) : Bool :=
  match d.gameType with
  | .heir => d.shouldApplyCheckRules d.currentPlayer && d.isKingInCheck d.currentPlayer
  | .truce => d.isKingInCheckTruce d.currentPlayer
  | _ => d.isKingInCheck d.currentPlayer

/-- In check, and no valid move. -/
def Mated (d : ChessBoard) : Prop := d.InCheck = true ∧ d.hasValidMoves = false

instance (d : ChessBoard) : Decidable d.Mated := inferInstanceAs (Decidable (_ ∧ _))

/-- The draws of the status functions. -/
def isDrawn (d : ChessBoard) : Bool :=
  isInsufficientMaterial d.gameType (d.getPiecesOfColor .white) (d.getPiecesOfColor .black) ||
    d.canClaimFiftyMoveRule

/-- The status that `updateGameStatus` writes where no king is missing. -/
def verdict (d : ChessBoard) : GameStatus :=
  if d.gameStatus = .checkmate ∨ d.gameStatus = .stalemate ∨ d.gameStatus = .draw then d.gameStatus
  else match d.gameType with
    | .heir => d.updateHeirGameStatus.gameStatus
    | .truce => d.updateTruceGameStatus.gameStatus
    | _ =>
      (d.withDraws (checkStatus (d.isKingInCheck d.currentPlayer) d.hasValidMoves)).gameStatus

section Status

variable {d : ChessBoard} {m : ChessMove}

theorem Running.not_over (h : d.Running) :
    ¬ (d.gameStatus = .checkmate ∨ d.gameStatus = .stalemate ∨ d.gameStatus = .draw) := by
  rcases h with hr | hr <;> rw [hr] <;> decide

theorem running_or_over : d.Running ∨ d.gameStatus = .checkmate ∨ d.gameStatus = .stalemate ∨
    d.gameStatus = .draw := by
  unfold Running
  cases d.gameStatus <;> simp

theorem verdict_of_over
    (h : d.gameStatus = .checkmate ∨ d.gameStatus = .stalemate ∨ d.gameStatus = .draw) :
    d.verdict = d.gameStatus := if_pos h

theorem updateHeirGameStatus_eq (d : ChessBoard) : d.updateHeirGameStatus =
    d.copyWith { gameStatus := some d.updateHeirGameStatus.gameStatus } := by
  unfold updateHeirGameStatus
  dsimp only
  repeat' split
  all_goals rfl

/-- A game that goes on is drawn by the draw conditions only. -/
theorem Running.verdict_ne_draw (h : d.Running) (hno : d.isDrawn = false) :
    d.verdict ≠ .draw := by
  have hdraws : ∀ status, status ≠ .draw → (d.withDraws status).gameStatus ≠ .draw := by
    intro status hne
    show (if d.isDrawn then GameStatus.draw else status) ≠ .draw
    rw [hno]
    exact hne
  have hwritten : ∀ status, status ≠ .draw →
      (d.copyWith { gameStatus := some status }).gameStatus ≠ .draw := fun _ hne => hne
  have hcheck : ∀ inCheck hasMoves, checkStatus inCheck hasMoves ≠ .draw := by decide
  unfold verdict
  rw [if_neg h.not_over]
  cases d.gameType with
  | heir =>
    dsimp only
    unfold updateHeirGameStatus
    dsimp only
    split_ifs
    · exact hwritten _ (by decide)
    · exact hwritten _ (by decide)
    · exact hwritten _ (by decide)
    · exact hwritten _ (by decide)
    · exact hdraws _ (by decide)
    · exact hdraws _ (by decide)
    · exact hdraws _ (by decide)
  | _ => exact hdraws _ (hcheck _ _)

/-- A missing king of white is looked for first; otherwise only the status changes. -/
theorem updateGameStatus_cases (d : ChessBoard) :
    (NeedsKings d.gameType ∧ ∃ c, d.getKing c = none ∧ d.updateGameStatus =
      d.copyWith { gameStatus := some .checkmate, currentPlayer := some c }) ∨
    ((NeedsKings d.gameType → ∀ c, d.getKing c ≠ none) ∧
      d.updateGameStatus = d.copyWith { gameStatus := some d.verdict }) := by
  unfold updateGameStatus
  dsimp only
  by_cases hwhite : (d.gameType ≠ .heir ∧ d.gameType ≠ .succession) ∧
      (d.getKing .white).isNone = true
  · rw [if_pos hwhite]
    exact .inl ⟨hwhite.1, .white, Option.isNone_iff_eq_none.mp hwhite.2, rfl⟩
  · rw [if_neg hwhite]
    by_cases hblack : (d.gameType ≠ .heir ∧ d.gameType ≠ .succession) ∧
        (d.getKing .black).isNone = true
    · rw [if_pos hblack]
      exact .inl ⟨hblack.1, .black, Option.isNone_iff_eq_none.mp hblack.2, rfl⟩
    · rw [if_neg hblack]
      refine .inr ⟨fun hneeds c hnone => ?_, ?_⟩
      · cases c with
        | white => exact hwhite ⟨hneeds, Option.isNone_iff_eq_none.mpr hnone⟩
        | black => exact hblack ⟨hneeds, Option.isNone_iff_eq_none.mpr hnone⟩
      · unfold verdict
        split
        · rfl
        · cases d.gameType with
          | heir => exact updateHeirGameStatus_eq d
          | _ => rfl

/-- A mate counts in the status functions unless a draw does, which in Heir comes later. -/
theorem verdict_of_mated (hmate : d.Mated) (hrun : d.Running) :
    d.verdict = .checkmate ↔ d.gameType = .heir ∨ d.isDrawn = false := by
  obtain ⟨hcheck, hmoves⟩ := hmate
  have hdraws : (d.withDraws .checkmate).gameStatus = .checkmate ↔ d.isDrawn = false := by
    show (if d.isDrawn then GameStatus.draw else .checkmate) = .checkmate ↔ _
    cases d.isDrawn <;> decide
  unfold verdict
  rw [if_neg hrun.not_over]
  unfold InCheck at hcheck
  cases hmod : d.gameType with
  | heir =>
    rw [hmod] at hcheck
    refine ⟨fun _ => .inl rfl, fun _ => ?_⟩
    dsimp only at hcheck ⊢
    unfold updateHeirGameStatus
    dsimp only
    split
    · rfl
    · rw [hmoves]
      rfl
  | truce =>
    rw [hmod] at hcheck
    dsimp only at hcheck ⊢
    unfold updateTruceGameStatus
    rw [hcheck, hmoves]
    exact hdraws.trans (or_iff_right (by decide)).symm
  | classic | mercenary | friendlyFire | kingsBattle | saveQueen | succession =>
    rw [hmod] at hcheck
    dsimp only at hcheck ⊢
    rw [hcheck, hmoves]
    exact hdraws.trans (or_iff_right (by decide)).symm

theorem getKing_of_mated (hneeds : NeedsKings d.gameType) (h : d.Mated) :
    d.getKing d.currentPlayer ≠ none := by
  intro hnone
  have hfree : d.isKingInCheck d.currentPlayer = false := by
    unfold isKingInCheck
    rw [hnone]
  have hcheck := h.1
  unfold InCheck isKingInCheckTruce at hcheck
  rw [hfree] at hcheck
  cases hmod : d.gameType with
  | heir => exact hneeds.1 hmod
  | succession => exact hneeds.2 hmod
  | truce =>
    rw [hmod] at hcheck
    dsimp only at hcheck
    split at hcheck <;> cases hcheck
  | classic | mercenary | friendlyFire | kingsBattle | saveQueen =>
    rw [hmod] at hcheck
    cases hcheck

/-- The status and the draws of the special handlers' board in terms of the move. -/
theorem canClaimFiftyMoveRule_played (d : ChessBoard) (m : ChessMove) :
    (d.played m).canClaimFiftyMoveRule = true ↔
      fiftyMoveThreshold d.gameType (d.sideAfter m .white) (d.sideAfter m .black) ≤
        d.clockAfter m := by
  obtain ⟨status, counter, heq⟩ := played_eq d m
  rw [heq]
  have hclock : (d.settled m (if d.KeepsTurn m then d.currentPlayer else d.currentPlayer.opposite)
      status counter).halfMoveClock = d.clockAfter m := makeMove_halfMoveClock d m
  unfold canClaimFiftyMoveRule
  rw [decide_eq_true_iff, hclock, settled_gameType]
  rfl

theorem isDrawn_played (h : ¬ d.AutoDraws m) : (d.played m).isDrawn =
    isInsufficientMaterial d.gameType (d.sideAfter m .white) (d.sideAfter m .black) := by
  have hclock : (d.played m).canClaimFiftyMoveRule = false := by
    rw [← Bool.not_eq_true, canClaimFiftyMoveRule_played]
    exact fun hc => h (.inl hc)
  unfold isDrawn
  rw [hclock, Bool.or_false]
  obtain ⟨status, counter, heq⟩ := played_eq d m
  rw [heq, settled_gameType]
  rfl

end Status

/-! ## Main result -/

/-- A mated side has lost exactly if the move won by a rule of its mod, or if no draw is due: the
clock has not run out, the position is not repeated for the second time, the counter of Save the
Queen is below its limit, and outside Heir the material suffices. -/
theorem mate_reported_iff (d : ChessBoard) (m : ChessMove) (d' : ChessBoard)
    (hexec : d.executeMove m = some d') (hmate : d'.Mated) :
    d'.gameStatus = .checkmate ↔ d.WinsNow m ∨ (¬ d.AutoDraws m ∧
      (d.gameStatus = .checkmate ∨ (d.Running ∧ (d.gameType = .heir ∨
        isInsufficientMaterial d.gameType (d.sideAfter m .white) (d.sideAfter m .black) =
          false)))) := by
  obtain rfl := eq_next_of_executeMove hexec
  unfold next at hmate ⊢
  have hmod : (d.played m).gameType = d.gameType := by
    obtain ⟨status, counter, heq⟩ := played_eq d m
    rw [heq, settled_gameType]
  rcases updateGameStatus_cases (d.played m) with ⟨hneeds, c, hnone, heq⟩ | ⟨-, heq⟩
  · -- the player without a king cannot be in check
    rw [heq] at hmate
    exact absurd hnone (getKing_of_mated (by exact hneeds) hmate)
  · rw [heq] at hmate ⊢
    have hboard : (d.played m).Mated := hmate
    show (d.played m).verdict = .checkmate ↔ _
    by_cases hwin : d.WinsNow m
    · have hstatus := gameStatus_played_of_winsNow hwin
      rw [verdict_of_over (.inl hstatus), hstatus]
      exact ⟨fun _ => .inl hwin, fun _ => rfl⟩
    · rw [or_iff_right hwin]
      have hstatus := gameStatus_played_of_not hwin
      by_cases hauto : d.AutoDraws m
      · have hdraw := hstatus.trans (gameStatus_makeMove_of_autoDraws hauto)
        rw [verdict_of_over (.inr (.inr hdraw)), hdraw]
        exact ⟨fun h => (by cases h), fun h => absurd hauto h.1⟩
      · have hsame := hstatus.trans (gameStatus_makeMove_of_not hauto)
        rw [and_iff_right hauto]
        rcases running_or_over (d := d) with hrun | hover
        · have hplay : (d.played m).Running := by
            unfold Running
            rw [hsame]
            exact hrun
          rw [verdict_of_mated hboard hplay, hmod, isDrawn_played hauto,
            or_iff_right hrun.ne_checkmate, and_iff_right hrun]
        · have hnot : ¬ d.Running := fun hrun => hrun.not_over hover
          rw [verdict_of_over (by rw [hsame]; exact hover), hsame,
            or_iff_left fun h => hnot h.1]

/-- 1. f3 e5 2. g4 -/
def foolsLine : List ChessMove :=
  [ChessMove.simple ⟨1, 5⟩ ⟨2, 5⟩ ⟨.pawn, .white, ⟨1, 5⟩, false⟩ none,
    ChessMove.simple ⟨6, 4⟩ ⟨4, 4⟩ ⟨.pawn, .black, ⟨6, 4⟩, false⟩ none,
    ChessMove.simple ⟨1, 6⟩ ⟨3, 6⟩ ⟨.pawn, .white, ⟨1, 6⟩, false⟩ none]

/-- 2... Qh4 mates. -/
theorem mate_reported_fools : ∃ d' : ChessBoard,
    (foolsLine.foldl next (initial .classic)).executeMove
      (ChessMove.simple ⟨7, 3⟩ ⟨3, 7⟩ ⟨.queen, .black, ⟨7, 3⟩, false⟩ none) = some d' ∧
    d'.Mated ∧ d'.gameStatus = .checkmate := by
  generalize hd : foolsLine.foldl next (initial .classic) = d
  generalize hm : ChessMove.simple ⟨7, 3⟩ ⟨3, 7⟩ ⟨.queen, .black, ⟨7, 3⟩, false⟩ none = m
  have hfacts : d.isValidMove m = true ∧ (d.next m).Mated ∧ ¬ d.AutoDraws m ∧ d.Running ∧
      isInsufficientMaterial d.gameType (d.sideAfter m .white) (d.sideAfter m .black) = false := by
    subst hd hm
    decide +kernel
  obtain ⟨hvalid, hmate, hauto, hrun, hmaterial⟩ := hfacts
  have hexec := executeMove_of_isValidMove hvalid
  exact ⟨_, hexec, hmate, (mate_reported_iff d m _ hexec hmate).mpr
    (.inr ⟨hauto, .inr ⟨hrun, .inr hmaterial⟩⟩)⟩

/-- Kings' Battle: 1. e3 e6 2. h3 Ke7 3. Ke2 Ke8 4. Kf3 a6 5. Kg4 b6 6. Kh4 c6 7. g3 h5 8. Kg5 Ke7
9. Kh4 Ke8 10. Kg5 Ke7 11. Kh4. Six king moves in a row unlock Phase 2. -/
def repeatedLine : List ChessMove :=
  let king := fun (c : Color) (a z : Position) (moved : Bool) =>
    ChessMove.simple a z ⟨.king, c, a, moved⟩ none
  let pawn := fun (c : Color) (a z : Position) => ChessMove.simple a z ⟨.pawn, c, a, false⟩ none
  [pawn .white ⟨1, 4⟩ ⟨2, 4⟩, pawn .black ⟨6, 4⟩ ⟨5, 4⟩,
    pawn .white ⟨1, 7⟩ ⟨2, 7⟩, king .black ⟨7, 4⟩ ⟨6, 4⟩ false,
    king .white ⟨0, 4⟩ ⟨1, 4⟩ false, king .black ⟨6, 4⟩ ⟨7, 4⟩ true,
    king .white ⟨1, 4⟩ ⟨2, 5⟩ true, pawn .black ⟨6, 0⟩ ⟨5, 0⟩,
    king .white ⟨2, 5⟩ ⟨3, 6⟩ true, pawn .black ⟨6, 1⟩ ⟨5, 1⟩,
    king .white ⟨3, 6⟩ ⟨3, 7⟩ true, pawn .black ⟨6, 2⟩ ⟨5, 2⟩,
    pawn .white ⟨1, 6⟩ ⟨2, 6⟩, pawn .black ⟨6, 7⟩ ⟨4, 7⟩,
    king .white ⟨3, 7⟩ ⟨4, 6⟩ true, king .black ⟨7, 4⟩ ⟨6, 4⟩ true,
    king .white ⟨4, 6⟩ ⟨3, 7⟩ true, king .black ⟨6, 4⟩ ⟨7, 4⟩ true,
    king .white ⟨3, 7⟩ ⟨4, 6⟩ true, king .black ⟨7, 4⟩ ⟨6, 4⟩ true,
    king .white ⟨4, 6⟩ ⟨3, 7⟩ true]

/-- 11... Ke8 opens the diagonal of the queen and mates, on a position that stands on the board
for the third time: the pieces did not attack before. -/
theorem mate_reported_as_draw : ∃ d d' : ChessBoard, ∃ m : ChessMove,
    Reached PlaysOn (initial .kingsBattle) d ∧ d.Running ∧ d.executeMove m = some d' ∧
    d'.Mated ∧ d'.gameStatus = .draw := by
  have hfacts : PlainLine (initial .kingsBattle) repeatedLine ∧
      (repeatedLine.foldl next (initial .kingsBattle)).Running ∧
      (repeatedLine.foldl next (initial .kingsBattle)).isValidMove
        (ChessMove.simple ⟨6, 4⟩ ⟨7, 4⟩ ⟨.king, .black, ⟨6, 4⟩, true⟩ none) = true ∧
      ((repeatedLine.foldl next (initial .kingsBattle)).next
        (ChessMove.simple ⟨6, 4⟩ ⟨7, 4⟩ ⟨.king, .black, ⟨6, 4⟩, true⟩ none)).Mated ∧
      ((repeatedLine.foldl next (initial .kingsBattle)).next
        (ChessMove.simple ⟨6, 4⟩ ⟨7, 4⟩ ⟨.king, .black, ⟨6, 4⟩, true⟩ none)).gameStatus = .draw := by
    decide +kernel
  obtain ⟨hline, hrun, hvalid, hmate, hdraw⟩ := hfacts
  exact ⟨_, _, _, Reached.line repeatedLine _ .start hline, hrun,
    executeMove_of_isValidMove hvalid, hmate, hdraw⟩

end ChessBoard

end ChessRecast.App
