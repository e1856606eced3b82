import ChessRecast.App.Stacks

/-!
# The winner is the player who moved

`getWinner` names the opponent of the side to move. The side to move is the mover's opponent,
except after a bonus move of Kings' Battle and where a king is missing from the board.
-/

namespace ChessRecast.App

open Rules

namespace ChessBoard

/-- A self-capture of Friendly Fire on the square of the own king, which shares it with a pawn. -/
def TakesOwnKing (d : ChessBoard) (m : ChessMove) : Prop :=
  d.gameType = .friendlyFire ∧ m.isEnPassant = false ∧
    ∃ k ∈ d.pieces, k.type = .king ∧ k.color = d.currentPlayer ∧ k.position = m.toPos

/-- At most one piece stands on the square. -/
def Alone (d : ChessBoard) (z : Position) : Prop :=
  (d.pieces.filter fun p => p.position = z).length ≤ 1

/-- A mate names the mover as winner. -/
def MoverWins (d d' : ChessBoard) : Prop :=
  d'.gameStatus = .checkmate → d'.getWinner = some d.currentPlayer

section Kings

variable {d : ChessBoard} {m : ChessMove}

/-- The mover loses the own king only by a self-capture. -/
theorem KingedStacks.takesOwnKing_of_lost (h : d.KingedStacks)
    (hmem : m ∈ d.getValidMovesFor m.fromPos) (hlost : (d.next m).getKing d.currentPlayer = none) :
    d.TakesOwnKing m := by
  have hm := moving_of_mem h.valid hmem
  obtain ⟨k, hk⟩ := h.kings d.currentPlayer
  obtain ⟨hkmem, htype, hcolor⟩ := mem_of_menOf hk
  have hgone : m.isEnPassant = false ∧ k.position = m.toPos := by
    by_contra hno
    obtain ⟨k', hk'⟩ := h.kings_next hm hk hno
    rw [getKing_eq_none_iff, hk'] at hlost
    cases hlost
  refine ⟨?_, hgone.1, k, hkmem, htype, hcolor, hgone.2⟩
  rcases hm.taken hgone.1 with htaken | ⟨hff, -⟩
  · -- any other capture would name the king
    rw [← hgone.2, h.getPieceAt_of_mem hkmem (by rw [htype]; decide)] at htaken
    obtain ⟨-, -, -, -, hkeep⟩ := mem_getValidMovesFor.mp hmem
    exact absurd ⟨k, htaken, htype⟩ (not_takesKing_of_keepsMove h.needs.1 hkeep)
  · exact hff

/-- A self-capture on the king's square takes the own king and not the enemy's. -/
theorem KingedStacks.lost_of_takesOwnKing (h : d.KingedStacks) (hm : d.Moving m)
    (htakes : d.TakesOwnKing m) : (d.next m).getKing d.currentPlayer = none ∧
      (d.next m).getKing d.currentPlayer.opposite ≠ none := by
  obtain ⟨-, hep, q, hq, htype, hcolor, hpos⟩ := htakes
  obtain ⟨k, hk⟩ := h.kings d.currentPlayer
  obtain rfl := eq_of_menOf hk hq htype hcolor
  refine ⟨h.kings_lost hm hk hep hpos, ?_⟩
  obtain ⟨e, he⟩ := h.kings d.currentPlayer.opposite
  obtain ⟨hemem, hetype, hecolor⟩ := mem_of_menOf he
  have hfree : ¬ (m.isEnPassant = false ∧ e.position = m.toPos) := by
    rintro ⟨-, hepos⟩
    -- two kings do not share a square
    have hat := h.getPieceAt_of_mem hq (by rw [htype]; decide)
    rcases h.eq_or_pawn hat hemem (hepos.trans hpos.symm) with rfl | hpawn
    · exact Color.opposite_ne _ (hecolor.symm.trans hcolor)
    · rw [hetype] at hpawn
      cases hpawn
  obtain ⟨e', he'⟩ := h.kings_next hm he hfree
  rw [Ne, getKing_eq_none_iff, he']
  exact nofun

end Kings

/-! ## The bonus move of Kings' Battle -/

section Bonus

variable {d : ChessBoard} {m : ChessMove}

theorem isKingInCheck_congr {d e : ChessBoard} (hp : d.pieces = e.pieces)
    (hg : d.gameType = e.gameType) (hh : d.moveHistory = e.moveHistory) (c : Color) :
    d.isKingInCheck c = e.isKingInCheck c := by
  unfold isKingInCheck getKing isPositionUnderAttack getPiecesOfColor
  have hattacks : ∀ position piece, d.pieceAttacks position piece = e.pieceAttacks position piece := by
    intro position piece
    unfold pieceAttacks getPieceAt isKingsBattlePhase2Unlocked
    rw [hp, hg, hh]
  simp only [hp, funext (hattacks _)]

theorem Alone.pairwise {z : Position} (h : d.Alone z) : d.pieces.Pairwise fun a b =>
    ¬ (decide (a.position = z) = true ∧ decide (b.position = z) = true) := by
  have hshort : (d.pieces.filter fun p => p.position = z).Pairwise fun _ _ => False := by
    unfold Alone at h
    generalize (d.pieces.filter fun p => p.position = z) = l at h ⊢
    match l, h with
    | [], _ => exact List.Pairwise.nil
    | [p], _ => exact List.pairwise_singleton _ _
    | p :: q :: l, h =>
      simp only [List.length_cons] at h
      omega
  rw [List.pairwise_filter] at hshort
  exact hshort.imp fun himp hboth => himp hboth.1 hboth.2

/-- Where the men of a plain capture stand alone, the validation copy has the pieces of the game. -/
theorem validationPieces_eq_of_alone {q : ChessPiece} (hfrom : d.Alone m.fromPos)
    (hto : d.Alone m.toPos) (hcap : m.capturedPiece = some q) (hep : m.isEnPassant = false)
    (hcastle : m.isCastling = false) (hpromo : m.isPromotion = false) :
    d.validationPieces m = d.makePieces m := by
  have hmoved : validationMovedPiece m = placedPiece m := by
    unfold validationMovedPiece placedPiece
    rw [hpromo]
    rfl
  unfold validationPieces makePieces
  dsimp only
  rw [hcap, hep, hcastle, hmoved, Keyed.eraseLast_eq_filter hfrom.pairwise]
  simp only [Bool.false_eq_true, if_false]
  rw [Keyed.eraseLast_eq_filter (hto.pairwise.sublist List.filter_sublist)]
  simp only [decide_not]

/-- After a bonus move the own king is safe, since the move was kept. -/
theorem safe_of_keepsTurn (hkeep : d.KeepsTurn m) (hm : d.Moving m)
    (hkeeps : d.keepsMove m = true) (hfrom : d.Alone m.fromPos) (hto : d.Alone m.toPos) :
    (d.played m).isKingInCheck d.currentPlayer = false := by
  obtain ⟨hmod, -, hkill⟩ := hkeep
  unfold ChessMove.isKingsKill at hkill
  rw [Bool.and_eq_true, decide_eq_true_iff] at hkill
  obtain ⟨hking, htaken⟩ := hkill
  obtain ⟨q, hcap⟩ : ∃ q, m.capturedPiece = some q := by
    cases hcap : m.capturedPiece with
    | none => rw [hcap] at htaken; cases htaken
    | some q => exact ⟨q, rfl⟩
  have hplain : m.isEnPassant = false ∧ m.isCastling = false ∧ m.isPromotion = false := by
    refine ⟨?_, ?_, ?_⟩ <;> rw [← Bool.not_eq_true] <;> intro hflag
    · rw [(hm.passant hflag).1] at hking
      cases hking
    · rw [(hm.castle hflag).2.2.1] at hcap
      cases hcap
    · rw [(hm.promotes hflag).1] at hking
      cases hking
  have hsafe := ((keepsMove_iff (by rw [hmod]; decide) (by rw [hmod]; rintro ⟨h, -⟩; cases h)).mp
    hkeeps).2
  rw [← hsafe]
  obtain ⟨status, counter, heq⟩ := played_eq d m
  rw [heq]
  apply isKingInCheck_congr
  · show d.makePieces m ++ d.returnedQueen m = d.validationPieces m
    rw [returnedQueen_eq_nil (by rw [hmod]; decide), List.append_nil,
      validationPieces_eq_of_alone hfrom hto hcap hplain.1 hplain.2.1 hplain.2.2]
  · exact settled_gameType
  · exact settled_moveHistory

/-- So the bonus move does not mate its player. -/
theorem not_checkmate_of_keepsTurn (hkeep : d.KeepsTurn m) (hrun : d.Running) (hm : d.Moving m)
    (hkeeps : d.keepsMove m = true) (hfrom : d.Alone m.fromPos) (hto : d.Alone m.toPos) :
    (d.played m).verdict ≠ .checkmate := by
  have hmod : (d.played m).gameType = .kingsBattle := by
    obtain ⟨status, counter, heq⟩ := played_eq d m
    rw [heq, settled_gameType, hkeep.1]
  have hplayer : (d.played m).currentPlayer = d.currentPlayer := by
    obtain ⟨status, counter, heq⟩ := played_eq d m
    rw [heq, if_pos hkeep]
    rfl
  have hsafe := safe_of_keepsTurn hkeep hm hkeeps hfrom hto
  have hwin : ¬ d.WinsNow m := by
    rintro (⟨h, -⟩ | ⟨h, -⟩) <;> rw [hkeep.1] at h <;> cases h
  have hstatus := gameStatus_played_of_not hwin
  by_cases hauto : d.AutoDraws m
  · rw [gameStatus_makeMove_of_autoDraws hauto] at hstatus
    rw [verdict_of_over (.inr (.inr hstatus)), hstatus]
    decide
  · rw [gameStatus_makeMove_of_not hauto] at hstatus
    have hplayed : (d.played m).Running := by
      unfold Running
      rw [hstatus]
      exact hrun
    unfold verdict
    rw [if_neg hplayed.not_over, hmod]
    dsimp only
    rw [hplayer, hsafe]
    show (if (d.played m).isDrawn then GameStatus.draw else
      checkStatus false (d.played m).hasValidMoves) ≠ _
    cases (d.played m).isDrawn <;> cases (d.played m).hasValidMoves <;> decide

end Bonus

/-! ## Every game -/

section Game

variable {d d' : ChessBoard} {m : ChessMove}

/-- On the next board either a king is missing and its owner is to move, or the turn has passed
as after any move. -/
theorem next_cases (d : ChessBoard) (m : ChessMove) :
    (NeedsKings d.gameType ∧ ∃ c, (d.next m).getKing c = none ∧
      (d.next m).gameStatus = .checkmate ∧ (d.next m).currentPlayer = c) ∨
    ((NeedsKings d.gameType → ∀ c, (d.next m).getKing c ≠ none) ∧
      (d.next m).gameStatus = (d.played m).verdict ∧ (d.next m).currentPlayer =
        if d.KeepsTurn m then d.currentPlayer else d.currentPlayer.opposite) := by
  rcases updateGameStatus_cases (d.played m) with ⟨hneeds, c, hnone, heq⟩ | ⟨hkings, heq⟩
  · rw [played_gameType] at hneeds
    refine .inl ⟨hneeds, c, ?_, ?_, ?_⟩ <;> unfold next <;> rw [heq]
    · exact hnone
    · rfl
    · rfl
  · rw [played_gameType] at hkings
    refine .inr ⟨fun hneeds c => ?_, ?_, ?_⟩ <;> unfold next <;> rw [heq]
    · exact hkings hneeds c
    · rfl
    · obtain ⟨status, counter, hplayed⟩ := played_eq d m
      rw [hplayed]
      rfl

theorem getWinner_of_checkmate (h : d.gameStatus = .checkmate) :
    d.getWinner = some d.currentPlayer.opposite := by
  unfold getWinner
  rw [if_pos h]

/-- Where the turn passes the mover wins, as long as the own king was not taken. -/
theorem moverWins_of_kept (hown : NeedsKings d.gameType → (d.next m).getKing d.currentPlayer ≠ none)
    (hturn : d.KeepsTurn m → (d.played m).verdict ≠ .checkmate) : d.MoverWins (d.next m) := by
  intro hmate
  rw [getWinner_of_checkmate hmate]
  rcases next_cases d m with ⟨hneeds, c, hnone, -, hplayer⟩ | ⟨-, hstatus, hplayer⟩
  · -- the missing king is the enemy's
    have hc : c = d.currentPlayer.opposite := by
      apply Color.ne_iff_eq_opposite.mp
      rintro rfl
      exact hown hneeds hnone
    rw [hplayer, hc, Color.opposite_opposite]
  · have hpass : ¬ d.KeepsTurn m := by
      intro hkeep
      exact hturn hkeep (hstatus.symm.trans hmate)
    rw [hplayer, if_neg hpass, Color.opposite_opposite]

end Game

/-- The winner of a game is the player who moved, unless that player took the own king. In Kings'
Battle the two squares of the move must not hold several men. -/
theorem winner_moved_iff (mod : Mod) (d : ChessBoard)
    (h : Reached (fun _ _ => True) (initial mod) d) (hrun : d.Running) (m : ChessMove)
    (d' : ChessBoard) (hexec : d.executeMove m = some d') :
    (mod ≠ .kingsBattle → (d.MoverWins d' ↔ ¬ d.TakesOwnKing m)) ∧
    (mod = .kingsBattle → d.Alone m.fromPos → d.Alone m.toPos → d.MoverWins d') := by
  have hmod : d.gameType = mod := by rw [h.gameType_eq, initial_gameType]
  have hmem := mem_of_executeMove hexec
  obtain rfl := eq_next_of_executeMove hexec
  have hkeepsOwn : ¬ d.TakesOwnKing m → NeedsKings d.gameType →
      (d.next m).getKing d.currentPlayer ≠ none := by
    intro hno hneeds hlost
    rw [hmod] at hneeds
    exact hno ((h.kingedStacks hneeds hrun).takesOwnKing_of_lost hmem hlost)
  constructor
  · intro hbattle
    have hturn : ¬ d.KeepsTurn m := fun hkeep => hbattle (hmod.symm.trans hkeep.1)
    constructor
    · intro hwins htakes
      have hneeds : NeedsKings mod := by
        rw [← hmod, htakes.1]
        exact ⟨by decide, by decide⟩
      have hstacks := h.kingedStacks hneeds hrun
      -- the owner of the taken king is to move and loses
      obtain ⟨hown, hother⟩ :=
        hstacks.lost_of_takesOwnKing (moving_of_mem hstacks.valid hmem) htakes
      rcases next_cases d m with ⟨-, c, hnone, hmate, hplayer⟩ | ⟨hkings, -, -⟩
      · have hwinner := (getWinner_of_checkmate hmate).symm.trans (hwins hmate)
        rw [hplayer, Option.some.injEq] at hwinner
        rw [← hwinner, Color.opposite_opposite] at hother
        exact hother hnone
      · exact hkings hstacks.needs _ hown
    · intro hno
      exact moverWins_of_kept (hkeepsOwn hno) (fun hkeep => absurd hkeep hturn)
  · intro hbattle hfrom hto
    have hneeds : NeedsKings mod := by
      rw [hbattle]
      exact ⟨by decide, by decide⟩
    have hno : ¬ d.TakesOwnKing m := by
      intro htakes
      have hff := hmod.symm.trans htakes.1
      rw [hbattle] at hff
      cases hff
    apply moverWins_of_kept (hkeepsOwn hno)
    intro hkeep
    have hstacks := h.kingedStacks hneeds hrun
    obtain ⟨-, -, -, -, hkeeps⟩ := mem_getValidMovesFor.mp hmem
    exact not_checkmate_of_keepsTurn hkeep hrun (moving_of_mem hstacks.valid hmem) hkeeps hfrom hto

theorem winner_moved_fools : ∃ d d' : ChessBoard, ∃ m : ChessMove,
    d.executeMove m = some d' ∧ d'.gameStatus = .checkmate ∧ ¬ d.TakesOwnKing m ∧
      d.MoverWins d' := by
  have hfacts : GameLine (initial .classic) foolsLine ∧
      (foolsLine.foldl next (initial .classic)).Running ∧
      (foolsLine.foldl next (initial .classic)).gameType = .classic ∧
      (foolsLine.foldl next (initial .classic)).isValidMove
        (ChessMove.simple ⟨7, 3⟩ ⟨3, 7⟩ ⟨.queen, .black, ⟨7, 3⟩, false⟩ none) = true ∧
      ((foolsLine.foldl next (initial .classic)).next
        (ChessMove.simple ⟨7, 3⟩ ⟨3, 7⟩ ⟨.queen, .black, ⟨7, 3⟩, false⟩ none)).gameStatus =
          .checkmate := by
    decide +kernel
  obtain ⟨hline, hrun, hmod, hvalid, hmate⟩ := hfacts
  have hreached := (Reached.gameLine foolsLine _ .start hline).mono fun _ _ _ => trivial
  have hexec := executeMove_of_isValidMove hvalid
  have hno : ¬ (foolsLine.foldl next (initial .classic)).TakesOwnKing
      (ChessMove.simple ⟨7, 3⟩ ⟨3, 7⟩ ⟨.queen, .black, ⟨7, 3⟩, false⟩ none) := by
    rintro ⟨hff, -⟩
    rw [hmod] at hff
    cases hff
  exact ⟨_, _, _, hexec, hmate, hno,
    ((winner_moved_iff .classic _ hreached hrun _ _ hexec).1 (by decide)).mpr hno⟩

/-- 1. e4 d6 2. Ke2 d5 3. Kf3 dxe4 4. Kg3 e3 5. Kf3 e2 6. Ke3 a6 7. dxe3 e.p. a5 in Friendly
Fire: the target of the first move still stands, and the pawn lands on its own king. -/
def kingUnderPawnLine : List ChessMove :=
  let king := fun (a z : Position) (moved : Bool) =>
    ChessMove.simple a z ⟨.king, .white, a, moved⟩ none
  let pawn := fun (c : Color) (a z : Position) (moved : Bool) =>
    ChessMove.simple a z ⟨.pawn, c, a, moved⟩ none
  [pawn .white ⟨1, 4⟩ ⟨3, 4⟩ false, pawn .black ⟨6, 3⟩ ⟨5, 3⟩ false,
    king ⟨0, 4⟩ ⟨1, 4⟩ false, pawn .black ⟨5, 3⟩ ⟨4, 3⟩ true,
    king ⟨1, 4⟩ ⟨2, 5⟩ true,
    ChessMove.simple ⟨4, 3⟩ ⟨3, 4⟩ ⟨.pawn, .black, ⟨4, 3⟩, true⟩
      (some ⟨.pawn, .white, ⟨3, 4⟩, true⟩),
    king ⟨2, 5⟩ ⟨2, 6⟩ true, pawn .black ⟨3, 4⟩ ⟨2, 4⟩ true,
    king ⟨2, 6⟩ ⟨2, 5⟩ true, pawn .black ⟨2, 4⟩ ⟨1, 4⟩ true,
    king ⟨2, 5⟩ ⟨2, 4⟩ true, pawn .black ⟨6, 0⟩ ⟨5, 0⟩ false,
    ChessMove.enPassant ⟨1, 3⟩ ⟨2, 4⟩ ⟨.pawn, .white, ⟨1, 3⟩, false⟩
      ⟨.pawn, .black, ⟨1, 4⟩, true⟩,
    pawn .black ⟨5, 0⟩ ⟨4, 0⟩ true]

/-- 8. Bxe3 takes the pawn and the own king with it, and Black has won. -/
theorem mover_takes_own_king : ∃ d d' : ChessBoard, ∃ m : ChessMove,
    Reached (fun d _ => d.Running) (initial .friendlyFire) d ∧ d.Running ∧
    d.currentPlayer = .white ∧ d.executeMove m = some d' ∧ d'.gameStatus = .checkmate ∧
    d'.getWinner = some .black := by
  have hfacts : GameLine (initial .friendlyFire) kingUnderPawnLine ∧
      (kingUnderPawnLine.foldl next (initial .friendlyFire)).Running ∧
      (kingUnderPawnLine.foldl next (initial .friendlyFire)).currentPlayer = .white ∧
      (kingUnderPawnLine.foldl next (initial .friendlyFire)).isValidMove
        (ChessMove.simple ⟨0, 2⟩ ⟨2, 4⟩ ⟨.bishop, .white, ⟨0, 2⟩, false⟩
          (some ⟨.pawn, .white, ⟨2, 4⟩, true⟩)) = true ∧
      ((kingUnderPawnLine.foldl next (initial .friendlyFire)).next
        (ChessMove.simple ⟨0, 2⟩ ⟨2, 4⟩ ⟨.bishop, .white, ⟨0, 2⟩, false⟩
          (some ⟨.pawn, .white, ⟨2, 4⟩, true⟩))).gameStatus = .checkmate ∧
      ((kingUnderPawnLine.foldl next (initial .friendlyFire)).next
        (ChessMove.simple ⟨0, 2⟩ ⟨2, 4⟩ ⟨.bishop, .white, ⟨0, 2⟩, false⟩
          (some ⟨.pawn, .white, ⟨2, 4⟩, true⟩))).getWinner = some .black := by
    decide +kernel
  obtain ⟨hline, hrun, hplayer, hvalid, hmate, hwinner⟩ := hfacts
  exact ⟨_, _, _, Reached.gameLine kingUnderPawnLine _ .start hline, hrun, hplayer,
    executeMove_of_isValidMove hvalid, hmate, hwinner⟩

end ChessBoard

end ChessRecast.App
