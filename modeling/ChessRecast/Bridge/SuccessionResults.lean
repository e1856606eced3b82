import ChessRecast.Bridge.Lines
import ChessRecast.Engine.Search

/-!
# Results of Succession

The terminal test of the search against the Dart rules. The search takes a side with fewer than
two queens for lost, the rules do not.
-/

namespace ChessRecast.Bridge

open App Engine Rules

section Line

variable {d d' : ChessBoard} {b : Board} {m : ChessMove}

theorem heirPromoted_engineMove (h : Sim d b) (hmod : d.gameType = .succession) (c : Color) :
    (boardMakeMove b (engineMove m)).heirPromoted c =
      if c = d.currentPlayer ∧ ChessBoard.PromotesKing m then true else b.heirPromoted c := by
  show (if c = b.side ∧ m.isPromotion = true ∧
      (if m.isPromotion then some (promotedType m.promotionPiece) else none) = some .king ∧
      (b.mod = .heir ∨ b.mod = .succession) then true else b.heirPromoted c) = _
  refine if_congr ?_ rfl rfl
  rw [h.side_eq, h.mod_eq, hmod]
  constructor
  · rintro ⟨hc, -, hking, -⟩
    exact ⟨hc, hking⟩
  · rintro ⟨hc, hking⟩
    refine ⟨hc, ?_, hking, .inr rfl⟩
    by_contra hp
    rw [ChessBoard.PromotesKing, ChessBoard.promo_eq_none hp] at hking
    cases hking

theorem Sim.succStep (h : Sim d b) (hinv : d.SuccInv) (hclean : d.Clean m)
    (hexec : d.executeMove m = some d') : Sim d' (boardMakeMove b (engineMove m)) := by
  have hm := hinv.move hclean (ChessBoard.mem_of_executeMove hexec)
  obtain ⟨status, counter, rfl⟩ := hinv.executed hclean hexec
  have hstep := h.step hm.toSound hclean.takes (fun hmod => by rw [hinv.mod] at hmod; cases hmod)
    hinv.rooks (by rw [hinv.mod]; decide) (fun hmod => by rw [hinv.mod] at hmod; cases hmod)
    status counter
  rwa [if_neg hm.not_keepsTurn] at hstep

/-- While the game goes on both boards agree, and no king has been promoted. -/
theorem Follows.succession (h : Follows ChessBoard.PlaysOn (ChessBoard.initial .succession) d b)
    (hopen : d.gameStatus ≠ .checkmate) :
    d.SuccInv ∧ Sim d b ∧ ∀ c, b.heirPromoted c = false := by
  have hinv := h.reached.succInv hopen
  refine ⟨hinv, ?_⟩
  induction h with
  | handOver =>
    refine ⟨sim_handOver hinv.tidy hinv.target, fun c => ?_⟩
    cases c
    · exact hinv.unpromoted .white
    · exact hinv.unpromoted .black
  | @step d d' b m hd hok hexec ih =>
    have hopen' : d.gameStatus ≠ .checkmate := by
      rcases hok.1 with hr | hr <;> rw [hr] <;> decide
    have hinv' := hd.reached.succInv hopen'
    obtain ⟨hsim, hflags⟩ := ih hopen' hinv'
    refine ⟨hsim.succStep hinv' hok.2 hexec, fun c => ?_⟩
    rw [heirPromoted_engineMove hsim hinv'.mod, if_neg, hflags]
    rintro ⟨-, hking⟩
    refine hopen (((hinv'.move hok.2 (ChessBoard.mem_of_executeMove hexec)).checkmate_iff hok.1
      hexec).mpr (.inl hking))

end Line

/-- The decisive score of the terminal test for a winner. -/
def decisive (b : Board) (ply : ℤ) (winner : Color) : ℤ :=
  if winner = b.side then mateScore - ply else -(mateScore - ply)

section Verdict

variable {d : ChessBoard} {b : Board}

theorem pieces_eq_zero_iff (h : Sim d b) {c : Color} {t : PieceType} :
    b.pieces c t = 0 ↔ d.pieces.filter (fun p => p.type = t ∧ p.color = c) = [] := by
  rw [← List.length_eq_zero_iff, ← h.popcount_eq]
  constructor
  · rintro hzero
    rw [hzero]
    decide
  · intro hcount
    rw [bb_eq_zero_iff]
    intro sq hsq
    by_contra hbit
    have hmem : sq ∈ bbSquares (b.pieces c t) := mem_bbSquares.mpr ⟨hsq, by simpa using hbit⟩
    rw [bbPopcount, List.length_eq_zero_iff] at hcount
    rw [bbSquares, hcount] at hmem
    cases hmem

/-- The number of men of a kind, as the two boards count them. -/
theorem Sim.popcount_countType (h : Sim d b) (c : Color) (t : PieceType) :
    bbPopcount (b.pieces c t) = countType (d.getPiecesOfColor c) t := by
  rw [h.popcount_eq, countType, ChessBoard.getPiecesOfColor, List.filter_filter]
  congr 2
  funext p
  exact Bool.decide_and _ _

theorem succLost_iff (h : Sim d b) (c : Color) : SuccLost b c ↔
    (countType (d.getPiecesOfColor c) .queen < 2 ∨ d.pawnsOf c = []) ∧
      b.heirPromoted c = false := by
  unfold SuccLost
  rw [h.popcount_countType, pieces_eq_zero_iff h]
  rfl

end Verdict

/-! ## Main result -/

/-- Along every line the terminal test gives the decisive score of the Dart winner, and none
without a winner, exactly on the positions where both sides have two queens, a king has been
promoted or a side has no pawn. -/
theorem succession_results_agree_iff (d : ChessBoard) (b : Board)
    (h : Follows ChessBoard.PlaysOn (ChessBoard.initial .succession) d b) (m : ChessMove)
    (hok : d.PlaysOn m) (d' : ChessBoard) (hexec : d.executeMove m = some d') (ply : ℤ) :
    succTerminalScore (boardMakeMove b (engineMove m)) ply =
      d'.getWinner.map (decisive (boardMakeMove b (engineMove m)) ply) ↔
    (∀ c, 2 ≤ countType (d'.getPiecesOfColor c) .queen) ∨ (∃ c, d'.kingsOf c ≠ []) ∨
      ∃ c, d'.pawnsOf c = [] := by
  have hopen : d.gameStatus ≠ .checkmate := by
    rcases hok.1 with hr | hr <;> rw [hr] <;> decide
  obtain ⟨hinv, hsim, hflags⟩ := h.succession hopen
  have hm := hinv.move hok.2 (ChessBoard.mem_of_executeMove hexec)
  have hsim' := hsim.succStep hinv hok.2 hexec
  have hheir := fun c => heirPromoted_engineMove (m := m) hsim hinv.mod c
  have hmate := hm.checkmate_iff hok.1 hexec
  obtain ⟨status, counter, rfl⟩ := hinv.executed hok.2 hexec
  generalize boardMakeMove b (engineMove m) = b' at hsim' hheir ⊢
  have hplace := ChessBoard.placement_settled_of_nil hinv.tidy hm.toSound hm.returnedQueen
    d.currentPlayer.opposite status counter
  have htidy := hsim'.tidy
  have hside : b'.side = d.currentPlayer.opposite := hsim'.side_eq
  have hmod : ¬ b'.mod ≠ .succession := not_not.mpr (hsim'.mod_eq.trans (by simp [hinv.mod]))
  generalize hd' : d.settled m d.currentPlayer.opposite status counter = d' at *
  have hturn : d'.currentPlayer = d.currentPlayer.opposite := by rw [← hd']; rfl
  -- the loser is to move, so the score of a winner is the lost one
  have hlost : decisive b' ply d.currentPlayer = -(mateScore - ply) :=
    if_neg (by rw [hside]; exact d.currentPlayer.ne_opposite)
  have hwon : d'.gameStatus = .checkmate →
      d'.getWinner.map (decisive b' ply) = some (-(mateScore - ply)) := by
    intro hs
    rw [ChessBoard.getWinner, if_pos hs, hturn, Color.opposite_opposite, Option.map_some, hlost]
  have hpawns : (∀ k, after d.placement m.view k ≠ some (d.currentPlayer.opposite, .pawn)) ↔
      d'.pawnsOf d.currentPlayer.opposite = [] := by
    rw [← not_iff_not, ← ne_eq (d'.pawnsOf _), ChessBoard.pawnsOf_ne_nil_iff htidy, hplace]
    push Not
    rfl
  rw [hpawns] at hmate
  unfold succTerminalScore
  rw [if_neg hmod, hside, Color.opposite_opposite]
  by_cases hking : ChessBoard.PromotesKing m
  · -- a promoted king
    have hset : b'.heirPromoted d.currentPlayer = true := by rw [hheir, if_pos ⟨rfl, hking⟩]
    rw [hwon (hmate.mpr (.inl hking)), if_pos hset]
    refine iff_of_true rfl (.inr (.inl ⟨d.currentPlayer, ?_⟩))
    rw [ChessBoard.kingsOf_ne_nil_iff htidy, hplace]
    refine ⟨m.toPos, ?_⟩
    rw [hm.after_to, show m.view.promo = some .king from hking]
    rfl
  · have hnone : ∀ c, b'.heirPromoted c = false := by
      intro c
      rw [hheir, if_neg fun hc => hking hc.2, hflags]
    rw [hnone, if_neg (by decide)]
    by_cases hleft : d'.pawnsOf d.currentPlayer.opposite = []
    · -- the last pawn of the enemy has been taken
      rw [hwon (hmate.mpr (.inr hleft)),
        if_pos ((succLost_iff hsim' _).mpr ⟨.inr hleft, hnone _⟩)]
      exact iff_of_true rfl (.inr (.inr ⟨_, hleft⟩))
    · -- no winner: the test has to see none, so no queen may be missing
      have hgoes : ¬ d'.gameStatus = .checkmate := by
        rw [hmate]
        exact not_or.mpr ⟨hking, hleft⟩
      have hown : d'.pawnsOf d.currentPlayer ≠ [] := by
        rw [ChessBoard.pawnsOf_ne_nil_iff htidy, hplace]
        exact hm.ownPawns hking
      have hpawn : ∀ c, d'.pawnsOf c ≠ [] := by
        intro c
        by_cases hc : c = d.currentPlayer
        · exact hc ▸ hown
        · exact Color.ne_iff_eq_opposite.mp hc ▸ hleft
      have hkingless : ∀ c, d'.kingsOf c = [] := by
        intro c
        by_contra hc
        obtain ⟨k, hk⟩ := (ChessBoard.kingsOf_ne_nil_iff htidy).mp hc
        rw [hplace] at hk
        exact hking (hm.promotesKing hk).1
      have hcount : ∀ c, SuccLost b' c ↔ ¬ 2 ≤ countType (d'.getPiecesOfColor c) .queen := by
        intro c
        rw [succLost_iff hsim', not_le]
        simp only [hpawn c, hnone c, or_false, and_true]
      rw [ChessBoard.getWinner, if_neg hgoes, Option.map_none]
      have hcond : ((∀ c, 2 ≤ countType (d'.getPiecesOfColor c) .queen) ∨
          (∃ c, d'.kingsOf c ≠ []) ∨ ∃ c, d'.pawnsOf c = []) ↔
          ¬ SuccLost b' d.currentPlayer.opposite ∧ ¬ SuccLost b' d.currentPlayer := by
        simp only [hcount, not_not, hkingless, hpawn, ne_eq, not_true_eq_false, exists_false,
          or_false]
        constructor
        · exact fun hall => ⟨hall _, hall _⟩
        · rintro ⟨henemy, hmine⟩ c
          by_cases hc : c = d.currentPlayer
          · exact hc ▸ hmine
          · exact Color.ne_iff_eq_opposite.mp hc ▸ henemy
      rw [hcond]
      split_ifs with h₁ h₂
      · exact iff_of_false nofun fun hno => hno.1 h₁
      · exact iff_of_false nofun fun hno => hno.2 h₂
      · exact iff_of_true rfl ⟨h₁, h₂⟩

/-- The first move of the game. -/
theorem succession_results_agree_start :
    succTerminalScore (boardMakeMove (startBoard .succession) (engineMove (firstStep 4))) 1 =
      ((ChessBoard.initial .succession).next (firstStep 4)).getWinner.map (decisive
        (boardMakeMove (startBoard .succession) (engineMove (firstStep 4))) 1) := by
  refine (succession_results_agree_iff _ _ (.handOver .start) (firstStep 4)
    ⟨.inl rfl, ChessBoard.clean_of_plain rfl rfl⟩ _
    (ChessBoard.executeMove_of_isValidMove (by decide +kernel)) 1).mpr (.inl fun c => ?_)
  cases c <;> decide +kernel

/-- White's queen goes where a pawn can take it. -/
def queenLine : List ChessMove :=
  [firstStep 4, ChessMove.simple ⟨6, 6⟩ ⟨5, 6⟩ ⟨.pawn, .black, ⟨6, 6⟩, false⟩ none,
    ChessMove.simple ⟨0, 3⟩ ⟨4, 7⟩ ⟨.queen, .white, ⟨0, 3⟩, false⟩ none]

/-- The pawn takes the queen. -/
def queenLost : ChessMove :=
  ChessMove.simple ⟨5, 6⟩ ⟨4, 7⟩ ⟨.pawn, .black, ⟨5, 6⟩, true⟩
    (some ⟨.queen, .white, ⟨4, 7⟩, true⟩)

/-- After the loss of a queen the game goes on in Dart; the search takes white for lost. -/
theorem queen_lost_ends_search_only : ∃ d b d',
    Follows ChessBoard.PlaysOn (ChessBoard.initial .succession) d b ∧ d.PlaysOn queenLost ∧
    d.executeMove queenLost = some d' ∧ d'.getWinner = none ∧
    succTerminalScore (boardMakeMove b (engineMove queenLost)) 1 = some (-(mateScore - 1)) := by
  refine ⟨queenLine.foldl ChessBoard.next (ChessBoard.initial .succession), _, _,
    .handOver (ChessBoard.Reached.line queenLine _ .start (by decide +kernel)),
    ⟨by decide +kernel, ChessBoard.clean_of_plain rfl rfl⟩,
    ChessBoard.executeMove_of_isValidMove (by decide +kernel), by decide +kernel,
    by decide +kernel⟩

end ChessRecast.Bridge
