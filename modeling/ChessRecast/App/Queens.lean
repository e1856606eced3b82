import ChessRecast.App.Stacks

/-!
# The queens of Save the Queen

A captured prisoner goes back to its prison, which the filter of the mod demands to be free. So a
move that does not win leaves each side with its one queen.
-/

namespace ChessRecast.App

open Rules

namespace ChessBoard

/-- One king and one queen on each side, in Save the Queen. -/
structure QueenedStacks (d : ChessBoard) : Prop extends d.KingedStacks where
  mod : d.gameType = .saveQueen
  queens : ∀ c, ∃ q, d.menOf .queen c = [q]

section Filter

variable {d : ChessBoard} {m : ChessMove} {piece q : ChessPiece}

/-- A piece other than a queen takes a prisoner only if its prison is free. -/
theorem prison_free_of_takesQueenOk (hok : d.takesQueenOk m = true)
    (hat : d.getPieceAt m.toPos = some q) (hq : q.type = .queen)
    (hhalf : ¬ q.color.OwnHalf m.toPos.row) :
    (d.pieces.any fun p => p.position = queenPrison q.color) = false := by
  have hpos := (mem_of_getPieceAt hat).2
  unfold takesQueenOk at hok
  rw [hat] at hok
  dsimp only at hok
  rw [if_pos hq, hpos] at hok
  split at hok
  · cases hok
  · rw [Bool.not_eq_true'] at hok
    exact hok

/-- A queen takes a queen only on its prison square, which is the way out. -/
theorem escapes_of_queenTakesQueenOk (hok : d.queenTakesQueenOk piece m = true)
    (hat : d.getPieceAt m.toPos = some q) (hq : q.type = .queen) (hpiece : m.piece = piece)
    (htype : piece.type = .queen) (hcolor : q.color = piece.color.opposite) : Escapes m := by
  unfold queenTakesQueenOk at hok
  rw [hat] at hok
  dsimp only at hok
  rw [if_pos hq] at hok
  split at hok
  · cases hok
  · rename_i hprison
    rw [not_not, hcolor] at hprison
    refine ⟨by rw [hpiece]; exact htype, ?_, by rw [hpiece]; exact hprison⟩
    rw [hpiece, hprison]
    cases piece.color <;> decide

theorem promotedType_ne_queen (hmod : d.gameType = .saveQueen) {c : Color} {toPos : Position} :
    ∀ letter ∈ d.getPromotionPieces c toPos, promotedType (some letter) ≠ .queen := by
  rw [getPromotionPieces, hmod]
  simp [promotedType]

end Filter

section Step

variable {d d' : ChessBoard} {m : ChessMove} {q : ChessPiece}

/-- A captured queen is the enemy's and the first piece of the target square. -/
theorem KingedStacks.takenQueen (h : d.KingedStacks) (hmod : d.gameType = .saveQueen)
    (hmem : m ∈ d.getValidMovesFor m.fromPos) (hcap : m.capturedPiece = some q)
    (hq : q.type = .queen) : m.isEnPassant = false ∧ d.getPieceAt m.toPos = some q ∧
      q.color = d.currentPlayer.opposite := by
  have hm := moving_of_mem h.valid hmem
  have hep : m.isEnPassant = false := by
    rw [← Bool.not_eq_true]
    intro hep
    obtain ⟨-, -, -, q', hq', hpawn, -⟩ := hm.passant hep
    rw [hcap] at hq'
    rw [← Option.some.inj hq', hq] at hpawn
    cases hpawn
  have hat : d.getPieceAt m.toPos = some q := by
    rcases hm.taken hep with htaken | ⟨hff, -⟩
    · rw [← htaken, hcap]
    · rw [hmod] at hff
      cases hff
  refine ⟨hep, hat, ?_⟩
  obtain ⟨piece, hfrom, hcolor, hfilter, -⟩ := mem_getValidMovesFor.mp hmem
  have hown := notOwn_of_filtered (h.valid _ (mem_of_getPieceAt hfrom).1) (by rw [hmod]; decide)
    (fun hyes => by rw [hep] at hyes; cases hyes) hfilter q hat
  rw [hcolor] at hown
  exact Color.ne_iff_eq_opposite.mp hown

/-- Where the move does not win, a captured queen goes back to its prison. -/
theorem KingedStacks.returns (h : d.KingedStacks) (hmod : d.gameType = .saveQueen)
    (hmem : m ∈ d.getValidMovesFor m.fromPos) (hcap : m.capturedPiece = some q)
    (hq : q.type = .queen) (hwin : ¬ d.WinsNow m) : d.Returns m q := by
  obtain ⟨-, hat, henemy⟩ := h.takenQueen hmod hmem hcap hq
  have hesc : ¬ Escapes m := fun hesc => hwin (.inl ⟨hmod, .inl hesc⟩)
  have hhalf : ¬ q.color.OwnHalf m.toPos.row :=
    fun hhalf => hwin (.inl ⟨hmod, .inr ⟨q, hcap, hq, hhalf⟩⟩)
  refine ⟨hmod, hesc, hq, hhalf, ?_⟩
  obtain ⟨piece, hfrom, hcolor, hfilter, -⟩ := mem_getValidMovesFor.mp hmem
  have hpiece : m.piece = piece := by
    have hholds := (moving_of_mem h.valid hmem).from_holds
    rw [hfrom] at hholds
    exact (Option.some.inj hholds).symm
  rw [applyRulesetFilter, hmod] at hfilter
  dsimp only at hfilter
  unfold saveTheQueenFilter at hfilter
  by_cases htype : piece.type = .queen
  · rw [if_pos htype] at hfilter
    dsimp only at hfilter
    split at hfilter
    · -- a free queen takes only on the prison square
      have hok := (List.mem_filter.mp (List.mem_filter.mp hfilter).1).2
      rw [← hcolor] at henemy
      exact absurd (escapes_of_queenTakesQueenOk hok hat hq hpiece htype henemy) hesc
    · -- a prisoner takes nothing
      obtain ⟨toPos, -, -, hfree, rfl⟩ := mem_prisonerMoves.mp hfilter
      rw [show d.getPieceAt toPos = some q from hat] at hfree
      cases hfree
  · rw [if_neg htype] at hfilter
    exact prison_free_of_takesQueenOk (List.mem_filter.mp hfilter).2 hat hq hhalf

theorem placed_queen (hmod : d.gameType = .saveQueen) (hm : d.Moving m)
    (h : (placedPiece m).type = .queen) : m.piece.type = .queen := by
  unfold placedPiece at h
  by_cases hpromo : m.isPromotion = true
  · obtain ⟨-, letter, hletter, heq⟩ := hm.promotes hpromo
    rw [if_pos hpromo, heq] at h
    exact absurd h (promotedType_ne_queen hmod letter hletter)
  · rw [if_neg hpromo] at h
    exact h

/-- A queen that is put back was the one queen of its colour, and taken on the target square. -/
theorem QueenedStacks.returned_queens (h : d.QueenedStacks) (hmem : m ∈ d.getValidMovesFor m.fromPos)
    {c : Color} (hq : d.menOf .queen c = [q])
    (hno : ¬ (m.isEnPassant = false ∧ q.position = m.toPos)) :
    (d.returnedQueen m).filter (fun p => p.type = .queen ∧ p.color = c) = [] := by
  rcases returnedQueen_cases (d := d) (m := m) with hnil | ⟨q', hcap, hret, heq⟩
  · rw [hnil]
    rfl
  · obtain ⟨hep, hat, -⟩ := h.takenQueen h.mod hmem hcap hret.2.2.1
    obtain ⟨hin, hpos⟩ := mem_of_getPieceAt hat
    rw [heq]
    refine List.filter_cons_of_neg fun htest => hno ⟨hep, ?_⟩
    obtain ⟨-, hcolor⟩ := of_decide_eq_true htest
    rw [← eq_of_menOf hq hin hret.2.2.1 hcolor]
    exact hpos

/-- A move that does not win leaves each side with one queen. -/
theorem QueenedStacks.queens_next (h : d.QueenedStacks) (hmem : m ∈ d.getValidMovesFor m.fromPos)
    (hwin : ¬ d.WinsNow m) (c : Color) : ∃ q, (d.next m).menOf .queen c = [q] := by
  have hm := moving_of_mem h.valid hmem
  obtain ⟨q, hq⟩ := h.queens c
  obtain ⟨hin, htype, hcolor⟩ := mem_of_menOf hq
  obtain ⟨hpiece, hat⟩ := hm.piece_mem
  have hnotPawn : q.type ≠ .pawn := by
    rw [htype]
    decide
  rw [h.menOf_next hm (h.fromHome hm) (by decide) (by decide), staying_men hq]
  by_cases hmoved : m.piece = q
  · -- the queen itself moves
    have hgone : q ∉ d.stayingPieces m := fun hstay =>
      (mem_stayingPieces.mp hstay).2.1 (by rw [← hmoved]; exact hat)
    have hplaced : [placedPiece m].filter (fun p => p.type = .queen ∧ p.color = c) =
        [placedPiece m] := by
      refine List.filter_cons_of_pos (decide_eq_true ⟨?_, by rw [placedPiece_color, hmoved, hcolor]⟩)
      unfold placedPiece
      rw [if_neg fun hpromo => hnotPawn (by rw [← hmoved]; exact (hm.promotes hpromo).1)]
      show m.piece.type = .queen
      rw [hmoved, htype]
    have hback := h.returned_queens hmem hq fun hto =>
      hm.from_ne_to (by rw [← hat, hmoved]; exact hto.2)
    rw [if_neg hgone, hplaced, hback]
    exact ⟨placedPiece m, rfl⟩
  · rw [placed_other hm hq hmoved (placed_queen h.mod hm), List.append_nil]
    by_cases htaken : m.isEnPassant = false ∧ q.position = m.toPos
    · -- the queen is taken and comes back
      rw [if_neg fun hstay => (h.stays_iff hm hin hnotPawn hmoved).mp hstay htaken]
      have hcap : m.capturedPiece = some q := by
        rcases hm.taken htaken.1 with hcap | ⟨hff, -⟩
        · rw [hcap, ← htaken.2]
          exact h.getPieceAt_of_mem hin hnotPawn
        · rw [h.mod] at hff
          cases hff
      have hret := h.returns h.mod hmem hcap htype hwin
      unfold returnedQueen
      rw [hcap]
      dsimp only
      rw [if_pos hret, List.nil_append]
      refine ⟨_, List.filter_cons_of_pos (decide_eq_true ?_)⟩
      exact ⟨htype, hcolor⟩
    · rw [if_pos ((h.stays_iff hm hin hnotPawn hmoved).mpr htaken),
        h.returned_queens hmem hq htaken]
      exact ⟨q, rfl⟩

end Step

theorem queenedStacks_initial : (initial .saveQueen).QueenedStacks where
  toKingedStacks := kingedStacks_initial ⟨by decide, by decide⟩
  mod := rfl
  queens := by
    intro c
    cases c <;> exact ⟨_, rfl⟩

/-- A move that wins by the rules of the mod ends the game. -/
theorem not_winsNow_of_running {d : ChessBoard} {m : ChessMove} (h : (d.next m).Running) :
    ¬ d.WinsNow m := by
  intro hwin
  have hplayed := gameStatus_played_of_winsNow hwin
  unfold next at h
  rcases updateGameStatus_cases (d.played m) with ⟨-, c, -, hup⟩ | ⟨-, hup⟩
  · rw [hup] at h
    exact absurd (.inl rfl) h.not_over
  · rw [hup] at h
    refine absurd (.inl ?_) h.not_over
    show (d.played m).verdict = _
    rw [verdict_of_over (.inl hplayed), hplayed]

theorem Reached.queenedStacks {ok : ChessBoard → ChessMove → Prop} {d : ChessBoard}
    (h : Reached ok (initial .saveQueen) d) (hrun : d.Running) : d.QueenedStacks := by
  induction h with
  | start => exact queenedStacks_initial
  | @step d d' m _ _ hexec ih =>
    have hmem := mem_of_executeMove hexec
    obtain rfl := eq_next_of_executeMove hexec
    have hbefore := ih (running_of_next hrun)
    exact ⟨hbefore.step hexec hrun, by rw [next_gameType]; exact hbefore.mod,
      hbefore.queens_next hmem (not_winsNow_of_running hrun)⟩

end ChessBoard

end ChessRecast.App
