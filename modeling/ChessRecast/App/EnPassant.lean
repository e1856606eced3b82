import ChessRecast.App.ExecutionTheorems

/-!
# The life of an en-passant target in the Dart application

`makeMove` hands the new target to `copyWith`, where `null` means "keep". So a target goes away
only when the next two-square pawn move replaces it, and an en-passant capture can be offered
long after the double step.
-/

namespace ChessRecast.App

open Rules

/-- A pawn moves by two rows. -/
def ChessMove.IsTwoSquare (m : ChessMove) : Prop :=
  m.piece.type = .pawn ∧ |m.toPos.row - m.fromPos.row| = 2

instance (m : ChessMove) : Decidable m.IsTwoSquare := inferInstanceAs (Decidable (_ ∧ _))

/-- The square that a two-square move passes over. -/
def ChessMove.skipped (m : ChessMove) : Position :=
  ⟨m.fromPos.row + (m.toPos.row - m.fromPos.row) / 2, m.fromPos.col⟩

theorem computeEnPassantTargetForMove_eq (m : ChessMove) :
    computeEnPassantTargetForMove m = if m.IsTwoSquare then some m.skipped else none := by
  unfold computeEnPassantTargetForMove ChessMove.IsTwoSquare
  by_cases hp : m.piece.type = .pawn
  · by_cases htwo : |m.toPos.row - m.fromPos.row| = 2
    · have hmid : (m.fromPos.row + m.toPos.row).tdiv 2 =
          m.fromPos.row + (m.toPos.row - m.fromPos.row) / 2 := by
        have hsum : m.fromPos.row + m.toPos.row =
            2 * (m.fromPos.row + (m.toPos.row - m.fromPos.row) / 2) := by
          rcases (abs_eq (by norm_num)).mp htwo with h | h <;> omega
        rw [hsum, Int.mul_tdiv_cancel_left _ (by norm_num)]
      simp [hp, htwo, hmid, ChessMove.skipped]
    · simp [hp, htwo]
  · simp [hp]

namespace ChessBoard

/-- One move of a game: an offered move played by `makeMove`, where `ok` holds. -/
def Plays (ok : ChessBoard → ChessMove → Prop) (d d' : ChessBoard) : Prop :=
  ∃ position, ∃ m ∈ d.getValidMovesFor position, ok d m ∧ d' = d.makeMove m

/-- The move sets a target of its own, or there is none to keep. -/
def FreshTarget (d : ChessBoard) (m : ChessMove) : Prop :=
  m.IsTwoSquare ∨ d.enPassantTarget = none

/-- The last move was the double step of an enemy pawn, which stands where it went. -/
structure AfterDoubleStep (d : ChessBoard) (last : ChessMove) : Prop where
  is_last : d.moveHistory.getLast? = some last
  two_square : last.IsTwoSquare
  enemy : last.piece.color = d.currentPlayer.opposite
  stands : d.getPieceAt last.toPos = some (last.piece.movedTo last.toPos)

/-- Every target stems from the last move, a straight double step. -/
def TargetSound (d : ChessBoard) : Prop :=
  ∀ t, d.enPassantTarget = some t → ∃ last, d.AfterDoubleStep last ∧ last.skipped = t ∧
    last.toPos = last.fromPos.offset (last.piece.color.forward * 2) 0

/-! ## Offered pawn moves -/

section Offered

variable {d : ChessBoard} {m : ChessMove} {position : Position}

/-- An offered double step or en-passant capture comes from the pawn generator: a self-capture
goes one row ahead and is neither. -/
theorem offered_pawn (hm : m ∈ d.getValidMovesFor position)
    (hkind : m.isEnPassant = true ∨ m.IsTwoSquare) :
    m.piece.color = d.currentPlayer ∧ m.piece.type = .pawn ∧ d.gameType ≠ .mercenary ∧
      m ∈ d.getPawnMoves m.piece := by
  obtain ⟨piece, hpiece, hcolor, hfilter, -⟩ := mem_getValidMovesFor.mp hm
  have hof := moveOf_applyRulesetFilter hfilter
  obtain rfl := hof.piece_eq
  have hp : m.piece.type = .pawn := by
    rcases hkind with hep | htwo
    · by_contra hne
      rw [(hof.plain hne).1] at hep
      cases hep
    · exact htwo.1
  refine ⟨hcolor, hp, ?_⟩
  rcases mem_applyRulesetFilter_cases hfilter with h | ⟨-, f, -, hreach, heq⟩ | ⟨hqueen, -⟩
  · rw [getPotentialMoves, hp] at h
    refine ⟨?_, h⟩
    intro hmod
    rw [getPawnMoves, if_pos hmod] at h
    obtain ⟨toPos, -, hstep, -, -, heq⟩ := (mem_mercenaryPawnMoves hmod).mp h
    rcases hkind with hep | ⟨-, htwo⟩
    · rw [heq] at hep
      cases hep
    · have hto : m.toPos = toPos := by
        rw [heq]
        rfl
      rw [hto, hof.from_eq] at htwo
      have := hstep.1
      omega
  · exfalso
    rcases hkind with hep | ⟨-, htwo⟩
    · rw [heq] at hep
      cases hep
    · simp only [canPieceReach, hp, decide_eq_true_eq] at hreach
      rw [heq, ChessMove.simple, hreach.1, add_sub_cancel_left] at htwo
      cases hc : m.piece.color <;> rw [hc] at htwo <;> simp [Color.forward] at htwo
  · rw [hp] at hqueen
    cases hqueen

/-- An offered move by two rows is the double push, over an empty square. -/
theorem offered_doublePush (hm : m ∈ d.getValidMovesFor position) (htwo : m.IsTwoSquare) :
    m.fromPos.row = doubleRow m.piece.color ∧
      d.getPieceAt (m.fromPos.offset m.piece.color.forward 0) = none ∧
      m.toPos = m.fromPos.offset (m.piece.color.forward * 2) 0 ∧ d.getPieceAt m.toPos = none ∧
      m = d.plainMove m.piece m.toPos := by
  obtain ⟨-, hp, hmod, hpawn⟩ := offered_pawn hm (.inr htwo)
  -- every other pawn move goes one row ahead
  have hone : ∀ toPos : Position, toPos.row = m.piece.position.row + m.piece.color.forward →
      m.fromPos = m.piece.position → m.toPos ≠ toPos := by
    intro toPos hrow hfrom heq
    have hdist := htwo.2
    rw [heq, hrow, hfrom, add_sub_cancel_left] at hdist
    cases hc : m.piece.color <;> rw [hc] at hdist <;> simp [Color.forward] at hdist
  have hfrom := (moveOf_getPawnMoves hp hpawn).from_eq
  rcases (mem_getPawnMoves hmod).mp hpawn with h | ⟨toPos, -, hstep, h | h⟩
  · obtain ⟨-, hnext, h | ⟨hrow, -, hempty, heq⟩⟩ := (mem_pawnForward hp).mp h
    · exact absurd h.toPos_eq (hone _ rfl hfrom)
    · have hto : m.toPos = m.piece.position.offset (m.piece.color.forward * 2) 0 := by
        rw [heq]
        rfl
      rw [hto, hfrom]
      exact ⟨hrow, hnext, rfl, hempty, heq⟩
  · exact absurd ((mem_pawnDiagonal hp).mp h).2.toPos_eq (hone _ hstep.1 hfrom)
  · obtain ⟨-, captured, -, -, heq⟩ := mem_pawnEnPassant.mp h
    exact absurd (by rw [heq]; rfl) (hone _ hstep.1 hfrom)

theorem offered_twoSquare (hm : m ∈ d.getValidMovesFor position) (htwo : m.IsTwoSquare) :
    m.toPos = m.fromPos.offset (m.piece.color.forward * 2) 0 ∧ d.getPieceAt m.toPos = none ∧
      m = d.plainMove m.piece m.toPos := (offered_doublePush hm htwo).2.2

/-- An offered en-passant capture: the pawn stands beside the piece that it takes, diagonally
behind the target. -/
theorem offered_enPassant (hm : m ∈ d.getValidMovesFor position) (hep : m.isEnPassant = true) :
    ∃ t, d.enPassantTarget = some t ∧ m.piece.color = d.currentPlayer ∧
      PawnStep m.piece.color m.fromPos t ∧
      m.capturedPiece = d.getPieceAt ⟨m.fromPos.row, t.col⟩ ∧ m.capturedPiece.isSome := by
  obtain ⟨hcolor, hp, hmod, hpawn⟩ := offered_pawn hm (.inl hep)
  have hplain : ∀ toPos, ¬ d.Arrives m.piece toPos m := by
    intro toPos h
    unfold Arrives at h
    split at h
    · obtain ⟨letter, -, h⟩ := h
      rw [h] at hep
      cases hep
    · rw [h] at hep
      cases hep
  rcases (mem_getPawnMoves hmod).mp hpawn with h | ⟨toPos, -, hstep, h | h⟩
  · obtain ⟨-, -, h | ⟨-, -, -, heq⟩⟩ := (mem_pawnForward hp).mp h
    · exact absurd h (hplain _)
    · rw [heq] at hep
      cases hep
  · exact absurd ((mem_pawnDiagonal hp).mp h).2 (hplain _)
  · obtain ⟨htarget, captured, hcaptured, -, heq⟩ := mem_pawnEnPassant.mp h
    have hfrom := (moveOf_getPawnMoves hp hpawn).from_eq
    refine ⟨toPos, htarget, hcolor, hfrom ▸ hstep, ?_, ?_⟩
    · rw [hfrom, hcaptured, heq]
      rfl
    · rw [heq]
      rfl

end Offered

/-! ## Runs -/

section Runs

variable {d : ChessBoard} {m : ChessMove} {position : Position}

/-- The target after a move is the one the rules ask for exactly when nothing stale is kept. -/
theorem enPassantTarget_makeMove_iff : (d.makeMove m).enPassantTarget =
    (if m.IsTwoSquare then some m.skipped else none) ↔ d.FreshTarget m := by
  rw [makeMove_enPassantTarget, computeEnPassantTargetForMove_eq]
  unfold FreshTarget
  by_cases htwo : m.IsTwoSquare <;> simp [htwo]

/-- After a double push the pawn stands on its target square. -/
theorem getPieceAt_makeMove_twoSquare (hm : m ∈ d.getValidMovesFor position)
    (htwo : m.IsTwoSquare) :
    (d.makeMove m).getPieceAt m.toPos = some (m.piece.movedTo m.toPos) := by
  obtain ⟨-, hempty, heq⟩ := offered_twoSquare hm htwo
  have hpieces : d.makePieces m =
      (d.pieces.filter fun piece => piece.position ≠ m.fromPos) ++ [m.piece.movedTo m.toPos] := by
    rw [heq, plainMove, hempty]
    rfl
  unfold getPieceAt at hempty ⊢
  rw [makeMove_pieces, hpieces, Keyed.lookup_append_singleton, Keyed.lookup_filter_ne, hempty]
  simp [ChessPiece.movedTo]

/-- A move that keeps nothing stale leaves a sound target, whatever there was before. -/
theorem targetSound_makeMove (hm : m ∈ d.getValidMovesFor position) (hok : d.FreshTarget m) :
    (d.makeMove m).TargetSound := by
  intro t ht
  rw [enPassantTarget_makeMove_iff.mpr hok] at ht
  split at ht
  · rename_i htwo
    refine ⟨m, ⟨by simp, htwo, ?_, getPieceAt_makeMove_twoSquare hm htwo⟩, Option.some.inj ht,
      (offered_twoSquare hm htwo).1⟩
    rw [makeMove_currentPlayer, Color.opposite_opposite]
    exact (offered_pawn hm (.inr htwo)).1
  · cases ht

theorem TargetSound.run {start : ChessBoard} (hs : start.TargetSound)
    (h : Relation.ReflTransGen (Plays FreshTarget) start d) : d.TargetSound := by
  induction h with
  | refl => exact hs
  | tail _ hstep _ =>
    obtain ⟨position, m, hm, hok, rfl⟩ := hstep
    exact targetSound_makeMove hm hok

/-- With a sound target, an en-passant capture takes the enemy pawn that has just stepped. -/
theorem TargetSound.captures (hd : d.TargetSound) (hm : m ∈ d.getValidMovesFor position)
    (hep : m.isEnPassant = true) : ∃ last, d.AfterDoubleStep last ∧
      m.capturedPiece = some (last.piece.movedTo last.toPos) := by
  obtain ⟨t, ht, hcolor, hstep, hcaptured, -⟩ := offered_enPassant hm hep
  obtain ⟨last, hlast, hskip, hto⟩ := hd t ht
  refine ⟨last, hlast, ?_⟩
  have hsquare : (⟨m.fromPos.row, t.col⟩ : Position) = last.toPos := by
    have hrow := hstep.1
    rw [← hskip, hto, Position.eq_iff]
    rw [← hskip, hcolor] at hrow
    unfold ChessMove.skipped at hrow ⊢
    rw [hto] at hrow
    simp only [Position.offset_row, Position.offset_col, hlast.enemy] at hrow ⊢
    cases hc : d.currentPlayer <;> rw [hc] at hrow <;>
      simp only [Color.opposite, Color.forward] at hrow ⊢ <;> omega
  rw [hcaptured, hsquare, hlast.stands]

end Runs

/-! ## Results -/

/-- `makeMove` sets the right target exactly on moves that keep nothing stale. In games made of
such moves every en-passant capture that is offered follows the double step of an enemy pawn and
takes that pawn. -/
theorem enPassant_lives_one_move (d : ChessBoard) :
    (∀ m : ChessMove, (d.makeMove m).enPassantTarget =
      (if m.IsTwoSquare then some m.skipped else none) ↔ d.FreshTarget m) ∧
    (∀ start : ChessBoard, start.enPassantTarget = none →
      Relation.ReflTransGen (Plays FreshTarget) start d →
      ∀ (position : Position) (m : ChessMove), m ∈ d.getValidMovesFor position →
        m.isEnPassant = true → ∃ last, d.AfterDoubleStep last ∧
          last.piece.color ≠ d.currentPlayer ∧
          m.capturedPiece = some (last.piece.movedTo last.toPos)) := by
  refine ⟨fun m => enPassantTarget_makeMove_iff, ?_⟩
  intro start hstart hrun position m hm hep
  have hsound : start.TargetSound := by
    intro t ht
    rw [hstart] at ht
    cases ht
  obtain ⟨last, hlast, hcaptured⟩ := (hsound.run hrun).captures hm hep
  exact ⟨last, hlast, Color.ne_iff_eq_opposite.mpr hlast.enemy, hcaptured⟩

/-- A white pawn waits on e5, black may step from d7 to d5. -/
def passantBoard : ChessBoard where
  pieces := [⟨.king, .white, ⟨0, 4⟩, false⟩, ⟨.pawn, .white, ⟨4, 4⟩, true⟩,
    ⟨.king, .black, ⟨7, 4⟩, false⟩, ⟨.pawn, .black, ⟨6, 3⟩, false⟩]
  currentPlayer := .black

/-- The double step from d7 to d5. -/
def passantStep : ChessMove :=
  ChessMove.simple ⟨6, 3⟩ ⟨4, 3⟩ ⟨.pawn, .black, ⟨6, 3⟩, false⟩ none

/-- The capture of the pawn on d5. -/
def passantCapture : ChessMove :=
  ChessMove.enPassant ⟨4, 4⟩ ⟨5, 3⟩ ⟨.pawn, .white, ⟨4, 4⟩, true⟩ ⟨.pawn, .black, ⟨4, 3⟩, true⟩

theorem enPassant_lives_one_move_passantBoard :
    passantCapture ∈ (passantBoard.makeMove passantStep).getValidMovesFor ⟨4, 4⟩ ∧
    ∃ last, (passantBoard.makeMove passantStep).AfterDoubleStep last ∧
      last.piece.color ≠ (passantBoard.makeMove passantStep).currentPlayer ∧
      passantCapture.capturedPiece = some (last.piece.movedTo last.toPos) := by
  have hm : passantCapture ∈ (passantBoard.makeMove passantStep).getValidMovesFor ⟨4, 4⟩ := by
    decide +kernel
  refine ⟨hm, (enPassant_lives_one_move _).2 passantBoard rfl ?_ ⟨4, 4⟩ passantCapture hm rfl⟩
  refine Relation.ReflTransGen.single ⟨⟨6, 3⟩, passantStep, ?_, .inr rfl, rfl⟩
  decide +kernel

/-- A sequence of moves, each offered where it is played. -/
def OfferedLine : ChessBoard → List ChessMove → Prop
  | _, [] => True
  | d, m :: ms => m ∈ d.getValidMovesFor m.fromPos ∧ OfferedLine (d.makeMove m) ms

instance instDecidableOfferedLine : (d : ChessBoard) → (ms : List ChessMove) →
    Decidable (OfferedLine d ms)
  | _, [] => inferInstanceAs (Decidable True)
  | d, m :: ms =>
    have := instDecidableOfferedLine (d.makeMove m) ms
    inferInstanceAs (Decidable (_ ∧ _))

/-- A simple pawn move that captures nothing. -/
def pawnAdvance (color : Color) (fromPos toPos : Position) (hasMoved : Bool) : ChessMove :=
  ChessMove.simple fromPos toPos ⟨.pawn, color, fromPos, hasMoved⟩ none

/-- 1. e2-e4 d7-d6 2. a2-a3 d6-d5 3. h2-h3 d5-d4 4. a3-a4 -/
def staleLine : List ChessMove :=
  [pawnAdvance .white ⟨1, 4⟩ ⟨3, 4⟩ false, pawnAdvance .black ⟨6, 3⟩ ⟨5, 3⟩ false,
   pawnAdvance .white ⟨1, 0⟩ ⟨2, 0⟩ false, pawnAdvance .black ⟨5, 3⟩ ⟨4, 3⟩ true,
   pawnAdvance .white ⟨1, 7⟩ ⟨2, 7⟩ false, pawnAdvance .black ⟨4, 3⟩ ⟨3, 3⟩ true,
   pawnAdvance .white ⟨2, 0⟩ ⟨3, 0⟩ true]

/-- Three moves after e2-e4 black may still take on e3 en passant. -/
theorem stale_target_captured :
    OfferedLine (initial .classic) staleLine ∧
    (staleLine.foldl makeMove (initial .classic)).enPassantTarget = some ⟨2, 4⟩ ∧
    (¬ ∃ last, (staleLine.foldl makeMove (initial .classic)).AfterDoubleStep last) ∧
    ChessMove.enPassant ⟨3, 3⟩ ⟨2, 4⟩ ⟨.pawn, .black, ⟨3, 3⟩, true⟩ ⟨.pawn, .white, ⟨3, 4⟩, true⟩ ∈
      (staleLine.foldl makeMove (initial .classic)).getValidMovesFor ⟨3, 3⟩ := by
  refine ⟨by decide +kernel, by decide +kernel, ?_, by decide +kernel⟩
  rintro ⟨last, hlast⟩
  have hhist : (staleLine.foldl makeMove (initial .classic)).moveHistory.getLast? =
      some (pawnAdvance .white ⟨2, 0⟩ ⟨3, 0⟩ true) := by decide +kernel
  obtain rfl := Option.some.inj (hhist.symm.trans hlast.is_last)
  exact absurd hlast.two_square (by decide)

end ChessBoard

end ChessRecast.App
