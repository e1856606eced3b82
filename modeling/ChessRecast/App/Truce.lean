import ChessRecast.App.Placement
import ChessRecast.App.Winner

/-!
# The phase of Truce

The truce is not a state of the board: `isTruceBroken` asks anew, for the side to move, whether a
piece that has not moved has a truce move. Its own generator and the normal one offer the same truce
moves, castling without the flag apart. A side that has run out of truce moves therefore breaks the
truce for itself only, unless the pieces of the other side have all moved.
-/

namespace ChessRecast.App

open Rules

namespace ChessBoard

/-! ## Truce moves -/

/-- A move that the truce allows: by a piece that has not moved, without capture and check. -/
def TruceMove (d : ChessBoard) (m : ChessMove) : Prop :=
  ∃ p ∈ d.getPiecesOfColor d.currentPlayer, d.pieceHasMoved p = false ∧
    m ∈ d.getPotentialMoves p ∧ m.capturedPiece = none ∧ d.moveGivesCheck m = false

/-- A king that has not moved and may castle by the squares has the flag. -/
def FlagsShown (d : ChessBoard) : Prop :=
  ∀ p ∈ d.getPiecesOfColor d.currentPlayer, d.pieceHasMoved p = false → p.type = .king →
    ∀ w : Wing, d.canCastleTo p.color w = true → d.castleFlag p.color w = true

section Candidates

variable {d : ChessBoard} {m : ChessMove} {p : ChessPiece}

theorem isTruceActive_iff : d.isTruceActive = true ↔
    ∃ p ∈ d.getPiecesOfColor d.currentPlayer, d.pieceHasMoved p = false ∧
      ∃ m ∈ d.candidateTruceMoves p, d.moveGivesCheck m = false := by
  have hexhausted : ∀ p, (d.pieceHasMoved p || !d.hasLegalTruceMove p) = true ↔
      ¬ (d.pieceHasMoved p = false ∧
        ∃ m ∈ d.candidateTruceMoves p, d.moveGivesCheck m = false) := by
    intro p
    unfold hasLegalTruceMove
    rw [Bool.or_eq_true, Bool.not_eq_true', List.any_eq_false, not_and_or, Bool.not_eq_false]
    simp
  have hbroken : d.isTruceBroken = true ↔ ∀ p ∈ d.getPiecesOfColor d.currentPlayer,
      (d.pieceHasMoved p || !d.hasLegalTruceMove p) = true := by
    unfold isTruceBroken
    dsimp only
    split
    · rename_i hempty
      rw [List.isEmpty_iff.mp hempty]
      simp
    · rw [decide_eq_true_eq, ← List.length_filter_eq_length_iff]
      have hle := List.length_filter_le (fun p => d.pieceHasMoved p || !d.hasLegalTruceMove p)
        (d.getPiecesOfColor d.currentPlayer)
      omega
  unfold isTruceActive
  rw [Bool.not_eq_true', ← Bool.not_eq_true, hbroken]
  simp only [hexhausted, not_forall, not_not, exists_prop]

/-- The directions of a slider may be listed in any order. -/
theorem mem_generateSlidingMoves_of_perm {dirs dirs' : List (ℤ × ℤ)} (h : dirs.Perm dirs') :
    m ∈ d.generateSlidingMoves p dirs ↔ m ∈ d.generateSlidingMoves p dirs' := by
  unfold generateSlidingMoves
  simp only [List.mem_flatMap, h.mem_iff]

theorem mem_generateStepMoves_of_perm {offsets offsets' : List (ℤ × ℤ)}
    (h : offsets.Perm offsets') :
    m ∈ d.generateStepMoves p offsets ↔ m ∈ d.generateStepMoves p offsets' := by
  unfold generateStepMoves
  simp only [List.mem_flatMap, h.mem_iff]

theorem pawnTruceMoves_eq : d.pawnTruceMoves p = d.pawnForward p := by
  have hstep : ∀ (z : Position) (options : List Char),
      createMovesWithPromotionCheck p z none options =
        if z.row = lastRank p.color then createMovesWithPromotionCheck p z none options
        else [ChessMove.simple p.position z p none] := by
    intro z options
    split
    · rfl
    · rename_i hlast
      exact if_neg fun h => hlast h.2
  unfold pawnTruceMoves pawnForward
  dsimp only
  rw [← hstep]

theorem Arrives.captured_eq {z : Position} (h : d.Arrives p z m) :
    m.capturedPiece = d.getPieceAt z := by
  unfold Arrives at h
  split at h
  · obtain ⟨letter, -, rfl⟩ := h
    rfl
  · rw [h]
    rfl

theorem mem_getPawnMoves_quiet (hmod : d.gameType = .truce) (hp : p.type = .pawn) :
    (m ∈ d.getPawnMoves p ∧ m.capturedPiece = none) ↔ m ∈ d.pawnForward p := by
  unfold getPawnMoves
  rw [if_neg (by rw [hmod]; decide), List.mem_append]
  constructor
  · rintro ⟨hm | hm, hcap⟩
    · exact hm
    · obtain ⟨offset, -, hm⟩ := List.mem_flatMap.mp hm
      dsimp only at hm
      split at hm
      · rcases List.mem_append.mp hm with hm | hm
        · obtain ⟨⟨target, htarget, -⟩, harr⟩ := (mem_pawnDiagonal hp).mp hm
          rw [harr.captured_eq, htarget] at hcap
          cases hcap
        · obtain ⟨-, captured, -, -, rfl⟩ := mem_pawnEnPassant.mp hm
          cases hcap
      · cases hm
  · intro hm
    refine ⟨.inl hm, ?_⟩
    obtain ⟨-, hempty, harr | ⟨-, -, hempty', rfl⟩⟩ := (mem_pawnForward hp).mp hm
    · rw [harr.captured_eq, hempty]
    · exact hempty'

theorem generateSlidingMoves_append (dirs dirs' : List (ℤ × ℤ)) :
    d.generateSlidingMoves p dirs ++ d.generateSlidingMoves p dirs' =
      d.generateSlidingMoves p (dirs ++ dirs') := List.flatMap_append.symm

/-- The castling moves of the truce generator, which does not look at the flags. -/
theorem mem_truceCastling (hking : d.getKing p.color = some p) :
    m ∈ (if p.position = ⟨kingRow p.color, 4⟩ then
      (if d.canCastleKingside p.color then
        [ChessMove.castling p.position ⟨kingRow p.color, 6⟩ p] else []) ++
      (if d.canCastleQueenside p.color then
        [ChessMove.castling p.position ⟨kingRow p.color, 2⟩ p] else [])
      else []) ↔ ∃ w : Wing, d.canCastleTo p.color w = true ∧
        m = ChessMove.castling p.position ⟨homeRow p.color, w.kingTo⟩ p := by
  have hhome : ∀ w, d.canCastleTo p.color w = true → p.position = ⟨homeRow p.color, 4⟩ := by
    intro w hcan
    obtain ⟨⟨king, hfound, hpos⟩, -⟩ := (canCastleTo_iff _ _).mp hcan
    rw [hking, Option.some_inj] at hfound
    rw [← hfound] at hpos
    exact hpos
  rw [kingRow_eq]
  constructor
  · intro hm
    split at hm
    · rcases List.mem_append.mp hm with hm | hm
      · split at hm
        · rename_i hcan
          exact ⟨.king, hcan, List.mem_singleton.mp hm⟩
        · cases hm
      · split at hm
        · rename_i hcan
          exact ⟨.queen, hcan, List.mem_singleton.mp hm⟩
        · cases hm
    · cases hm
  · rintro ⟨w, hcan, rfl⟩
    rw [if_pos (hhome w hcan), List.mem_append]
    cases w with
    | king =>
      have hside : d.canCastleKingside p.color = true := hcan
      rw [if_pos hside]
      exact .inl (List.mem_singleton.mpr rfl)
    | queen =>
      have hside : d.canCastleQueenside p.color = true := hcan
      rw [if_pos hside]
      exact .inr (List.mem_singleton.mpr rfl)

/-- The truce generator finds the moves without capture of the normal one, and castling moves
without the flag. -/
theorem mem_candidateTruceMoves (hmod : d.gameType = .truce)
    (hking : p.type = .king → d.getKing p.color = some p) :
    m ∈ d.candidateTruceMoves p ↔ (m ∈ d.getPotentialMoves p ∧ m.capturedPiece = none) ∨
      (p.type = .king ∧ ∃ w : Wing, d.canCastleTo p.color w = true ∧
        m = ChessMove.castling p.position ⟨homeRow p.color, w.kingTo⟩ p) := by
  have hquiet : ∀ {moves moves' : List ChessMove}, (m ∈ moves ↔ m ∈ moves') →
      (m ∈ (moves.filter fun m => m.capturedPiece.isNone) ↔
        m ∈ moves' ∧ m.capturedPiece = none) := by
    intro moves moves' h
    rw [List.mem_filter, h, Option.isNone_iff_eq_none]
  unfold candidateTruceMoves getPotentialMoves
  cases htype : p.type with
  | pawn =>
    dsimp only
    rw [pawnTruceMoves_eq, mem_getPawnMoves_quiet hmod htype]
    exact (or_iff_left fun h => by cases h.1).symm
  | rook =>
    refine (hquiet (mem_generateSlidingMoves_of_perm (by decide))).trans
      (or_iff_left fun h => ?_).symm
    cases h.1
  | knight =>
    refine (hquiet (mem_generateStepMoves_of_perm (by decide))).trans
      (or_iff_left fun h => ?_).symm
    cases h.1
  | bishop =>
    refine (hquiet (mem_generateSlidingMoves_of_perm (by decide))).trans
      (or_iff_left fun h => ?_).symm
    cases h.1
  | queen =>
    dsimp only
    unfold getQueenMoves getRookMoves getBishopMoves
    rw [generateSlidingMoves_append]
    refine (hquiet (mem_generateSlidingMoves_of_perm (by decide))).trans
      (or_iff_left fun h => ?_).symm
    cases h.1
  | king =>
    have hsteps : m ∈ d.generateStepMoves p [(1, 0), (-1, 0), (0, 1), (0, -1), (1, 1), (1, -1),
        (-1, 1), (-1, -1)] ↔ m ∈ d.generateStepMoves p kingOffsets :=
      mem_generateStepMoves_of_perm (by decide)
    dsimp only
    rw [getKingMoves, List.mem_append, List.mem_append, mem_truceCastling (hking htype),
      hquiet hsteps]
    constructor
    · rintro (hm | hm)
      · exact .inl ⟨.inl hm.1, hm.2⟩
      · exact .inr ⟨rfl, hm⟩
    · rintro (⟨hm | hm, hcap⟩ | ⟨-, hm⟩)
      · exact .inl ⟨hm, hcap⟩
      · obtain ⟨w, -, hcan, rfl⟩ := mem_castlingMoves.mp hm
        exact .inr ⟨w, hcan, rfl⟩
      · exact .inr hm

/-- The truce is active while the side to move has a truce move, where the flags are shown. -/
theorem isTruceActive_iff_truceMove (hmod : d.gameType = .truce)
    (hking : ∀ p ∈ d.getPiecesOfColor d.currentPlayer, p.type = .king → d.getKing p.color = some p)
    (hflags : d.FlagsShown) : d.isTruceActive = true ↔ ∃ m, d.TruceMove m := by
  rw [isTruceActive_iff]
  constructor
  · rintro ⟨p, hp, hmoved, m, hm, hcheck⟩
    refine ⟨m, p, hp, hmoved, ?_⟩
    rcases (mem_candidateTruceMoves hmod (hking p hp)).mp hm with ⟨hm, hcap⟩ | ⟨htype, w, hcan, rfl⟩
    · exact ⟨hm, hcap, hcheck⟩
    · have hcastles := mem_castlingMoves.mpr ⟨w, hflags p hp hmoved htype w hcan, hcan, rfl⟩
      refine ⟨?_, rfl, hcheck⟩
      unfold getPotentialMoves
      rw [htype]
      exact List.mem_append_right _ hcastles
  · rintro ⟨m, p, hp, hmoved, hm, hcap, hcheck⟩
    exact ⟨p, hp, hmoved, m, (mem_candidateTruceMoves hmod (hking p hp)).mpr (.inl ⟨hm, hcap⟩),
      hcheck⟩

end Candidates

/-! ## No stalemate -/

section Stalemate

variable {d : ChessBoard} {m : ChessMove}

theorem TruceMove.valid (hmod : d.gameType = .truce) (hd : d.Tidy) (hactive : d.isTruceActive = true)
    (h : d.TruceMove m) : d.hasValidMoves = true := by
  obtain ⟨p, hp, hmoved, hm, hcap, hcheck⟩ := h
  obtain ⟨hmem, hcolor⟩ := List.mem_filter.mp hp
  have hbroken : d.isTruceBroken = false := by
    unfold isTruceActive at hactive
    rwa [Bool.not_eq_true'] at hactive
  have hkeeps : d.keepsMove m = true := by
    unfold keepsMove
    dsimp only
    rw [hcap, if_neg (by simp), if_pos ⟨hmod, hactive⟩]
  have hvalid : m ∈ d.getValidMovesFor p.position := by
    refine mem_getValidMovesFor.mpr ⟨p, hd.getPieceAt_iff.mpr ⟨hmem, rfl⟩,
      of_decide_eq_true hcolor, ?_, hkeeps⟩
    unfold applyRulesetFilter truceFilter
    rw [hmod]
    dsimp only
    rw [hbroken, hmoved, if_neg (by decide), if_neg (by decide), List.mem_filter, List.mem_filter,
      hcap, hcheck]
    exact ⟨⟨hm, rfl⟩, rfl⟩
  unfold hasValidMoves
  rw [List.any_eq_true]
  refine ⟨p, hp, ?_⟩
  rw [Bool.not_eq_true', List.isEmpty_eq_false_iff_exists_mem]
  exact ⟨m, hvalid⟩

theorem next_ne_stalemate (hmod : d.gameType = .truce) (hrun : d.Running)
    (hmoves : (d.next m).hasValidMoves = true) : (d.next m).gameStatus ≠ .stalemate := by
  have hwin : ¬ d.WinsNow m := by
    rintro (⟨h, -⟩ | ⟨h, -⟩) <;> cases hmod.symm.trans h
  unfold next at hmoves ⊢
  rcases updateGameStatus_cases (d.played m) with ⟨-, c, -, heq⟩ | ⟨-, heq⟩
  · rw [heq]
    show GameStatus.checkmate ≠ .stalemate
    decide
  · rw [heq] at hmoves ⊢
    have hboard : (d.played m).hasValidMoves = true := hmoves
    show (d.played m).verdict ≠ .stalemate
    have hstatus := gameStatus_played_of_not hwin
    by_cases hauto : d.AutoDraws m
    · rw [gameStatus_makeMove_of_autoDraws hauto] at hstatus
      rw [verdict_of_over (.inr (.inr hstatus)), hstatus]
      decide
    · have hgoes : (d.played m).Running := by
        unfold Running
        rw [hstatus, gameStatus_makeMove_of_not hauto]
        exact hrun
      unfold verdict
      rw [if_neg hgoes.not_over, played_gameType, hmod]
      show (if (d.played m).isDrawn then GameStatus.draw
        else checkStatus _ (d.played m).hasValidMoves) ≠ .stalemate
      rw [hboard]
      cases (d.played m).isDrawn <;> cases (d.played m).isKingInCheckTruce _ <;> decide

end Stalemate

/-! ## A broken truce -/

section Broken

variable {d : ChessBoard} {m : ChessMove}

/-- The pieces of the other side that are left stood there before the move. -/
theorem WellPlaced.other_of_next (h : d.WellPlaced) (hneeds : NeedsKings d.gameType)
    (hmod : d.gameType ≠ .saveQueen) (hm : d.Moving m) {p : ChessPiece}
    (hp : p ∈ (d.next m).pieces) (hcolor : p.color ≠ m.piece.color) : p ∈ d.pieces := by
  cases hc : m.isCastling with
  | false =>
    rw [next_pieces_of_plain hc, returnedQueen_eq_nil hmod, List.append_nil, List.mem_append,
      List.mem_singleton] at hp
    rcases hp with hp | rfl
    · exact stayingPieces_sublist.subset hp
    · exact absurd placedPiece_color hcolor
  | true =>
    rw [next_pieces_of_castling hm hc] at hp
    rcases List.mem_append.mp hp with hp | hp
    · rcases List.mem_append.mp (List.mem_filter.mp hp).1 with hp | hp
      · exact (List.mem_filter.mp hp).1
      · rw [List.mem_singleton.mp hp] at hcolor
        exact absurd placedPiece_color hcolor
    · -- the castled rook is the mover's
      have hhome := (h.kingedStacks hneeds).fromHome hm
      obtain ⟨⟨rook, hrook, hman⟩, -⟩ := hm.castle_squares hhome hc
      unfold castledRook at hp
      rw [hrook] at hp
      rw [List.mem_singleton.mp hp] at hcolor
      exact absurd (congrArg Prod.fst hman) hcolor

theorem pieceHasMoved_next (p : ChessPiece) (h : d.pieceHasMoved p = true) :
    (d.next m).pieceHasMoved p = true := by
  unfold pieceHasMoved at h ⊢
  rw [next_moveHistory, List.any_append, ← Bool.or_assoc, h, Bool.true_or]

theorem WellPlaced.next_currentPlayer (h : (d.next m).WellPlaced)
    (hneeds : NeedsKings d.gameType) (hkeeps : ¬ d.KeepsTurn m) :
    (d.next m).currentPlayer = d.currentPlayer.opposite := by
  rcases next_cases d m with ⟨-, c, hnone, -⟩ | ⟨-, -, hplayer⟩
  · exact absurd hnone (h.getKing_ne_none (by rw [next_gameType]; exact hneeds) c)
  · rw [hplayer, if_neg hkeeps]

theorem isTruceBroken_of_moved
    (h : ∀ p ∈ d.getPiecesOfColor d.currentPlayer, d.pieceHasMoved p = true) :
    d.isTruceBroken = true := by
  by_contra hbroken
  have hactive : d.isTruceActive = true := by
    unfold isTruceActive
    rw [Bool.not_eq_true', ← Bool.not_eq_true]
    exact hbroken
  obtain ⟨p, hp, hmoved, -⟩ := isTruceActive_iff.mp hactive
  rw [h p hp] at hmoved
  cases hmoved

/-- Where the other side's pieces have all moved, it cannot bring the truce back. -/
theorem WellPlaced.broken_next (h : d.WellPlaced) (hmod : d.gameType = .truce)
    (hmem : m ∈ d.getValidMovesFor m.fromPos) (hfits : d.Fits m)
    (hothers : ∀ p ∈ d.getPiecesOfColor d.currentPlayer.opposite, d.pieceHasMoved p = true) :
    (d.next m).isTruceBroken = true := by
  have hneeds : NeedsKings d.gameType := by
    rw [hmod]
    decide
  have hm := moving_of_mem h.valid hmem
  have hplayer := ((h.next_iff hmem).mpr hfits).next_currentPlayer hneeds
    fun hkeeps => (by cases hmod.symm.trans hkeeps.1)
  apply isTruceBroken_of_moved
  rw [hplayer]
  intro p hp
  obtain ⟨hmem', hcolor⟩ := List.mem_filter.mp hp
  have hother : p.color = d.currentPlayer.opposite := of_decide_eq_true hcolor
  have hstood : p ∈ d.pieces := by
    refine h.other_of_next hneeds (by rw [hmod]; decide) hm hmem' ?_
    rw [hother, hm.mover]
    exact fun heq => Color.ne_opposite _ heq.symm
  exact pieceHasMoved_next p (hothers p (List.mem_filter.mpr ⟨hstood, hcolor⟩))

end Broken

/-! ## The phase law -/

/-- The men stay on squares of their own, and a side breaks the truce only when the pieces of the
other side have all moved. -/
structure KeepsPhase (d : ChessBoard) (m : ChessMove) : Prop where
  running : d.Running
  fits : d.Fits m
  others : d.isTruceBroken = true →
    ∀ p ∈ d.getPiecesOfColor d.currentPlayer.opposite, d.pieceHasMoved p = true

theorem WellPlaced.getKing_of_king {d : ChessBoard} (h : d.WellPlaced)
    (hneeds : NeedsKings d.gameType) {p : ChessPiece} (hp : p ∈ d.pieces)
    (htype : p.type = .king) : d.getKing p.color = some p := by
  obtain ⟨k, hk⟩ := List.length_eq_one_iff.mp (h.kings hneeds p.color)
  cases hfound : d.getKing p.color with
  | none => exact absurd hfound (h.getKing_ne_none hneeds p.color)
  | some king =>
    obtain ⟨hmem, hking, hcolor⟩ := mem_of_getKing hfound
    rw [eq_of_menOf hk hmem hking hcolor, eq_of_menOf hk hp htype rfl]

/-- In a game of such moves the truce is active exactly while the side to move has a truce move,
an active truce is no stalemate, and a broken truce stays broken. -/
theorem truce_phase_law (d : ChessBoard) (h : Reached KeepsPhase (initial .truce) d) :
    (d.FlagsShown → (d.isTruceActive = true ↔ ∃ m, d.TruceMove m) ∧
      (d.isTruceActive = true → d.gameStatus ≠ .stalemate)) ∧
    ∀ d', Reached KeepsPhase d d' → d.isTruceBroken = true → d'.isTruceBroken = true := by
  have hplaced : ∀ d', Reached KeepsPhase (initial .truce) d' → d'.WellPlaced :=
    fun d' h' => (h'.mono fun _ _ hok => hok.fits).wellPlaced
  have hmod : ∀ d', Reached KeepsPhase (initial .truce) d' → d'.gameType = .truce :=
    fun d' h' => h'.gameType_eq
  have hneeds : NeedsKings d.gameType := by
    rw [hmod d h]
    decide
  refine ⟨fun hflags => ?_, ?_⟩
  · have hiff := isTruceActive_iff_truceMove (hmod d h)
      (fun p hp htype => (hplaced d h).getKing_of_king hneeds (List.mem_filter.mp hp).1 htype) hflags
    refine ⟨hiff, fun hactive => ?_⟩
    obtain ⟨m, hm⟩ := hiff.mp hactive
    have hmoves := hm.valid (hmod d h) (hplaced d h).tidy hactive
    cases h with
    | start => decide
    | step hreached hok hexec =>
      obtain rfl := eq_next_of_executeMove hexec
      exact next_ne_stalemate (hmod _ hreached) hok.running hmoves
  · intro d' h' hbroken
    induction h' with
    | start => exact hbroken
    | step hreached hok hexec ih =>
      have hreach := h.trans hreached
      have hmem := mem_of_executeMove hexec
      obtain rfl := eq_next_of_executeMove hexec
      exact (hplaced _ hreach).broken_next (hmod _ hreach) hmem hok.fits (hok.others ih)

theorem truce_phase_law_start :
    (initial .truce).isTruceActive = true ∧ ∃ m, (initial .truce).TruceMove m := by
  have hflags : (initial .truce).FlagsShown := by
    intro p _ _ _ w _
    cases p.color <;> cases w <;> rfl
  have hactive : (initial .truce).isTruceActive = true := by decide +kernel
  exact ⟨hactive, ((truce_phase_law _ .start).1 hflags).1.mp hactive⟩

/-- 1. e3 a6 2. Bb5 d6: black's king stands in check, so no move of white's keeps the truce. -/
def exposedKingLine : List ChessMove :=
  let pawn := fun (c : Color) (a z : Position) => ChessMove.simple a z ⟨.pawn, c, a, false⟩ none
  [pawn .white ⟨1, 4⟩ ⟨2, 4⟩, pawn .black ⟨6, 0⟩ ⟨5, 0⟩,
    ChessMove.simple ⟨0, 5⟩ ⟨4, 1⟩ ⟨.bishop, .white, ⟨0, 5⟩, false⟩ none,
    pawn .black ⟨6, 3⟩ ⟨5, 3⟩]

/-- After 3. Nf3 black has truce moves, and the broken truce is active again. -/
theorem truce_comes_back : ∃ d d' : ChessBoard,
    Reached (fun d _ => d.Running) (initial .truce) d ∧ d.isTruceBroken = true ∧
    Reached (fun d _ => d.Running) d d' ∧ d'.Running ∧ d'.isTruceActive = true := by
  have hfacts : GameLine (initial .truce) exposedKingLine ∧
      (exposedKingLine.foldl next (initial .truce)).isTruceBroken = true ∧
      GameLine (exposedKingLine.foldl next (initial .truce))
        [ChessMove.simple ⟨0, 6⟩ ⟨2, 5⟩ ⟨.knight, .white, ⟨0, 6⟩, false⟩ none] ∧
      ([ChessMove.simple ⟨0, 6⟩ ⟨2, 5⟩ ⟨.knight, .white, ⟨0, 6⟩, false⟩ none].foldl next
        (exposedKingLine.foldl next (initial .truce))).Running ∧
      ([ChessMove.simple ⟨0, 6⟩ ⟨2, 5⟩ ⟨.knight, .white, ⟨0, 6⟩, false⟩ none].foldl next
        (exposedKingLine.foldl next (initial .truce))).isTruceActive = true := by
    decide +kernel
  obtain ⟨hline, hbroken, hlast, hrun, hactive⟩ := hfacts
  exact ⟨_, _, Reached.gameLine _ _ .start hline, hbroken, Reached.gameLine _ _ .start hlast, hrun,
    hactive⟩

end ChessBoard

end ChessRecast.App
