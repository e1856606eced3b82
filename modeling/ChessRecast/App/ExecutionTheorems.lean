import ChessRecast.App.Execution
import ChessRecast.App.GenerationTheorems

/-!
# What `makeMove` changes

`makeMove` goes through `copyWith` three times; these lemmas say what each field of its result
is, so that nothing later has to open it again.
-/

namespace ChessRecast.App

open Rules

namespace ChessBoard

section MakeMove

variable (d : ChessBoard) (m : ChessMove)

/-- The last two copies of `makeMove` touch only the position history and the status. -/
theorem makeMove_eq : ∃ key status, d.makeMove m =
    { d.makeMoveBoard m with positionHistory := key, gameStatus := status } := by
  unfold makeMove
  dsimp only
  split
  · exact ⟨_, _, rfl⟩
  · exact ⟨_, _, rfl⟩

@[simp] theorem makeMove_pieces : (d.makeMove m).pieces = d.makePieces m := by
  obtain ⟨key, status, h⟩ := d.makeMove_eq m
  rw [h]
  rfl

@[simp] theorem makeMove_currentPlayer :
    (d.makeMove m).currentPlayer = d.currentPlayer.opposite := by
  obtain ⟨key, status, h⟩ := d.makeMove_eq m
  rw [h]
  rfl

@[simp] theorem makeMove_moveHistory : (d.makeMove m).moveHistory = d.moveHistory ++ [m] := by
  obtain ⟨key, status, h⟩ := d.makeMove_eq m
  rw [h]
  rfl

@[simp] theorem makeMove_gameType : (d.makeMove m).gameType = d.gameType := by
  obtain ⟨key, status, h⟩ := d.makeMove_eq m
  rw [h]
  rfl

@[simp] theorem makeMove_enPassantTarget : (d.makeMove m).enPassantTarget =
    (computeEnPassantTargetForMove m).or d.enPassantTarget := by
  obtain ⟨key, status, h⟩ := d.makeMove_eq m
  rw [h]
  rfl

@[simp] theorem makeMove_castlingRights :
    (d.makeMove m).castlingRights = computeNewCastlingRights m d.castlingRights := by
  obtain ⟨key, status, h⟩ := d.makeMove_eq m
  rw [h]
  rfl

@[simp] theorem makeMove_halfMoveClock : (d.makeMove m).halfMoveClock =
    if shouldResetHalfMoveClock d.gameType (m.piece.type = .pawn) m.capturedPiece.isSome then 0
    else d.halfMoveClock + 1 := by
  obtain ⟨key, status, h⟩ := d.makeMove_eq m
  rw [h]
  rfl

@[simp] theorem makeMove_fullMoveNumber : (d.makeMove m).fullMoveNumber =
    if d.currentPlayer = .black then d.fullMoveNumber + 1 else d.fullMoveNumber := by
  obtain ⟨key, status, h⟩ := d.makeMove_eq m
  rw [h]
  rfl

theorem makeMove_gameStatus : (d.makeMove m).gameStatus = .draw ∨
    (d.makeMove m).gameStatus = d.gameStatus := by
  unfold makeMove
  dsimp only
  split
  · exact .inl rfl
  · exact .inr rfl

end MakeMove

/-! ## Proper moves -/

end ChessBoard

/-- The move as both engines show it. -/
def ChessMove.view (m : ChessMove) : MoveView where
  src := m.fromPos
  dst := m.toPos
  promo := if m.isPromotion then some (promotedType m.promotionPiece) else none
  castle := m.isCastling
  ep := m.isEnPassant

namespace ChessBoard

/-- The fields of the move describe the board truthfully. -/
structure Proper (d : ChessBoard) (m : ChessMove) : Prop where
  from_holds : d.getPieceAt m.fromPos = some m.piece
  to_valid : m.toPos.IsValid
  from_ne_to : m.fromPos ≠ m.toPos
  captured : m.isEnPassant = false → m.capturedPiece = d.getPieceAt m.toPos
  ep : m.isEnPassant = true → m.isCastling = false ∧ d.getPieceAt m.toPos = none ∧
    m.toPos.col ≠ m.fromPos.col ∧
    ∃ q, m.capturedPiece = some q ∧ d.getPieceAt m.view.epSquare = some q
  castle : m.isCastling = true → m.isEnPassant = false ∧ m.fromPos.col = 4 ∧
    m.toPos.row = m.fromPos.row ∧ (m.toPos.col = 6 ∨ m.toPos.col = 2) ∧
    d.getPieceAt m.toPos = none ∧ d.getPieceAt m.view.rookDst = none ∧
    (d.getPieceAt m.view.rookSrc).isSome
  promo : m.isPromotion = true → ∃ letter ∈ ['Q', 'R', 'B', 'N', 'K'],
    m.promotionPiece = some letter

/-- The pieces that neither move nor are captured, with the castling rook among them. -/
def stayingPieces (d : ChessBoard) (m : ChessMove) : List ChessPiece :=
  let newPieces := d.pieces.filter fun piece => piece.position ≠ m.fromPos
  match m.capturedPiece with
  | some captured =>
    if m.isEnPassant then newPieces.filter fun piece => piece ≠ captured
    else newPieces.filter fun piece => piece.position ≠ m.toPos
  | none => newPieces

/-- The piece list after a move that leaves `placed` on the target square. -/
def movedPieces (d : ChessBoard) (m : ChessMove) (placed : ChessPiece) : List ChessPiece :=
  let newPieces := d.stayingPieces m ++ [placed]
  if m.isCastling then d.performCastlingRookMove newPieces m.fromPos m.toPos else newPieces

section Moved

variable {d : ChessBoard} {m : ChessMove} {placed : ChessPiece}

theorem makePieces_eq : d.makePieces m = d.movedPieces m (placedPiece m) := rfl

/-- No two pieces share a square, so the loops that stop at the first match remove the same
pieces as the filters. -/
theorem validationPieces_eq (hd : d.Tidy) :
    d.validationPieces m = d.movedPieces m (validationMovedPiece m) := by
  have hfrom : Keyed.eraseLast (fun p => decide (p.position = m.fromPos)) d.pieces =
      d.pieces.filter fun piece => piece.position ≠ m.fromPos := hd.distinct.eraseLast_key m.fromPos
  have hdist : Keyed.Distinct ChessPiece.position
      (d.pieces.filter fun piece => piece.position ≠ m.fromPos) := hd.distinct.filter _
  unfold validationPieces movedPieces stayingPieces
  dsimp only
  rw [hfrom]
  cases m.capturedPiece with
  | none => rfl
  | some captured => simp only [hdist.eraseLast_key m.toPos, hdist.eraseLast_eq captured]

theorem stayingPieces_sublist_filter : (d.stayingPieces m).Sublist
    (d.pieces.filter fun piece => piece.position ≠ m.fromPos) := by
  unfold stayingPieces
  dsimp only
  split
  · split
    · exact List.filter_sublist
    · exact List.filter_sublist
  · exact List.Sublist.refl _

theorem stayingPieces_sublist : (d.stayingPieces m).Sublist d.pieces :=
  stayingPieces_sublist_filter.trans List.filter_sublist

/-- The squares of the move are cleared, all others are left alone. -/
theorem lookup_stayingPieces (hd : d.Tidy) (hm : d.Proper m) (j : Position) :
    Keyed.lookup ChessPiece.position (d.stayingPieces m) j =
      if j = m.toPos then none
      else if j = m.fromPos then none
      else if m.isEnPassant = true ∧ j = m.view.epSquare then none
      else d.getPieceAt j := by
  have hdist : Keyed.Distinct ChessPiece.position
      (d.pieces.filter fun piece => piece.position ≠ m.fromPos) := hd.distinct.filter _
  unfold stayingPieces
  dsimp only
  cases hep : m.isEnPassant with
  | true =>
    obtain ⟨-, hempty, hcol, q, hq, hqat⟩ := hm.ep hep
    obtain ⟨hqmem, hqpos⟩ := mem_of_getPieceAt hqat
    have hqin : q ∈ d.pieces.filter fun piece => piece.position ≠ m.fromPos := by
      rw [List.mem_filter, decide_eq_true_eq]
      refine ⟨hqmem, fun h => hcol ?_⟩
      rw [← h, hqpos]
      rfl
    simp only [hq, if_true, hdist.filter_ne hqin, Keyed.lookup_filter_ne, hqpos]
    unfold getPieceAt at hempty ⊢
    by_cases hj : j = m.toPos
    · subst hj
      simp [hempty]
    · simp only [hj, if_false, true_and]
      split_ifs <;> rfl
  | false =>
    have hcap := hm.captured hep
    simp only [Bool.false_eq_true, if_false, false_and]
    cases hc : m.capturedPiece with
    | none =>
      rw [hc] at hcap
      simp only [Keyed.lookup_filter_ne]
      unfold getPieceAt at hcap ⊢
      by_cases hj : j = m.toPos
      · subst hj
        simp [← hcap]
      · simp [hj]
    | some q =>
      simp only [Keyed.lookup_filter_ne]
      rfl

theorem performCastlingRookMove_eq {l : List ChessPiece} {rook : ChessPiece}
    (hrook : d.getPieceAt m.view.rookSrc = some rook) :
    d.performCastlingRookMove l m.fromPos m.toPos =
      l.filter (fun piece : ChessPiece => piece.position ≠ m.view.rookSrc) ++
        [rook.movedTo m.view.rookDst] := by
  show (match d.getPieceAt m.view.rookSrc with
    | some rook => l.filter (fun piece : ChessPiece => piece.position ≠ m.view.rookSrc) ++
        [rook.movedTo m.view.rookDst]
    | none => l.filter fun piece : ChessPiece => piece.position ≠ m.view.rookSrc) = _
  rw [hrook]

theorem Proper.rookDst_ne (hm : d.Proper m) (hc : m.isCastling = true) :
    m.view.rookDst ≠ m.toPos ∧ m.view.rookDst ≠ m.fromPos ∧
      m.view.rookDst ≠ m.view.rookSrc := by
  obtain ⟨-, hfrom, -, hcol, -⟩ := hm.castle hc
  simp only [MoveView.rookDst, MoveView.rookSrc, ChessMove.view, ne_eq, Position.eq_iff]
  rcases hcol with hcol | hcol <;> simp [hcol, hfrom]

theorem lookup_movedPieces (hd : d.Tidy) (hm : d.Proper m) (hp : placed.position = m.toPos)
    (j : Position) : Keyed.lookup ChessPiece.position (d.movedPieces m placed) j =
      if m.isCastling = true ∧ j = m.view.rookDst then
        (d.getPieceAt m.view.rookSrc).map fun rook => rook.movedTo m.view.rookDst
      else if m.isCastling = true ∧ j = m.view.rookSrc then none
      else if j = m.toPos then some placed
      else if j = m.fromPos then none
      else if m.isEnPassant = true ∧ j = m.view.epSquare then none
      else d.getPieceAt j := by
  have hbase : ∀ j, Keyed.lookup ChessPiece.position (d.stayingPieces m ++ [placed]) j =
      if j = m.toPos then some placed
      else if j = m.fromPos then none
      else if m.isEnPassant = true ∧ j = m.view.epSquare then none
      else d.getPieceAt j := by
    intro j
    rw [Keyed.lookup_append_singleton, lookup_stayingPieces hd hm, hp]
    by_cases hj : j = m.toPos
    · simp [hj]
    · simp [hj, Ne.symm hj]
  unfold movedPieces
  dsimp only
  cases hc : m.isCastling with
  | false => simpa using hbase j
  | true =>
    obtain ⟨hep, -, -, -, -, hdst, hsrc⟩ := hm.castle hc
    obtain ⟨rook, hrook⟩ := Option.isSome_iff_exists.mp hsrc
    obtain ⟨hne1, hne2, hne3⟩ := hm.rookDst_ne hc
    rw [if_pos rfl, performCastlingRookMove_eq hrook, Keyed.lookup_append_singleton,
      Keyed.lookup_filter_ne, hbase, hrook]
    simp only [hep, true_and, Bool.false_eq_true, false_and, if_false, ChessPiece.movedTo,
      Option.map_some]
    by_cases hj : j = m.view.rookDst
    · subst hj
      simp [hne1, hne2, hne3, hdst]
    · simp [hj, Ne.symm hj]

theorem tidy_movedPieces (hd : d.Tidy) (hm : d.Proper m) (hp : placed.position = m.toPos)
    {u : ChessBoard} (hu : u.pieces = d.movedPieces m placed) : u.Tidy := by
  have hstay : ∀ q ∈ d.stayingPieces m, q.position.IsValid :=
    fun q hq => hd.valid q (stayingPieces_sublist.subset hq)
  have hvalid : ∀ q ∈ d.stayingPieces m ++ [placed], q.position.IsValid := by
    intro q hq
    rcases List.mem_append.mp hq with hq | hq
    · exact hstay q hq
    · rw [List.mem_singleton.mp hq, hp]
      exact hm.to_valid
  have hdist : Keyed.Distinct ChessPiece.position (d.stayingPieces m ++ [placed]) := by
    apply Keyed.Distinct.append_singleton (hd.distinct.sublist stayingPieces_sublist)
    rw [lookup_stayingPieces hd hm, hp, if_pos rfl]
  unfold movedPieces at hu
  dsimp only at hu
  cases hc : m.isCastling with
  | false =>
    rw [hc, if_neg Bool.false_ne_true] at hu
    exact ⟨hu ▸ hvalid, hu ▸ hdist⟩
  | true =>
    obtain ⟨hep, -, -, -, -, hdst, hsrc⟩ := hm.castle hc
    obtain ⟨rook, hrook⟩ := Option.isSome_iff_exists.mp hsrc
    obtain ⟨hne1, hne2, hne3⟩ := hm.rookDst_ne hc
    rw [hc, if_pos rfl, performCastlingRookMove_eq hrook] at hu
    have hfresh : Keyed.lookup ChessPiece.position ((d.stayingPieces m ++ [placed]).filter
        fun piece : ChessPiece => piece.position ≠ m.view.rookSrc)
        (rook.movedTo m.view.rookDst).position = none := by
      show Keyed.lookup ChessPiece.position _ m.view.rookDst = none
      rw [Keyed.lookup_filter_ne, if_neg hne3, Keyed.lookup_append_singleton,
        lookup_stayingPieces hd hm, hp, if_neg hne1, if_neg hne2, hdst]
      simp [hne1.symm]
    refine ⟨?_, hu ▸ (hdist.filter _).append_singleton hfresh⟩
    intro q hq
    rw [hu] at hq
    rcases List.mem_append.mp hq with hq | hq
    · exact hvalid q (List.mem_of_mem_filter hq)
    · rw [List.mem_singleton.mp hq]
      -- the rook ends on the home row, between its corner and the king
      have hrow := (hd.valid_of_getPieceAt hm.from_holds)
      simp only [Position.isValid_iff] at hrow ⊢
      show 0 ≤ m.fromPos.row ∧ m.fromPos.row < 8 ∧ 0 ≤ m.view.rookDst.col ∧ m.view.rookDst.col < 8
      refine ⟨hrow.1, hrow.2.1, ?_⟩
      unfold MoveView.rookDst
      split <;> simp

end Moved

end ChessBoard

end ChessRecast.App
