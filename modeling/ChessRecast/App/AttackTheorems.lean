import ChessRecast.App.Attack
import ChessRecast.Rules.Attack

/-!
# `isPositionUnderAttack` computes `Rules.Attacked`

The piece list of the Dart board is read as a placement; each `canAttack` test is the relation
between squares that it decides.
-/

namespace ChessRecast.App

open Rules

namespace ChessBoard

/-! ## Placement of a piece list -/

/-- The placement that the piece list shows. -/
def placement (d : ChessBoard) : Placement := fun p => (d.getPieceAt p).map ChessPiece.man

/-- Every piece is on the board and no two share a square. -/
structure Tidy (d : ChessBoard) : Prop where
  valid : ∀ q ∈ d.pieces, q.position.IsValid
  distinct : Keyed.Distinct ChessPiece.position d.pieces

section Placement

variable {d : ChessBoard} {p : Position} {q : ChessPiece}

theorem mem_of_getPieceAt (h : d.getPieceAt p = some q) : q ∈ d.pieces ∧ q.position = p :=
  Keyed.mem_of_lookup h

theorem Tidy.getPieceAt_iff (h : d.Tidy) : d.getPieceAt p = some q ↔ q ∈ d.pieces ∧ q.position = p :=
  h.distinct.lookup_eq_some_iff

theorem Tidy.valid_of_getPieceAt (h : d.Tidy) (hq : d.getPieceAt p = some q) : p.IsValid := by
  obtain ⟨hmem, rfl⟩ := mem_of_getPieceAt hq
  exact h.valid q hmem

@[simp] theorem placement_eq_none : d.placement p = none ↔ d.getPieceAt p = none := by
  simp [placement]

theorem placement_eq_some {man : Man} :
    d.placement p = some man ↔ ∃ q, d.getPieceAt p = some q ∧ q.man = man := by
  simp [placement]

theorem isSome_placement : (d.placement p).isSome = (d.getPieceAt p).isSome := by
  simp [placement]

end Placement

end ChessBoard

/-! ## Attacks of one piece -/

namespace ChessPiece

variable {d : ChessBoard} {p : ChessPiece} {target : Position} {gameType : Mod} {unlocked : Bool}

theorem kingLike_iff {a z : Position} : kingLike a z = true ↔ KingStep a z := by
  simp only [kingLike, KingStep, decide_eq_true_eq, ne_eq, abs_eq_zero, Position.eq_iff]
  omega

theorem canKnightAttack_iff : p.canKnightAttack target = true ↔ KnightStep p.position target := by
  simp only [canKnightAttack, KnightStep, decide_eq_true_eq]
  tauto

theorem canPawnAttack_iff :
    p.canPawnAttack target = true ↔ PawnStep p.color p.position target := by
  simp only [canPawnAttack, PawnStep, decide_eq_true_eq]

theorem isPathBlocked_iff (hphase : ¬ (gameType = .kingsBattle ∧ unlocked = false)) :
    p.isPathBlocked target d.pieces gameType unlocked = false ↔
      ClearTo d.placement p.position target := by
  have hdist : (if |target.col - p.position.col| > |target.row - p.position.row| then
      |target.col - p.position.col| else |target.row - p.position.row|).toNat =
      Grid.steps p.position.row p.position.col target.row target.col := by
    unfold Grid.steps
    simp only [Int.abs_eq_natAbs]
    split <;> omega
  unfold isPathBlocked ClearTo Grid.Clear
  dsimp only
  rw [hdist, List.any_eq_false]
  have hblock : ∀ i : ℕ, blocked d.placement
      (p.position.row + i * (target.row - p.position.row).sign)
      (p.position.col + i * (target.col - p.position.col).sign) =
      (Keyed.lookup ChessPiece.position d.pieces
        ⟨p.position.row + (target.row - p.position.row).sign * i,
          p.position.col + (target.col - p.position.col).sign * i⟩).isSome := by
    intro i
    unfold blocked
    rw [ChessBoard.isSome_placement, mul_comm (i : ℤ), mul_comm (i : ℤ)]
    rfl
  constructor
  · intro h i hi hlt
    have hfree := h i (List.mem_range'_1.mpr ⟨by omega, by omega⟩)
    rw [hblock]
    cases hq : Keyed.lookup ChessPiece.position d.pieces
        ⟨p.position.row + (target.row - p.position.row).sign * i,
          p.position.col + (target.col - p.position.col).sign * i⟩ with
    | none => rfl
    | some q => simp [hq, hphase] at hfree
  · intro h i hi
    have hi' := List.mem_range'_1.mp hi
    have hfree := h i (by omega) (by omega)
    rw [hblock, Option.isSome_eq_false_iff, Option.isNone_iff_eq_none] at hfree
    simp [hfree]

theorem canRookAttack_iff (hphase : ¬ (gameType = .kingsBattle ∧ unlocked = false))
    (ht : target.IsValid) : p.canRookAttack target d.pieces gameType unlocked = true ↔
      SeesAlong d.placement Straight p.position target := by
  rw [seesAlong_straight_iff, ← isPathBlocked_iff hphase]
  unfold canRookAttack isOnSameRankWith isOnSameFileWith
  simp only [ht, true_and]
  by_cases hrank : p.position.row = target.row ∧ p.position.col ≠ target.col
  · simp [hrank.1, hrank.2]
  · by_cases hfile : p.position.col = target.col ∧ p.position.row ≠ target.row
    · simp [hfile.1, hfile.2]
    · rw [if_pos (by rw [decide_eq_false hrank, decide_eq_false hfile]; rfl)]
      simp only [Bool.false_eq_true, false_iff]
      exact fun h => h.1.elim hrank hfile

theorem canBishopAttack_iff (hphase : ¬ (gameType = .kingsBattle ∧ unlocked = false))
    (ht : target.IsValid) : p.canBishopAttack target d.pieces gameType unlocked = true ↔
      SeesAlong d.placement Diagonal p.position target := by
  rw [seesAlong_diagonal_iff, ← isPathBlocked_iff hphase]
  have hdiag : isOnDiagonalWith p.position target = true ↔
      |target.row - p.position.row| = |target.col - p.position.col| ∧
        p.position.row ≠ target.row := by
    simp only [isOnDiagonalWith, decide_eq_true_eq, Int.abs_eq_natAbs]
    omega
  unfold canBishopAttack
  rw [← hdiag]
  simp only [ht, true_and]
  cases isOnDiagonalWith p.position target <;> simp

theorem canAttack_iff (hphase : ¬ (gameType = .kingsBattle ∧ unlocked = false))
    (ht : target.IsValid) : p.canAttack target d.pieces gameType unlocked = true ↔
      if p.type = .pawn then PawnStep p.color p.position target
      else Reach d.placement p.type p.position target := by
  by_cases hself : p.position = target
  · rw [canAttack, if_pos hself]
    simp only [Bool.false_eq_true, false_iff]
    split
    · exact fun h => h.ne hself
    · exact fun h => h.ne hself
  · have hphase' : ¬ (gameType = .kingsBattle ∧ unlocked = false ∧ p.type ≠ .pawn ∧
        p.type ≠ .king) := fun h => hphase ⟨h.1, h.2.1⟩
    unfold canAttack
    rw [if_neg hself, if_neg hphase']
    cases htype : p.type with
    | pawn => simp [canPawnAttack_iff]
    | knight => simp [canKnightAttack_iff, Reach]
    | bishop => simp [canBishopAttack_iff hphase ht, Reach]
    | rook => simp [canRookAttack_iff hphase ht, Reach]
    | queen =>
      simp [canRookAttack_iff hphase ht, canBishopAttack_iff hphase ht, Reach, or_comm]
    | king => simp [kingLike_iff, Reach]

theorem canAttack_short (h : p.type = .pawn ∨ p.type = .king) :
    p.canAttack target d.pieces gameType unlocked = true ↔
      if p.type = .pawn then PawnStep p.color p.position target
      else KingStep p.position target := by
  by_cases hself : p.position = target
  · rw [canAttack, if_pos hself]
    simp only [Bool.false_eq_true, false_iff]
    split
    · exact fun h => h.ne hself
    · exact fun h => h.2.2 hself
  · have hphase : ¬ (gameType = .kingsBattle ∧ unlocked = false ∧ p.type ≠ .pawn ∧
        p.type ≠ .king) := by
      rintro ⟨-, -, h1, h2⟩
      exact h.elim h1 h2
    unfold canAttack
    rw [if_neg hself, if_neg hphase]
    rcases h with h | h
    · simp [h, canPawnAttack_iff]
    · simp [h, kingLike_iff]

end ChessPiece

/-! ## Attacked squares -/

namespace ChessBoard

variable {d : ChessBoard} {position : Position}

theorem pieceAttacks_iff (hv : position.IsValid) (q : ChessPiece) :
    d.pieceAttacks position q = true ↔
      Bears d.gameType d.isKingsBattlePhase2Unlocked d.placement q.man q.position position := by
  unfold pieceAttacks Bears ChessPiece.man
  dsimp only
  by_cases hheir : d.gameType = .heir ∧ q.type = .king ∧
      (d.getPieceAt position).any (fun q => q.type = .king) = true
  · -- the branch for kings of Heir repeats what the general one would say
    rw [if_pos hheir, ChessPiece.canAttack_short (.inr hheir.2.1)]
    simp [hheir.1, hheir.2.1, Reach]
  rw [if_neg hheir]
  by_cases hkb : d.gameType = .kingsBattle ∧ d.isKingsBattlePhase2Unlocked = false ∧
      q.type ≠ .pawn ∧ q.type ≠ .king
  · rw [if_pos hkb]
    simp [hkb.1, hkb.2.1, hkb.2.2.1, hkb.2.2.2]
  rw [if_neg hkb]
  by_cases hstq : d.gameType = .saveQueen ∧ q.type = .queen ∧ ¬ q.color.OwnHalf q.position.row
  · rw [if_pos hstq]
    simp [hstq.1, hstq.2.1, hstq.2.2]
  rw [if_neg hstq]
  have hfirst : d.gameType = .kingsBattle → d.isKingsBattlePhase2Unlocked = false →
      q.type = .pawn ∨ q.type = .king := by
    intro h1 h2
    by_contra hno
    exact hkb ⟨h1, h2, not_or.mp hno⟩
  have hsecond : d.gameType = .saveQueen → q.type = .queen → q.color.OwnHalf q.position.row := by
    intro h1 h2
    by_contra hno
    exact hstq ⟨h1, h2, hno⟩
  by_cases hmerc : d.gameType = .mercenary ∧ q.type = .pawn
  · rw [if_pos hmerc, ChessPiece.kingLike_iff]
    simp [hmerc.1, hmerc.2]
  rw [if_neg hmerc]
  have hpawn : (if q.type = .pawn then
      if d.gameType = .mercenary then KingStep q.position position
      else PawnStep q.color q.position position
      else Reach d.placement q.type q.position position) ↔
      (if q.type = .pawn then PawnStep q.color q.position position
      else Reach d.placement q.type q.position position) := by
    by_cases hp : q.type = .pawn
    · have hnot : d.gameType ≠ .mercenary := fun h => hmerc ⟨h, hp⟩
      simp [hp, hnot]
    · simp [hp]
  rw [hpawn]
  by_cases hphase : d.gameType = .kingsBattle ∧ d.isKingsBattlePhase2Unlocked = false
  · have hshort := hfirst hphase.1 hphase.2
    rw [ChessPiece.canAttack_short hshort]
    rcases hshort with h | h <;> simp [h, hphase.1, Reach]
  · rw [ChessPiece.canAttack_iff hphase hv]
    exact ⟨fun h => ⟨hfirst, hsecond, h⟩, fun h => h.2.2⟩

theorem isPositionUnderAttack_iff (hd : d.Tidy) (hv : position.IsValid) (color : Color) :
    d.isPositionUnderAttack position color = true ↔
      Attacked d.gameType d.isKingsBattlePhase2Unlocked d.placement color position := by
  unfold isPositionUnderAttack getPiecesOfColor Attacked
  rw [List.any_eq_true]
  simp only [pieceAttacks_iff hv, List.mem_filter, decide_eq_true_eq]
  constructor
  · rintro ⟨q, ⟨hq, rfl⟩, hbears⟩
    refine ⟨q.position, q.type, hd.valid q hq, ?_, hbears⟩
    rw [placement_eq_some]
    exact ⟨q, hd.getPieceAt_iff.mpr ⟨hq, rfl⟩, rfl⟩
  · rintro ⟨a, t, -, hman, hbears⟩
    obtain ⟨q, hq, hqman⟩ := placement_eq_some.mp hman
    obtain ⟨hmem, rfl⟩ := mem_of_getPieceAt hq
    rw [← hqman] at hbears
    exact ⟨q, ⟨hmem, congrArg Prod.fst hqman⟩, hbears⟩

end ChessBoard

end ChessRecast.App
