import ChessRecast.App.AttackTheorems
import ChessRecast.App.Generation
import ChessRecast.Rules.Book

/-!
# Which moves the generators of the Dart application produce

The counterpart of the engine's membership lemmas: every list of moves is characterised by the
squares that the piece reaches and by what stands there.
-/

namespace ChessRecast.App

open Rules

namespace ChessBoard

/-! ## Simple moves -/

/-- The move of a piece that captures whatever stands on the target. -/
def plainMove (d : ChessBoard) (piece : ChessPiece) (toPos : Position) : ChessMove :=
  ChessMove.simple piece.position toPos piece (d.getPieceAt toPos)

/-- The target is empty or holds an enemy piece. -/
def NotOwn (d : ChessBoard) (piece : ChessPiece) (toPos : Position) : Prop :=
  ∀ q, d.getPieceAt toPos = some q → q.color ≠ piece.color

section Simple

variable {d : ChessBoard} {piece : ChessPiece} {m : ChessMove}

theorem mem_slideDir {dr dc : ℤ} (n : ℕ) : ∀ i : ℤ, m ∈ d.slideDir piece dr dc n i ↔
    ∃ toPos : Position, (toPos.row, toPos.col) ∈
      Grid.walk 8 (blocked d.placement) dr dc n (piece.position.row + dr * i)
        (piece.position.col + dc * i) ∧
      d.NotOwn piece toPos ∧ m = d.plainMove piece toPos := by
  induction n with
  | zero => intro i; simp [slideDir, Grid.walk]
  | succ n ih =>
    intro i
    unfold slideDir Grid.walk
    dsimp only
    by_cases hin : Grid.Inside 8 (piece.position.row + dr * i) (piece.position.col + dc * i)
    · rw [if_pos (show (piece.position.offset (dr * i) (dc * i)).IsValid from hin), if_pos hin]
      have hnext : ∀ a e : ℤ, a + e * i + e = a + e * (i + 1) := by
        intro a e
        ring
      have hhead : ∀ toPos : Position, (toPos.row, toPos.col) =
          (piece.position.row + dr * i, piece.position.col + dc * i) ↔
          toPos = piece.position.offset (dr * i) (dc * i) := by
        intro toPos
        rw [Prod.mk.injEq, Position.eq_iff]
        rfl
      cases hq : d.getPieceAt (piece.position.offset (dr * i) (dc * i)) with
      | none =>
        have hb : blocked d.placement (piece.position.row + dr * i)
            (piece.position.col + dc * i) = false := by
          unfold blocked
          rw [isSome_placement]
          show (d.getPieceAt (piece.position.offset (dr * i) (dc * i))).isSome = false
          rw [hq]
          rfl
        rw [hb]
        simp only [Bool.false_eq_true, if_false, List.mem_cons, ih, hnext, hhead]
        constructor
        · rintro (rfl | ⟨toPos, hw, hrest⟩)
          · exact ⟨_, .inl rfl, by simp [NotOwn, hq], by simp [plainMove, hq]⟩
          · exact ⟨toPos, .inr hw, hrest⟩
        · rintro ⟨toPos, rfl | hw, hown, rfl⟩
          · left
            simp [plainMove, hq]
          · exact .inr ⟨toPos, hw, hown, rfl⟩
      | some q =>
        have hb : blocked d.placement (piece.position.row + dr * i)
            (piece.position.col + dc * i) = true := by
          unfold blocked
          rw [isSome_placement]
          show (d.getPieceAt (piece.position.offset (dr * i) (dc * i))).isSome = true
          rw [hq]
          rfl
        rw [hb]
        simp only [if_true, List.mem_singleton, hhead]
        constructor
        · intro hm
          split at hm
          · rename_i hc
            rw [List.mem_singleton] at hm
            refine ⟨_, rfl, ?_, by rw [hm]; simp [plainMove, hq]⟩
            intro q' hq'
            rw [hq] at hq'
            exact Option.some.inj hq' ▸ hc
          · cases hm
        · rintro ⟨toPos, rfl, hown, rfl⟩
          rw [if_pos (hown q hq)]
          simp [plainMove, hq]
    · rw [if_neg (show ¬ (piece.position.offset (dr * i) (dc * i)).IsValid from hin), if_neg hin]
      simp

theorem mem_generateSlidingMoves {dirs : List (ℤ × ℤ)} (hv : piece.position.IsValid)
    (hunit : ∀ e ∈ dirs, Grid.UnitDir e.1 e.2) : m ∈ d.generateSlidingMoves piece dirs ↔
    ∃ toPos : Position, (∃ e ∈ dirs, Grid.Sees 8 (blocked d.placement) e.1 e.2
      piece.position.row piece.position.col toPos.row toPos.col) ∧
      d.NotOwn piece toPos ∧ m = d.plainMove piece toPos := by
  unfold generateSlidingMoves
  rw [List.mem_flatMap]
  constructor
  · rintro ⟨e, he, hm⟩
    rw [mem_slideDir] at hm
    obtain ⟨toPos, hw, hrest⟩ := hm
    rw [mul_one, mul_one, Grid.mem_walk (hunit e he) hv (by norm_num)] at hw
    exact ⟨toPos, ⟨e, he, hw⟩, hrest⟩
  · rintro ⟨toPos, ⟨e, he, hw⟩, hrest⟩
    refine ⟨e, he, (mem_slideDir 7 1).mpr ⟨toPos, ?_, hrest⟩⟩
    rw [mul_one, mul_one, Grid.mem_walk (hunit e he) hv (by norm_num)]
    exact hw

theorem mem_generateStepMoves {offsets : List (ℤ × ℤ)} : m ∈ d.generateStepMoves piece offsets ↔
    ∃ toPos : Position, toPos.IsValid ∧ (∃ e ∈ offsets, toPos = piece.position.offset e.1 e.2) ∧
      d.NotOwn piece toPos ∧ m = d.plainMove piece toPos := by
  unfold generateStepMoves
  rw [List.mem_flatMap]
  have hone : ∀ e : ℤ × ℤ, (m ∈ (let newPos := piece.position.offset e.1 e.2
      if newPos.IsValid then
        let target := d.getPieceAt newPos
        if target.all (fun q => q.color ≠ piece.color) then
          [ChessMove.simple piece.position newPos piece target]
        else []
      else []) ↔ (piece.position.offset e.1 e.2).IsValid ∧
        d.NotOwn piece (piece.position.offset e.1 e.2) ∧
        m = d.plainMove piece (piece.position.offset e.1 e.2)) := by
    intro e
    dsimp only
    have hall : ((d.getPieceAt (piece.position.offset e.1 e.2)).all
        fun q => q.color ≠ piece.color) = true ↔
        d.NotOwn piece (piece.position.offset e.1 e.2) := by
      unfold NotOwn
      cases d.getPieceAt (piece.position.offset e.1 e.2) <;> simp
    split
    · rename_i hv
      simp only [hv, true_and]
      split
      · rename_i ht
        rw [List.mem_singleton]
        exact ⟨fun hm => ⟨hall.mp ht, hm⟩, fun hm => hm.2⟩
      · rename_i ht
        simp only [List.not_mem_nil, false_iff]
        exact fun hm => ht (hall.mpr hm.1)
    · rename_i hv
      simp [hv]
  simp only [hone]
  constructor
  · rintro ⟨e, he, hv, hrest⟩
    exact ⟨_, hv, ⟨e, he, rfl⟩, hrest⟩
  · rintro ⟨_, hv, ⟨e, he, rfl⟩, hrest⟩
    exact ⟨e, he, hv, hrest⟩

/-- The sliding generator over the directions of a kind of line. -/
theorem mem_generateSlidingMoves_iff {dirs : List (ℤ × ℤ)} {dir : ℤ → ℤ → Prop}
    (hdirs : ∀ dr dc, (dr, dc) ∈ dirs ↔ dir dr dc)
    (hunit : ∀ dr dc, dir dr dc → Grid.UnitDir dr dc) (hv : piece.position.IsValid) :
    m ∈ d.generateSlidingMoves piece dirs ↔ ∃ toPos : Position,
      SeesAlong d.placement dir piece.position toPos ∧ d.NotOwn piece toPos ∧
      m = d.plainMove piece toPos := by
  rw [mem_generateSlidingMoves hv fun e he => hunit e.1 e.2 ((hdirs e.1 e.2).mp he)]
  simp only [exists_mem_sees_iff hdirs]

theorem exists_knightOffset_iff {a z : Position} :
    (∃ e ∈ [((-2 : ℤ), (-1 : ℤ)), (-2, 1), (-1, -2), (-1, 2), (1, -2), (1, 2), (2, -1), (2, 1)],
      z = a.offset e.1 e.2) ↔ KnightStep a z := by
  simp only [List.mem_cons, List.not_mem_nil, or_false, exists_eq_or_imp, exists_eq_left,
    KnightStep, Position.eq_iff, Position.offset, abs_eq (show (0 : ℤ) ≤ 2 by norm_num),
    abs_eq (show (0 : ℤ) ≤ 1 by norm_num)]
  omega

theorem exists_kingOffset_iff {a z : Position} :
    (∃ e ∈ kingOffsets, z = a.offset e.1 e.2) ↔ KingStep a z := by
  simp only [kingOffsets, List.mem_cons, List.not_mem_nil, or_false, exists_eq_or_imp,
    exists_eq_left, KingStep, Position.eq_iff, Position.offset, abs_le, ne_eq]
  omega

/-- The moves of a piece other than a pawn: it goes where it bears, and a king may castle. -/
theorem mem_getPotentialMoves (hv : piece.position.IsValid) (hp : piece.type ≠ .pawn) :
    m ∈ d.getPotentialMoves piece ↔
      (∃ toPos : Position, toPos.IsValid ∧ Reach d.placement piece.type piece.position toPos ∧
        d.NotOwn piece toPos ∧ m = d.plainMove piece toPos) ∨
      (piece.type = .king ∧ m ∈ d.castlingMoves piece) := by
  have hstraight : m ∈ d.getRookMoves piece ↔ ∃ toPos : Position,
      SeesAlong d.placement Straight piece.position toPos ∧ d.NotOwn piece toPos ∧
      m = d.plainMove piece toPos :=
    mem_generateSlidingMoves_iff (by simp [straight_iff]) (fun _ _ h => h.1) hv
  have hdiagonal : m ∈ d.getBishopMoves piece ↔ ∃ toPos : Position,
      SeesAlong d.placement Diagonal piece.position toPos ∧ d.NotOwn piece toPos ∧
      m = d.plainMove piece toPos :=
    mem_generateSlidingMoves_iff (by simp [diagonal_iff]) (fun _ _ h => h.1) hv
  have hline : ∀ dir : ℤ → ℤ → Prop,
      (∃ toPos : Position, SeesAlong d.placement dir piece.position toPos ∧
        d.NotOwn piece toPos ∧ m = d.plainMove piece toPos) ↔
      ∃ toPos : Position, toPos.IsValid ∧ SeesAlong d.placement dir piece.position toPos ∧
        d.NotOwn piece toPos ∧ m = d.plainMove piece toPos := by
    intro dir
    refine exists_congr fun toPos => ⟨fun h => ⟨h.1.valid, h⟩, fun h => h.2⟩
  unfold getPotentialMoves
  cases ht : piece.type with
  | pawn => exact absurd ht hp
  | knight =>
    simp only [getKnightMoves, mem_generateStepMoves, exists_knightOffset_iff, Reach, reduceCtorEq,
      false_and, or_false]
  | bishop => simp only [hdiagonal, hline, Reach, reduceCtorEq, false_and, or_false]
  | rook => simp only [hstraight, hline, Reach, reduceCtorEq, false_and, or_false]
  | queen =>
    simp only [getQueenMoves, List.mem_append, hstraight, hdiagonal, hline, Reach, reduceCtorEq,
      false_and, or_false]
    rw [← exists_or]
    refine exists_congr fun toPos => ?_
    tauto
  | king =>
    simp only [getKingMoves, List.mem_append, mem_generateStepMoves, exists_kingOffset_iff, Reach,
      true_and]

end Simple

/-! ## Pawns -/

section Pawns

variable {d : ChessBoard} {pawn : ChessPiece} {m : ChessMove}

/-- A pawn arrives on a square: by one of the promotions on the last rank, by a simple move
elsewhere. -/
def Arrives (d : ChessBoard) (pawn : ChessPiece) (toPos : Position) (m : ChessMove) : Prop :=
  if toPos.row = lastRank pawn.color then
    ∃ letter ∈ d.getPromotionPieces pawn.color toPos,
      m = ChessMove.promotion pawn.position toPos pawn (d.getPieceAt toPos) letter
  else m = d.plainMove pawn toPos

theorem Arrives.toPos_eq {toPos : Position} (h : d.Arrives pawn toPos m) : m.toPos = toPos := by
  unfold Arrives at h
  split at h
  · obtain ⟨letter, -, rfl⟩ := h
    rfl
  · rw [h]
    rfl

private theorem mem_arrivals (hp : pawn.type = .pawn) (toPos : Position) :
    m ∈ (if toPos.row = lastRank pawn.color then
      createMovesWithPromotionCheck pawn toPos (d.getPieceAt toPos)
        (d.getPromotionPieces pawn.color toPos)
      else [ChessMove.simple pawn.position toPos pawn (d.getPieceAt toPos)]) ↔
    d.Arrives pawn toPos m := by
  unfold Arrives createMovesWithPromotionCheck
  by_cases hrow : toPos.row = lastRank pawn.color
  · simp only [hrow, hp, and_self, if_true, List.mem_map]
    exact exists_congr fun letter => and_congr_right fun _ => eq_comm
  · simp [hrow, plainMove]

theorem mem_pawnForward (hp : pawn.type = .pawn) : m ∈ d.pawnForward pawn ↔
    (pawn.position.offset pawn.color.forward 0).IsValid ∧
    d.getPieceAt (pawn.position.offset pawn.color.forward 0) = none ∧
    (d.Arrives pawn (pawn.position.offset pawn.color.forward 0) m ∨
      (pawn.position.row = doubleRow pawn.color ∧
        (pawn.position.offset (pawn.color.forward * 2) 0).IsValid ∧
        d.getPieceAt (pawn.position.offset (pawn.color.forward * 2) 0) = none ∧
        m = d.plainMove pawn (pawn.position.offset (pawn.color.forward * 2) 0))) := by
  have hstart : (if pawn.color = .white then (1 : ℤ) else 6) = doubleRow pawn.color := by
    cases pawn.color <;> rfl
  unfold pawnForward
  dsimp only
  rw [hstart]
  by_cases hone : (pawn.position.offset pawn.color.forward 0).IsValid ∧
      d.getPieceAt (pawn.position.offset pawn.color.forward 0) = none
  · have harr := mem_arrivals (d := d) (m := m) hp (pawn.position.offset pawn.color.forward 0)
    rw [hone.2] at harr
    rw [if_pos hone, List.mem_append, harr]
    simp only [hone.1, hone.2, true_and]
    refine or_congr_right ?_
    split
    · rename_i htwo
      simp [htwo, plainMove]
    · rename_i htwo
      simp only [List.not_mem_nil, false_iff]
      exact fun h => htwo ⟨h.1, h.2.1, h.2.2.1⟩
  · rw [if_neg hone]
    simp only [List.not_mem_nil, false_iff]
    exact fun h => hone ⟨h.1, h.2.1⟩

theorem mem_pawnDiagonal (hp : pawn.type = .pawn) {capturePos : Position} :
    m ∈ d.pawnDiagonal pawn capturePos ↔
      (∃ target, d.getPieceAt capturePos = some target ∧ target.color ≠ pawn.color) ∧
      d.Arrives pawn capturePos m := by
  unfold pawnDiagonal
  have harr := mem_arrivals (d := d) (m := m) hp capturePos
  cases hq : d.getPieceAt capturePos with
  | none => simp
  | some target =>
    rw [hq] at harr
    simp only [Option.some.injEq, exists_eq_left']
    by_cases hc : target.color ≠ pawn.color
    · rw [if_pos hc, harr]
      simp [hc]
    · rw [if_neg hc]
      simp [hc]

theorem mem_pawnEnPassant {capturePos : Position} : m ∈ d.pawnEnPassant pawn capturePos ↔
    d.enPassantTarget = some capturePos ∧
    ∃ captured, d.getPieceAt ⟨pawn.position.row, capturePos.col⟩ = some captured ∧
      captured.type = .pawn ∧
      m = ChessMove.enPassant pawn.position capturePos pawn captured := by
  unfold pawnEnPassant
  split
  · rename_i htarget
    simp only [← htarget, true_and]
    cases hq : d.getPieceAt ⟨pawn.position.row, capturePos.col⟩ with
    | none => simp
    | some captured =>
      simp only [Option.some.injEq, exists_eq_left']
      by_cases ht : captured.type = .pawn <;> simp [ht]
  · rename_i htarget
    simp only [List.not_mem_nil, false_iff]
    exact fun h => htarget h.1.symm

theorem mem_getPawnMoves (hmod : d.gameType ≠ .mercenary) :
    m ∈ d.getPawnMoves pawn ↔ m ∈ d.pawnForward pawn ∨
      ∃ toPos : Position, toPos.IsValid ∧ PawnStep pawn.color pawn.position toPos ∧
        (m ∈ d.pawnDiagonal pawn toPos ∨ m ∈ d.pawnEnPassant pawn toPos) := by
  unfold getPawnMoves
  rw [if_neg hmod, List.mem_append]
  refine or_congr_right ?_
  have hside : ∀ dc : ℤ, (m ∈ (if (pawn.position.offset pawn.color.forward dc).IsValid then
      d.pawnDiagonal pawn (pawn.position.offset pawn.color.forward dc) ++
        d.pawnEnPassant pawn (pawn.position.offset pawn.color.forward dc) else []) ↔
      (pawn.position.offset pawn.color.forward dc).IsValid ∧
        (m ∈ d.pawnDiagonal pawn (pawn.position.offset pawn.color.forward dc) ∨
          m ∈ d.pawnEnPassant pawn (pawn.position.offset pawn.color.forward dc))) := by
    intro dc
    split <;> simp_all
  simp only [List.mem_flatMap, List.mem_cons, List.not_mem_nil, or_false, exists_eq_or_imp,
    exists_eq_left, hside]
  have hstep : ∀ toPos : Position, PawnStep pawn.color pawn.position toPos ↔
      toPos = pawn.position.offset pawn.color.forward (-1) ∨
      toPos = pawn.position.offset pawn.color.forward 1 := by
    intro toPos
    simp only [PawnStep, Position.eq_iff, Position.offset]
    omega
  simp only [hstep]
  constructor
  · rintro (⟨hv, h⟩ | ⟨hv, h⟩)
    · exact ⟨_, hv, .inl rfl, h⟩
    · exact ⟨_, hv, .inr rfl, h⟩
  · rintro ⟨toPos, hv, rfl | rfl, h⟩
    · exact .inl ⟨hv, h⟩
    · exact .inr ⟨hv, h⟩

/-- Mercenary pawns go where kings would, but never take one. -/
theorem mem_mercenaryPawnMoves (hmod : d.gameType = .mercenary) :
    m ∈ d.mercenaryPawnMoves pawn ↔ ∃ toPos : Position, toPos.IsValid ∧
      KingStep pawn.position toPos ∧ d.NotOwn pawn toPos ∧
      (∀ q, d.getPieceAt toPos = some q → q.type ≠ .king) ∧ m = d.plainMove pawn toPos := by
  unfold mercenaryPawnMoves
  rw [List.mem_flatMap]
  simp only [hmod, ne_eq, reduceCtorEq, not_false_eq_true, and_true]
  simp only [← exists_kingOffset_iff]
  constructor
  · rintro ⟨e, he, hm⟩
    refine ⟨pawn.position.offset e.1 e.2, ?_⟩
    split at hm
    · rename_i hv
      refine ⟨hv, ⟨e, he, rfl⟩, ?_⟩
      cases hq : d.getPieceAt (pawn.position.offset e.1 e.2) with
      | none => simp_all [NotOwn, plainMove]
      | some q =>
        simp only [hq] at hm
        by_cases hc : q.color = pawn.color
        · simp [hc] at hm
        · by_cases hk : q.type = .king
          · simp [hk] at hm
          · simp_all [NotOwn, plainMove]
    · cases hm
  · rintro ⟨_, hv, ⟨e, he, rfl⟩, hown, hking, rfl⟩
    refine ⟨e, he, ?_⟩
    rw [if_pos hv]
    cases hq : d.getPieceAt (pawn.position.offset e.1 e.2) with
    | none => simp [plainMove, hq]
    | some q =>
      have hc := hown q hq
      have hk := hking q hq
      simp [plainMove, hq, hc, hk]

end Pawns

/-! ## Rulesets -/

section Rulesets

variable {d : ChessBoard} {piece : ChessPiece} {m : ChessMove} {moves : List ChessMove}

/-- The loop of `_isPathClear`, `i` steps away from the start and `n` rounds before its end. -/
theorem pathClearLoop_iff {a z : Position} (hal : Grid.Aligned a.row a.col z.row z.col) (n : ℕ) :
    ∀ i : ℕ, i ≤ Grid.steps a.row a.col z.row z.col →
      Grid.steps a.row a.col z.row z.col ≤ i + n →
      (d.pathClearLoop z (z.row - a.row).sign (z.col - a.col).sign n
        (a.row + i * (z.row - a.row).sign) (a.col + i * (z.col - a.col).sign) = true ↔
        ∀ j : ℕ, i ≤ j → j < Grid.steps a.row a.col z.row z.col →
          blocked d.placement (a.row + j * (z.row - a.row).sign)
            (a.col + j * (z.col - a.col).sign) = false) := by
  induction n with
  | zero =>
    intro i _ hle
    rw [pathClearLoop]
    exact iff_of_true rfl fun j hij hj => absurd hj (by omega)
  | succ n ih =>
    intro i hle hfuel
    rw [pathClearLoop]
    have hat := hal.eq_iff_steps (k := i)
    by_cases hend : i = Grid.steps a.row a.col z.row z.col
    · obtain ⟨hr, hc⟩ := hat.mpr hend
      rw [if_neg (by rw [hr, hc]; simp)]
      exact iff_of_true rfl fun j hij hj => absurd hj (by omega)
    · have hne : ¬ (a.row + i * (z.row - a.row).sign = z.row ∧
          a.col + i * (z.col - a.col).sign = z.col) := fun h => hend (hat.mp h)
      have hstep := ih (i + 1) (by omega) (by omega)
      push_cast at hstep
      rw [add_one_mul, add_one_mul, ← add_assoc, ← add_assoc] at hstep
      rw [if_pos (not_and_or.mp hne), ← isSome_placement]
      by_cases hb : (d.placement ⟨a.row + i * (z.row - a.row).sign,
          a.col + i * (z.col - a.col).sign⟩).isSome = true
      · rw [if_pos hb]
        simp only [Bool.false_eq_true, false_iff]
        intro hall
        have := hall i le_rfl (by omega)
        rw [blocked, hb] at this
        cases this
      · rw [if_neg hb, hstep]
        constructor
        · intro hall j hij hj
          rcases Nat.eq_or_lt_of_le hij with rfl | hlt
          · exact (Bool.not_eq_true _).mp hb
          · exact hall j hlt hj
        · exact fun hall j hij hj => hall j (by omega) hj

theorem isPathClear_iff {a z : Position} (hal : Grid.Aligned a.row a.col z.row z.col)
    (ha : a.IsValid) (hz : z.IsValid) :
    d.isPathClear a z = true ↔ ClearTo d.placement a z := by
  have hsteps : 1 ≤ Grid.steps a.row a.col z.row z.col ∧
      Grid.steps a.row a.col z.row z.col ≤ 9 := by
    have := hal.2
    rw [Position.isValid_iff] at ha hz
    unfold Grid.steps
    omega
  have hloop := pathClearLoop_iff (d := d) hal 8 1 hsteps.1 (by omega)
  rw [Nat.cast_one, one_mul, one_mul] at hloop
  unfold isPathClear
  rw [hloop]
  rfl

theorem canPieceReach_iff (hv : piece.position.IsValid) {z : Position} (hz : z.IsValid)
    (hne : piece.position ≠ z) : d.canPieceReach piece z = true ↔
      if piece.type = .pawn then PawnStep piece.color piece.position z
      else Reach d.placement piece.type piece.position z := by
  have hdiag : |z.row - piece.position.row| = |z.col - piece.position.col| →
      (d.isPathClear piece.position z = true ↔ ClearTo d.placement piece.position z) := by
    intro h
    refine isPathClear_iff ⟨.inr (.inr h), ?_⟩ hv hz
    exact fun heq => hne (Position.eq_iff.mpr ⟨heq.1.symm, heq.2.symm⟩)
  have hline : z.row - piece.position.row = 0 ∨ z.col - piece.position.col = 0 →
      (d.isPathClear piece.position z = true ↔ ClearTo d.placement piece.position z) := by
    intro h
    refine isPathClear_iff ⟨by omega, ?_⟩ hv hz
    exact fun heq => hne (Position.eq_iff.mpr ⟨heq.1.symm, heq.2.symm⟩)
  have hne' : ¬ (piece.position.row = z.row ∧ piece.position.col = z.col) :=
    fun heq => hne (Position.eq_iff.mpr heq)
  have hbishop : (if |z.row - piece.position.row| ≠ |z.col - piece.position.col| then false
      else d.isPathClear piece.position z) = true ↔
      SeesAlong d.placement Diagonal piece.position z := by
    rw [seesAlong_diagonal_iff]
    by_cases h : |z.row - piece.position.row| = |z.col - piece.position.col|
    · have hrow : piece.position.row ≠ z.row := by
        rw [Int.abs_eq_natAbs, Int.abs_eq_natAbs] at h
        omega
      rw [if_neg (not_not.mpr h), hdiag h]
      simp only [hz, h, hrow, ne_eq, not_false_eq_true, and_self, true_and]
    · rw [if_pos h]
      simp [h]
  have hrook : (if z.row - piece.position.row ≠ 0 ∧ z.col - piece.position.col ≠ 0 then false
      else d.isPathClear piece.position z) = true ↔
      SeesAlong d.placement Straight piece.position z := by
    rw [seesAlong_straight_iff]
    by_cases h : z.row - piece.position.row = 0 ∨ z.col - piece.position.col = 0
    · have hcase : (piece.position.row = z.row ∧ piece.position.col ≠ z.col) ∨
          (piece.position.col = z.col ∧ piece.position.row ≠ z.row) := by omega
      rw [if_neg (by omega), hline h]
      simp only [hz, hcase, true_and]
    · rw [if_pos (by omega)]
      simp only [Bool.false_eq_true, false_iff]
      exact fun hs => h (by omega)
  unfold canPieceReach
  dsimp only
  cases htype : piece.type with
  | pawn => simp [PawnStep]
  | knight => simp [Reach, KnightStep]
  | bishop => simpa [Reach] using hbishop
  | rook => simpa [Reach] using hrook
  | queen =>
    show (if _ then false else d.isPathClear piece.position z) = true ↔
      SeesAlong d.placement Diagonal piece.position z ∨ SeesAlong d.placement Straight piece.position z
    rw [← hbishop, ← hrook]
    split_ifs <;> simp_all
  | king =>
    simp only [decide_eq_true_eq, reduceCtorEq, if_false, Reach, KingStep]
    tauto

/-- The capture of an own piece that the Friendly Fire filter adds. -/
def SelfCapture (d : ChessBoard) (piece f : ChessPiece) (m : ChessMove) : Prop :=
  (f ∈ d.pieces ∧ f.color = piece.color ∧ f.type ≠ .king ∧ f.hasMoved = true ∧
    f.position ≠ piece.position) ∧
  d.canPieceReach piece f.position = true ∧
  m = ChessMove.simple piece.position f.position piece (some f)

/-- The pieces that the filter runs through. -/
def friendlyPieces (d : ChessBoard) (piece : ChessPiece) : List ChessPiece :=
  d.pieces.filter fun p => p.color = piece.color ∧ p.type ≠ .king ∧ p.hasMoved = true ∧
    p.position ≠ piece.position

/-- One round of the loop of the filter. -/
def addSelfCapture (d : ChessBoard) (piece : ChessPiece) (expandedMoves : List ChessMove)
    (f : ChessPiece) : List ChessMove :=
  if d.canPieceReach piece f.position then
    let move := ChessMove.simple piece.position f.position piece (some f)
    if expandedMoves.any fun m => m.fromPos = move.fromPos ∧ m.toPos = move.toPos then
      expandedMoves
    else expandedMoves ++ [move]
  else expandedMoves

theorem friendlyFireFilter_eq : d.friendlyFireFilter moves piece =
    (d.friendlyPieces piece).foldl (d.addSelfCapture piece) moves := rfl

/-- The piece can be reached, and no move collected so far goes to its square. -/
def Adds (d : ChessBoard) (piece : ChessPiece) (moves : List ChessMove) (f : ChessPiece) : Prop :=
  d.canPieceReach piece f.position = true ∧
    ∀ m ∈ moves, ¬ (m.fromPos = piece.position ∧ m.toPos = f.position)

theorem addSelfCapture_of_adds {f : ChessPiece} (h : d.Adds piece moves f) :
    d.addSelfCapture piece moves f =
      moves ++ [ChessMove.simple piece.position f.position piece (some f)] := by
  unfold addSelfCapture
  rw [if_pos h.1]
  dsimp only
  refine if_neg fun hany => ?_
  obtain ⟨m, hm, heq⟩ := List.any_eq_true.mp hany
  exact h.2 m hm (of_decide_eq_true heq)

theorem addSelfCapture_of_not_adds {f : ChessPiece} (h : ¬ d.Adds piece moves f) :
    d.addSelfCapture piece moves f = moves := by
  unfold addSelfCapture
  by_cases hreach : d.canPieceReach piece f.position = true
  · rw [if_pos hreach]
    dsimp only
    refine if_pos (List.any_eq_true.mpr ?_)
    by_contra hno
    refine h ⟨hreach, fun m hm heq => hno ⟨m, hm, decide_eq_true heq⟩⟩
  · rw [if_neg hreach]

/-- A self-capture is added for the first piece on a square, unless a move goes there already. -/
theorem mem_foldl_addSelfCapture (fs : List ChessPiece) : ∀ moves : List ChessMove,
    m ∈ fs.foldl (d.addSelfCapture piece) moves ↔ m ∈ moves ∨
      ∃ f, Keyed.lookup ChessPiece.position fs f.position = some f ∧ d.Adds piece moves f ∧
        m = ChessMove.simple piece.position f.position piece (some f) := by
  induction fs with
  | nil =>
    intro moves
    simp [Keyed.lookup]
  | cons g fs ih =>
    intro moves
    have hsame : ∀ f : ChessPiece, g.position = f.position →
        Keyed.lookup ChessPiece.position (g :: fs) f.position = some g :=
      fun f heq => List.find?_cons_of_pos (decide_eq_true heq)
    have hother : ∀ f : ChessPiece, g.position ≠ f.position →
        Keyed.lookup ChessPiece.position (g :: fs) f.position =
          Keyed.lookup ChessPiece.position fs f.position :=
      fun f hne => List.find?_cons_of_neg (by rw [decide_eq_true_eq]; exact hne)
    rw [List.foldl_cons, ih]
    by_cases hadds : d.Adds piece moves g
    · rw [addSelfCapture_of_adds hadds]
      constructor
      · rintro (hm | ⟨f, hf, ⟨hreach, hfree⟩, rfl⟩)
        · rcases List.mem_append.mp hm with hm | hm
          · exact .inl hm
          · exact .inr ⟨g, hsame g rfl, hadds, List.mem_singleton.mp hm⟩
        · -- the square of `g` is taken now, so `f` stands elsewhere
          have hne : g.position ≠ f.position := fun heq =>
            hfree _ (List.mem_append_right _ (List.mem_singleton.mpr rfl)) ⟨rfl, heq⟩
          exact .inr ⟨f, (hother f hne).trans hf,
            ⟨hreach, fun m hm => hfree m (List.mem_append_left _ hm)⟩, rfl⟩
      · rintro (hm | ⟨f, hf, ⟨hreach, hfree⟩, rfl⟩)
        · exact .inl (List.mem_append_left _ hm)
        · by_cases heq : g.position = f.position
          · rw [hsame f heq, Option.some_inj] at hf
            subst hf
            exact .inl (List.mem_append_right _ (List.mem_singleton.mpr rfl))
          · refine .inr ⟨f, (hother f heq).symm.trans hf, ⟨hreach, fun m hm => ?_⟩, rfl⟩
            rcases List.mem_append.mp hm with hm | hm
            · exact hfree m hm
            · rw [List.mem_singleton.mp hm]
              exact fun hto => heq hto.2
    · rw [addSelfCapture_of_not_adds hadds]
      refine or_congr_right (exists_congr fun f => and_congr_left fun hf => ?_)
      -- a piece on the square of `g` is not added either
      have hne : g.position ≠ f.position := by
        intro heq
        refine hadds ⟨heq ▸ hf.1.1, fun m hm hto => hf.1.2 m hm (heq ▸ hto)⟩
      rw [hother f hne]

theorem mem_friendlyFireFilter_iff : m ∈ d.friendlyFireFilter moves piece ↔ m ∈ moves ∨
    ∃ f, Keyed.lookup ChessPiece.position (d.friendlyPieces piece) f.position = some f ∧
      d.Adds piece moves f ∧
      m = ChessMove.simple piece.position f.position piece (some f) := by
  rw [friendlyFireFilter_eq, mem_foldl_addSelfCapture]

theorem mem_friendlyFireFilter_cases (hm : m ∈ d.friendlyFireFilter moves piece) :
    m ∈ moves ∨ ∃ f, d.SelfCapture piece f m := by
  rcases mem_friendlyFireFilter_iff.mp hm with hm | ⟨f, hf, hadds, rfl⟩
  · exact .inl hm
  · obtain ⟨hmem, hok⟩ := List.mem_filter.mp (Keyed.mem_of_lookup hf).1
    exact .inr ⟨f, ⟨hmem, of_decide_eq_true hok⟩, hadds.1, rfl⟩

/-- The Friendly Fire filter on moves that capture no own piece. -/
theorem mem_friendlyFireFilter (hd : d.Tidy)
    (hclean : ∀ f ∈ d.pieces, f.color = piece.color → ∀ m ∈ moves, m.toPos ≠ f.position) :
    m ∈ d.friendlyFireFilter moves piece ↔ m ∈ moves ∨ ∃ f, d.SelfCapture piece f m := by
  refine ⟨mem_friendlyFireFilter_cases, fun hm => mem_friendlyFireFilter_iff.mpr ?_⟩
  rcases hm with hm | ⟨f, ⟨hf, hok⟩, hreach, rfl⟩
  · exact .inl hm
  · refine .inr ⟨f, ?_, ⟨hreach, fun m hm hto => hclean f hf hok.1 m hm hto.2⟩, rfl⟩
    exact (hd.distinct.filter _).lookup_eq_some_iff.mpr
      ⟨List.mem_filter.mpr ⟨hf, decide_eq_true hok⟩, rfl⟩

/-- A move that passes the ruleset was generated, or is one of the two kinds of moves that
rulesets add. -/
theorem mem_applyRulesetFilter_cases (hm : m ∈ d.applyRulesetFilter moves piece) :
    m ∈ moves ∨ (d.gameType = .friendlyFire ∧ ∃ f, d.SelfCapture piece f m) ∨
      (piece.type = .queen ∧ m ∈ d.prisonerMoves piece) := by
  unfold applyRulesetFilter at hm
  split at hm
  · unfold truceFilter at hm
    split_ifs at hm
    · exact .inl hm
    · cases hm
    · exact .inl (List.mem_filter.mp (List.mem_filter.mp hm).1).1
  · rename_i hmod
    rcases mem_friendlyFireFilter_cases hm with hm | hm
    · exact .inl hm
    · exact .inr (.inl ⟨hmod, hm⟩)
  · unfold kingsBattleFilter at hm
    split_ifs at hm
    · exact .inl hm
    · cases hm
    · exact .inl (List.mem_filter.mp hm).1
    · exact .inl hm
  · unfold saveTheQueenFilter at hm
    dsimp only at hm
    split_ifs at hm with hq
    · exact .inl (List.mem_filter.mp (List.mem_filter.mp hm).1).1
    · exact .inr (.inr ⟨hq, hm⟩)
    · exact .inl (List.mem_filter.mp hm).1
  · exact .inl hm

/-- Every generated move is one of its piece, and only pawns promote or take en passant. -/
structure MoveOf (piece : ChessPiece) (m : ChessMove) : Prop where
  piece_eq : m.piece = piece
  from_eq : m.fromPos = piece.position
  plain : piece.type ≠ .pawn → m.isEnPassant = false ∧ m.isPromotion = false

theorem moveOf_plainMove (piece : ChessPiece) (toPos : Position) :
    MoveOf piece (d.plainMove piece toPos) := ⟨rfl, rfl, fun _ => ⟨rfl, rfl⟩⟩

theorem moveOf_arrives {toPos : Position} (hp : piece.type = .pawn)
    (h : d.Arrives piece toPos m) : MoveOf piece m := by
  unfold Arrives at h
  split at h
  · obtain ⟨letter, -, rfl⟩ := h
    exact ⟨rfl, rfl, fun hne => absurd hp hne⟩
  · rw [h]
    exact moveOf_plainMove piece toPos

theorem moveOf_slide {dirs : List (ℤ × ℤ)} (h : m ∈ d.generateSlidingMoves piece dirs) :
    MoveOf piece m := by
  obtain ⟨e, -, he⟩ := List.mem_flatMap.mp h
  obtain ⟨toPos, -, -, rfl⟩ := (mem_slideDir 7 1).mp he
  exact moveOf_plainMove piece toPos

theorem moveOf_step {offsets : List (ℤ × ℤ)} (h : m ∈ d.generateStepMoves piece offsets) :
    MoveOf piece m := by
  obtain ⟨toPos, -, -, -, rfl⟩ := mem_generateStepMoves.mp h
  exact moveOf_plainMove piece toPos

theorem moveOf_castlingMoves (h : m ∈ d.castlingMoves piece) : MoveOf piece m := by
  unfold castlingMoves at h
  dsimp only at h
  split_ifs at h <;> simp at h
  · rcases h with rfl | rfl <;> exact ⟨rfl, rfl, fun _ => ⟨rfl, rfl⟩⟩
  · exact h ▸ ⟨rfl, rfl, fun _ => ⟨rfl, rfl⟩⟩
  · exact h ▸ ⟨rfl, rfl, fun _ => ⟨rfl, rfl⟩⟩

theorem moveOf_getPawnMoves (hp : piece.type = .pawn) (h : m ∈ d.getPawnMoves piece) :
    MoveOf piece m := by
  by_cases hmod : d.gameType = .mercenary
  · rw [getPawnMoves, if_pos hmod] at h
    obtain ⟨toPos, -, -, -, -, rfl⟩ := (mem_mercenaryPawnMoves hmod).mp h
    exact moveOf_plainMove piece toPos
  · rcases (mem_getPawnMoves hmod).mp h with h | ⟨toPos, -, -, h | h⟩
    · obtain ⟨-, -, h | ⟨-, -, -, rfl⟩⟩ := (mem_pawnForward hp).mp h
      · exact moveOf_arrives hp h
      · exact moveOf_plainMove piece _
    · exact moveOf_arrives hp ((mem_pawnDiagonal hp).mp h).2
    · obtain ⟨-, captured, -, -, rfl⟩ := mem_pawnEnPassant.mp h
      exact ⟨rfl, rfl, fun hne => absurd hp hne⟩

theorem moveOf_getPotentialMoves (h : m ∈ d.getPotentialMoves piece) : MoveOf piece m := by
  unfold getPotentialMoves at h
  split at h
  · rename_i hp
    exact moveOf_getPawnMoves hp h
  · exact moveOf_slide h
  · exact moveOf_step h
  · exact moveOf_slide h
  · rcases List.mem_append.mp h with h | h
    · exact moveOf_slide h
    · exact moveOf_slide h
  · rcases List.mem_append.mp h with h | h
    · exact moveOf_step h
    · exact moveOf_castlingMoves h

theorem mem_prisonerMoves : m ∈ d.prisonerMoves piece ↔ ∃ toPos : Position, toPos.IsValid ∧
    KingStep piece.position toPos ∧ d.getPieceAt toPos = none ∧ m = d.plainMove piece toPos := by
  unfold prisonerMoves
  rw [List.mem_flatMap]
  simp only [← exists_kingOffset_iff]
  constructor
  · rintro ⟨e, he, hm⟩
    split_ifs at hm with hout
    · cases hm
    · have hv : (piece.position.offset e.1 e.2).IsValid := by
        rw [Position.isValid_iff]
        omega
      cases hq : d.getPieceAt (piece.position.offset e.1 e.2) with
      | some q => simp [hq] at hm
      | none =>
        rw [hq] at hm
        refine ⟨_, hv, ⟨e, he, rfl⟩, hq, ?_⟩
        rw [List.mem_singleton.mp hm, plainMove, hq]
  · rintro ⟨_, hv, ⟨e, he, rfl⟩, hfree, rfl⟩
    refine ⟨e, he, ?_⟩
    rw [Position.isValid_iff] at hv
    rw [if_neg (by omega), hfree]
    simp [plainMove, hfree]

theorem moveOf_prisonerMoves (h : m ∈ d.prisonerMoves piece) : MoveOf piece m := by
  obtain ⟨toPos, -, -, -, rfl⟩ := mem_prisonerMoves.mp h
  exact moveOf_plainMove piece toPos

theorem moveOf_applyRulesetFilter
    (h : m ∈ d.applyRulesetFilter (d.getPotentialMoves piece) piece) : MoveOf piece m := by
  rcases mem_applyRulesetFilter_cases h with h | ⟨-, f, -, -, rfl⟩ | ⟨-, h⟩
  · exact moveOf_getPotentialMoves h
  · exact ⟨rfl, rfl, fun _ => ⟨rfl, rfl⟩⟩
  · exact moveOf_prisonerMoves h

theorem mem_getValidMovesFor {position : Position} : m ∈ d.getValidMovesFor position ↔
    ∃ piece, d.getPieceAt position = some piece ∧ piece.color = d.currentPlayer ∧
      m ∈ d.applyRulesetFilter (d.getPotentialMoves piece) piece ∧ d.keepsMove m = true := by
  unfold getValidMovesFor
  cases hq : d.getPieceAt position with
  | none => simp
  | some piece =>
    simp only [Option.some.injEq, exists_eq_left']
    by_cases hc : piece.color = d.currentPlayer <;> simp [hc]

end Rulesets

end ChessBoard

end ChessRecast.App
