import ChessRecast.Engine.Kingless

/-!
# Room in the move list

A piece has at most as many moves as on an empty board. With at most sixteen men, two of them
queens, and no king, a side of Succession has fewer than `MAX_MOVES` pseudo-legal moves.
-/

namespace ChessRecast.Engine

open Rules

/-- Most moves of a piece of the type that is not a pawn. -/
def mobility : PieceType → ℕ
  | .pawn => 0
  | .knight => 8
  | .bishop => 13
  | .rook => 14
  | .queen => 27
  | .king => 8

theorem length_bbSquares (bb : Bitboard) : (bbSquares bb).length = bbPopcount bb := by
  rw [bbSquares, List.length_map, bbPopcount]

theorem bbPopcount_le_of_subset {x y : Bitboard}
    (h : ∀ s, SqValid s → bbHas x s = true → bbHas y s = true) : bbPopcount x ≤ bbPopcount y := by
  rw [← length_bbSquares, ← length_bbSquares]
  refine (nodup_bbSquares.subperm fun s hs => ?_).length_le
  rw [mem_bbSquares] at hs ⊢
  exact ⟨hs.1, h s hs.1 hs.2⟩

theorem length_flatMap_le {α : Type} {f : α → List Move} {n : ℕ} (l : List α)
    (h : ∀ a ∈ l, (f a).length ≤ n) : (l.flatMap f).length ≤ l.length * n := by
  rw [List.length_flatMap]
  have hsum := List.sum_le_card_nsmul (l.map fun a => (f a).length) n (by simpa using h)
  simpa using hsum

section Pieces

variable {b : Board} {sq : ℤ} {pt : PieceType}

theorem popcount_attackSet_boardClear (hsq : SqValid sq) :
    bbPopcount (attackSet boardClear pt sq) ≤ mobility pt := by
  have hall : ∀ i ∈ List.range 64, ∀ pt ∈ pieceTypes,
      bbPopcount (attackSet boardClear pt (i : ℤ)) ≤ mobility pt := by decide +kernel
  have hlt := hsq.toNat_lt
  have h := hall sq.toNat (List.mem_range.mpr hlt) pt (by cases pt <;> decide)
  rwa [Int.toNat_of_nonneg hsq.1] at h

theorem popcount_attackSet_le (h : RepInv b.toViews) (hsq : SqValid sq) :
    bbPopcount (attackSet b pt sq) ≤ mobility pt := by
  refine (bbPopcount_le_of_subset fun s hs hbit => ?_).trans (popcount_attackSet_boardClear hsq)
  rw [bbHas_attackSet h hsq hs] at hbit
  rw [bbHas_attackSet repInv_boardClear hsq hs]
  -- on the empty board every line is open
  refine hbit.mono fun z _ => ?_
  unfold placement
  split <;> rfl

theorem attackSet_of_pieceTargets {toSq : ℤ} (h : RepInv b.toViews) (hsq : SqValid sq)
    (hto : SqValid toSq) (hbit : bbHas (pieceTargets b pt sq false) toSq = true) :
    bbHas (attackSet b pt sq) toSq = true := by
  rw [bbHas_pieceTargets h hsq hto] at hbit
  exact (bbHas_attackSet h hsq hto).mpr hbit.1

theorem length_pieceMovesFrom_le (h : RepInv b.toViews) (hsq : SqValid sq) :
    (pieceMovesFrom b pt sq false).length ≤ mobility pt := by
  have hone : (pieceMovesFrom b pt sq false).length ≤
      (bbSquares (pieceTargets b pt sq false)).length * 1 := by
    unfold pieceMovesFrom
    apply length_flatMap_le
    intro toSq _
    split
    · split_ifs <;> simp
    · exact le_rfl
  refine hone.trans ?_
  rw [mul_one, length_bbSquares]
  exact (bbPopcount_le_of_subset fun s hs hbit => attackSet_of_pieceTargets h hsq hs hbit).trans
    (popcount_attackSet_le h hsq)

theorem length_genPieceMoves_le (h : RepInv b.toViews) (hmod : b.mod = .succession) :
    (genPieceMoves b pt false).length ≤ bbPopcount (b.pieces b.side pt) * mobility pt := by
  unfold genPieceMoves
  split
  · exact Nat.zero_le _
  · have htruce : truceNoCap b = false := by simp [truceNoCap, hmod]
    simp only [htruce, hmod, Bool.false_eq_true, if_false, reduceCtorEq, false_and]
    rw [← length_bbSquares]
    refine length_flatMap_le _ fun sq hs => length_pieceMovesFrom_le h ?_
    exact (mem_bbSquares.mp hs).1

end Pieces

section Pawns

variable {b : Board} {sq toSq : ℤ} {capt : Option PieceType}

theorem length_pawnPromos_le (hmod : b.mod = .succession) :
    (pawnPromos b sq toSq capt).length ≤ 4 := by
  unfold pawnPromos succAddPromos
  simp only [hmod, reduceCtorEq, if_false, if_true]
  split_ifs <;> simp

theorem length_pawnPushes_le (hmod : b.mod = .succession) :
    (pawnPushes b sq false).length ≤ 4 := by
  unfold pawnPushes
  dsimp only
  split_ifs
  · exact length_pawnPromos_le hmod
  all_goals simp

theorem length_pawnCaptures_le (hmod : b.mod = .succession) (dc : ℤ) :
    (pawnCaptures b sq dc).length ≤ 5 := by
  have henemy : ∀ toSq, (pawnTakesEnemy b sq toSq).length ≤ 4 := by
    intro toSq
    unfold pawnTakesEnemy
    split
    · split_ifs
      · exact length_pawnPromos_le hmod
      all_goals simp
    · exact Nat.zero_le _
  have hown : ∀ toSq, pawnTakesOwn b sq toSq = [] := by
    intro toSq
    unfold pawnTakesOwn
    simp only [hmod, reduceCtorEq, false_and, if_false]
    split <;> rfl
  have hep : ∀ toSq, (pawnTakesEp b sq toSq).length ≤ 1 := by
    intro toSq
    unfold pawnTakesEp
    dsimp only
    split
    · split
      · split <;> simp
      · exact Nat.zero_le _
    · exact Nat.zero_le _
  unfold pawnCaptures
  dsimp only
  split
  · exact Nat.zero_le _
  · split
    · exact Nat.zero_le _
    · split
      · exact Nat.zero_le _
      · rw [hown, List.append_nil, List.length_append]
        exact Nat.add_le_add (henemy _) (hep _)

theorem length_genPawnMoves_le (hmod : b.mod = .succession) :
    (genPawnMoves b false).length ≤ bbPopcount (b.pieces b.side .pawn) * 14 := by
  have htruce : truceNoCap b = false := by simp [truceNoCap, hmod]
  unfold genPawnMoves
  simp only [htruce, hmod, Bool.false_eq_true, if_false, reduceCtorEq]
  rw [← length_bbSquares]
  refine length_flatMap_le _ fun sq _ => ?_
  have h1 : (pawnPushes b sq false).length ≤ 4 := length_pawnPushes_le hmod
  have h2 : (pawnCaptures b sq (-1)).length ≤ 5 := length_pawnCaptures_le hmod (-1)
  have h3 : (pawnCaptures b sq 1).length ≤ 5 := length_pawnCaptures_le hmod 1
  simp only [List.length_append]
  omega

end Pawns

theorem length_genCastling_le (b : Board) : (genCastling b).length ≤ 2 := by
  have hone : ∀ right empties safes fromSq toSq,
      (tryCastle b right empties safes fromSq toSq).length ≤ 1 := by
    intro right empties safes fromSq toSq
    unfold tryCastle
    split <;> simp
  have hsides : (castlesOf b b.side).length ≤ 2 := by
    unfold castlesOf
    cases b.side <;> rw [List.length_append] <;> exact Nat.add_le_add (hone ..) (hone ..)
  unfold genCastling
  split_ifs
  iterate 3 exact Nat.zero_le _
  exact hsides

theorem length_pseudoMoves_le {b : Board} (h : RepInv b.toViews) (hmod : b.mod = .succession)
    (hkingless : b.pieces b.side .king = 0) (hqueens : bbPopcount (b.pieces b.side .queen) ≤ 2)
    (hmen : ((pieceTypes.map fun pt => bbPopcount (b.pieces b.side pt)).sum) ≤ 16) :
    (pseudoMoves b).length ≤ maxMoves := by
  have hpawn := length_genPawnMoves_le hmod
  have hpiece : ∀ pt, (genPieceMoves b pt false).length ≤
      bbPopcount (b.pieces b.side pt) * mobility pt := fun pt => length_genPieceMoves_le h hmod
  have hn := hpiece .knight
  have hb := hpiece .bishop
  have hr := hpiece .rook
  have hq := hpiece .queen
  have hk := hpiece .king
  have hc := length_genCastling_le b
  have hzero : bbPopcount (b.pieces b.side .king) = 0 := by rw [hkingless]; decide
  simp only [mobility, pieceTypes, List.map_cons, List.map_nil, List.sum_cons, List.sum_nil] at *
  unfold pseudoMoves maxMoves
  simp only [List.length_append]
  omega

end ChessRecast.Engine
