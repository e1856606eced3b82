import ChessRecast.Engine.Kingless
import ChessRecast.Lib.Keyed

/-!
# Captures only (`generate_captures`)

The generators are run a second time under the flag `captures_only`. On a board whose views agree
they then return, in the same order, the moves of the first run that take something
(`pseudoCaptures_eq`), and no move comes twice (`nodup_pseudoMoves`). The two legality loops test
these moves on scratch boards that are intact as long as the moves describe the board truthfully;
castling, for which nothing of the kind is assumed, is tested last and takes nothing.
-/

namespace ChessRecast.Engine

open Rules

/-! ## Lists -/

/-- A loop over the squares of a mask, against the loop over all of which only some moves are
kept. -/
theorem filter_flatMap_eq {α β : Type} {l : List α} {f g : α → List β} {p : β → Bool} {q : α → Bool}
    (hin : ∀ a ∈ l, q a = true → (g a).filter p = f a)
    (hout : ∀ a ∈ l, q a = false → (g a).filter p = []) :
    (l.flatMap g).filter p = (l.filter q).flatMap f := by
  induction l with
  | nil => rfl
  | cons a l ih =>
    have hrest := ih (fun b hb => hin b (List.mem_cons_of_mem _ hb))
      (fun b hb => hout b (List.mem_cons_of_mem _ hb))
    rw [List.flatMap_cons, List.filter_append, hrest]
    cases hq : q a with
    | true =>
      rw [List.filter_cons_of_pos hq, List.flatMap_cons, hin a List.mem_cons_self hq]
    | false =>
      rw [List.filter_cons_of_neg (by rw [hq]; decide), hout a List.mem_cons_self hq,
        List.nil_append]

theorem ascending_bbSquares (x : Bitboard) : (bbSquares x).Pairwise (· < ·) :=
  (Bits.ascending_toList x).map _ fun _ _ hlt => Int.ofNat_lt.mpr hlt

theorem bbSquares_and (x y : Bitboard) : bbSquares (x &&& y) = (bbSquares x).filter (bbHas y) := by
  apply Keyed.eq_of_ascending id (ascending_bbSquares _)
  · exact (ascending_bbSquares x).filter _
  · intro s
    rw [List.mem_filter, mem_bbSquares, mem_bbSquares, bbHas_and, Bool.and_eq_true, and_assoc]

section Pieces

variable {b : Board} {sq toSq : ℤ} {pt : PieceType}

/-! ## Pieces -/

/-- The squares that the flag leaves to a piece. -/
def captureMask (b : Board) : Bitboard :=
  if b.mod = .friendlyFire then
    b.occupied b.side.opposite ||| (b.occupied b.side &&& b.ffMoved &&& ~~~b.pieces b.side .king)
  else b.occupied b.side.opposite

theorem pieceTargets_captures (b : Board) (pt : PieceType) (sq : ℤ) :
    pieceTargets b pt sq true = pieceTargets b pt sq false &&& captureMask b := by
  unfold captureMask
  by_cases hff : b.mod = .friendlyFire
  · rw [if_pos hff]
    unfold pieceTargets
    simp only [hff, if_true, Bool.false_eq_true, if_false]
  · rw [if_neg hff]
    unfold pieceTargets
    simp only [hff, if_true, Bool.false_eq_true, if_false]

/-- Of the squares that a piece may go to, the mask has the occupied ones. -/
theorem bbHas_captureMask (h : RepInv b.toViews) (hsq : SqValid sq) (hto : SqValid toSq)
    (htarget : bbHas (pieceTargets b pt sq false) toSq = true) :
    bbHas (captureMask b) toSq = true ↔ b.mailbox toSq ≠ none := by
  obtain ⟨-, hown, -⟩ := (bbHas_pieceTargets h hsq hto).mp htarget
  have hthem := h.occupied_iff (c := b.side.opposite) hto
  have hus := h.occupied_iff (c := b.side) hto
  have hking := h.bit_iff b.side .king toSq hto
  constructor
  · intro hmask hnone
    have hnot : ∀ c, bbHas (b.occupied c) toSq = false := by
      intro c
      rw [← Bool.not_eq_true, h.occupied_iff hto]
      rintro ⟨t, ht⟩
      cases hnone.symm.trans ht
    unfold captureMask at hmask
    split at hmask
    · simp [hnot] at hmask
    · rw [hnot] at hmask
      cases hmask
  · intro hne
    obtain ⟨⟨c, t⟩, hman⟩ := Option.ne_none_iff_exists'.mp hne
    unfold captureMask
    by_cases hc : c = b.side
    · -- an own man is a target in Friendly Fire only
      subst hc
      obtain ⟨hff, hnk, hmoved⟩ := hown t hman
      have hnotking : bbHas (b.pieces b.side .king) toSq = false := by
        rw [← Bool.not_eq_true, hking, hman]
        intro heq
        exact hnk (Prod.mk.inj (Option.some.inj heq)).2
      rw [if_pos hff]
      simp [bbHas_not hto, hus.mpr ⟨t, hman⟩, hmoved, hnotking]
    · have hc' : c = b.side.opposite := Color.ne_iff_eq_opposite.mp hc
      have hbit := hthem.mpr ⟨t, hc' ▸ hman⟩
      split
      · simp [hbit]
      · exact hbit

theorem pieceMovesFrom_captures (h : RepInv b.toViews) (hsq : SqValid sq) :
    pieceMovesFrom b pt sq true = (pieceMovesFrom b pt sq false).filter Move.isCapture := by
  unfold pieceMovesFrom
  rw [pieceTargets_captures, bbSquares_and]
  symm
  apply filter_flatMap_eq
  · intro toSq hmem hmask
    obtain ⟨hto, hbit⟩ := mem_bbSquares.mp hmem
    obtain ⟨⟨c, t⟩, hman⟩ :=
      Option.ne_none_iff_exists'.mp ((bbHas_captureMask h hsq hto hbit).mp hmask)
    rw [hman]
    dsimp only
    split_ifs <;> rfl
  · intro toSq hmem hmask
    obtain ⟨hto, hbit⟩ := mem_bbSquares.mp hmem
    have hnone : b.mailbox toSq = none := by
      by_contra hne
      rw [(bbHas_captureMask h hsq hto hbit).mpr hne] at hmask
      cases hmask
    rw [hnone]
    rfl

theorem filter_capture_map_simple (l : List ℤ) :
    (l.map fun toSq => moveSimple sq toSq pt).filter Move.isCapture = [] := by
  rw [List.filter_map, List.map_eq_nil_iff, List.filter_eq_nil_iff]
  intro toSq _ hcapt
  cases hcapt

theorem stqOwnTargets_captures (h : RepInv b.toViews) : stqOwnTargets b sq true =
    stqOwnTargets b sq false &&& b.occupied b.side.opposite := by
  apply bb_ext
  intro s hs
  unfold stqOwnTargets
  simp only [if_true, Bool.false_eq_true, if_false]
  split
  · -- the square of the prisoner holds an enemy queen, whatever the flag
    rename_i hcond
    obtain ⟨hlsb, hbit⟩ := bbLsb_spec hcond.1
    rw [bbHas_and, Bool.and_eq_true, h.bit_iff _ _ _ hlsb] at hbit
    have hocc := (h.occupied_iff hlsb).mpr ⟨_, hbit.1⟩
    simp only [bbHas_or, bbHas_and, bbHas_bbSq hlsb hs]
    by_cases heq : s = bbLsb (b.pieces b.side.opposite .queen &&& halfMask b.side)
    · rw [heq, hocc]
      simp
    · simp [heq]
  · rfl

theorem stqQueenMoves_captures (h : RepInv b.toViews) (hsq : SqValid sq) :
    stqQueenMoves b sq true = (stqQueenMoves b sq false).filter Move.isCapture := by
  unfold stqQueenMoves
  by_cases hhalf : StqIsOwnHalf sq b.side
  · simp only [hhalf, not_true_eq_false, if_false, if_true, Bool.false_eq_true, List.append_nil]
    rw [List.filter_append, filter_capture_map_simple, List.append_nil, stqOwnTargets_captures h,
      bbSquares_and]
    symm
    apply filter_flatMap_eq
    · intro toSq hmem hocc
      obtain ⟨hto, -⟩ := mem_bbSquares.mp hmem
      obtain ⟨t, hman⟩ := (h.occupied_iff hto).mp hocc
      rw [hman]
      dsimp only
      split_ifs <;> rfl
    · intro toSq hmem hocc
      obtain ⟨hto, hbit⟩ := mem_bbSquares.mp hmem
      cases hman : b.mailbox toSq with
      | none => rfl
      | some man =>
        -- the targets hold no own man
        have hc : man.1 = b.side.opposite := by
          rcases (bbHas_stqOwnTargets h hsq hto).mp hbit with ⟨-, hall, -⟩ | hprison
          · exact (hall man.1 man.2 hman).1
          · rw [(hprison.captive h).1] at hman
            rw [← Option.some.inj hman]
        rw [(h.occupied_iff hto).mpr ⟨man.2, by rw [← hc]; exact hman⟩] at hocc
        cases hocc
  · simp only [hhalf, not_false_eq_true, if_true, Bool.false_eq_true, if_false]
    rw [filter_capture_map_simple]

theorem genPieceMoves_captures (h : RepInv b.toViews) :
    genPieceMoves b pt true = (genPieceMoves b pt false).filter Move.isCapture := by
  unfold genPieceMoves
  by_cases hlock : kbLocked b = true ∧ pt ≠ .king
  · rw [if_pos hlock, if_pos hlock]
    rfl
  · rw [if_neg hlock, if_neg hlock]
    dsimp only
    rw [List.filter_flatMap]
    refine List.flatMap_congr fun sq hmem => ?_
    obtain ⟨hsq, -⟩ := mem_bbSquares.mp hmem
    split
    · exact stqQueenMoves_captures h hsq
    · exact pieceMovesFrom_captures h hsq

end Pieces

/-! ## Pawns -/

section Pawns

variable {b : Board} {sq toSq : ℤ} {m : Move}

theorem pawnPushes_captures : pawnPushes b sq true = [] := by
  unfold pawnPushes
  dsimp only
  rw [if_neg fun hcond => absurd hcond.1 (by decide)]

theorem not_isCapture_of_mem_pawnPushes (hm : m ∈ pawnPushes b sq false) :
    m.isCapture = false := by
  obtain ⟨-, hone, hrest⟩ := mem_pawnPushes.mp hm
  split at hrest
  · obtain ⟨pt, -, rfl⟩ := hrest
    rfl
  · rcases hrest with rfl | ⟨-, htwo, rfl⟩
    · rw [← moveSimple_eq_plainMove hone]
      rfl
    · rw [← moveSimple_eq_plainMove htwo]
      rfl

theorem isCapture_plainMove {man : Man} {pt : PieceType} (hman : b.mailbox toSq = some man) :
    (plainMove b sq toSq pt).isCapture = true := by
  rw [← moveCapture_eq_plainMove hman]
  rfl

theorem isCapture_of_mem_pawnCaptures (hsq : SqValid sq)
    (hm : m ∈ pawnCaptures b sq (-1) ++ pawnCaptures b sq 1) : m.isCapture = true := by
  obtain ⟨toSq, -, -, -, htake⟩ := (mem_pawnCaptures hsq).mp hm
  rcases htake with henemy | hown | hep
  · obtain ⟨capt, hman, hkind⟩ := mem_pawnTakesEnemy.mp henemy
    split at hkind
    · obtain ⟨pt, -, rfl⟩ := hkind
      rfl
    · rw [hkind]
      exact isCapture_plainMove hman
  · obtain ⟨capt, hman, -, hkind⟩ := mem_pawnTakesOwn.mp hown
    split at hkind
    · obtain ⟨pt, -, rfl⟩ := hkind
      rfl
    · rw [hkind]
      exact isCapture_plainMove hman
  · obtain ⟨-, -, t, -, rfl⟩ := mem_pawnTakesEp.mp hep
    rfl

theorem mercenaryPawnMoves_captures (h : RepInv b.toViews) :
    mercenaryPawnMoves b sq true = (mercenaryPawnMoves b sq false).filter Move.isCapture := by
  unfold mercenaryPawnMoves
  simp only [if_true, Bool.false_eq_true, if_false, List.nil_append]
  rw [List.filter_append, filter_capture_map_simple, List.nil_append]
  symm
  rw [List.filter_eq_self]
  intro m hm
  split at hm
  · cases hm
  · obtain ⟨toSq, hmem, hm⟩ := List.mem_flatMap.mp hm
    obtain ⟨hto, hbit⟩ := mem_bbSquares.mp hmem
    rw [bbHas_and, Bool.and_eq_true, h.occupied_iff hto] at hbit
    obtain ⟨t, hman⟩ := hbit.2
    rw [hman] at hm
    split at hm
    · cases hm
    · rw [List.mem_singleton.mp hm]
      rfl

theorem genPawnMoves_captures (h : RepInv b.toViews) :
    genPawnMoves b true = (genPawnMoves b false).filter Move.isCapture := by
  unfold genPawnMoves
  dsimp only
  rw [List.filter_flatMap]
  refine List.flatMap_congr fun sq hmem => ?_
  obtain ⟨hsq, -⟩ := mem_bbSquares.mp hmem
  split
  · exact mercenaryPawnMoves_captures h
  · have hpush : (pawnPushes b sq false).filter Move.isCapture = [] := by
      rw [List.filter_eq_nil_iff]
      intro m hm
      rw [not_isCapture_of_mem_pawnPushes hm]
      decide
    rw [pawnPushes_captures, List.nil_append, List.filter_append, hpush, List.nil_append]
    symm
    rw [List.filter_eq_self]
    intro m hm
    split at hm
    · cases hm
    · exact isCapture_of_mem_pawnCaptures hsq hm

end Pawns

/-- The captures are the moves before castling that take something, in the same order. -/
theorem pseudoCaptures_eq {b : Board} (h : RepInv b.toViews) :
    pseudoCaptures b = (menMoves b).filter Move.isCapture := by
  unfold pseudoCaptures menMoves
  simp only [List.filter_append, genPawnMoves_captures h, genPieceMoves_captures h]

/-! ## No move comes twice -/

section Nodup

variable {b : Board} {sq toSq : ℤ} {pt : PieceType} {m : Move}

theorem nodup_map_simple {l : List ℤ} (hl : l.Nodup) :
    (l.map fun toSq => moveSimple sq toSq pt).Nodup :=
  hl.map fun _ _ heq => congrArg Move.toSq heq

theorem nodup_pieceMovesFrom : (pieceMovesFrom b pt sq false).Nodup := by
  unfold pieceMovesFrom
  apply Keyed.nodup_flatMap Move.toSq nodup_bbSquares
  · intro toSq _
    split
    · split_ifs <;> simp
    · exact List.nodup_singleton _
  · intro toSq _ m hm
    split at hm
    · split_ifs at hm
      · cases hm
      · cases hm
      · rw [List.mem_singleton.mp hm]
        rfl
    · rw [List.mem_singleton.mp hm]
      rfl

/-- The moves of a queen at large to one square. -/
def stqQueenMovesTo (b : Board) (sq toSq : ℤ) : List Move :=
  match b.mailbox toSq with
  | some (_, capt) => if capt = .king then [] else [moveCapture sq toSq .queen (some capt)]
  | none => [moveSimple sq toSq .queen]

/-- An escaped queen slides within its half and steps across: different squares. -/
theorem nodup_stqQueenMoves (h : RepInv b.toViews) (hsq : SqValid sq) :
    (stqQueenMoves b sq false).Nodup := by
  unfold stqQueenMoves
  simp only [Bool.false_eq_true, if_false]
  split
  · exact nodup_map_simple nodup_bbSquares
  · have hto : ∀ toSq, ∀ m ∈ stqQueenMovesTo b sq toSq, m.toSq = toSq := by
      intro toSq m hm
      unfold stqQueenMovesTo at hm
      split at hm
      · split_ifs at hm
        · cases hm
        · rw [List.mem_singleton.mp hm]
          rfl
      · rw [List.mem_singleton.mp hm]
        rfl
    apply Keyed.nodup_append Move.toSq
    · apply Keyed.nodup_flatMap Move.toSq nodup_bbSquares
      · intro toSq _
        split
        · split_ifs <;> simp
        · exact List.nodup_singleton _
      · exact fun toSq _ => hto toSq
    · exact nodup_map_simple nodup_bbSquares
    · intro m hm m' hm' heq
      obtain ⟨toSq, hmem, hm⟩ := List.mem_flatMap.mp hm
      obtain ⟨toSq', hmem', rfl⟩ := List.mem_map.mp hm'
      obtain rfl : toSq = toSq' := (hto toSq m hm).symm.trans heq
      obtain ⟨hvalid, hbit⟩ := mem_bbSquares.mp hmem
      obtain ⟨-, hbit'⟩ := mem_bbSquares.mp hmem'
      have hown : StqIsOwnHalf toSq b.side := by
        rcases (bbHas_stqOwnTargets h hsq hvalid).mp hbit with hslide | hprison
        · exact hslide.2.2
        · exact (hprison.captive h).2
      rw [bbHas_and, Bool.and_eq_true, bbHas_not hvalid, (bbHas_halfMask hvalid).mpr hown] at hbit'
      exact absurd hbit'.2 (by decide)

theorem nodup_genPieceMoves (h : RepInv b.toViews) : (genPieceMoves b pt false).Nodup := by
  unfold genPieceMoves
  split
  · exact List.nodup_nil
  · dsimp only
    apply Keyed.nodup_flatMap Move.fromSq nodup_bbSquares
    · intro sq hmem
      obtain ⟨hsq, -⟩ := mem_bbSquares.mp hmem
      split
      · exact nodup_stqQueenMoves h hsq
      · exact nodup_pieceMovesFrom
    · intro sq hmem m hm
      obtain ⟨hsq, -⟩ := mem_bbSquares.mp hmem
      split at hm
      · obtain ⟨toSq, -, -, rfl⟩ := (mem_stqQueenMoves h hsq).mp hm
        rfl
      · obtain ⟨toSq, -, -, -, rfl⟩ := (mem_pieceMovesFrom h hsq).mp hm
        rfl

theorem piece_of_mem_genPieceMoves (h : RepInv b.toViews) (hm : m ∈ genPieceMoves b pt false) :
    m.piece = pt ∧ m.castle = false := by
  obtain ⟨-, sq, -, -, -, toSq, -, -, rfl⟩ := (mem_genPieceMoves h).mp hm
  exact ⟨rfl, rfl⟩

theorem nodup_promoTypes (b : Board) (toSq : ℤ) : (promoTypes b toSq).Nodup := by
  unfold promoTypes
  split
  · split_ifs <;> decide
  · split_ifs <;> decide
  · decide
  · decide

theorem nodup_map_movePromo {l : List PieceType} {capt : Option PieceType} (hl : l.Nodup) :
    (l.map (movePromo sq toSq capt)).Nodup :=
  hl.map fun _ _ heq => Option.some.inj (congrArg Move.promoType heq)

theorem nodup_pawnPushes : (pawnPushes b sq false).Nodup := by
  unfold pawnPushes
  dsimp only
  split
  · split
    · rw [pawnPromos_eq]
      exact nodup_map_movePromo (nodup_promoTypes b _)
    · split
      · -- one step and two steps end on different squares
        rw [List.nodup_cons]
        refine ⟨fun hmem => ?_, List.nodup_singleton _⟩
        have heq := congrArg Move.toSq (List.mem_singleton.mp hmem)
        simp only [moveSimple, SQ] at heq
        have hfwd : b.side.forward = 1 ∨ b.side.forward = -1 := by
          cases b.side
          · exact .inl rfl
          · exact .inr rfl
        omega
      · exact List.nodup_singleton _
  · exact List.nodup_nil

theorem nodup_pawnTakesEnemy : (pawnTakesEnemy b sq toSq).Nodup := by
  unfold pawnTakesEnemy
  split
  · split_ifs
    · rw [pawnPromos_eq]
      exact nodup_map_movePromo (nodup_promoTypes b _)
    · exact List.nodup_singleton _
    · exact List.nodup_nil
  · exact List.nodup_nil

theorem nodup_pawnTakesOwn : (pawnTakesOwn b sq toSq).Nodup := by
  unfold pawnTakesOwn
  split
  · split_ifs
    · exact nodup_map_movePromo (by decide)
    · exact List.nodup_singleton _
    · exact List.nodup_nil
  · exact List.nodup_nil

theorem nodup_pawnTakesEp : (pawnTakesEp b sq toSq).Nodup := by
  unfold pawnTakesEp
  split
  · dsimp only
    split
    · split_ifs
      · exact List.nodup_singleton _
      · exact List.nodup_nil
    · exact List.nodup_nil
  · exact List.nodup_nil

/-- A pawn that takes a man on its target square does not take en passant. -/
theorem fields_of_mem_pawnTakes (hm : m ∈ pawnTakesEnemy b sq toSq ++ pawnTakesOwn b sq toSq) :
    m.fromSq = sq ∧ m.toSq = toSq ∧ m.ep = false := by
  rcases List.mem_append.mp hm with henemy | hown
  · obtain ⟨capt, -, hkind⟩ := mem_pawnTakesEnemy.mp henemy
    split at hkind
    · obtain ⟨pt, -, rfl⟩ := hkind
      exact ⟨rfl, rfl, rfl⟩
    · rw [hkind]
      exact ⟨rfl, rfl, rfl⟩
  · obtain ⟨capt, -, -, hkind⟩ := mem_pawnTakesOwn.mp hown
    split at hkind
    · obtain ⟨pt, -, rfl⟩ := hkind
      exact ⟨rfl, rfl, rfl⟩
    · rw [hkind]
      exact ⟨rfl, rfl, rfl⟩

theorem nodup_pawnCaptures (dc : ℤ) : (pawnCaptures b sq dc).Nodup := by
  unfold pawnCaptures
  dsimp only
  split_ifs
  · exact List.nodup_nil
  · exact List.nodup_nil
  · apply Keyed.nodup_append Move.ep
    · apply nodup_pawnTakesEnemy.append nodup_pawnTakesOwn
      -- the man on the square has one colour
      intro m henemy hown
      obtain ⟨capt, hman, -⟩ := mem_pawnTakesEnemy.mp henemy
      obtain ⟨capt', hman', -⟩ := mem_pawnTakesOwn.mp hown
      have hc := (Prod.mk.inj (Option.some.inj (hman.symm.trans hman'))).1
      exact absurd hc (by simp)
    · exact nodup_pawnTakesEp
    · intro m hm m' hm'
      obtain ⟨-, -, t, -, rfl⟩ := mem_pawnTakesEp.mp hm'
      rw [(fields_of_mem_pawnTakes hm).2.2]
      exact Bool.false_ne_true
  · exact List.nodup_nil

theorem squares_of_mem_pawnCaptures {dc : ℤ} (hm : m ∈ pawnCaptures b sq dc) :
    m.fromSq = sq ∧ m.toSq = SQ (sqRow sq + b.side.forward) (sqCol sq + dc) := by
  unfold pawnCaptures at hm
  dsimp only at hm
  split_ifs at hm
  · cases hm
  · cases hm
  · rcases List.mem_append.mp hm with htake | hep
    · obtain ⟨hfrom, hto, -⟩ := fields_of_mem_pawnTakes htake
      exact ⟨hfrom, hto⟩
    · obtain ⟨-, -, t, -, rfl⟩ := mem_pawnTakesEp.mp hep
      exact ⟨rfl, rfl⟩
  · cases hm

theorem nodup_mercenaryPawnMoves (h : RepInv b.toViews) :
    (mercenaryPawnMoves b sq false).Nodup := by
  have hcaptures : (mercenaryPawnMoves b sq true).Nodup := by
    unfold mercenaryPawnMoves
    simp only [if_true, List.nil_append]
    split
    · exact List.nodup_nil
    · apply Keyed.nodup_flatMap Move.toSq nodup_bbSquares
      · intro toSq _
        split_ifs <;> simp
      · intro toSq _ m hm
        split_ifs at hm
        · cases hm
        · rw [List.mem_singleton.mp hm]
          rfl
  have hsplit : mercenaryPawnMoves b sq false =
      ((bbSquares (kingAttacks sq &&& ~~~b.all)).map fun toSq => moveSimple sq toSq .pawn) ++
        mercenaryPawnMoves b sq true := rfl
  have htake : mercenaryPawnMoves b sq true =
      (mercenaryPawnMoves b sq false).filter Move.isCapture := mercenaryPawnMoves_captures h
  rw [hsplit]
  apply Keyed.nodup_append Move.isCapture (nodup_map_simple nodup_bbSquares) hcaptures
  intro m hm m' hm'
  obtain ⟨toSq, -, rfl⟩ := List.mem_map.mp hm
  rw [htake] at hm'
  rw [(List.mem_filter.mp hm').2]
  exact Bool.false_ne_true

theorem fromSq_of_mem_pawnPushes (hm : m ∈ pawnPushes b sq false) : m.fromSq = sq := by
  obtain ⟨-, -, hrest⟩ := mem_pawnPushes.mp hm
  split at hrest
  · obtain ⟨pt, -, rfl⟩ := hrest
    rfl
  · rcases hrest with rfl | ⟨-, -, rfl⟩
    · rfl
    · rfl

theorem nodup_genPawnMoves (h : RepInv b.toViews) : (genPawnMoves b false).Nodup := by
  unfold genPawnMoves
  dsimp only
  apply Keyed.nodup_flatMap Move.fromSq nodup_bbSquares
  · intro sq hmem
    obtain ⟨hsq, -⟩ := mem_bbSquares.mp hmem
    split
    · exact nodup_mercenaryPawnMoves h
    · apply Keyed.nodup_append Move.isCapture nodup_pawnPushes
      · split
        · exact List.nodup_nil
        · apply Keyed.nodup_append Move.toSq (nodup_pawnCaptures _) (nodup_pawnCaptures _)
          intro m hm m' hm'
          rw [(squares_of_mem_pawnCaptures hm).2, (squares_of_mem_pawnCaptures hm').2]
          unfold SQ
          omega
      · intro m hm m' hm'
        rw [not_isCapture_of_mem_pawnPushes hm]
        split at hm'
        · cases hm'
        · rw [isCapture_of_mem_pawnCaptures hsq hm']
          decide
  · intro sq hmem m hm
    split at hm
    · rename_i hmod
      obtain ⟨toSq, -, -, -, rfl⟩ := (mem_mercenaryPawnMoves h hmod).mp hm
      rfl
    · rcases List.mem_append.mp hm with hpush | htake
      · exact fromSq_of_mem_pawnPushes hpush
      · split at htake
        · cases htake
        · rcases List.mem_append.mp htake with hleft | hright
          · exact (squares_of_mem_pawnCaptures hleft).1
          · exact (squares_of_mem_pawnCaptures hright).1

theorem nodup_menMoves (h : RepInv b.toViews) : (menMoves b).Nodup := by
  have hlist : menMoves b =
      pieceTypes.flatMap fun pt => if pt = .pawn then genPawnMoves b false
        else genPieceMoves b pt false := by
    unfold menMoves
    simp [pieceTypes, List.append_assoc]
  rw [hlist]
  apply Keyed.nodup_flatMap Move.piece (by decide)
  · intro pt _
    split
    · exact nodup_genPawnMoves h
    · exact nodup_genPieceMoves h
  · intro pt _ m hm
    split at hm
    · rename_i hpt
      rw [hpt]
      exact (kind_of_mem_genPawnMoves h hm).1
    · exact (piece_of_mem_genPieceMoves h hm).1

theorem nodup_genCastling (b : Board) : (genCastling b).Nodup := by
  have hone : ∀ right empties safes fromSq toSq,
      (tryCastle b right empties safes fromSq toSq).Nodup ∧
        ∀ m ∈ tryCastle b right empties safes fromSq toSq, m.toSq = toSq := by
    intro right empties safes fromSq toSq
    unfold tryCastle
    split
    · exact ⟨List.nodup_singleton _, fun m hm => by rw [List.mem_singleton.mp hm]⟩
    · exact ⟨List.nodup_nil, fun m hm => by cases hm⟩
  have htwo : (castlesOf b b.side).Nodup := by
    cases b.side with
    | white =>
      apply Keyed.nodup_append Move.toSq (hone ..).1 (hone ..).1
      intro m hm m' hm'
      rw [(hone ..).2 m hm, (hone ..).2 m' hm']
      decide
    | black =>
      apply Keyed.nodup_append Move.toSq (hone ..).1 (hone ..).1
      intro m hm m' hm'
      rw [(hone ..).2 m hm, (hone ..).2 m' hm']
      decide
  unfold genCastling
  split_ifs
  · exact List.nodup_nil
  · exact List.nodup_nil
  · exact List.nodup_nil
  · exact htwo

theorem castle_of_mem_genCastling (hm : m ∈ genCastling b) :
    m.castle = true ∧ m.isCapture = false := by
  obtain ⟨-, w, -, rfl⟩ := mem_genCastling.mp hm
  exact ⟨rfl, rfl⟩

theorem nodup_pseudoMoves (h : RepInv b.toViews) : (pseudoMoves b).Nodup := by
  rw [pseudoMoves_eq]
  apply Keyed.nodup_append Move.castle (nodup_menMoves h) (nodup_genCastling b)
  intro m hm m' hm'
  rw [castle_of_mem_menMoves h hm, (castle_of_mem_genCastling hm').1]
  decide

end Nodup

/-! ## The legal captures -/

section Legal

variable {b : Board} {m : Move}

/-- During an active truce nothing is taken. -/
theorem not_isCapture_of_truce (h : RepInv b.toViews) (htruce : truceNoCap b = true)
    (hm : m ∈ menMoves b) : m.isCapture = false := by
  have hmod : b.mod = .truce := by
    unfold truceNoCap at htruce
    rw [Bool.and_eq_true, decide_eq_true_iff] at htruce
    exact htruce.1
  rcases mem_pseudoMoves.mp (List.mem_append_left (genCastling b) hm) with hpawn | hpiece | hcastle
  · obtain ⟨sq, hsq, -, -, hrest⟩ := (mem_genPawnMoves h).mp hpawn
    rw [if_neg (by rw [hmod]; decide), htruce] at hrest
    rcases hrest with hpush | ⟨hno, -⟩
    · exact not_isCapture_of_mem_pawnPushes hpush
    · cases hno
  · obtain ⟨pt, -, hpiece⟩ := hpiece
    obtain ⟨-, sq, -, -, -, toSq, -, hlands, rfl⟩ := (mem_genPieceMoves h).mp hpiece
    rw [if_neg (by rw [hmod]; rintro ⟨heq, -⟩; cases heq)] at hlands
    cases hman : b.mailbox toSq with
    | none =>
      rw [← moveSimple_eq_plainMove hman]
      rfl
    | some man =>
      -- neither an own nor an enemy man may be taken
      have hok := hlands.2.2 man.1 man.2 hman
      split at hok
      · exact absurd (hok.1.symm.trans hmod) (by decide)
      · exact absurd (htruce.symm.trans hok.1) (by decide)
  · exact (castle_of_mem_genCastling hcastle).2

/-- What a board has to meet: its views agree, there is room for the undo record of one move, and
en-passant captures take the pawn that they name. -/
structure Consistent (b : Board) : Prop where
  rep : RepInv b.toViews
  ply : b.ply < maxHistory
  passant : ∀ m ∈ pseudoMoves b, PassantOk b m

theorem Consistent.wellFormed (h : Consistent b) (hm : m ∈ menMoves b) : WellFormed b m := by
  have hmem : m ∈ pseudoMoves b := List.mem_append_left _ hm
  apply (shape_of_mem_pseudoMoves h.rep hmem).wellFormed
  · intro w _ _ heq
    have hno := castle_of_mem_menMoves h.rep hm
    rw [heq] at hno
    cases hno
  · exact h.passant m hmem

theorem filterLegal_sublist (ms : List Move) : ∀ (tmp : Board) (ml : List Move),
    (filterLegal tmp ms ml).Sublist (ml ++ ms) := by
  induction ms with
  | nil =>
    intro tmp ml
    rw [List.append_nil]
    exact List.Sublist.refl _
  | cons m ms ih =>
    intro tmp ml
    rw [filterLegal_cons]
    refine (ih _ _).trans ?_
    have hadd : (if (isLegal tmp m).1 then movelistAdd ml m else ml).Sublist (ml ++ [m]) := by
      unfold movelistAdd
      split_ifs
      · exact List.Sublist.refl _
      · exact List.sublist_append_left _ _
      · exact List.sublist_append_left _ _
    have happ := hadd.append (List.Sublist.refl ms)
    rwa [List.append_assoc, List.singleton_append] at happ

theorem generateMoves_sublist (b : Board) : (generateMoves b).Sublist (pseudoMoves b) := by
  unfold generateMoves
  rw [fillMovelist_eq]
  exact (filterLegal_sublist _ _ _).trans (List.take_sublist _ _)

/-- What the first loop keeps of the moves that take something. -/
theorem mem_generateMoves_captures (h : Consistent b) (hroom : (pseudoMoves b).length ≤ maxMoves)
    (hcapt : m.isCapture = true) :
    m ∈ generateMoves b ↔ m ∈ menMoves b ∧ legal b m = true := by
  have hlen : (menMoves b).length ≤ maxMoves := by
    rw [pseudoMoves_eq, List.length_append] at hroom
    omega
  obtain ⟨tmp, -, heq⟩ := filterLegal_append h.rep h.ply (menMoves b) (genCastling b) b [] rfl
    (fun m hm => h.wellFormed hm) (by rw [List.length_nil]; omega)
  unfold generateMoves
  rw [fillMovelist_eq, List.take_of_length_le hroom, pseudoMoves_eq, heq, List.nil_append]
  constructor
  · intro hm
    rcases mem_of_mem_filterLegal _ _ _ hm with hmen | hcastle
    · exact List.mem_filter.mp hmen
    · rw [(castle_of_mem_genCastling hcastle).2] at hcapt
      cases hcapt
  · intro hm
    exact mem_filterLegal_of_mem _ _ _ (List.mem_filter.mpr hm)

theorem generateCaptures_eq (h : Consistent b) (hroom : (pseudoMoves b).length ≤ maxMoves) :
    generateCaptures b = ((menMoves b).filter Move.isCapture).filter (legal b) := by
  unfold generateCaptures
  split
  · rename_i htruce
    have hnone : (menMoves b).filter Move.isCapture = [] := by
      rw [List.filter_eq_nil_iff]
      intro m hm
      rw [not_isCapture_of_truce h.rep htruce hm]
      decide
    rw [hnone]
    rfl
  · have hlen : (pseudoCaptures b).length ≤ maxMoves := by
      have hle := List.length_filter_le Move.isCapture (menMoves b)
      rw [pseudoMoves_eq, List.length_append] at hroom
      rw [pseudoCaptures_eq h.rep]
      omega
    rw [fillMovelist_eq, List.take_of_length_le hlen, filterLegal_eq h.rep h.ply _ _ hlen,
      pseudoCaptures_eq h.rep]
    intro m hm
    rw [pseudoCaptures_eq h.rep] at hm
    exact h.wellFormed (List.mem_filter.mp hm).1

/-- In every mod, on every consistent board with room for its moves, `generate_captures` returns
exactly the moves of `generate_moves` that take something, and neither list has a move twice. -/
theorem captures_of_moves (b : Board) (h : Consistent b)
    (hroom : (pseudoMoves b).length ≤ maxMoves) :
    (∀ m, m ∈ generateCaptures b ↔ m ∈ generateMoves b ∧ m.isCapture = true) ∧
      (generateMoves b).Nodup ∧ (generateCaptures b).Nodup := by
  have hnodup := nodup_menMoves h.rep
  refine ⟨fun m => ?_, (nodup_pseudoMoves h.rep).sublist (generateMoves_sublist b), ?_⟩
  · rw [generateCaptures_eq h hroom, List.mem_filter, List.mem_filter]
    constructor
    · rintro ⟨⟨hmen, hcapt⟩, hlegal⟩
      exact ⟨(mem_generateMoves_captures h hroom hcapt).mpr ⟨hmen, hlegal⟩, hcapt⟩
    · rintro ⟨hmem, hcapt⟩
      obtain ⟨hmen, hlegal⟩ := (mem_generateMoves_captures h hroom hcapt).mp hmem
      exact ⟨⟨hmen, hcapt⟩, hlegal⟩
  · rw [generateCaptures_eq h hroom]
    exact (hnodup.filter _).filter _

/-- White may take en passant and promote with or without taking. -/
def takingBoard : Board :=
  boardSetFen "1n2k3/P7/8/3pP3/8/8/8/4K3 w - d6 0 1".toList

theorem captures_of_moves_takingBoard :
    (pseudoMoves takingBoard).length ≤ maxMoves ∧
      (∀ m, m ∈ generateCaptures takingBoard ↔ m ∈ generateMoves takingBoard ∧
        m.isCapture = true) ∧ (generateCaptures takingBoard).length = 5 := by
  have hroom : (pseudoMoves takingBoard).length ≤ maxMoves := by decide +kernel
  have hboard : Consistent takingBoard :=
    ⟨repInv_boardSetFen _, by decide +kernel, by decide +kernel⟩
  exact ⟨hroom, (captures_of_moves takingBoard hboard hroom).1, by decide +kernel⟩

end Legal

end ChessRecast.Engine
