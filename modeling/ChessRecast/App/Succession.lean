import ChessRecast.App.Runs

/-!
# Runs of Succession in the Dart game

No king stands on the board while the game goes on: the promotion to king ends it, and so does
the capture of the last pawn of a side.
-/

namespace ChessRecast.App

open Rules

namespace ChessBoard

section Pawns

variable {d : ChessBoard} {m : ChessMove} {pawn : ChessPiece} {c : Color}

/-- How far a pawn goes: one row, promoting exactly on the last one, or two from its start. -/
theorem rows_of_getPawnMoves (hmod : d.gameType ≠ .mercenary) (hp : pawn.type = .pawn)
    (hm : m ∈ d.getPawnMoves pawn) :
    (m.toPos.row = pawn.position.row + pawn.color.forward ∧
      ((m.isEnPassant = true ∧ d.enPassantTarget = some m.toPos ∧ m.isPromotion = false) ∨
        (m.isEnPassant = false ∧ (m.isPromotion = true ↔ m.toPos.row = promotionRow pawn.color)))) ∨
    (m.toPos.row = pawn.position.row + 2 * pawn.color.forward ∧ m.isEnPassant = false ∧
      pawn.position.row = doubleRow pawn.color ∧ m.isPromotion = false) := by
  have harrives : ∀ toPos : Position, d.Arrives pawn toPos m →
      toPos.row = pawn.position.row + pawn.color.forward →
      m.toPos.row = pawn.position.row + pawn.color.forward ∧ m.isEnPassant = false ∧
        (m.isPromotion = true ↔ m.toPos.row = promotionRow pawn.color) := by
    intro toPos harr hrow
    have hto := harr.toPos_eq
    refine ⟨hto ▸ hrow, harr.flags.2, ?_⟩
    rw [hto, ← lastRank_eq]
    unfold Arrives at harr
    split at harr
    · rename_i hlast
      obtain ⟨letter, -, rfl⟩ := harr
      exact iff_of_true rfl hlast
    · rename_i hlast
      subst harr
      exact iff_of_false nofun hlast
  rcases (mem_getPawnMoves hmod).mp hm with hpush | ⟨toPos, -, hstep, hcap⟩
  · obtain ⟨-, -, hone | ⟨hrow, -, -, rfl⟩⟩ := (mem_pawnForward hp).mp hpush
    · obtain ⟨h₁, h₂⟩ := harrives _ hone rfl
      exact .inl ⟨h₁, .inr h₂⟩
    · refine .inr ⟨?_, rfl, hrow, rfl⟩
      show pawn.position.row + pawn.color.forward * 2 = _
      ring
  · rcases hcap with hdiag | hpassant
    · obtain ⟨h₁, h₂⟩ := harrives _ ((mem_pawnDiagonal hp).mp hdiag).2 hstep.1
      exact .inl ⟨h₁, .inr h₂⟩
    · obtain ⟨htarget, captured, -, -, rfl⟩ := mem_pawnEnPassant.mp hpassant
      exact .inl ⟨hstep.1, .inl ⟨rfl, htarget, rfl⟩⟩

theorem filter_ne_nil_iff (hd : d.Tidy) {t : PieceType} :
    d.pieces.filter (fun p => p.type = t ∧ p.color = c) ≠ [] ↔
      ∃ k, d.placement k = some (c, t) := by
  constructor
  · intro h
    obtain ⟨q, hq⟩ := List.exists_mem_of_ne_nil _ h
    obtain ⟨hmem, htest⟩ := List.mem_filter.mp hq
    obtain ⟨htype, hcolor⟩ := of_decide_eq_true htest
    exact ⟨q.position, by rw [placement_of_mem hd hmem, htype, hcolor]⟩
  · rintro ⟨k, hk⟩
    obtain ⟨q, hat, hman⟩ := placement_eq_some.mp hk
    refine List.ne_nil_of_mem (a := q) (List.mem_filter.mpr ⟨(mem_of_getPieceAt hat).1, ?_⟩)
    exact decide_eq_true ⟨congrArg Prod.snd hman, congrArg Prod.fst hman⟩

theorem pawnsOf_ne_nil_iff (hd : d.Tidy) :
    d.pawnsOf c ≠ [] ↔ ∃ k, d.placement k = some (c, .pawn) := filter_ne_nil_iff hd

theorem kingsOf_ne_nil_iff (hd : d.Tidy) :
    d.kingsOf c ≠ [] ↔ ∃ k, d.placement k = some (c, .king) := filter_ne_nil_iff hd

/-- Of several pawns another one stands elsewhere. -/
theorem exists_ne_of_length (hd : d.Tidy) (hlen : (d.pawnsOf c).length ≠ 1)
    (hmem : pawn ∈ d.pawnsOf c) : ∃ q ∈ d.pawnsOf c, q.position ≠ pawn.position := by
  have hdistinct : Keyed.Distinct ChessPiece.position (d.pawnsOf c) := hd.distinct.filter _
  match hl : d.pawnsOf c with
  | [] =>
    rw [hl] at hmem
    cases hmem
  | [p] =>
    rw [hl] at hlen
    exact absurd rfl hlen
  | p :: q :: rest =>
    rw [hl] at hdistinct
    have hne : p.position ≠ q.position := (List.pairwise_cons.mp hdistinct).1 q (by simp)
    by_cases hp : p.position = pawn.position
    · exact ⟨q, by simp, fun hq => hne (hp.trans hq.symm)⟩
    · exact ⟨p, by simp, hp⟩

theorem promo_eq_none (hpromo : m.isPromotion ≠ true) : m.view.promo = none := if_neg hpromo

/-- Where only enemy men are taken, the own ones stay. -/
theorem Sound.own_stays (hm : d.Sound m)
    (henemy : ∀ q, m.capturedPiece = some q → q.color = d.currentPlayer.opposite) {k : Position}
    {t : PieceType} (hk : d.placement k = some (d.currentPlayer, t)) (hne : k ≠ m.fromPos)
    (hrook : m.isCastling = true → k ≠ m.view.rookSrc) :
    after d.placement m.view k = some (d.currentPlayer, t) := by
  obtain ⟨q, hat, hman⟩ := placement_eq_some.mp hk
  have hcolor : q.color = d.currentPlayer := congrArg Prod.fst hman
  have hmine : m.capturedPiece ≠ some q := fun hq =>
    d.currentPlayer.ne_opposite (hcolor.symm.trans (henemy q hq))
  refine hm.after_of_ne hk hne ?_ ?_ hrook
  · rintro rfl
    by_cases hep : m.isEnPassant = true
    · rw [(hm.ep hep).2.1] at hat
      cases hat
    · exact hmine ((hm.captured (by simpa using hep)).trans hat)
  · rintro hep rfl
    obtain ⟨-, -, -, p, hp, hat'⟩ := hm.ep hep
    exact hmine (hp.trans (hat'.symm.trans hat))

/-- The player keeps a pawn, unless the last one is promoted. -/
theorem Sound.exists_pawn (hd : d.Tidy) (hm : d.Sound m)
    (henemy : ∀ q, m.capturedPiece = some q → q.color = d.currentPlayer.opposite)
    (hlast : m.isPromotion = true → (d.pawnsOf d.currentPlayer).length ≠ 1)
    (h : ∃ k, d.placement k = some (d.currentPlayer, .pawn)) :
    ∃ k, after d.placement m.view k = some (d.currentPlayer, .pawn) := by
  have hother : ∀ k, d.placement k = some (d.currentPlayer, .pawn) → k ≠ m.fromPos →
      after d.placement m.view k = some (d.currentPlayer, .pawn) := by
    intro k hk hne
    refine hm.own_stays henemy hk hne ?_
    rintro hc rfl
    rw [(hm.castles hc).2.2.2.2] at hk
    cases (Prod.mk.inj (Option.some.inj hk)).2
  by_cases hp : m.piece.type = .pawn
  · by_cases hpromo : m.isPromotion = true
    · obtain ⟨hmem, hpos⟩ := mem_of_getPieceAt hm.from_holds
      obtain ⟨q, hq, hne⟩ := exists_ne_of_length hd (hlast hpromo)
        (List.mem_filter.mpr ⟨hmem, decide_eq_true ⟨hp, hm.mover⟩⟩)
      obtain ⟨hqmem, htest⟩ := List.mem_filter.mp hq
      obtain ⟨htype, hcolor⟩ := of_decide_eq_true htest
      refine ⟨q.position, hother q.position ?_ ?_⟩
      · rw [placement_of_mem hd hqmem, htype, hcolor]
      · rwa [← hpos]
    · refine ⟨m.toPos, ?_⟩
      rw [hm.after_to, promo_eq_none hpromo, hp]
      rfl
  · obtain ⟨k, hk⟩ := h
    refine ⟨k, hother k hk ?_⟩
    rintro rfl
    obtain ⟨q, hat, hman⟩ := placement_eq_some.mp hk
    rw [hm.from_holds] at hat
    obtain rfl := Option.some.inj hat
    exact hp (congrArg Prod.snd hman)

end Pawns

/-- What holds in Succession while the game goes on. -/
structure SuccInv (d : ChessBoard) : Prop extends d.GameInv where
  mod : d.gameType = .succession
  kingless : ∀ c k, d.placement k ≠ some (c, .king)
  pawnRows : ∀ c k, d.placement k = some (c, .pawn) → 1 ≤ k.row ∧ k.row ≤ 6
  targetRow : ∀ t, d.enPassantTarget = some t → t.row = 2 ∨ t.row = 5
  pawns : ∀ c, ∃ k, d.placement k = some (c, .pawn)
  unpromoted : ∀ c, d.hasPromotedKing c = false
  men : ∀ c, (d.getPiecesOfColor c).length ≤ 16
  queens : ∀ c, countType (d.getPiecesOfColor c) .queen ≤ 2

/-- The move makes a king of a pawn. -/
def PromotesKing (m : ChessMove) : Prop := m.view.promo = some .king

instance (m : ChessMove) : Decidable (PromotesKing m) := inferInstanceAs (Decidable (_ = _))

section Moves

variable {d d' : ChessBoard} {m : ChessMove} {piece : ChessPiece}

/-- A promotion of Succession: the piece is a pawn and the letter one of those on offer. -/
theorem Shape.successionLetter (hmod : d.gameType = .succession) (h : d.Shape piece m)
    (hpromo : m.isPromotion = true) : piece.type = .pawn ∧
      ∃ letter ∈ d.successionPromotionPieces piece.color m.toPos, m.promotionPiece = some letter := by
  obtain ⟨hp, letter, hletter, heq⟩ := h.promotionLetter hpromo
  unfold getPromotionPieces at hletter
  rw [hmod] at hletter
  exact ⟨hp, letter, hletter, heq⟩

/-- A king is on offer only on a square that is not attacked; the last pawn becomes nothing
else. -/
theorem mem_successionPromotionPieces {c : Color} {toPos : Position} {letter : Char}
    (h : letter ∈ d.successionPromotionPieces c toPos) :
    (letter = 'K' ∧ d.isPositionUnderAttack toPos c.opposite = false) ∨
      (promotedType (some letter) ∈ [PieceType.rook, .bishop, .knight] ∧
        (d.pawnsOf c).length ≠ 1) := by
  unfold successionPromotionPieces at h
  dsimp only at h
  cases hatt : d.isPositionUnderAttack toPos c.opposite with
  | true =>
    rw [hatt] at h
    split at h
    · cases h
    · rename_i hlast
      refine .inr ⟨?_, hlast⟩
      simp only [if_true, List.append_nil, List.mem_cons, List.not_mem_nil, or_false] at h
      rcases h with rfl | rfl | rfl <;> decide
  | false =>
    rw [hatt] at h
    split at h
    · exact .inl ⟨List.mem_singleton.mp h, rfl⟩
    · rename_i hlast
      simp only [Bool.false_eq_true, if_false, List.mem_append, List.mem_cons, List.not_mem_nil,
        or_false] at h
      rcases h with (rfl | rfl | rfl) | rfl
      · exact .inr ⟨by decide, hlast⟩
      · exact .inr ⟨by decide, hlast⟩
      · exact .inr ⟨by decide, hlast⟩
      · exact .inl ⟨rfl, rfl⟩

end Moves

/-! ## An offered move -/

/-- A clean move that Succession offers, with what the invariant says about it. -/
structure SuccMove (d : ChessBoard) (m : ChessMove) : Prop extends d.Sound m where
  inv : d.SuccInv
  potential : m ∈ d.getPotentialMoves m.piece
  shape : d.Shape m.piece m
  quietKing : m.isCastling = false
  enemy : ∀ q, m.capturedPiece = some q → q.color = d.currentPlayer.opposite

section Offered

variable {d d' : ChessBoard} {m : ChessMove}

theorem SuccInv.move (h : d.SuccInv) (hclean : d.Clean m)
    (hmem : m ∈ d.getValidMovesFor m.fromPos) : d.SuccMove m := by
  obtain ⟨piece, hat, -, hfilter, -⟩ := mem_getValidMovesFor.mp hmem
  obtain ⟨hpiece, -⟩ := mem_of_getPieceAt hat
  have hshape := shape_of_filtered h.tidy hpiece hfilter
  have hpotential : m ∈ d.getPotentialMoves piece := by
    unfold applyRulesetFilter at hfilter
    rw [h.mod] at hfilter
    exact hfilter
  have hquiet : m.isCastling = false := by
    by_contra hc
    have hking := hshape.king_of_castling (by simpa using hc)
    exact h.kingless piece.color piece.position (by rw [placement_of_mem h.tidy hpiece, hking])
  have hsound := h.toGameInv.sound hclean hmem fun _ => hquiet
  have hmine : m.piece = piece := (moveOf_applyRulesetFilter hfilter).piece_eq
  exact ⟨hsound, h, hmine ▸ hpotential, hmine ▸ hshape, hquiet,
    h.toGameInv.enemy hclean hmem (by rw [h.mod]; decide) fun _ => hquiet⟩

/-- The promoted man, if any, is a king on a square free of attacks or a lesser man beside which
another pawn stays. -/
theorem SuccMove.promo_cases (h : d.SuccMove m) (hpromo : m.isPromotion = true) :
    m.piece.type = .pawn ∧
    ((PromotesKing m ∧ m.promotionPiece = some 'K' ∧
        d.isPositionUnderAttack m.toPos m.piece.color.opposite = false) ∨
      (m.view.promo ≠ some .king ∧ m.view.promo ≠ some .pawn ∧ m.view.promo ≠ some .queen ∧
        (d.pawnsOf m.piece.color).length ≠ 1)) := by
  obtain ⟨hp, letter, hletter, heq⟩ := h.shape.successionLetter h.inv.mod hpromo
  have hview : m.view.promo = some (promotedType (some letter)) := by
    show (if m.isPromotion then _ else _) = _
    rw [if_pos hpromo, heq]
  refine ⟨hp, ?_⟩
  rcases mem_successionPromotionPieces hletter with ⟨rfl, hsafe⟩ | ⟨hless, hlast⟩
  · exact .inl ⟨hview, heq, hsafe⟩
  · refine .inr ?_
    rw [hview]
    simp only [List.mem_cons, List.not_mem_nil, or_false] at hless
    rcases hless with h | h | h <;> rw [h] <;> exact ⟨nofun, nofun, nofun, hlast⟩

/-- A king on the board after the move has just been promoted. -/
theorem SuccMove.promotesKing (h : d.SuccMove m) {c : Color} {k : Position}
    (hk : after d.placement m.view k = some (c, .king)) :
    PromotesKing m ∧ c = d.currentPlayer := by
  rcases after_cases hk with ⟨hc, -⟩ | ⟨-, ⟨-, t, hsrc, ht⟩ | ⟨-, -, hsame⟩⟩
  · rw [show m.view.castle = m.isCastling from rfl, h.quietKing] at hc
    cases hc
  · obtain ⟨q, hq, hman⟩ := placement_eq_some.mp hsrc
    rw [show m.view.src = m.fromPos from rfl, h.from_holds] at hq
    obtain rfl := Option.some.inj hq
    have hcolor : m.piece.color = c := congrArg Prod.fst hman
    refine ⟨?_, by rw [← hcolor, h.mover]⟩
    cases hp : m.view.promo with
    | none =>
      rw [hp] at ht
      rw [← show PieceType.king = t from ht] at hsrc
      exact absurd hsrc (h.inv.kingless _ _)
    | some t' =>
      rw [hp] at ht
      unfold PromotesKing
      rw [hp, ← show PieceType.king = t' from ht]
  · exact absurd hsame (h.inv.kingless _ _)

theorem SuccMove.pawn_after (h : d.SuccMove m) {c : Color} {k : Position}
    (hk : after d.placement m.view k = some (c, .pawn)) :
    d.placement k = some (c, .pawn) ∨
      (k = m.toPos ∧ m.piece.type = .pawn ∧ m.isPromotion = false ∧ c = d.currentPlayer) := by
  rcases after_cases hk with ⟨hc, -⟩ | ⟨-, ⟨hdst, t, hsrc, ht⟩ | ⟨-, -, hsame⟩⟩
  · rw [show m.view.castle = m.isCastling from rfl, h.quietKing] at hc
    cases hc
  · obtain ⟨q, hq, hman⟩ := placement_eq_some.mp hsrc
    rw [show m.view.src = m.fromPos from rfl, h.from_holds] at hq
    obtain rfl := Option.some.inj hq
    have hcolor : m.piece.color = c := congrArg Prod.fst hman
    have htype : m.piece.type = t := congrArg Prod.snd hman
    have hpromo : m.isPromotion = false := by
      by_contra hp
      have hp' : m.isPromotion = true := by simpa using hp
      have hview : m.view.promo = some (promotedType m.promotionPiece) := if_pos hp'
      rw [hview] at ht
      have hpawn : promotedType m.promotionPiece = .pawn := ht.symm
      rcases (h.promo_cases hp').2 with ⟨hking, -⟩ | ⟨-, hne, -⟩
      · rw [PromotesKing, hview, hpawn] at hking
        cases hking
      · exact hne (by rw [hview, hpawn])
    rw [promo_eq_none (by rw [hpromo]; decide)] at ht
    exact .inr ⟨hdst, htype.trans ht.symm, hpromo, by rw [← hcolor, h.mover]⟩
  · exact .inl hsame

theorem SuccMove.pawn_rows (h : d.SuccMove m) (hp : m.piece.type = .pawn) :
    (m.toPos.row = m.fromPos.row + d.currentPlayer.forward ∧
      ((m.isEnPassant = true ∧ d.enPassantTarget = some m.toPos ∧ m.isPromotion = false) ∨
        (m.isEnPassant = false ∧
          (m.isPromotion = true ↔ m.toPos.row = promotionRow d.currentPlayer)))) ∨
    (m.toPos.row = m.fromPos.row + 2 * d.currentPlayer.forward ∧ m.isEnPassant = false ∧
      m.fromPos.row = doubleRow d.currentPlayer ∧ m.isPromotion = false) := by
  have hm := h.potential
  unfold getPotentialMoves at hm
  rw [hp] at hm
  have hfrom : m.fromPos = m.piece.position := (mem_of_getPieceAt h.from_holds).2.symm
  rw [hfrom, ← h.mover]
  exact rows_of_getPawnMoves (by rw [h.inv.mod]; decide) hp hm

/-- Pawns stay off the first and the last row. -/
theorem SuccMove.pawnRows_after (h : d.SuccMove m) {c : Color} {k : Position}
    (hk : after d.placement m.view k = some (c, .pawn)) : 1 ≤ k.row ∧ k.row ≤ 6 := by
  rcases h.pawn_after hk with hk | ⟨rfl, hp, hpromo, -⟩
  · exact h.inv.pawnRows c k hk
  · have hstart := h.inv.pawnRows d.currentPlayer m.fromPos
      (placement_eq_some.mpr ⟨m.piece, h.from_holds, by rw [ChessPiece.man, h.mover, hp]⟩)
    rcases h.pawn_rows hp with ⟨hrow, ⟨-, htarget, -⟩ | ⟨-, hlast⟩⟩ | ⟨hrow, -, hdouble, -⟩
    · have := h.inv.targetRow _ htarget
      omega
    · have hne : ¬ m.toPos.row = promotionRow d.currentPlayer := by
        rw [← hlast, hpromo]
        decide
      cases hc : d.currentPlayer <;> rw [hc] at hrow hne <;>
        simp only [Color.forward, promotionRow] at hrow hne <;> omega
    · cases hc : d.currentPlayer <;> rw [hc] at hrow hdouble <;>
        simp only [Color.forward, doubleRow] at hrow hdouble <;> omega

theorem SuccMove.targetRow_after (h : d.SuccMove m) {t : Position}
    (ht : (computeEnPassantTargetForMove m).or d.enPassantTarget = some t) :
    t.row = 2 ∨ t.row = 5 := by
  rw [Option.or_eq_some_iff] at ht
  rcases ht with ht | ⟨-, ht⟩
  · unfold computeEnPassantTargetForMove at ht
    split at ht
    · cases ht
    · rename_i hp
      split at ht
      · rename_i htwo
        obtain rfl := Option.some.inj ht
        have hp' : m.piece.type = .pawn := not_not.mp hp
        dsimp only
        rcases h.pawn_rows hp' with ⟨hrow, -⟩ | ⟨hrow, -, hdouble, -⟩
        · rw [hrow, add_sub_cancel_left] at htwo
          cases hc : d.currentPlayer <;> rw [hc] at htwo <;> simp [Color.forward] at htwo
        · rw [hrow, hdouble]
          cases d.currentPlayer
          · exact .inl rfl
          · exact .inr rfl
      · cases ht
  · exact h.inv.targetRow t ht

/-- The enemy loses its last pawn only by the capture of a pawn. -/
theorem SuccMove.enemyPawns (h : d.SuccMove m)
    (hcap : ∀ q, m.capturedPiece = some q → q.type ≠ .pawn) :
    ∃ k, after d.placement m.view k = some (d.currentPlayer.opposite, .pawn) := by
  obtain ⟨k, hk⟩ := h.inv.pawns d.currentPlayer.opposite
  obtain ⟨q, hat, hman⟩ := placement_eq_some.mp hk
  have htype : q.type = .pawn := congrArg Prod.snd hman
  have hcolor : q.color = d.currentPlayer.opposite := congrArg Prod.fst hman
  have hpassant : m.isEnPassant = false := by
    by_contra hep
    obtain ⟨-, -, -, p, hp, -⟩ := h.ep (by simpa using hep)
    exact hcap p hp ((h.passant (by simpa using hep)).2 p hp)
  refine ⟨k, h.after_of_ne hk ?_ ?_ (fun hep => ?_) (fun hc => ?_)⟩
  · rintro rfl
    rw [h.from_holds] at hat
    obtain rfl := Option.some.inj hat
    exact d.currentPlayer.ne_opposite (h.mover.symm.trans hcolor)
  · rintro rfl
    exact hcap q ((h.captured hpassant).trans hat) htype
  · rw [hpassant] at hep
    cases hep
  · rw [h.quietKing] at hc
    cases hc

theorem SuccMove.ownPawns (h : d.SuccMove m) (hking : ¬ PromotesKing m) :
    ∃ k, after d.placement m.view k = some (d.currentPlayer, .pawn) := by
  refine h.exists_pawn h.inv.tidy h.enemy (fun hpromo => ?_) (h.inv.pawns _)
  -- the last pawn would have to become a king
  rcases (h.promo_cases hpromo).2 with hk | hless
  · exact absurd hk.1 hking
  · rw [← h.mover]
    exact hless.2.2.2

/-- No move adds a man of a kind, unless the placed man is new to it. -/
theorem SuccMove.countP_le (h : d.SuccMove m) {kind : ChessPiece → Bool}
    (hkind : kind (placedPiece m) = true → kind m.piece = true) :
    (d.makePieces m).countP kind ≤ d.pieces.countP kind := by
  have hmoved : d.makePieces m = d.stayingPieces m ++ [placedPiece m] := by
    rw [makePieces_eq, movedPieces, h.quietKing]
    rfl
  have hstay := (stayingPieces_sublist_filter (d := d) (m := m)).countP_le (p := kind)
  have hsplit := List.countP_eq_countP_filter_add d.pieces kind
    fun p => decide (p.position ≠ m.fromPos)
  obtain ⟨hmem, hpos⟩ := mem_of_getPieceAt h.from_holds
  rw [hmoved, List.countP_append, List.countP_singleton]
  by_cases hplaced : kind (placedPiece m) = true
  · -- the man that leaves its square pays for the one that is placed
    have hgone : 0 < (d.pieces.filter fun p => !decide (p.position ≠ m.fromPos)).countP kind :=
      List.countP_pos_iff.mpr ⟨m.piece, List.mem_filter.mpr ⟨hmem, by simp [hpos]⟩,
        hkind hplaced⟩
    rw [if_pos hplaced]
    omega
  · rw [if_neg hplaced]
    omega

theorem SuccMove.men_le (h : d.SuccMove m) (c : Color) :
    ((d.makePieces m).filter fun p => p.color = c).length ≤ (d.getPiecesOfColor c).length := by
  have hcolor : (placedPiece m).color = m.piece.color := congrArg Prod.fst placedPiece_man
  rw [getPiecesOfColor, ← List.countP_eq_length_filter, ← List.countP_eq_length_filter]
  refine h.countP_le fun hplaced => ?_
  rwa [hcolor] at hplaced

theorem SuccMove.queens_le (h : d.SuccMove m) (c : Color) :
    countType ((d.makePieces m).filter fun p => p.color = c) .queen ≤
      countType (d.getPiecesOfColor c) .queen := by
  have hcolor : (placedPiece m).color = m.piece.color := congrArg Prod.fst placedPiece_man
  have htype : (placedPiece m).type = m.view.promo.getD m.piece.type :=
    congrArg Prod.snd placedPiece_man
  rw [getPiecesOfColor, countType, countType, List.filter_filter, List.filter_filter,
    ← List.countP_eq_length_filter, ← List.countP_eq_length_filter]
  refine h.countP_le fun hplaced => ?_
  rw [Bool.and_eq_true, decide_eq_true_eq, hcolor, htype] at hplaced
  rw [Bool.and_eq_true, decide_eq_true_eq]
  refine ⟨?_, hplaced.2⟩
  have hqueen := hplaced.1
  cases hpromo : m.view.promo with
  | none => rwa [hpromo] at hqueen
  | some t =>
    rw [hpromo] at hqueen
    have hflag : m.isPromotion = true := by
      by_contra hp
      rw [promo_eq_none hp] at hpromo
      cases hpromo
    rcases (h.promo_cases hflag).2 with ⟨hking, -⟩ | ⟨-, -, hne, -⟩
    · rw [PromotesKing, hpromo, show t = .queen from hqueen] at hking
      cases hking
    · exact absurd (by rw [hpromo, show t = .queen from hqueen]) hne

/-! ## The end of the game -/

theorem SuccMove.not_keepsTurn (h : d.SuccMove m) : ¬ d.KeepsTurn m := by
  rintro ⟨hmod, -⟩
  rw [h.inv.mod] at hmod
  cases hmod

theorem SuccMove.returnedQueen (h : d.SuccMove m) : d.returnedQueen m = [] :=
  returnedQueen_eq_nil (by rw [h.inv.mod]; decide)

theorem promotesKing_iff (h : d.SuccMove m) : PromotesKing m ↔
    m.isPromotion = true ∧ m.promotionPiece = some 'K' ∧
      d.isPositionUnderAttack m.toPos m.piece.color.opposite = false := by
  constructor
  · intro hking
    have hpromo : m.isPromotion = true := by
      by_contra hp
      rw [PromotesKing, promo_eq_none hp] at hking
      cases hking
    rcases (h.promo_cases hpromo).2 with ⟨-, hletter, hsafe⟩ | ⟨hne, -⟩
    · exact ⟨hpromo, hletter, hsafe⟩
    · exact absurd hking hne
  · rintro ⟨hpromo, hletter, -⟩
    show (if m.isPromotion then some (promotedType m.promotionPiece) else none) = _
    rw [if_pos hpromo, hletter]
    rfl

/-- A pawn that takes a pawn does not promote. -/
theorem SuccMove.not_promotesKing_of_takes_pawn (h : d.SuccMove m) {q : ChessPiece}
    (hcap : m.capturedPiece = some q) (hq : q.type = .pawn) : ¬ PromotesKing m := by
  intro hking
  obtain ⟨hpromo, -⟩ := (promotesKing_iff h).mp hking
  obtain ⟨hp, -⟩ := h.promo_cases hpromo
  rcases h.pawn_rows hp with ⟨-, ⟨-, -, hno⟩ | ⟨hpassant, hlast⟩⟩ | ⟨-, -, -, hno⟩
  · rw [hpromo] at hno
    cases hno
  · rw [h.captured hpassant] at hcap
    have hrow := h.inv.pawnRows q.color m.toPos
      (placement_eq_some.mpr ⟨q, hcap, by rw [ChessPiece.man, hq]⟩)
    rw [hlast.mp hpromo] at hrow
    cases hc : d.currentPlayer <;> rw [hc] at hrow <;> simp [promotionRow] at hrow
  · rw [hpromo] at hno
    cases hno

/-- `handleSpecialMove` ends the game with the promotion to king or the capture of the last
pawn. -/
theorem SuccMove.played_checkmate_iff (h : d.SuccMove m) (hrun : d.Running) :
    (d.played m).gameStatus = .checkmate ↔ PromotesKing m ∨
      ∀ k, after d.placement m.view k ≠ some (d.currentPlayer.opposite, .pawn) := by
  have hmade : (d.makeMove m).gameStatus ≠ .checkmate := by
    rcases d.makeMove_gameStatus m with hs | hs <;> rw [hs]
    · decide
    · rcases hrun with hr | hr <;> rw [hr] <;> decide
  have hplayed : d.played m = (d.successionSpecialMove m).getD (d.makeMove m) := by
    unfold played handleSpecialMove
    rw [h.inv.mod]
  rw [hplayed]
  -- without the capture of a pawn only the promotion counts
  have hplain : (∀ q, m.capturedPiece = some q → q.type ≠ .pawn) →
      (((d.kingPromotionWin m).getD (d.makeMove m)).gameStatus = .checkmate ↔ PromotesKing m ∨
        ∀ k, after d.placement m.view k ≠ some (d.currentPlayer.opposite, .pawn)) := by
    intro hcap
    obtain ⟨k, hk⟩ := h.enemyPawns hcap
    unfold kingPromotionWin
    by_cases hking : PromotesKing m
    · rw [if_pos ((promotesKing_iff h).mp hking)]
      exact iff_of_true rfl (.inl hking)
    · rw [if_neg fun hc => hking ((promotesKing_iff h).mpr hc)]
      refine iff_of_false hmade ?_
      rintro (hc | hc)
      · exact hking hc
      · exact hc k hk
  unfold successionSpecialMove
  cases hcap : m.capturedPiece with
  | none => exact hplain fun q hq => by rw [hcap] at hq; cases hq
  | some q =>
    dsimp only
    by_cases hq : q.type = .pawn
    · rw [if_pos hq]
      have hleft : ((d.makeMove m).pawnsOf q.color).isEmpty = true ↔
          ∀ k, after d.placement m.view k ≠ some (d.currentPlayer.opposite, .pawn) := by
        have hne := pawnsOf_ne_nil_iff (c := q.color) (tidy_makeMove h.inv.tidy h.toProper)
        rw [placement_makeMove h.inv.tidy h.toProper, h.enemy q hcap] at hne
        rw [List.isEmpty_iff, h.enemy q hcap, ← not_iff_not]
        push Not
        exact hne
      by_cases hempty : ((d.makeMove m).pawnsOf q.color).isEmpty = true
      · rw [if_pos hempty]
        exact iff_of_true rfl (.inr (hleft.mp hempty))
      · rw [if_neg hempty]
        refine iff_of_false hmade ?_
        rintro (hc | hc)
        · exact h.not_promotesKing_of_takes_pawn hcap hq hc
        · exact hempty (hleft.mpr hc)
    · rw [if_neg hq]
      refine hplain fun q' hq' => ?_
      rw [hcap] at hq'
      exact Option.some.inj hq' ▸ hq

/-- `updateGameStatus` finds no mate without kings. -/
theorem updateGameStatus_checkmate_iff (hmod : d.gameType = .succession)
    (hking : d.getKing d.currentPlayer = none) :
    d.updateGameStatus.gameStatus = .checkmate ↔ d.gameStatus = .checkmate := by
  unfold updateGameStatus
  dsimp only
  rw [if_neg (by simp [hmod]), if_neg (by simp [hmod])]
  split
  · rfl
  · rename_i hopen
    refine iff_of_false ?_ fun hmate => hopen (.inl hmate)
    rw [hmod]
    have hsafe : d.isKingInCheck d.currentPlayer = false := by
      unfold isKingInCheck
      rw [hking]
    show (if _ then GameStatus.draw else checkStatus _ _) ≠ _
    rw [hsafe]
    split
    · decide
    · cases d.hasValidMoves <;> decide

theorem SuccMove.played_eq (h : d.SuccMove m) : ∃ status counter,
    d.played m = d.settled m d.currentPlayer.opposite status counter := by
  obtain ⟨status, counter, heq⟩ := ChessBoard.played_eq d m
  rw [if_neg h.not_keepsTurn] at heq
  exact ⟨status, counter, heq⟩

/-- The executed move ends the game with a winner exactly when it promotes to king or takes the
last enemy pawn. -/
theorem SuccMove.checkmate_iff (h : d.SuccMove m) (hrun : d.Running)
    (hexec : d.executeMove m = some d') : d'.gameStatus = .checkmate ↔ PromotesKing m ∨
      ∀ k, after d.placement m.view k ≠ some (d.currentPlayer.opposite, .pawn) := by
  obtain ⟨status, counter, heq⟩ := h.played_eq
  rw [eq_next_of_executeMove hexec, next, updateGameStatus_checkmate_iff, h.played_checkmate_iff hrun]
  · rw [heq, settled_gameType, h.inv.mod]
  · -- the only king there can be belongs to the player who has just moved
    rw [← Option.isNone_iff_eq_none]
    by_contra hsome
    rw [Bool.not_eq_true, heq, getKing_isNone_iff (tidy_settled h.inv.tidy h.toSound _ _ _)] at hsome
    obtain ⟨k, hk⟩ := hsome
    rcases placement_settled_cases h.inv.tidy h.toSound hk with hk | ⟨-, hq, -⟩
    · exact d.currentPlayer.opposite_ne (h.promotesKing hk).2
    · cases hq

theorem SuccInv.executed (h : d.SuccInv) (hclean : d.Clean m) (hexec : d.executeMove m = some d') :
    ∃ status counter, d' = d.settled m d.currentPlayer.opposite status counter := by
  have hm := h.move hclean (mem_of_executeMove hexec)
  obtain ⟨status, counter, heq⟩ :=
    h.toGameInv.executeMove_eq hclean (fun _ => hm.quietKing) hexec
  rw [if_neg hm.not_keepsTurn] at heq
  exact ⟨status, counter, heq⟩

theorem hasPromotedKing_settled {player : Color} {status : GameStatus}
    {counter : List (List Char × ℤ)} (c : Color) :
    (d.settled m player status counter).hasPromotedKing c = d.makePromotedKing m c := by
  have hmade : (d.makeMove m).hasPromotedKing c = d.makePromotedKing m c := by
    obtain ⟨key, status', heq⟩ := d.makeMove_eq m
    rw [heq]
    cases c <;> rfl
  rw [← hmade]
  cases c <;> rfl

/-- A move after which the game goes on keeps the invariant. -/
theorem SuccInv.step (h : d.SuccInv) (hrun : d.Running) (hclean : d.Clean m)
    (hexec : d.executeMove m = some d') (hrun' : d'.gameStatus ≠ .checkmate) : d'.SuccInv := by
  have hm := h.move hclean (mem_of_executeMove hexec)
  rw [ne_eq, hm.checkmate_iff hrun hexec, not_or] at hrun'
  push Not at hrun'
  obtain ⟨hking, hpawn⟩ := hrun'
  have hinv := h.toGameInv.step hclean (fun _ => hm.quietKing) hexec
  obtain ⟨status, counter, rfl⟩ := h.executed hclean hexec
  have hplace := placement_settled_of_nil h.tidy hm.toSound hm.returnedQueen
    d.currentPlayer.opposite status counter
  have hpieces : (d.settled m d.currentPlayer.opposite status counter).pieces =
      d.makePieces m := by
    show d.makePieces m ++ d.returnedQueen m = _
    rw [hm.returnedQueen, List.append_nil]
  refine { hinv with mod := ?_, kingless := ?_, pawnRows := ?_, targetRow := ?_, pawns := ?_,
                     unpromoted := ?_, men := ?_, queens := ?_ }
  · rw [settled_gameType, h.mod]
  · intro c k hk
    rw [hplace] at hk
    exact hking (hm.promotesKing hk).1
  · intro c k hk
    rw [hplace] at hk
    exact hm.pawnRows_after hk
  · intro t ht
    rw [settled_enPassantTarget] at ht
    exact hm.targetRow_after ht
  · intro c
    rw [hplace]
    by_cases hc : c = d.currentPlayer
    · exact hc ▸ hm.ownPawns hking
    · rw [Color.ne_iff_eq_opposite.mp hc]
      exact hpawn
  · intro c
    rw [hasPromotedKing_settled, makePromotedKing, if_neg, h.unpromoted]
    exact fun hp => by rw [h.mod] at hp; cases hp.1
  · intro c
    rw [getPiecesOfColor, hpieces]
    exact (hm.men_le c).trans (h.men c)
  · intro c
    rw [getPiecesOfColor, hpieces]
    exact (hm.queens_le c).trans (h.queens c)

end Offered

/-! ## Whole runs -/

theorem succInv_initial : (initial .succession).SuccInv where
  toGameInv := gameInv_initial .succession
  mod := rfl
  kingless := by
    intro c k hk
    obtain ⟨q, hq, hman⟩ := placement_eq_some.mp hk
    have hall : ∀ q ∈ (initial .succession).pieces, q.type ≠ .king := by decide
    exact hall q (mem_of_getPieceAt hq).1 (congrArg Prod.snd hman)
  pawnRows := by
    intro c k hk
    obtain ⟨q, hq, hman⟩ := placement_eq_some.mp hk
    have hall : ∀ q ∈ (initial .succession).pieces, q.type = .pawn →
        1 ≤ q.position.row ∧ q.position.row ≤ 6 := by decide
    obtain ⟨hmem, rfl⟩ := mem_of_getPieceAt hq
    exact hall q hmem (congrArg Prod.snd hman)
  targetRow := nofun
  pawns := by
    intro c
    cases c
    · exact ⟨⟨1, 0⟩, by decide +kernel⟩
    · exact ⟨⟨6, 0⟩, by decide +kernel⟩
  unpromoted := by
    intro c
    cases c <;> rfl
  men := by
    intro c
    cases c <;> decide
  queens := by
    intro c
    cases c <;> decide

/-- The invariant holds along every clean run of Succession until the game is won. -/
theorem Reached.succInv {d : ChessBoard} (h : Reached PlaysOn (initial .succession) d)
    (hopen : d.gameStatus ≠ .checkmate) : d.SuccInv := by
  induction h with
  | start => exact succInv_initial
  | step _ hok hexec ih =>
    refine (ih ?_).step hok.1 hok.2 hexec hopen
    rcases hok.1 with hr | hr <;> rw [hr] <;> decide

end ChessBoard

end ChessRecast.App
