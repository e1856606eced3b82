import ChessRecast.App.ExecutionTheorems

/-!
# The rulebook of the Dart application

`appBook` reads off the generators what they allow on a board, for a ruleset that says which
pieces are free to move and where they may land.
-/

namespace ChessRecast.App

open Rules

namespace ChessBoard

/-! ## Castling -/

/-- Castling flag of a colour and wing. -/
def castleFlag (d : ChessBoard) (c : Color) : Wing → Bool
  | .king => d.kingsideFlag c
  | .queen => d.queensideFlag c

/-- `canCastleKingside` and `canCastleQueenside` by wing. -/
def canCastleTo (d : ChessBoard) (c : Color) : Wing → Bool
  | .king => d.canCastleKingside c
  | .queen => d.canCastleQueenside c

theorem kingRow_eq (c : Color) : kingRow c = homeRow c := by cases c <;> rfl

theorem lastRank_eq (c : Color) : lastRank c = promotionRow c := by cases c <;> rfl

section Castling

variable {d : ChessBoard} {m : ChessMove}

theorem canCastleTo_eq (c : Color) (w : Wing) :
    d.canCastleTo c w = d.canCastle c w.rookCol w.empties w.safes := by cases w <;> rfl

theorem canCastleTo_iff (c : Color) (w : Wing) : d.canCastleTo c w = true ↔
    (∃ king, d.getKing c = some king ∧ king.position = ⟨homeRow c, 4⟩) ∧
    (∃ rook, d.getPieceAt ⟨homeRow c, w.rookCol⟩ = some rook ∧ rook.man = (c, .rook)) ∧
    (∀ col ∈ w.empties, d.getPieceAt ⟨homeRow c, col⟩ = none) ∧
    d.isKingInCheck c = false ∧
    ∀ col ∈ w.safes, d.isPositionUnderAttack ⟨homeRow c, col⟩ c.opposite = false := by
  rw [canCastleTo_eq, canCastle, kingRow_eq]
  cases hk : d.getKing c with
  | none => simp
  | some king =>
    have hrook : (d.getPieceAt ⟨homeRow c, w.rookCol⟩).all
        (fun rook => rook.type ≠ .rook || rook.color ≠ c) = true ↔
        ¬ ∃ rook, d.getPieceAt ⟨homeRow c, w.rookCol⟩ = some rook ∧ rook.man = (c, .rook) := by
      cases d.getPieceAt ⟨homeRow c, w.rookCol⟩ with
      | none => simp
      | some rook =>
        simp [ChessPiece.man]
        tauto
    have hempty : (w.empties.any fun col => (d.getPieceAt ⟨homeRow c, col⟩).isSome) = true ↔
        ¬ ∀ col ∈ w.empties, d.getPieceAt ⟨homeRow c, col⟩ = none := by
      simp [Option.isSome_iff_ne_none]
    simp only [Option.some.injEq, exists_eq_left']
    split_ifs with h1 h2 h3 h4
    · simp [h1]
    · simp [hrook.mp h2]
    · simp [hempty.mp h3]
    · simp [h4]
    · rw [hrook, not_not] at h2
      rw [hempty, not_not] at h3
      rw [not_not] at h1
      have hsafe : (!w.safes.any fun col =>
          d.isPositionUnderAttack ⟨homeRow c, col⟩ c.opposite) = true ↔
          ∀ col ∈ w.safes, d.isPositionUnderAttack ⟨homeRow c, col⟩ c.opposite = false := by simp
      rw [hsafe]
      exact ⟨fun h => ⟨h1, h2, h3, by simpa using h4, h⟩, fun h => h.2.2.2.2⟩

theorem mem_castlingMoves {king : ChessPiece} : m ∈ d.castlingMoves king ↔
    ∃ w : Wing, d.castleFlag king.color w = true ∧ d.canCastleTo king.color w = true ∧
      m = ChessMove.castling king.position ⟨homeRow king.color, w.kingTo⟩ king := by
  have hwing : ∀ (w : Wing) (row : ℤ), (m ∈ (if d.castleFlag king.color w &&
      d.canCastleTo king.color w then [ChessMove.castling king.position ⟨row, w.kingTo⟩ king]
      else []) ↔ d.castleFlag king.color w = true ∧ d.canCastleTo king.color w = true ∧
      m = ChessMove.castling king.position ⟨row, w.kingTo⟩ king) := by
    intro w row
    by_cases h : (d.castleFlag king.color w && d.canCastleTo king.color w) = true
    · rw [if_pos h, List.mem_singleton]
      rw [Bool.and_eq_true] at h
      simp [h.1, h.2]
    · rw [if_neg h]
      rw [Bool.and_eq_true] at h
      simp only [List.not_mem_nil, false_iff]
      exact fun hm => h ⟨hm.1, hm.2.1⟩
  unfold castlingMoves
  rw [List.mem_append]
  have hk := hwing .king (kingRow king.color)
  have hq := hwing .queen (kingRow king.color)
  rw [kingRow_eq] at hk hq ⊢
  constructor
  · rintro (h | h)
    · exact ⟨.king, hk.mp h⟩
    · exact ⟨.queen, hq.mp h⟩
  · rintro ⟨w, h⟩
    cases w
    · exact .inl (hk.mpr h)
    · exact .inr (hq.mpr h)

end Castling

/-! ## Offered moves are proper -/

section Proper

variable {d : ChessBoard} {m : ChessMove} {piece : ChessPiece} {toPos : Position}

theorem proper_plainMove (hd : d.Tidy) (hpiece : piece ∈ d.pieces) (hto : toPos.IsValid)
    (hne : piece.position ≠ toPos) : d.Proper (d.plainMove piece toPos) where
  from_holds := hd.getPieceAt_iff.mpr ⟨hpiece, rfl⟩
  to_valid := hto
  from_ne_to := hne
  captured := fun _ => rfl
  ep := fun h => by cases h
  castle := fun h => by cases h
  promo := fun h => by cases h

theorem letter_of_getPromotionPieces {c : Color} {letter : Char}
    (h : letter ∈ d.getPromotionPieces c toPos) : letter ∈ ['Q', 'R', 'B', 'N', 'K'] := by
  have hsub : ∀ l ∈ d.getPromotionPieces c toPos, l ∈ ['Q', 'R', 'B', 'N', 'K'] := by
    unfold getPromotionPieces heirPromotionPieces successionPromotionPieces
    dsimp only
    split
    · simp
    · simp
    · split_ifs <;> simp
    · split_ifs <;> simp
    · simp
  exact hsub letter h

theorem proper_arrives (hd : d.Tidy) (hpiece : piece ∈ d.pieces) (hto : toPos.IsValid)
    (hne : piece.position ≠ toPos) (h : d.Arrives piece toPos m) : d.Proper m := by
  unfold Arrives at h
  split at h
  · obtain ⟨letter, hletter, rfl⟩ := h
    exact
      { from_holds := hd.getPieceAt_iff.mpr ⟨hpiece, rfl⟩
        to_valid := hto
        from_ne_to := hne
        captured := fun _ => rfl
        ep := fun h => by cases h
        castle := fun h => by cases h
        promo := fun _ => ⟨letter, letter_of_getPromotionPieces hletter, rfl⟩ }
  · exact h ▸ proper_plainMove hd hpiece hto hne

theorem proper_castling (hd : d.Tidy) {w : Wing} (hpiece : piece ∈ d.pieces)
    (hking : d.getKing piece.color = some piece) (hcan : d.canCastleTo piece.color w = true) :
    d.Proper (ChessMove.castling piece.position ⟨homeRow piece.color, w.kingTo⟩ piece) := by
  obtain ⟨⟨king, hk, hpos⟩, ⟨rook, hrook, -⟩, hempty, -⟩ := (canCastleTo_iff _ _).mp hcan
  rw [hking] at hk
  obtain rfl := Option.some.inj hk
  have hto := hempty w.kingTo (by cases w <;> decide)
  have hdst := hempty w.rookTo (by cases w <;> decide)
  have hrow : ∀ c : Color, 0 ≤ homeRow c ∧ homeRow c < 8 := by
    intro c
    cases c <;> decide
  exact
    { from_holds := hd.getPieceAt_iff.mpr ⟨hpiece, rfl⟩
      to_valid := by
        refine ⟨(hrow _).1, (hrow _).2, ?_⟩
        show 0 ≤ w.kingTo ∧ w.kingTo < 8
        cases w <;> decide
      from_ne_to := by
        show piece.position ≠ ⟨homeRow piece.color, w.kingTo⟩
        rw [hpos]
        cases w <;> simp [Wing.kingTo]
      captured := fun _ => hto.symm
      ep := fun h => by cases h
      castle := fun _ => by
        have hsrcPos : (ChessMove.castling piece.position ⟨homeRow piece.color, w.kingTo⟩
            piece).view.rookSrc = ⟨homeRow piece.color, w.rookCol⟩ := by
          show (⟨piece.position.row, if w.kingTo = 6 then 7 else 0⟩ : Position) = _
          rw [hpos]
          cases w <;> rfl
        have hdstPos : (ChessMove.castling piece.position ⟨homeRow piece.color, w.kingTo⟩
            piece).view.rookDst = ⟨homeRow piece.color, w.rookTo⟩ := by
          show (⟨piece.position.row, if w.kingTo = 6 then 5 else 3⟩ : Position) = _
          rw [hpos]
          cases w <;> rfl
        rw [hsrcPos, hdstPos, hrook]
        refine ⟨rfl, ?_, ?_, ?_, hto, hdst, rfl⟩
        · show piece.position.col = 4
          rw [hpos]
        · show homeRow piece.color = piece.position.row
          rw [hpos]
        · cases w
          · exact .inl rfl
          · exact .inr rfl
      promo := fun h => by cases h }

end Proper

/-! ## The book -/

/-- What the generators of Dart allow the side to move, for a ruleset in which the pieces of
`free` may move and land where `lands` says. -/
def appBook (d : ChessBoard) (free : ChessPiece → Prop) (lands : ChessPiece → Position → Prop) :
    Book where
  place := d.placement
  mover := d.currentPlayer
  goes t a z := ∃ piece, d.getPieceAt a = some piece ∧ free piece ∧ Reach d.placement t a z ∧
    d.NotOwn piece z ∧ lands piece z
  pawnGoes a z := d.gameType = .mercenary ∧ ∃ piece, d.getPieceAt a = some piece ∧ free piece ∧
    KingStep a z ∧ d.NotOwn piece z ∧ (∀ q, d.getPieceAt z = some q → q.type ≠ .king) ∧
    lands piece z
  pushes a := d.gameType ≠ .mercenary ∧ ∃ piece, d.getPieceAt a = some piece ∧ free piece
  takes a z := d.gameType ≠ .mercenary ∧ ∃ piece, d.getPieceAt a = some piece ∧ free piece ∧
    (∃ target, d.getPieceAt z = some target ∧ target.color ≠ piece.color) ∧ lands piece z
  becomes z t := ∃ letter ∈ d.getPromotionPieces d.currentPlayer z, promotedType (some letter) = t
  passant a z := d.gameType ≠ .mercenary ∧ ∃ piece, d.getPieceAt a = some piece ∧ free piece ∧
    d.enPassantTarget = some z ∧
    ∃ captured, d.getPieceAt ⟨a.row, z.col⟩ = some captured ∧ captured.type = .pawn
  castles w := d.castleFlag d.currentPlayer w = true ∧ d.canCastleTo d.currentPlayer w = true ∧
    ∃ king, d.getKing d.currentPlayer = some king ∧ free king

/-- A king of the side to move is the one that `getKing` finds. -/
def KingFound (d : ChessBoard) : Prop :=
  ∀ q ∈ d.pieces, q.man = (d.currentPlayer, .king) → d.getKing d.currentPlayer = some q

section Book

variable {d : ChessBoard} {free : ChessPiece → Prop} {lands : ChessPiece → Position → Prop}
  {v : MoveView} {piece : ChessPiece}

theorem view_plainMove (piece : ChessPiece) (toPos : Position) :
    (d.plainMove piece toPos).view = .plain piece.position toPos := rfl

/-- A pawn arrives on its target in the book as in the generators. -/
theorem exists_arrives_iff (hcolor : piece.color = d.currentPlayer) {toPos : Position} :
    (∃ m, d.Arrives piece toPos m ∧ m.view = v) ↔
      v.src = piece.position ∧ v.dst = toPos ∧ (d.appBook free lands).Arrives v := by
  unfold Arrives Book.Arrives
  rw [lastRank_eq, hcolor]
  show _ ↔ _ ∧ _ ∧ if v.dst.row = promotionRow d.currentPlayer then
    ∃ t, (∃ letter ∈ d.getPromotionPieces d.currentPlayer v.dst, promotedType (some letter) = t) ∧
      v = .promotion v.src v.dst t else _
  by_cases hrow : toPos.row = promotionRow d.currentPlayer
  · simp only [hrow, if_true]
    constructor
    · rintro ⟨m, ⟨letter, hletter, rfl⟩, rfl⟩
      exact ⟨rfl, rfl, (if_pos hrow).mpr ⟨_, ⟨letter, hletter, rfl⟩, rfl⟩⟩
    · rintro ⟨hsrc, rfl, harr⟩
      rw [if_pos hrow] at harr
      obtain ⟨t, ⟨letter, hletter, rfl⟩, hv⟩ := harr
      refine ⟨_, ⟨letter, hletter, rfl⟩, ?_⟩
      rw [hv, hsrc]
      rfl
  · simp only [hrow, if_false]
    constructor
    · rintro ⟨m, rfl, rfl⟩
      exact ⟨rfl, rfl, (if_neg hrow).mpr rfl⟩
    · rintro ⟨hsrc, rfl, harr⟩
      rw [if_neg hrow] at harr
      refine ⟨_, rfl, ?_⟩
      rw [harr, hsrc]
      rfl

theorem placement_of_mem (hd : d.Tidy) (hpiece : piece ∈ d.pieces) :
    d.placement piece.position = some (piece.color, piece.type) :=
  placement_eq_some.mpr ⟨piece, hd.getPieceAt_iff.mpr ⟨hpiece, rfl⟩, rfl⟩

/-- The moves of the pieces other than pawns, castling aside. -/
theorem exists_pieceMove_iff (hd : d.Tidy) :
    (∃ piece ∈ d.pieces, piece.color = d.currentPlayer ∧ free piece ∧ piece.type ≠ .pawn ∧
      ∃ toPos : Position, toPos.IsValid ∧
        Reach d.placement piece.type piece.position toPos ∧ d.NotOwn piece toPos ∧
        lands piece toPos ∧ v = .plain piece.position toPos) ↔
    v.src.IsValid ∧ v.dst.IsValid ∧ ∃ t, t ≠ .pawn ∧
      d.placement v.src = some (d.currentPlayer, t) ∧
      (d.appBook free lands).goes t v.src v.dst ∧ v = .plain v.src v.dst := by
  constructor
  · rintro ⟨piece, hpiece, hcolor, hfree, htype, toPos, hto, hreach, hown, hlands, rfl⟩
    refine ⟨hd.valid piece hpiece, hto, piece.type, htype, ?_, ?_, rfl⟩
    · rw [← hcolor]
      exact placement_of_mem hd hpiece
    · exact ⟨piece, hd.getPieceAt_iff.mpr ⟨hpiece, rfl⟩, hfree, hreach, hown, hlands⟩
  · rintro ⟨-, hdst, t, ht, hman, ⟨piece, hat, hfree, hreach, hown, hlands⟩, hv⟩
    obtain ⟨piece', hat', hman'⟩ := placement_eq_some.mp hman
    rw [hat] at hat'
    obtain rfl := Option.some.inj hat'
    obtain ⟨hmem, hpos⟩ := mem_of_getPieceAt hat
    obtain ⟨hcolor, rfl⟩ : piece.color = d.currentPlayer ∧ piece.type = t :=
      Prod.mk.inj hman'
    exact ⟨piece, hmem, hcolor, hfree, ht, v.dst, hdst, hpos ▸ hreach, hown, hlands, hpos ▸ hv⟩

theorem pawnAllows_of_mem (hd : d.Tidy) (hpiece : piece ∈ d.pieces)
    (hcolor : piece.color = d.currentPlayer) (hfree : free piece) (hp : piece.type = .pawn)
    {m : ChessMove} (hm : m ∈ d.getPawnMoves piece) (hlands : lands piece m.toPos)
    (hv : m.view = v) :
    v.src.IsValid ∧ v.dst.IsValid ∧ d.placement v.src = some (d.currentPlayer, .pawn) ∧
      (d.appBook free lands).PawnAllows v := by
  have hat : d.getPieceAt piece.position = some piece := hd.getPieceAt_iff.mpr ⟨hpiece, rfl⟩
  have hman : d.placement piece.position = some (d.currentPlayer, .pawn) := by
    rw [placement_of_mem hd hpiece, hcolor, hp]
  have hvalid := hd.valid piece hpiece
  by_cases hmod : d.gameType = .mercenary
  · rw [getPawnMoves, if_pos hmod] at hm
    obtain ⟨toPos, hto, hstep, hown, hking, rfl⟩ := (mem_mercenaryPawnMoves hmod).mp hm
    subst hv
    exact ⟨hvalid, hto, hman, .inl ⟨⟨hmod, piece, hat, hfree, hstep, hown, hking, hlands⟩, rfl⟩⟩
  · rcases (mem_getPawnMoves hmod).mp hm with hm | ⟨toPos, hto, hstep, hm | hm⟩
    · obtain ⟨hone, hfront, hkind⟩ := (mem_pawnForward hp).mp hm
      rw [hcolor] at hone hfront hkind
      have hpush : (d.appBook free lands).pushes piece.position := ⟨hmod, piece, hat, hfree⟩
      rcases hkind with harr | ⟨hrow, htwo, hfree2, rfl⟩
      · obtain ⟨hsrc, hdst, harr⟩ := (exists_arrives_iff hcolor).mp ⟨m, harr, hv⟩
        refine ⟨hsrc ▸ hvalid, hdst ▸ hone, hsrc ▸ hman, .inr (.inl ⟨hsrc ▸ hpush, ?_, .inl ?_⟩)⟩
        · rw [hsrc]
          exact placement_eq_none.mpr hfront
        · exact ⟨by rw [hsrc]; exact hdst, harr⟩
      · subst hv
        exact ⟨hvalid, htwo, hman, .inr (.inl ⟨hpush, placement_eq_none.mpr hfront,
          .inr ⟨hrow, rfl, placement_eq_none.mpr hfree2, rfl⟩⟩)⟩
    · obtain ⟨⟨target, htarget, hne⟩, harr⟩ := (mem_pawnDiagonal hp).mp hm
      rw [harr.toPos_eq] at hlands
      obtain ⟨hsrc, hdst, harr⟩ := (exists_arrives_iff hcolor).mp ⟨m, harr, hv⟩
      rw [hcolor] at hstep
      refine ⟨hsrc ▸ hvalid, hdst ▸ hto, hsrc ▸ hman, .inr (.inr ⟨?_, .inl ⟨?_, harr⟩⟩)⟩
      · rw [hsrc, hdst]
        exact hstep
      · rw [hsrc, hdst]
        exact ⟨hmod, piece, hat, hfree, ⟨target, htarget, hne⟩, hlands⟩
    · obtain ⟨htarget, captured, hcap, htype, rfl⟩ := mem_pawnEnPassant.mp hm
      subst hv
      rw [hcolor] at hstep
      exact ⟨hvalid, hto, hman, .inr (.inr ⟨hstep, .inr ⟨⟨hmod, piece, hat, hfree, htarget,
        captured, hcap, htype⟩, rfl⟩⟩)⟩

/-- What the book allows a pawn is generated. -/
theorem exists_mem_getPawnMoves (hat : d.getPieceAt v.src = some piece)
    (hcolor : piece.color = d.currentPlayer) (hp : piece.type = .pawn) (hsrc : v.src.IsValid)
    (hdst : v.dst.IsValid)
    (hempty : ∀ piece z, piece.type ≠ .queen → d.getPieceAt z = none → lands piece z)
    (hep : v.ep = true → ∀ t, d.enPassantTarget = some t → d.getPieceAt t = none)
    (hallows : (d.appBook free lands).PawnAllows v) :
    free piece ∧ ∃ m ∈ d.getPawnMoves piece, lands piece m.toPos ∧ m.view = v := by
  have hpos := (mem_of_getPieceAt hat).2
  have hnq : piece.type ≠ .queen := by
    rw [hp]
    decide
  have hsame : ∀ {q}, d.getPieceAt v.src = some q → q = piece := by
    intro q hq
    rw [hat] at hq
    exact (Option.some.inj hq).symm
  rcases hallows with ⟨⟨hmod, q, hq, hfree, hstep, hown, hking, hlands⟩, hv⟩ |
      ⟨⟨hmod, q, hq, hfree⟩, hfront, hkind⟩ | ⟨hstep, hkind⟩
  · obtain rfl := hsame hq
    refine ⟨hfree, d.plainMove q v.dst, ?_, hlands, ?_⟩
    · rw [getPawnMoves, if_pos hmod, mem_mercenaryPawnMoves hmod]
      exact ⟨v.dst, hdst, hpos ▸ hstep, hown, hking, rfl⟩
    · rw [view_plainMove, hpos]
      exact hv.symm
  · obtain rfl := hsame hq
    have hfront' : d.getPieceAt (q.position.offset q.color.forward 0) = none := by
      rw [hpos, hcolor]
      exact placement_eq_none.mp hfront
    rcases hkind with ⟨hto, harr⟩ | ⟨hrow, hto, hfree2, hv⟩
    · obtain ⟨m, harr, hv⟩ := (exists_arrives_iff hcolor).mpr ⟨hpos.symm, rfl, harr⟩
      refine ⟨hfree, m, (mem_getPawnMoves hmod).mpr (.inl ((mem_pawnForward hp).mpr ?_)), ?_, hv⟩
      · have hto' : v.dst = q.position.offset q.color.forward 0 := by
          rw [hpos, hcolor]
          exact hto
        rw [hto'] at hdst harr
        exact ⟨hdst, hfront', .inl harr⟩
      · rw [harr.toPos_eq, hto]
        exact hempty _ _ hnq (placement_eq_none.mp hfront)
    · have hto' : v.dst = q.position.offset (q.color.forward * 2) 0 := by
        rw [hpos, hcolor]
        exact hto
      have hfree2' := placement_eq_none.mp hfree2
      refine ⟨hfree, d.plainMove q v.dst, (mem_getPawnMoves hmod).mpr (.inl
        ((mem_pawnForward hp).mpr ?_)), hempty _ _ hnq hfree2', ?_⟩
      · rw [hto'] at hdst hfree2' ⊢
        refine ⟨?_, hfront', .inr ⟨by rw [hpos, hcolor]; exact hrow, hdst, hfree2', rfl⟩⟩
        -- the square in between is on the board, both ends being so
        rw [← hpos, Position.isValid_iff] at hsrc
        rw [Position.isValid_iff] at hdst ⊢
        simp only [Position.offset_row, Position.offset_col] at hdst ⊢
        cases hc : q.color <;> rw [hc] at hdst <;> simp only [Color.forward] at hdst ⊢ <;> omega
      · rw [view_plainMove, hpos]
        exact hv.symm
  · rcases hkind with ⟨⟨hmod, q, hq, hfree, htarget, hlands⟩, harr⟩ |
        ⟨⟨hmod, q, hq, hfree, htarget, captured, hcap, htype⟩, hv⟩
    · obtain rfl := hsame hq
      obtain ⟨m, harr, hv⟩ := (exists_arrives_iff hcolor).mpr ⟨hpos.symm, rfl, harr⟩
      refine ⟨hfree, m, (mem_getPawnMoves hmod).mpr (.inr ⟨v.dst, hdst, ?_,
        .inl ((mem_pawnDiagonal hp).mpr ⟨htarget, harr⟩)⟩), ?_, hv⟩
      · rw [hpos, hcolor]
        exact hstep
      · rw [harr.toPos_eq]
        exact hlands
    · obtain rfl := hsame hq
      refine ⟨hfree, ChessMove.enPassant q.position v.dst q captured, (mem_getPawnMoves hmod).mpr
        (.inr ⟨v.dst, hdst, ?_, .inr (mem_pawnEnPassant.mpr ⟨htarget, captured, ?_, htype,
          rfl⟩)⟩), hempty _ _ hnq (hep (by rw [hv]; rfl) _ htarget), ?_⟩
      · rw [hpos, hcolor]
        exact hstep
      · rw [hpos]
        exact hcap
      · rw [hv, hpos]
        rfl

theorem exists_pawnMove_iff (hd : d.Tidy)
    (hempty : ∀ piece z, piece.type ≠ .queen → d.getPieceAt z = none → lands piece z)
    (hep : v.ep = true → ∀ t, d.enPassantTarget = some t → d.getPieceAt t = none) :
    (∃ piece ∈ d.pieces, piece.color = d.currentPlayer ∧ free piece ∧ piece.type = .pawn ∧
      ∃ m ∈ d.getPawnMoves piece, lands piece m.toPos ∧ m.view = v) ↔
    v.src.IsValid ∧ v.dst.IsValid ∧ d.placement v.src = some (d.currentPlayer, .pawn) ∧
      (d.appBook free lands).PawnAllows v := by
  constructor
  · rintro ⟨piece, hpiece, hcolor, hfree, hp, m, hm, hlands, hv⟩
    exact pawnAllows_of_mem hd hpiece hcolor hfree hp hm hlands hv
  · rintro ⟨hsrc, hdst, hman, hallows⟩
    obtain ⟨piece, hat, hman'⟩ := placement_eq_some.mp hman
    obtain ⟨hcolor, hp⟩ : piece.color = d.currentPlayer ∧ piece.type = .pawn :=
      Prod.mk.inj hman'
    obtain ⟨hfree, hmove⟩ := exists_mem_getPawnMoves hat hcolor hp hsrc hdst hempty hep hallows
    exact ⟨piece, (mem_of_getPieceAt hat).1, hcolor, hfree, hp, hmove⟩

theorem mem_of_getKing {c : Color} {king : ChessPiece} (h : d.getKing c = some king) :
    king ∈ d.pieces ∧ king.type = .king ∧ king.color = c := by
  have hp := List.find?_some h
  exact ⟨List.mem_of_find?_eq_some h, of_decide_eq_true hp⟩

/-- Castling moves, when the king that castles is the one that the tests look at. -/
theorem exists_castlingMove_iff (hking : d.KingFound) :
    (∃ piece ∈ d.pieces, piece.color = d.currentPlayer ∧ free piece ∧ piece.type = .king ∧
      ∃ m ∈ d.castlingMoves piece, m.view = v) ↔
    ∃ w, (d.appBook free lands).castles w ∧ v = .castling d.currentPlayer w := by
  have hview : ∀ {piece : ChessPiece} {w : Wing}, piece.color = d.currentPlayer →
      piece.position = ⟨homeRow d.currentPlayer, 4⟩ →
      (ChessMove.castling piece.position ⟨homeRow piece.color, w.kingTo⟩ piece).view =
        .castling d.currentPlayer w := by
    intro piece w hcolor hpos
    rw [hcolor, hpos]
    rfl
  have hhome : ∀ {king : ChessPiece} {w : Wing}, d.getKing d.currentPlayer = some king →
      d.canCastleTo d.currentPlayer w = true →
      king.position = ⟨homeRow d.currentPlayer, 4⟩ := by
    intro king w hk hcan
    obtain ⟨⟨king', hk', hpos⟩, -⟩ := (canCastleTo_iff _ _).mp hcan
    rw [hk] at hk'
    exact Option.some.inj hk' ▸ hpos
  constructor
  · rintro ⟨piece, hpiece, hcolor, hfree, htype, m, hm, rfl⟩
    obtain ⟨w, hflag, hcan, rfl⟩ := mem_castlingMoves.mp hm
    rw [hcolor] at hflag hcan
    have hk := hking piece hpiece (by rw [ChessPiece.man, hcolor, htype])
    exact ⟨w, ⟨hflag, hcan, piece, hk, hfree⟩, hview hcolor (hhome hk hcan)⟩
  · rintro ⟨w, ⟨hflag, hcan, king, hk, hfree⟩, rfl⟩
    obtain ⟨hmem, htype, hcolor⟩ := mem_of_getKing hk
    refine ⟨king, hmem, hcolor, hfree, htype, _, mem_castlingMoves.mpr ⟨w, ?_, ?_, rfl⟩,
      hview hcolor (hhome hk hcan)⟩
    · rwa [hcolor]
    · rwa [hcolor]

/-- The potential moves that the ruleset lets through are those of the book, castling aside. -/
theorem exists_potential_or_castling (hd : d.Tidy)
    (hempty : ∀ piece z, piece.type ≠ .queen → d.getPieceAt z = none → lands piece z)
    (hep : v.ep = true → ∀ t, d.enPassantTarget = some t → d.getPieceAt t = none) :
    (∃ piece ∈ d.pieces, piece.color = d.currentPlayer ∧ free piece ∧
      ∃ m ∈ d.getPotentialMoves piece, lands piece m.toPos ∧ m.view = v) ↔
    (d.appBook free lands).withoutCastling.Allows v ∨
      ∃ piece ∈ d.pieces, piece.color = d.currentPlayer ∧ free piece ∧ piece.type = .king ∧
        ∃ m ∈ d.castlingMoves piece, m.view = v := by
  have hpawn := @exists_pawnMove_iff d free lands v hd hempty hep
  have hpiece := @exists_pieceMove_iff d free lands v hd
  constructor
  · rintro ⟨piece, hmem, hcolor, hfree, m, hm, hlands, hv⟩
    by_cases hp : piece.type = .pawn
    · rw [getPotentialMoves, hp] at hm
      obtain ⟨hsrc, hdst, hman, hallows⟩ :=
        hpawn.mp ⟨piece, hmem, hcolor, hfree, hp, m, hm, hlands, hv⟩
      exact .inl (.inl ⟨hsrc, hdst, .inr ⟨hman, hallows⟩⟩)
    · rcases (mem_getPotentialMoves (hd.valid piece hmem) hp).mp hm with
        ⟨toPos, hto, hreach, hown, rfl⟩ | ⟨hk, hm⟩
      · obtain ⟨hsrc, hdst, hallows⟩ := hpiece.mp
          ⟨piece, hmem, hcolor, hfree, hp, toPos, hto, hreach, hown, hlands, hv.symm⟩
        exact .inl (.inl ⟨hsrc, hdst, .inl hallows⟩)
      · exact .inr ⟨piece, hmem, hcolor, hfree, hk, m, hm, hv⟩
  · rintro ((⟨hsrc, hdst, hallows | ⟨hman, hallows⟩⟩ | ⟨w, hno, -⟩) |
      ⟨piece, hmem, hcolor, hfree, hk, m, hm, hv⟩)
    · obtain ⟨piece, hmem, hcolor, hfree, hp, toPos, hto, hreach, hown, hlands, hv⟩ :=
        hpiece.mpr ⟨hsrc, hdst, hallows⟩
      exact ⟨piece, hmem, hcolor, hfree, d.plainMove piece toPos,
        (mem_getPotentialMoves (hd.valid piece hmem) hp).mpr
          (.inl ⟨toPos, hto, hreach, hown, rfl⟩), hlands, hv.symm⟩
    · obtain ⟨piece, hmem, hcolor, hfree, hp, m, hm, hlands, hv⟩ :=
        hpawn.mpr ⟨hsrc, hdst, hman, hallows⟩
      refine ⟨piece, hmem, hcolor, hfree, m, ?_, hlands, hv⟩
      rw [getPotentialMoves, hp]
      exact hm
    · exact hno.elim
    · have hp : piece.type ≠ .pawn := by
        rw [hk]
        decide
      refine ⟨piece, hmem, hcolor, hfree, m,
        (mem_getPotentialMoves (hd.valid piece hmem) hp).mpr (.inr ⟨hk, hm⟩), ?_, hv⟩
      -- a castling king ends on an empty square
      obtain ⟨w, -, hcan, rfl⟩ := mem_castlingMoves.mp hm
      obtain ⟨-, -, hfreeSquares, -⟩ := (canCastleTo_iff _ _).mp hcan
      exact hempty _ _ (by rw [hk]; decide) (hfreeSquares w.kingTo (by cases w <;> decide))

/-- The potential moves that the ruleset lets through are those of the book. -/
theorem exists_potential_iff (hd : d.Tidy) (hking : d.KingFound)
    (hempty : ∀ piece z, piece.type ≠ .queen → d.getPieceAt z = none → lands piece z)
    (hep : v.ep = true → ∀ t, d.enPassantTarget = some t → d.getPieceAt t = none) :
    (∃ piece ∈ d.pieces, piece.color = d.currentPlayer ∧ free piece ∧
      ∃ m ∈ d.getPotentialMoves piece, lands piece m.toPos ∧ m.view = v) ↔
    (d.appBook free lands).Allows v := by
  rw [exists_potential_or_castling hd hempty hep, @exists_castlingMove_iff d free lands v hking]
  exact or_congr_left (or_iff_left fun ⟨_, hno, _⟩ => hno)

end Book

end ChessBoard

end ChessRecast.App
