import ChessRecast.App.Stacks
import ChessRecast.App.Succession

/-!
# The placement of the pieces

What every board of a game should satisfy: one piece to a square, all on the board, no pawn on an
outer row and one king each. Three kinds of moves break it, and only they do.
-/

namespace ChessRecast.App

open Rules

namespace ChessBoard

/-- One piece to a square, on the board, pawns off the outer rows, one king each. -/
structure WellPlaced (d : ChessBoard) : Prop where
  valid : ∀ p ∈ d.pieces, p.position.IsValid
  distinct : Keyed.Distinct ChessPiece.position d.pieces
  pawns : d.gameType ≠ .mercenary → ∀ p ∈ d.pieces, p.type = .pawn →
    p.position.row ≠ 0 ∧ p.position.row ≠ 7
  kings : NeedsKings d.gameType → ∀ c, (d.menOf .king c).length = 1

/-- What a move must not do: land on a piece en passant, put the castling "rook" on another piece,
or leave a pawn on the last row. -/
structure Fits (d : ChessBoard) (m : ChessMove) : Prop where
  lands : m.isEnPassant = true → d.getPieceAt m.toPos = none
  rook : m.isCastling = true → d.getPieceAt m.view.rookSrc = none ∨
    m.view.rookDst = m.fromPos ∨ d.getPieceAt m.view.rookDst = none
  promotes : d.gameType ≠ .mercenary → m.piece.type = .pawn →
    m.toPos.row = promotionRow m.piece.color → m.isPromotion = true

section Pieces

variable {d : ChessBoard} {m : ChessMove}

/-- The piece that the castling code takes for the rook, on its new square. -/
def castledRook (d : ChessBoard) (m : ChessMove) : List ChessPiece :=
  match d.getPieceAt m.view.rookSrc with
  | some rook => [rook.movedTo m.view.rookDst]
  | none => []

theorem next_pieces_of_castling (hm : d.Moving m) (hc : m.isCastling = true) :
    (d.next m).pieces = ((d.pieces.filter fun p => p.position ≠ m.fromPos) ++
      [placedPiece m]).filter (fun p => p.position ≠ m.view.rookSrc) ++ d.castledRook m := by
  obtain ⟨-, -, hcap, -⟩ := hm.castle hc
  have hstay : d.stayingPieces m = d.pieces.filter fun p => p.position ≠ m.fromPos := by
    unfold stayingPieces
    rw [hcap]
  have hback : d.returnedQueen m = [] := by
    unfold returnedQueen
    rw [hcap]
  rw [next_pieces, hback, List.append_nil, makePieces_eq]
  unfold movedPieces castledRook
  dsimp only
  rw [if_pos hc, hstay]
  cases hrook : d.getPieceAt m.view.rookSrc with
  | some rook => exact performCastlingRookMove_eq hrook
  | none =>
    rw [List.append_nil]
    show (match d.getPieceAt m.view.rookSrc with
      | some rook => _
      | none => _) = _
    rw [hrook]
    rfl

theorem next_pieces_of_plain (hc : m.isCastling = false) :
    (d.next m).pieces = d.stayingPieces m ++ [placedPiece m] ++ d.returnedQueen m := by
  rw [next_pieces, makePieces_eq]
  unfold movedPieces
  dsimp only
  rw [hc, if_neg (by decide)]

/-- The squares of a castling move lie on the board; the rook's columns are not the king's. -/
theorem Moving.castle_columns (hm : d.Moving m) (hc : m.isCastling = true)
    (hfrom : m.fromPos.IsValid) : m.view.rookDst.IsValid ∧ m.view.rookDst ≠ m.toPos ∧
      m.view.rookSrc ≠ m.toPos ∧ m.view.rookDst ≠ m.view.rookSrc ∧
      d.getPieceAt m.toPos = none := by
  obtain ⟨-, -, -, w, hcan, hto⟩ := hm.castle hc
  obtain ⟨-, -, hempty, -⟩ := (canCastleTo_iff _ _).mp hcan
  have hsrc : m.view.rookSrc = ⟨m.fromPos.row, w.rookCol⟩ := by
    show (⟨m.fromPos.row, if m.toPos.col = 6 then 7 else 0⟩ : Position) = _
    rw [hto]
    cases w <;> rfl
  have hdst : m.view.rookDst = ⟨m.fromPos.row, w.rookTo⟩ := by
    show (⟨m.fromPos.row, if m.toPos.col = 6 then 5 else 3⟩ : Position) = _
    rw [hto]
    cases w <;> rfl
  rw [hsrc, hdst, hto]
  simp only [ne_eq, Position.eq_iff]
  refine ⟨?_, ?_, ?_, ?_, hempty w.kingTo (kingTo_mem_empties w)⟩
  · rw [Position.isValid_iff] at hfrom ⊢
    exact ⟨hfrom.1, hfrom.2.1, empties_bounds (rookTo_mem_empties w)⟩
  · cases w <;> simp [Wing.kingTo, Wing.rookTo]
  · cases w <;> simp [Wing.kingTo, Wing.rookCol]
  · cases w <;> simp [Wing.rookTo, Wing.rookCol]

end Pieces

/-! ## Squares after a move -/

section Squares

variable {d : ChessBoard} {m : ChessMove}

theorem WellPlaced.tidy (h : d.WellPlaced) : d.Tidy := ⟨h.valid, h.distinct⟩

theorem valid_next (hvalid : ∀ p ∈ d.pieces, p.position.IsValid) (hm : d.Moving m) :
    ∀ p ∈ (d.next m).pieces, p.position.IsValid := by
  intro p hp
  have hfrom : m.fromPos.IsValid := by
    rw [← hm.piece_mem.2]
    exact hvalid _ hm.piece_mem.1
  cases hc : m.isCastling with
  | true =>
    rw [next_pieces_of_castling hm hc] at hp
    rcases List.mem_append.mp hp with hp | hp
    · rcases List.mem_append.mp (List.mem_filter.mp hp).1 with hp | hp
      · exact hvalid p (List.mem_filter.mp hp).1
      · rw [List.mem_singleton.mp hp, placedPiece_position]
        exact hm.to_valid
    · unfold castledRook at hp
      split at hp
      · rw [List.mem_singleton.mp hp]
        exact (hm.castle_columns hc hfrom).1
      · cases hp
  | false =>
    rw [next_pieces_of_plain hc] at hp
    rcases List.mem_append.mp hp with hp | hp
    · rcases List.mem_append.mp hp with hp | hp
      · exact hvalid p (stayingPieces_sublist.subset hp)
      · rw [List.mem_singleton.mp hp, placedPiece_position]
        exact hm.to_valid
    · rcases returnedQueen_cases (d := d) (m := m) with hnil | ⟨q, -, -, heq⟩
      · rw [hnil] at hp
        cases hp
      · rw [heq] at hp
        rw [List.mem_singleton.mp hp]
        show (queenPrison q.color).IsValid
        cases q.color <;> decide

/-- The prison of a queen that goes back is free, and it is not the square of the capture. -/
theorem Moving.prison_free (hm : d.Moving m) {q : ChessPiece} (hcap : m.capturedPiece = some q)
    (hret : d.Returns m q) :
    ∀ p ∈ d.stayingPieces m ++ [placedPiece m], p.position ≠ queenPrison q.color := by
  have hprison : ∀ p ∈ d.pieces, p.position ≠ queenPrison q.color := by
    intro p hp hpos
    have hnone := hret.2.2.2.2
    rw [List.any_eq_false] at hnone
    exact hnone p hp (decide_eq_true hpos)
  intro p hp
  rcases List.mem_append.mp hp with hp | hp
  · exact hprison p (stayingPieces_sublist.subset hp)
  · rw [List.mem_singleton.mp hp, placedPiece_position]
    have hep : m.isEnPassant = false := by
      rw [← Bool.not_eq_true]
      intro hep
      obtain ⟨-, -, -, q', hq', hpawn, -⟩ := hm.passant hep
      rw [hcap] at hq'
      rw [← Option.some.inj hq', hret.2.2.1] at hpawn
      cases hpawn
    rcases hm.taken hep with htaken | ⟨hff, -⟩
    · obtain ⟨hq, hpos⟩ := mem_of_getPieceAt (htaken.symm.trans hcap)
      rw [← hpos]
      exact hprison q hq
    · cases hff.symm.trans hret.1

/-- A plain move keeps the pieces apart unless it lands on one en passant. -/
theorem WellPlaced.distinct_next_of_plain (h : d.WellPlaced) (hm : d.Moving m)
    (hc : m.isCastling = false) : Keyed.Distinct ChessPiece.position (d.next m).pieces ↔
      (m.isEnPassant = true → d.getPieceAt m.toPos = none) := by
  have hstay : Keyed.Distinct ChessPiece.position (d.stayingPieces m) :=
    List.Pairwise.sublist stayingPieces_sublist h.distinct
  have hplaced : Keyed.Distinct ChessPiece.position (d.stayingPieces m ++ [placedPiece m]) ↔
      (m.isEnPassant = true → d.getPieceAt m.toPos = none) := by
    rw [Keyed.distinct_append_singleton_iff, placedPiece_position]
    constructor
    · rintro ⟨-, hfree⟩ hep
      by_contra hsome
      obtain ⟨q, hq⟩ := Option.ne_none_iff_exists'.mp hsome
      obtain ⟨hmem, hpos⟩ := mem_of_getPieceAt hq
      -- the piece on the target stays, since the captured pawn stands beside it
      refine hfree q (mem_stayingPieces.mpr ⟨hmem, ?_, fun p hp => ?_⟩) hpos
      · rw [hpos]
        exact hm.from_ne_to.symm
      · obtain ⟨-, -, -, p', hp', -, hbeside⟩ := hm.passant hep
        rw [hep, if_pos rfl]
        rintro rfl
        rw [hp] at hp'
        exact hbeside (Option.some.inj hp' ▸ hpos)
    · intro hfree
      refine ⟨hstay, fun p hp => ?_⟩
      cases hep : m.isEnPassant with
      | true => exact Keyed.lookup_eq_none_iff.mp (hfree hep) p (stayingPieces_sublist.subset hp)
      | false => exact hm.ne_of_staying hep hp
  rw [next_pieces_of_plain hc]
  rcases returnedQueen_cases (d := d) (m := m) with hnil | ⟨q, hcap, hret, heq⟩
  · rw [hnil, List.append_nil]
    exact hplaced
  · rw [heq, Keyed.distinct_append_singleton_iff]
    constructor
    · exact fun hboth => hplaced.mp hboth.1
    · intro hfree
      refine ⟨hplaced.mpr hfree, fun p hp => ?_⟩
      exact hm.prison_free hcap hret p hp

/-- Castling keeps the pieces apart unless the square that the "rook" goes to is occupied. -/
theorem WellPlaced.distinct_next_of_castling (h : d.WellPlaced) (hm : d.Moving m)
    (hc : m.isCastling = true) : Keyed.Distinct ChessPiece.position (d.next m).pieces ↔
      (d.getPieceAt m.view.rookSrc = none ∨ m.view.rookDst = m.fromPos ∨
        d.getPieceAt m.view.rookDst = none) := by
  have hfrom : m.fromPos.IsValid := by
    rw [← hm.piece_mem.2]
    exact h.valid _ hm.piece_mem.1
  obtain ⟨-, hdstTo, -, hdstSrc, hempty⟩ := hm.castle_columns hc hfrom
  have hbase : Keyed.Distinct ChessPiece.position
      ((d.pieces.filter fun p => p.position ≠ m.fromPos) ++ [placedPiece m]) := by
    rw [Keyed.distinct_append_singleton_iff, placedPiece_position]
    exact ⟨h.distinct.filter _, fun p hp =>
      Keyed.lookup_eq_none_iff.mp hempty p (List.mem_filter.mp hp).1⟩
  rw [next_pieces_of_castling hm hc]
  unfold castledRook
  cases hrook : d.getPieceAt m.view.rookSrc with
  | none =>
    rw [List.append_nil]
    exact iff_of_true (hbase.filter _) (.inl rfl)
  | some rook =>
    show Keyed.Distinct _ (_ ++ [rook.movedTo m.view.rookDst]) ↔ _
    rw [Keyed.distinct_append_singleton_iff]
    show _ ∧ (∀ p : ChessPiece, p ∈ _ → p.position ≠ m.view.rookDst) ↔ _
    constructor
    · rintro ⟨-, hfree⟩
      by_contra hno
      rw [not_or, not_or] at hno
      obtain ⟨-, hne, hsome⟩ := hno
      obtain ⟨q, hq⟩ := Option.ne_none_iff_exists'.mp hsome
      obtain ⟨hmem, hpos⟩ := mem_of_getPieceAt hq
      refine hfree q (List.mem_filter.mpr ⟨List.mem_append_left _ (List.mem_filter.mpr
        ⟨hmem, decide_eq_true ?_⟩), decide_eq_true ?_⟩) hpos
      · rw [hpos]
        exact hne
      · rw [hpos]
        exact hdstSrc
    · intro hor
      refine ⟨hbase.filter _, fun p hp hpos => ?_⟩
      rcases List.mem_append.mp (List.mem_filter.mp hp).1 with hp | hp
      · obtain ⟨hmem, hleft⟩ := List.mem_filter.mp hp
        rcases hor with hnone | hsame | hnone
        · cases hnone
        · exact of_decide_eq_true hleft (hpos.trans hsame)
        · exact Keyed.lookup_eq_none_iff.mp hnone p hmem hpos
      · rw [List.mem_singleton.mp hp, placedPiece_position] at hpos
        exact hdstTo hpos.symm

end Squares

/-! ## Pawns after a move -/

section Pawns

variable {d : ChessBoard} {m : ChessMove}

theorem pawn_rows (hvalid : ∀ q ∈ d.pieces, q.position.IsValid)
    (hmem : m ∈ d.getValidMovesFor m.fromPos) (hmod : d.gameType ≠ .mercenary)
    (hp : m.piece.type = .pawn) :
    (m.toPos.row = m.fromPos.row + m.piece.color.forward ∧
      (m.isEnPassant = true → d.enPassantTarget = some m.toPos)) ∨
    (m.toPos.row = m.fromPos.row + 2 * m.piece.color.forward ∧ m.isEnPassant = false ∧
      m.fromPos.row = doubleRow m.piece.color) := by
  obtain ⟨piece, hat, -, hfilter, -⟩ := mem_getValidMovesFor.mp hmem
  have hholds := (moving_of_mem hvalid hmem).from_holds
  obtain rfl : piece = m.piece := Option.some.inj (hat.symm.trans hholds)
  obtain ⟨hpiece, hpos⟩ := mem_of_getPieceAt hat
  rw [← hpos]
  rcases mem_applyRulesetFilter_cases hfilter with hm | ⟨-, f, ⟨hf, -, -, -, hne⟩, hreach, heq⟩ |
    ⟨hq, -⟩
  · rw [getPotentialMoves, hp] at hm
    rcases rows_of_getPawnMoves hmod hp hm with ⟨hrow, hkind⟩ | ⟨hrow, hep, hstart, -⟩
    · refine .inl ⟨hrow, fun hep => ?_⟩
      rcases hkind with ⟨-, htarget, -⟩ | ⟨hno, -⟩
      · exact htarget
      · rw [hno] at hep
        cases hep
    · exact .inr ⟨hrow, hep, hstart⟩
  · -- a self-capture of Friendly Fire goes diagonally ahead
    have hstep := (canPieceReach_iff (hvalid _ hpiece) (hvalid f hf) hne.symm).mp hreach
    rw [if_pos hp] at hstep
    have hto : m.toPos = f.position := by rw [heq]; rfl
    refine .inl ⟨by rw [hto]; exact hstep.1, fun hep => ?_⟩
    rw [heq] at hep
    cases hep
  · rw [hp] at hq
    cases hq

theorem promotedType_ne_pawn (letter : Option Char) : promotedType letter ≠ .pawn := by
  unfold promotedType
  split <;> decide

/-- A pawn of the next board comes from a pawn of the same row, or is the one that moved. -/
theorem Moving.pawn_origin (hm : d.Moving m) {p : ChessPiece} (hp : p ∈ (d.next m).pieces)
    (htype : p.type = .pawn) : (∃ q ∈ d.pieces, q.type = .pawn ∧
      q.position.row = p.position.row) ∨ p = placedPiece m := by
  cases hc : m.isCastling with
  | true =>
    rw [next_pieces_of_castling hm hc] at hp
    rcases List.mem_append.mp hp with hp | hp
    · rcases List.mem_append.mp (List.mem_filter.mp hp).1 with hp | hp
      · exact .inl ⟨p, (List.mem_filter.mp hp).1, htype, rfl⟩
      · exact .inr (List.mem_singleton.mp hp)
    · -- the "rook" may be a pawn on the row of a second king
      unfold castledRook at hp
      split at hp
      · rename_i rook hrook
        obtain ⟨hmem, hpos⟩ := mem_of_getPieceAt hrook
        rw [List.mem_singleton.mp hp] at htype ⊢
        refine .inl ⟨rook, hmem, htype, ?_⟩
        rw [hpos]
        rfl
      · cases hp
  | false =>
    rw [next_pieces_of_plain hc] at hp
    rcases List.mem_append.mp hp with hp | hp
    · rcases List.mem_append.mp hp with hp | hp
      · exact .inl ⟨p, stayingPieces_sublist.subset hp, htype, rfl⟩
      · exact .inr (List.mem_singleton.mp hp)
    · rcases returnedQueen_cases (d := d) (m := m) with hnil | ⟨q, -, hret, heq⟩
      · rw [hnil] at hp
        cases hp
      · rw [heq] at hp
        rw [List.mem_singleton.mp hp] at htype
        cases htype.symm.trans hret.2.2.1

/-- A move leaves a pawn on an outer row exactly if it does not promote on the last one. -/
theorem WellPlaced.pawns_next_iff (h : d.WellPlaced)
    (hmem : m ∈ d.getValidMovesFor m.fromPos) (hmod : d.gameType ≠ .mercenary) :
    (∀ p ∈ (d.next m).pieces, p.type = .pawn → p.position.row ≠ 0 ∧ p.position.row ≠ 7) ↔
      (m.piece.type = .pawn → m.toPos.row = promotionRow m.piece.color → m.isPromotion = true) := by
  have hm := moving_of_mem h.valid hmem
  constructor
  · intro hrows hp hlast
    by_contra hpromo
    have hc : m.isCastling = false := by
      rw [← Bool.not_eq_true]
      intro hc
      rw [(hm.castle hc).1] at hp
      cases hp
    have hin : placedPiece m ∈ (d.next m).pieces := by
      rw [next_pieces_of_plain hc]
      exact List.mem_append_left _ (List.mem_append_right _ (List.mem_singleton_self _))
    have htype : (placedPiece m).type = .pawn := by
      unfold placedPiece
      rw [if_neg hpromo]
      exact hp
    have hbad := hrows _ hin htype
    rw [placedPiece_position, hlast] at hbad
    cases hcolor : m.piece.color <;> rw [hcolor] at hbad <;> simp [promotionRow] at hbad
  · intro hpromotes p hp htype
    rcases hm.pawn_origin hp htype with ⟨q, hq, hpawn, hrow⟩ | rfl
    · rw [← hrow]
      exact h.pawns hmod q hq hpawn
    · -- the pawn that moved did not promote
      have hpromo : m.isPromotion = false := by
        rw [← Bool.not_eq_true]
        intro hpromo
        unfold placedPiece at htype
        rw [if_pos hpromo] at htype
        exact promotedType_ne_pawn _ htype
      have hpawn : m.piece.type = .pawn := by
        unfold placedPiece at htype
        rw [if_neg (by rw [hpromo]; decide)] at htype
        exact htype
      have hlast : m.toPos.row ≠ promotionRow m.piece.color := by
        intro hlast
        rw [hpromotes hpawn hlast] at hpromo
        cases hpromo
      have hstart := h.pawns hmod m.piece hm.piece_mem.1 hpawn
      have hbounds := h.valid m.piece hm.piece_mem.1
      rw [hm.piece_mem.2] at hstart hbounds
      rw [Position.isValid_iff] at hbounds
      rw [placedPiece_position]
      rcases pawn_rows h.valid hmem hmod hpawn with ⟨hrow, -⟩ | ⟨hrow, -, hdouble⟩
      · cases hcolor : m.piece.color <;> rw [hcolor] at hrow hlast <;>
          simp only [Color.forward, promotionRow] at hrow hlast <;> omega
      · cases hcolor : m.piece.color <;> rw [hcolor] at hrow hdouble <;>
          simp only [Color.forward, doubleRow] at hrow hdouble <;> omega

end Pawns

/-! ## Kings after a move -/

section Kings

variable {d d' : ChessBoard} {m : ChessMove}

theorem WellPlaced.kingedStacks (h : d.WellPlaced) (hneeds : NeedsKings d.gameType) :
    d.KingedStacks where
  toLayered := h.tidy.layered
  needs := hneeds
  kings c := List.length_eq_one_iff.mp (h.kings hneeds c)

theorem WellPlaced.getKing_ne_none (h : d.WellPlaced) (hneeds : NeedsKings d.gameType) (c : Color) :
    d.getKing c ≠ none := by
  intro hnone
  have hone := h.kings hneeds c
  rw [getKing_eq_none_iff.mp hnone] at hone
  cases hone

theorem WellPlaced.kings_next (h : d.WellPlaced) (hmem : m ∈ d.getValidMovesFor m.fromPos)
    (hneeds : NeedsKings d.gameType) (c : Color) : ((d.next m).menOf .king c).length = 1 := by
  have hstacks := h.kingedStacks hneeds
  have hm := moving_of_mem h.valid hmem
  obtain ⟨k, hk⟩ := hstacks.kings c
  obtain ⟨hin, htype, -⟩ := mem_of_menOf hk
  have hkept : ¬ (m.isEnPassant = false ∧ k.position = m.toPos) := by
    rintro ⟨hep, hpos⟩
    have hat := h.tidy.getPieceAt_iff.mpr ⟨hin, hpos⟩
    rcases hm.taken hep with htaken | ⟨-, f, hf, -, hfpos, -, hfking⟩
    · obtain ⟨-, -, -, -, hkeep⟩ := mem_getValidMovesFor.mp hmem
      exact not_takesKing_of_keepsMove hneeds.1 hkeep ⟨k, htaken.trans hat, htype⟩
    · rw [h.distinct.eq_of_key hin hf (hpos.trans hfpos.symm)] at htype
      exact hfking htype
  obtain ⟨k', hk'⟩ := hstacks.kings_next hm hk hkept
  rw [hk']
  rfl

/-- One move: the placement stays as it should exactly if the move fits. -/
theorem WellPlaced.next_iff (h : d.WellPlaced) (hmem : m ∈ d.getValidMovesFor m.fromPos) :
    (d.next m).WellPlaced ↔ d.Fits m := by
  have hm := moving_of_mem h.valid hmem
  constructor
  · intro hnext
    refine ⟨fun hep => ?_, fun hc => ?_, fun hmod => ?_⟩
    · have hc := (hm.passant hep).2.2.1
      exact (h.distinct_next_of_plain hm hc).mp hnext.distinct hep
    · exact (h.distinct_next_of_castling hm hc).mp hnext.distinct
    · exact (h.pawns_next_iff hmem hmod).mp (hnext.pawns (by rw [next_gameType]; exact hmod))
  · intro hfits
    refine ⟨valid_next h.valid hm, ?_, fun hmod => ?_, fun hneeds => ?_⟩
    · cases hc : m.isCastling with
      | true => exact (h.distinct_next_of_castling hm hc).mpr (hfits.rook hc)
      | false => exact (h.distinct_next_of_plain hm hc).mpr hfits.lands
    · rw [next_gameType] at hmod
      exact (h.pawns_next_iff hmem hmod).mpr (hfits.promotes hmod)
    · rw [next_gameType] at hneeds
      exact h.kings_next hmem hneeds

end Kings

theorem wellPlaced_initial (mod : Mod) : (initial mod).WellPlaced where
  valid := (gameInv_initial mod).tidy.valid
  distinct := (gameInv_initial mod).tidy.distinct
  pawns := by
    rw [initial_gameType]
    intro _
    cases mod <;> decide
  kings := by
    rw [initial_gameType]
    intro hneeds c
    obtain ⟨k, hk⟩ := (kingedStacks_initial hneeds).kings c
    rw [hk]
    rfl

theorem Reached.wellPlaced {mod : Mod} {d : ChessBoard} (h : Reached Fits (initial mod) d) :
    d.WellPlaced := by
  induction h with
  | start => exact wellPlaced_initial mod
  | step _ hfits hexec ih =>
    have hmem := mem_of_executeMove hexec
    obtain rfl := eq_next_of_executeMove hexec
    exact (ih.next_iff hmem).mpr hfits

/-- Every run of fitting moves keeps the placement, and a move breaks it exactly if it does not
fit. -/
theorem placement_kept_iff (mod : Mod) (d : ChessBoard) (h : Reached Fits (initial mod) d) :
    d.WellPlaced ∧ ∀ m d', d.executeMove m = some d' → (d'.WellPlaced ↔ d.Fits m) := by
  refine ⟨h.wellPlaced, fun m d' hexec => ?_⟩
  have hmem := mem_of_executeMove hexec
  obtain rfl := eq_next_of_executeMove hexec
  exact h.wellPlaced.next_iff hmem

theorem placement_kept_e4 : ((initial .classic).next
    (ChessMove.simple ⟨1, 4⟩ ⟨3, 4⟩ ⟨.pawn, .white, ⟨1, 4⟩, false⟩ none)).WellPlaced := by
  refine ((placement_kept_iff .classic _ .start).2 _ _
    (executeMove_of_isValidMove (by decide +kernel))).mpr ⟨?_, ?_, ?_⟩
  · exact fun hep => (by cases hep)
  · exact fun hc => (by cases hc)
  · exact fun _ _ hlast => absurd hlast (by decide)

/-- 1. e4 d6 2. d3 d5 3. Be3 d4 4. h3: the target of the first move still stands. -/
def bishopOnTargetLine : List ChessMove :=
  let pawn := fun (c : Color) (a z : Position) (moved : Bool) =>
    ChessMove.simple a z ⟨.pawn, c, a, moved⟩ none
  [pawn .white ⟨1, 4⟩ ⟨3, 4⟩ false, pawn .black ⟨6, 3⟩ ⟨5, 3⟩ false,
    pawn .white ⟨1, 3⟩ ⟨2, 3⟩ false, pawn .black ⟨5, 3⟩ ⟨4, 3⟩ true,
    ChessMove.simple ⟨0, 2⟩ ⟨2, 4⟩ ⟨.bishop, .white, ⟨0, 2⟩, false⟩ none,
    pawn .black ⟨4, 3⟩ ⟨3, 3⟩ true, pawn .white ⟨1, 7⟩ ⟨2, 7⟩ false]

/-- 4... dxe3 e.p. puts the pawn on the bishop. -/
theorem pawn_lands_on_bishop : ∃ d d' : ChessBoard, ∃ m : ChessMove,
    Reached (fun d _ => d.Running) (initial .classic) d ∧ d.executeMove m = some d' ∧
    (d'.pieces.filter fun p => p.position = ⟨2, 4⟩).length = 2 ∧ ¬ d'.WellPlaced := by
  have hfacts : GameLine (initial .classic) bishopOnTargetLine ∧
      (bishopOnTargetLine.foldl next (initial .classic)).isValidMove
        (ChessMove.enPassant ⟨3, 3⟩ ⟨2, 4⟩ ⟨.pawn, .black, ⟨3, 3⟩, true⟩
          ⟨.pawn, .white, ⟨3, 4⟩, true⟩) = true ∧
      (((bishopOnTargetLine.foldl next (initial .classic)).next
        (ChessMove.enPassant ⟨3, 3⟩ ⟨2, 4⟩ ⟨.pawn, .black, ⟨3, 3⟩, true⟩
          ⟨.pawn, .white, ⟨3, 4⟩, true⟩)).pieces.filter fun p => p.position = ⟨2, 4⟩).length = 2 ∧
      ¬ Keyed.Distinct ChessPiece.position ((bishopOnTargetLine.foldl next (initial .classic)).next
        (ChessMove.enPassant ⟨3, 3⟩ ⟨2, 4⟩ ⟨.pawn, .black, ⟨3, 3⟩, true⟩
          ⟨.pawn, .white, ⟨3, 4⟩, true⟩)).pieces := by
    decide +kernel
  obtain ⟨hline, hvalid, htwo, hshared⟩ := hfacts
  exact ⟨_, _, _, Reached.gameLine _ _ .start hline, executeMove_of_isValidMove hvalid, htwo,
    fun hplaced => hshared hplaced.distinct⟩

end ChessBoard

end ChessRecast.App
