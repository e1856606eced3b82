import ChessRecast.App.Verdicts

/-!
# Men on one square

A stale en-passant target lets a pawn land on an occupied square. Nothing else does, so in every
game that goes on the first piece of a square is the one that stood there and whatever lies on it
is pawns. The invariant holds without any condition on the moves, as long as each side has its
king.
-/

namespace ChessRecast.App

open Rules

namespace ChessBoard

/-! ## Offered moves on any board -/

/-- What an offered move says about its board, also where men share a square. -/
structure Moving (d : ChessBoard) (m : ChessMove) : Prop where
  from_holds : d.getPieceAt m.fromPos = some m.piece
  mover : m.piece.color = d.currentPlayer
  to_valid : m.toPos.IsValid
  from_ne_to : m.fromPos ≠ m.toPos
  taken : m.isEnPassant = false → m.capturedPiece = d.getPieceAt m.toPos ∨
    (d.gameType = .friendlyFire ∧ ∃ f ∈ d.pieces, m.capturedPiece = some f ∧ f.position = m.toPos ∧
      f.color = d.currentPlayer ∧ f.type ≠ .king)
  passant : m.isEnPassant = true → m.piece.type = .pawn ∧ m.isPromotion = false ∧
    m.isCastling = false ∧
    ∃ q, m.capturedPiece = some q ∧ q.type = .pawn ∧ q.position ≠ m.toPos
  castle : m.isCastling = true → m.piece.type = .king ∧ m.isPromotion = false ∧
    m.capturedPiece = none ∧ ∃ w : Wing, d.canCastleTo m.piece.color w = true ∧
      m.toPos = ⟨homeRow m.piece.color, w.kingTo⟩
  promotes : m.isPromotion = true → m.piece.type = .pawn ∧
    ∃ letter ∈ d.getPromotionPieces m.piece.color m.toPos, m.promotionPiece = some letter

section Moving

variable {d : ChessBoard} {m : ChessMove} {piece : ChessPiece}

theorem Shape.moving (hat : d.getPieceAt piece.position = some piece)
    (hcolor : piece.color = d.currentPlayer) (h : d.Shape piece m) : d.Moving m := by
  have hpromotes := fun hp => h.promotionLetter hp
  cases h with
  | plain toPos hto hne heq =>
    subst heq
    exact ⟨hat, hcolor, hto, hne, fun _ => .inl rfl, fun h => (by cases h), fun h => (by cases h),
      hpromotes⟩
  | arrives toPos hp hto hne harr =>
    obtain ⟨hpiece, hfrom, -⟩ := moveOf_arrives hp harr
    obtain ⟨hcastle, hpassant⟩ := harr.flags
    have htaken : m.capturedPiece = d.getPieceAt toPos := by
      unfold Arrives at harr
      split at harr
      · obtain ⟨letter, -, rfl⟩ := harr
        rfl
      · rw [harr]
        rfl
    have hto' := harr.toPos_eq
    refine ⟨by rw [hfrom, hpiece]; exact hat, by rw [hpiece]; exact hcolor, by rw [hto']; exact hto,
      by rw [hfrom, hto']; exact hne, fun _ => .inl (by rw [hto']; exact htaken), ?_, ?_, ?_⟩
    · intro hep
      rw [hpassant] at hep
      cases hep
    · intro hc
      rw [hcastle] at hc
      cases hc
    · rw [hpiece]
      exact hpromotes
  | enPassant toPos captured hp hto hstep htarget hcap htype heq =>
    subst heq
    have hbeside : captured.position ≠ toPos := by
      rw [(mem_of_getPieceAt hcap).2]
      intro hsame
      have hrow : piece.position.row = toPos.row := (Position.eq_iff.mp hsame).1
      have hahead := hstep.1
      cases hc : piece.color <;> rw [hc] at hahead <;> simp only [Color.forward] at hahead <;> omega
    exact ⟨hat, hcolor, hto, hstep.ne, fun h => (by cases h),
      fun _ => ⟨hp, rfl, rfl, captured, rfl, htype, hbeside⟩, fun h => (by cases h),
      fun h => (by cases h)⟩
  | castling w hk hflag hcan heq =>
    subst heq
    obtain ⟨-, -, hempty, -⟩ := (canCastleTo_iff _ _).mp hcan
    have hfree : d.getPieceAt ⟨homeRow piece.color, w.kingTo⟩ = none :=
      hempty w.kingTo (by cases w <;> decide)
    refine ⟨hat, hcolor, isValid_home (by cases w <;> decide), fun heq => ?_,
      fun _ => .inl hfree.symm, fun h => (by cases h), fun _ => ⟨hk, rfl, rfl, w, hcan, rfl⟩,
      fun h => (by cases h)⟩
    -- the king does not stand on the square that castling needs empty
    rw [show piece.position = ⟨homeRow piece.color, w.kingTo⟩ from heq, hfree] at hat
    cases hat

theorem moving_of_mem (hvalid : ∀ q ∈ d.pieces, q.position.IsValid)
    (hm : m ∈ d.getValidMovesFor m.fromPos) : d.Moving m := by
  obtain ⟨piece, hat, hcolor, hfilter, -⟩ := mem_getValidMovesFor.mp hm
  obtain ⟨hmem, hpos⟩ := mem_of_getPieceAt hat
  have hat' : d.getPieceAt piece.position = some piece := by rw [hpos]; exact hat
  rcases shape_or_selfCapture (hvalid piece hmem) hfilter with
    hshape | ⟨hmod, f, ⟨hf, hfc, hfk, -, hne⟩, -, heq⟩
  · exact hshape.moving hat' hcolor
  · subst heq
    exact ⟨hat', hcolor, hvalid f hf, hne.symm,
      fun _ => .inr ⟨hmod, f, hf, rfl, rfl, hfc.trans hcolor, hfk⟩,
      fun h => (by cases h), fun h => (by cases h), fun h => (by cases h)⟩

theorem Moving.piece_mem (hm : d.Moving m) : m.piece ∈ d.pieces ∧ m.piece.position = m.fromPos :=
  mem_of_getPieceAt hm.from_holds

/-- Outside an en-passant capture no piece of the target square stays. -/
theorem Moving.ne_of_staying (hm : d.Moving m) (hep : m.isEnPassant = false) {p : ChessPiece}
    (hp : p ∈ d.stayingPieces m) : p.position ≠ m.toPos := by
  have hmem : p ∈ d.pieces := stayingPieces_sublist.subset hp
  have hempty : d.getPieceAt m.toPos = none → p.position ≠ m.toPos :=
    fun hnone => Keyed.lookup_eq_none_iff.mp hnone p hmem
  unfold stayingPieces at hp
  cases hcap : m.capturedPiece with
  | none =>
    refine hempty ?_
    rcases hm.taken hep with htaken | ⟨-, f, -, hf, -⟩
    · rw [← htaken, hcap]
    · rw [hcap] at hf
      cases hf
  | some q =>
    rw [hcap, hep] at hp
    exact of_decide_eq_true (List.mem_filter.mp hp).2

theorem mem_stayingPieces {p : ChessPiece} : p ∈ d.stayingPieces m ↔ p ∈ d.pieces ∧
    p.position ≠ m.fromPos ∧ ∀ q, m.capturedPiece = some q →
      if m.isEnPassant then p ≠ q else p.position ≠ m.toPos := by
  unfold stayingPieces
  cases m.capturedPiece with
  | none => simp
  | some q =>
    cases m.isEnPassant <;> simp [and_comm]

end Moving

/-! ## Stacks -/

/-- All men are on the board, and a man that comes later in the list than another one on its
square is a pawn. -/
structure Layered (d : ChessBoard) : Prop where
  valid : ∀ q ∈ d.pieces, q.position.IsValid
  stacked : d.pieces.Pairwise fun a b => a.position = b.position → b.type = .pawn

section Layered

variable {d : ChessBoard} {m : ChessMove} {q k : ChessPiece} {z : Position}

/-- The first piece of the list on a square, and the ones before and after it. -/
theorem Layered.split (h : d.Layered) (hat : d.getPieceAt z = some q) :
    ∃ front back, d.pieces = front ++ q :: back ∧ (∀ a ∈ front, a.position ≠ z) ∧
      ∀ a ∈ back, a.position = z → a.type = .pawn := by
  have hpos := (mem_of_getPieceAt hat).2
  unfold getPieceAt Keyed.lookup at hat
  obtain ⟨-, front, back, heq, hfront⟩ := List.find?_eq_some_iff_append.mp hat
  refine ⟨front, back, heq, fun a ha => by simpa using hfront a ha, fun a ha hz => ?_⟩
  have hpair := h.stacked
  rw [heq, List.pairwise_append, List.pairwise_cons] at hpair
  exact hpair.2.1.1 a ha (hpos.trans hz.symm)

theorem Layered.eq_or_pawn (h : d.Layered) (hat : d.getPieceAt z = some q) (hk : k ∈ d.pieces)
    (hz : k.position = z) : k = q ∨ k.type = .pawn := by
  obtain ⟨front, back, heq, hfront, hback⟩ := h.split hat
  rw [heq] at hk
  rcases List.mem_append.mp hk with hk | hk
  · exact absurd hz (hfront k hk)
  · rcases List.mem_cons.mp hk with rfl | hk
    · exact .inl rfl
    · exact .inr (hback k hk hz)

/-- A man that is no pawn is the first one on its square. -/
theorem Layered.getPieceAt_of_mem (h : d.Layered) (hk : k ∈ d.pieces) (hp : k.type ≠ .pawn) :
    d.getPieceAt k.position = some k := by
  cases hat : d.getPieceAt k.position with
  | none => exact absurd rfl (Keyed.lookup_eq_none_iff.mp hat k hk)
  | some q => rw [(h.eq_or_pawn hat hk rfl).resolve_right hp]

theorem Tidy.layered (h : d.Tidy) : d.Layered where
  valid := h.valid
  stacked := h.distinct.imp fun hne heq => absurd heq hne

/-- Castling starts on the king's home square. -/
def FromHome (m : ChessMove) : Prop :=
  m.isCastling = true → m.fromPos = ⟨homeRow m.piece.color, 4⟩

/-- The squares of the rook in a castling move from home. -/
theorem Moving.castle_squares (hm : d.Moving m) (hhome : FromHome m) (hc : m.isCastling = true) :
    (∃ rook, d.getPieceAt m.view.rookSrc = some rook ∧ rook.man = (m.piece.color, .rook)) ∧
      d.getPieceAt m.view.rookDst = none ∧ m.view.rookDst.IsValid ∧
      m.view.rookDst ≠ m.toPos ∧ m.view.rookSrc ≠ m.toPos := by
  obtain ⟨-, -, -, w, hcan, hto⟩ := hm.castle hc
  obtain ⟨-, ⟨rook, hrook, hman⟩, hempty, -⟩ := (canCastleTo_iff _ _).mp hcan
  have hfrom := hhome hc
  have hsrc : m.view.rookSrc = ⟨homeRow m.piece.color, w.rookCol⟩ := by
    unfold MoveView.rookSrc ChessMove.view
    dsimp only
    rw [hfrom, hto]
    cases w <;> rfl
  have hdst : m.view.rookDst = ⟨homeRow m.piece.color, if w = .king then 5 else 3⟩ := by
    unfold MoveView.rookDst ChessMove.view
    dsimp only
    rw [hfrom, hto]
    cases w <;> rfl
  refine ⟨⟨rook, by rw [hsrc, hrook], hman⟩, ?_, ?_, ?_, ?_⟩
  · rw [hdst]
    exact hempty _ (by cases w <;> decide)
  · rw [hdst]
    exact isValid_home (by cases w <;> decide)
  · rw [hdst, hto]
    intro heq
    have hcol := congrArg Position.col heq
    dsimp only at hcol
    revert hcol
    cases w <;> decide
  · rw [hsrc, hto]
    intro heq
    have hcol := congrArg Position.col heq
    dsimp only at hcol
    revert hcol
    cases w <;> decide

/-- Pieces that are put on a free square, or pawns on any, keep the order of the stacks. -/
theorem pairwise_stacked_append {l : List ChessPiece} {p : ChessPiece}
    (hl : l.Pairwise fun a b => a.position = b.position → b.type = .pawn)
    (hp : ∀ a ∈ l, a.position = p.position → p.type = .pawn) :
    (l ++ [p]).Pairwise fun a b => a.position = b.position → b.type = .pawn := by
  rw [List.pairwise_append]
  refine ⟨hl, List.pairwise_singleton _ _, fun a ha b hb => ?_⟩
  rw [List.mem_singleton.mp hb]
  exact hp a ha

theorem Layered.stacked_makePieces (h : d.Layered) (hm : d.Moving m) (hhome : FromHome m) :
    (d.makePieces m).Pairwise fun a b => a.position = b.position → b.type = .pawn := by
  rw [makePieces_eq]
  unfold movedPieces
  have hstay : (d.stayingPieces m).Pairwise fun a b => a.position = b.position → b.type = .pawn :=
    h.stacked.sublist stayingPieces_sublist
  -- only an en-passant capture lands on a man
  have hplaced := pairwise_stacked_append (p := placedPiece m) hstay fun a ha hpos => by
    rw [placedPiece_position] at hpos
    by_cases hep : m.isEnPassant = true
    · obtain ⟨hpawn, hpromo, -⟩ := hm.passant hep
      unfold placedPiece
      rw [if_neg (by rw [hpromo]; decide)]
      exact hpawn
    · exact absurd hpos (hm.ne_of_staying (by simpa using hep) ha)
  by_cases hc : m.isCastling = true
  · obtain ⟨⟨rook, hrook, -⟩, hdst, -, hne, -⟩ := hm.castle_squares hhome hc
    dsimp only
    rw [if_pos hc, performCastlingRookMove_eq hrook]
    refine pairwise_stacked_append (hplaced.sublist List.filter_sublist) fun a ha hpos => ?_
    -- nothing stands where the rook goes
    rcases List.mem_append.mp (List.mem_filter.mp ha).1 with ha | ha
    · exact absurd hpos (Keyed.lookup_eq_none_iff.mp hdst a (stayingPieces_sublist.subset ha))
    · rw [List.mem_singleton.mp ha, placedPiece_position] at hpos
      exact absurd hpos hne.symm
  · dsimp only
    rw [if_neg hc]
    exact hplaced

/-- The piece that goes back to prison finds its square free. -/
theorem Layered.stacked_settled (h : d.Layered) (hm : d.Moving m) (hhome : FromHome m) :
    (d.makePieces m ++ d.returnedQueen m).Pairwise
      fun a b => a.position = b.position → b.type = .pawn := by
  have hmake := h.stacked_makePieces hm hhome
  rcases returnedQueen_cases (d := d) (m := m) with hnil | ⟨q, hcap, hret, heq⟩
  · rw [hnil, List.append_nil]
    exact hmake
  · rw [heq]
    refine pairwise_stacked_append hmake fun a ha hpos => ?_
    dsimp only at hpos
    have hfree : ∀ p ∈ d.pieces, p.position ≠ queenPrison q.color := by
      intro p hp hpp
      have hnone := List.any_eq_false.mp hret.2.2.2.2 p hp
      exact hnone (decide_eq_true hpp)
    have hnc : ¬ m.isCastling = true := by
      intro hc
      rw [(hm.castle hc).2.2.1] at hcap
      cases hcap
    rw [makePieces_eq] at ha
    unfold movedPieces at ha
    dsimp only at ha
    rw [if_neg hnc] at ha
    rcases List.mem_append.mp ha with ha | ha
    · exact absurd hpos (hfree a (stayingPieces_sublist.subset ha))
    · -- the queen was taken on another square
      rw [List.mem_singleton.mp ha, placedPiece_position] at hpos
      have hep : m.isEnPassant = false := by
        rw [← Bool.not_eq_true]
        intro hep
        obtain ⟨-, -, -, q', hcap', hpawn, -⟩ := hm.passant hep
        rw [hcap] at hcap'
        rw [← Option.some.inj hcap', hret.2.2.1] at hpawn
        cases hpawn
      rcases hm.taken hep with htaken | ⟨hmod, -⟩
      · rw [hcap] at htaken
        obtain ⟨hmem, hq⟩ := mem_of_getPieceAt htaken.symm
        exact absurd (hq.trans hpos) (hfree q hmem)
      · rw [hret.1] at hmod
        cases hmod

theorem Layered.valid_settled (h : d.Layered) (hm : d.Moving m) (hhome : FromHome m) :
    ∀ p ∈ d.makePieces m ++ d.returnedQueen m, p.position.IsValid := by
  intro p hp
  have hstay : ∀ p ∈ d.stayingPieces m ++ [placedPiece m], p.position.IsValid := by
    intro p hp
    rcases List.mem_append.mp hp with hp | hp
    · exact h.valid p (stayingPieces_sublist.subset hp)
    · rw [List.mem_singleton.mp hp, placedPiece_position]
      exact hm.to_valid
  rcases List.mem_append.mp hp with hp | hp
  · rw [makePieces_eq] at hp
    unfold movedPieces at hp
    dsimp only at hp
    split at hp
    · rename_i hc
      obtain ⟨⟨rook, hrook, -⟩, -, hdst, -⟩ := hm.castle_squares hhome hc
      rw [performCastlingRookMove_eq hrook] at hp
      rcases List.mem_append.mp hp with hp | hp
      · exact hstay p (List.mem_filter.mp hp).1
      · rw [List.mem_singleton.mp hp]
        exact hdst
    · exact hstay p hp
  · rcases returnedQueen_cases (d := d) (m := m) with hnil | ⟨q, -, -, heq⟩
    · rw [hnil] at hp
      cases hp
    · rw [heq] at hp
      rw [List.mem_singleton.mp hp]
      exact isValid_prison q.color

end Layered

/-! ## The board that a move leads to -/

section Next

variable {d d' : ChessBoard} {m : ChessMove}

/-- Whatever the status, the next board is the made move with the queen put back. -/
theorem next_eq_settled (d : ChessBoard) (m : ChessMove) : ∃ player status counter,
    d.next m = d.settled m player status counter := by
  obtain ⟨status, counter, heq⟩ := played_eq d m
  unfold next
  rcases updateGameStatus_cases (d.played m) with ⟨-, c, -, hup⟩ | ⟨-, hup⟩
  · exact ⟨c, .checkmate, counter, by rw [hup, heq]; rfl⟩
  · exact ⟨_, (d.played m).verdict, counter, by rw [hup, heq]; rfl⟩

theorem next_pieces (d : ChessBoard) (m : ChessMove) :
    (d.next m).pieces = d.makePieces m ++ d.returnedQueen m := by
  obtain ⟨player, status, counter, heq⟩ := next_eq_settled d m
  rw [heq]
  rfl

theorem next_moveHistory (d : ChessBoard) (m : ChessMove) :
    (d.next m).moveHistory = d.moveHistory ++ [m] := by
  obtain ⟨player, status, counter, heq⟩ := next_eq_settled d m
  rw [heq, settled_moveHistory]

theorem played_gameType (d : ChessBoard) (m : ChessMove) :
    (d.played m).gameType = d.gameType := by
  obtain ⟨status, counter, heq⟩ := played_eq d m
  rw [heq, settled_gameType]

theorem next_gameType (d : ChessBoard) (m : ChessMove) : (d.next m).gameType = d.gameType := by
  obtain ⟨player, status, counter, heq⟩ := next_eq_settled d m
  rw [heq, settled_gameType]

theorem running_of_next (h : (d.next m).Running) : d.Running := by
  rcases running_or_over (d := d) with hrun | hover
  · exact hrun
  · -- the status sticks, unless the move brings another end
    have hplayed : (d.played m).gameStatus = .checkmate ∨ (d.played m).gameStatus = .stalemate ∨
        (d.played m).gameStatus = .draw := by
      by_cases hwin : d.WinsNow m
      · exact .inl (gameStatus_played_of_winsNow hwin)
      · rw [gameStatus_played_of_not hwin]
        by_cases hauto : d.AutoDraws m
        · exact .inr (.inr (gameStatus_makeMove_of_autoDraws hauto))
        · rw [gameStatus_makeMove_of_not hauto]
          exact hover
    unfold next at h
    rcases updateGameStatus_cases (d.played m) with ⟨-, c, -, hup⟩ | ⟨-, hup⟩
    · rw [hup] at h
      exact absurd (.inl rfl) h.not_over
    · rw [hup] at h
      refine absurd ?_ h.not_over
      show (d.played m).verdict = _ ∨ (d.played m).verdict = _ ∨ (d.played m).verdict = _
      rw [verdict_of_over hplayed]
      exact hplayed

/-- Where the game goes on, both kings are on the board. -/
theorem getKing_of_running (hneeds : NeedsKings d.gameType) (h : (d.next m).Running) (c : Color) :
    (d.next m).getKing c ≠ none := by
  have hmod := played_gameType d m
  unfold next at h ⊢
  rcases updateGameStatus_cases (d.played m) with ⟨-, c', -, hup⟩ | ⟨hkings, hup⟩
  · rw [hup] at h
    exact absurd (.inl rfl) h.not_over
  · rw [hup]
    exact hkings (by rw [hmod]; exact hneeds) c

end Next

/-! ## The men of one kind after a move -/

/-- The pieces of a type and a colour, in the order of the list. -/
def menOf (d : ChessBoard) (t : PieceType) (c : Color) : List ChessPiece :=
  d.pieces.filter fun p => p.type = t ∧ p.color = c

section Men

variable {d : ChessBoard} {m : ChessMove} {t : PieceType} {c : Color} {k : ChessPiece}

theorem getKing_eq_none_iff : d.getKing c = none ↔ d.menOf .king c = [] := by
  unfold getKing menOf
  rw [List.find?_eq_none, List.filter_eq_nil_iff]

theorem eq_of_menOf (hk : d.menOf t c = [k]) {q : ChessPiece}
    (hq : q ∈ d.pieces) (htype : q.type = t) (hcolor : q.color = c) : q = k := by
  have hmem : q ∈ d.menOf t c := List.mem_filter.mpr ⟨hq, decide_eq_true ⟨htype, hcolor⟩⟩
  rw [hk] at hmem
  exact List.mem_singleton.mp hmem

theorem mem_of_menOf (hk : d.menOf t c = [k]) : k ∈ d.pieces ∧ k.type = t ∧ k.color = c := by
  have hmem : k ∈ d.menOf t c := by
    rw [hk]
    exact List.mem_singleton_self k
  obtain ⟨hp, htest⟩ := List.mem_filter.mp hmem
  exact ⟨hp, of_decide_eq_true htest⟩

/-- The men after a move, pawns and rooks apart: those that stay, the one that moved and the queen
that is put back. -/
theorem Layered.menOf_next (h : d.Layered) (hm : d.Moving m) (hhome : FromHome m)
    (hpawn : t ≠ .pawn) (hrook : t ≠ .rook) : (d.next m).menOf t c =
      (d.stayingPieces m).filter (fun p => p.type = t ∧ p.color = c) ++
      [placedPiece m].filter (fun p => p.type = t ∧ p.color = c) ++
      (d.returnedQueen m).filter fun p => p.type = t ∧ p.color = c := by
  unfold menOf
  rw [next_pieces, List.filter_append, makePieces_eq]
  congr 1
  unfold movedPieces
  dsimp only
  by_cases hc : m.isCastling = true
  · obtain ⟨⟨rook, hat, hman⟩, -, -, -, hne⟩ := hm.castle_squares hhome hc
    have hrt : rook.type = .rook := congrArg Prod.snd hman
    rw [if_pos hc, performCastlingRookMove_eq hat, List.filter_append, List.filter_filter]
    -- the rook is of another type, and so is everything that stands on its square
    have hrookNot : [rook.movedTo m.view.rookDst].filter
        (fun p => p.type = t ∧ p.color = c) = [] := by
      refine List.filter_cons_of_neg fun htest => hrook ?_
      exact (of_decide_eq_true htest).1.symm.trans hrt
    rw [hrookNot, List.append_nil, ← List.filter_append]
    apply List.filter_congr
    intro p hp
    rw [Bool.and_eq_left_iff_imp]
    intro htest
    obtain ⟨htype, -⟩ := of_decide_eq_true htest
    apply decide_eq_true
    intro hpos
    rcases List.mem_append.mp hp with hp | hp
    · rcases h.eq_or_pawn hat (stayingPieces_sublist.subset hp) hpos with rfl | htp
      · exact hrook (htype.symm.trans hrt)
      · exact hpawn (htype.symm.trans htp)
    · rw [List.mem_singleton.mp hp, placedPiece_position] at hpos
      exact hne hpos.symm
  · rw [if_neg hc, List.filter_append]

/-- Of the one man that was there, either nothing or the man itself stays. -/
theorem staying_men (hk : d.menOf t c = [k]) :
    (d.stayingPieces m).filter (fun p => p.type = t ∧ p.color = c) =
      if k ∈ d.stayingPieces m then [k] else [] := by
  have hsub : ((d.stayingPieces m).filter fun p => p.type = t ∧ p.color = c).Sublist [k] := by
    rw [← hk]
    exact stayingPieces_sublist.filter _
  obtain ⟨-, htype, hcolor⟩ := mem_of_menOf hk
  by_cases hstay : k ∈ d.stayingPieces m
  · rw [if_pos hstay]
    refine (List.sublist_singleton.mp hsub).resolve_left fun hnil => ?_
    have hmem : k ∈ (d.stayingPieces m).filter fun p => p.type = t ∧ p.color = c :=
      List.mem_filter.mpr ⟨hstay, decide_eq_true ⟨htype, hcolor⟩⟩
    rw [hnil] at hmem
    cases hmem
  · rw [if_neg hstay]
    refine (List.sublist_singleton.mp hsub).resolve_right fun hone => hstay ?_
    have hmem : k ∈ (d.stayingPieces m).filter fun p => p.type = t ∧ p.color = c := by
      rw [hone]
      exact List.mem_singleton_self k
    exact (List.mem_filter.mp hmem).1

/-- A piece other than a pawn stays, unless it moves or a capture removes everything on its
square. -/
theorem Layered.stays_iff (h : d.Layered) (hm : d.Moving m) (hk : k ∈ d.pieces)
    (hpawn : k.type ≠ .pawn) (hne : m.piece ≠ k) :
    k ∈ d.stayingPieces m ↔ ¬ (m.isEnPassant = false ∧ k.position = m.toPos) := by
  have hfrom : k.position ≠ m.fromPos := by
    intro hpos
    rcases h.eq_or_pawn hm.from_holds hk hpos with heq | htype
    · exact hne heq.symm
    · exact hpawn htype
  constructor
  · rintro hstay ⟨hep, hpos⟩
    exact hm.ne_of_staying hep hstay hpos
  · intro hno
    refine mem_stayingPieces.mpr ⟨hk, hfrom, fun q hq => ?_⟩
    cases hep : m.isEnPassant with
    | true =>
      obtain ⟨-, -, -, q', hq', htype, -⟩ := hm.passant hep
      rw [hq] at hq'
      rw [if_pos rfl]
      rintro rfl
      rw [← Option.some.inj hq'] at htype
      exact hpawn htype
    | false =>
      rw [if_neg (by decide)]
      exact fun hpos => hno ⟨hep, hpos⟩

theorem placedPiece_color : (placedPiece m).color = m.piece.color := by
  unfold placedPiece
  split <;> rfl

/-- A move of another piece puts no second man of the kind on the board, unless it promotes. -/
theorem placed_other (hm : d.Moving m) (hk : d.menOf t c = [k]) (hne : m.piece ≠ k)
    (hplaced : (placedPiece m).type = t → m.piece.type = t) :
    [placedPiece m].filter (fun p => p.type = t ∧ p.color = c) = [] := by
  refine List.filter_cons_of_neg fun htest => ?_
  obtain ⟨htype, hcolor⟩ := of_decide_eq_true htest
  rw [placedPiece_color] at hcolor
  exact hne (eq_of_menOf hk hm.piece_mem.1 (hplaced htype) hcolor)

end Men

/-! ## One king each -/

/-- Stacked men and one king on each side. -/
structure KingedStacks (d : ChessBoard) : Prop extends d.Layered where
  needs : NeedsKings d.gameType
  kings : ∀ c, ∃ k, d.menOf .king c = [k]

section Kings

variable {d d' : ChessBoard} {m : ChessMove} {c : Color} {k : ChessPiece}

/-- With one king, castling starts where Dart finds it. -/
theorem KingedStacks.fromHome (h : d.KingedStacks) (hm : d.Moving m) : FromHome m := by
  intro hc
  obtain ⟨hking, -, -, w, hcan, -⟩ := hm.castle hc
  obtain ⟨⟨king, hget, hpos⟩, -⟩ := (canCastleTo_iff _ _).mp hcan
  obtain ⟨k, hk⟩ := h.kings m.piece.color
  obtain ⟨hmem, htype, hcolor⟩ := mem_of_getKing hget
  obtain ⟨hpiece, hat⟩ := hm.piece_mem
  have hsame : m.piece = king :=
    (eq_of_menOf hk hpiece hking rfl).trans (eq_of_menOf hk hmem htype hcolor).symm
  rw [← hat, ← hpos, hsame]

/-- The kings after a move: those that stay, and the one that moved. -/
theorem KingedStacks.kings_eq (h : d.KingedStacks) (hm : d.Moving m) :
    (d.next m).menOf .king c =
      (d.stayingPieces m).filter (fun p => p.type = .king ∧ p.color = c) ++
      [placedPiece m].filter fun p => p.type = .king ∧ p.color = c := by
  have hqueen : (d.returnedQueen m).filter (fun p => p.type = .king ∧ p.color = c) = [] := by
    rcases returnedQueen_cases (d := d) (m := m) with hnil | ⟨q, -, hret, heq⟩
    · rw [hnil]
      rfl
    · rw [heq]
      exact List.filter_cons_of_neg (by simp [hret.2.2.1])
  rw [h.menOf_next hm (h.fromHome hm) (by decide) (by decide), hqueen, List.append_nil]

theorem KingedStacks.placed_king_iff (h : d.KingedStacks) (hm : d.Moving m) :
    (placedPiece m).type = .king ↔ m.piece.type = .king := by
  unfold placedPiece
  by_cases hpromo : m.isPromotion = true
  · obtain ⟨hpawn, letter, hletter, heq⟩ := hm.promotes hpromo
    rw [if_pos hpromo, heq, hpawn]
    exact iff_of_false (promotedType_ne_king h.needs.1 h.needs.2 letter hletter) nofun
  · rw [if_neg hpromo]
    rfl

theorem KingedStacks.king_stays_iff (h : d.KingedStacks) (hm : d.Moving m)
    (hk : d.menOf .king c = [k]) (hne : m.piece ≠ k) :
    k ∈ d.stayingPieces m ↔ ¬ (m.isEnPassant = false ∧ k.position = m.toPos) := by
  obtain ⟨hmem, htype, -⟩ := mem_of_menOf hk
  exact h.stays_iff hm hmem (by rw [htype]; decide) hne

/-- A side keeps its one king, unless a capture removes everything on the king's square. -/
theorem KingedStacks.kings_next (h : d.KingedStacks) (hm : d.Moving m) (hk : d.menOf .king c = [k])
    (hno : ¬ (m.isEnPassant = false ∧ k.position = m.toPos)) :
    ∃ k', (d.next m).menOf .king c = [k'] := by
  obtain ⟨hmem, htype, hcolor⟩ := mem_of_menOf hk
  obtain ⟨hpiece, hat⟩ := hm.piece_mem
  rw [h.kings_eq hm, staying_men hk]
  by_cases heq : m.piece = k
  · -- the king moves
    have hgone : k ∉ d.stayingPieces m := fun hstay =>
      (mem_stayingPieces.mp hstay).2.1 (by rw [← heq]; exact hat)
    refine ⟨placedPiece m, ?_⟩
    rw [if_neg hgone, List.nil_append]
    refine List.filter_cons_of_pos (decide_eq_true ?_)
    exact ⟨(h.placed_king_iff hm).mpr (by rw [heq]; exact htype),
      by rw [placedPiece_color, heq]; exact hcolor⟩
  · refine ⟨k, ?_⟩
    rw [if_pos ((h.king_stays_iff hm hk heq).mpr hno), placed_other hm hk heq (h.placed_king_iff hm).mp]
    rfl

/-- A capture that removes everything on the king's square leaves the side without a king. -/
theorem KingedStacks.kings_lost (h : d.KingedStacks) (hm : d.Moving m) (hk : d.menOf .king c = [k])
    (hep : m.isEnPassant = false) (hpos : k.position = m.toPos) : (d.next m).getKing c = none := by
  obtain ⟨hpiece, hat⟩ := hm.piece_mem
  have hne : m.piece ≠ k := by
    rintro rfl
    exact hm.from_ne_to (hat.symm.trans hpos)
  rw [getKing_eq_none_iff, h.kings_eq hm, staying_men hk,
    if_neg fun hstay => hm.ne_of_staying hep hstay hpos, placed_other hm hk hne (h.placed_king_iff hm).mp]
  rfl

/-- As long as the game goes on, the stacks keep their order and each side has its king. -/
theorem KingedStacks.step (h : d.KingedStacks) (hexec : d.executeMove m = some d')
    (hrun : d'.Running) : d'.KingedStacks := by
  have hm := moving_of_mem h.valid (mem_of_executeMove hexec)
  have hhome := h.fromHome hm
  obtain rfl := eq_next_of_executeMove hexec
  refine ⟨⟨?_, ?_⟩, by rw [next_gameType]; exact h.needs, fun c => ?_⟩
  · rw [next_pieces]
    exact h.valid_settled hm hhome
  · rw [next_pieces]
    exact h.stacked_settled hm hhome
  · obtain ⟨k, hk⟩ := h.kings c
    refine h.kings_next hm hk fun hlost => ?_
    exact getKing_of_running h.needs hrun c (h.kings_lost hm hk hlost.1 hlost.2)

end Kings

theorem kingedStacks_initial {mod : Mod} (hneeds : NeedsKings mod) : (initial mod).KingedStacks where
  toLayered := (gameInv_initial mod).tidy.layered
  needs := by rw [initial_gameType]; exact hneeds
  kings := by
    intro c
    cases mod with
    | heir => exact absurd rfl hneeds.1
    | succession => exact absurd rfl hneeds.2
    | _ => cases c <;> exact ⟨_, rfl⟩

section Runs

variable {ok : ChessBoard → ChessMove → Prop} {start d : ChessBoard}

theorem Reached.gameType_eq (h : Reached ok start d) : d.gameType = start.gameType := by
  induction h with
  | start => rfl
  | step _ _ hexec ih => rw [eq_next_of_executeMove hexec, next_gameType, ih]

theorem Reached.kingedStacks {mod : Mod} (hneeds : NeedsKings mod) (h : Reached ok (initial mod) d)
    (hrun : d.Running) : d.KingedStacks := by
  induction h with
  | start => exact kingedStacks_initial hneeds
  | @step d d' m _ _ hexec ih =>
    have hnext : (d.next m).Running := by
      rw [← eq_next_of_executeMove hexec]
      exact hrun
    exact (ih (running_of_next hnext)).step hexec hrun

end Runs

/-- A line of valid moves of any kind in a game that goes on. -/
def GameLine : ChessBoard → List ChessMove → Prop
  | _, [] => True
  | d, m :: ms => d.Running ∧ d.isValidMove m = true ∧ GameLine (d.next m) ms

instance instDecidableGameLine : (d : ChessBoard) → (ms : List ChessMove) →
    Decidable (GameLine d ms)
  | _, [] => isTrue trivial
  | d, m :: ms =>
    let _ := instDecidableGameLine (d.next m) ms
    inferInstanceAs (Decidable (_ ∧ _ ∧ _))

theorem Reached.gameLine {start : ChessBoard} (ms : List ChessMove) : ∀ d : ChessBoard,
    Reached (fun d _ => d.Running) start d → GameLine d ms →
      Reached (fun d _ => d.Running) start (ms.foldl next d) := by
  induction ms with
  | nil => exact fun _ hd _ => hd
  | cons m ms ih =>
    intro d hd hline
    obtain ⟨hrun, hvalid, hrest⟩ := hline
    exact ih _ (.step hd hrun (executeMove_of_isValidMove hvalid)) hrest

end ChessBoard

end ChessRecast.App
