import ChessRecast.Engine.LegalTheorems

/-!
# The rulebook of the C engine

`book b` reads off the generators what they allow on a board, square by square;
`exists_pseudoMoves_iff` says that the pseudo-legal moves are exactly those of the book.
-/

namespace ChessRecast.Engine

open Rules

/-- The move as both engines show it. -/
def Move.view (m : Move) : MoveView where
  src := toPos m.fromSq
  dst := toPos m.toSq
  promo := if m.promo then m.promoType else none
  castle := m.castle
  ep := m.ep

def ofPos (p : Position) : ℤ := SQ p.row p.col

section Squares

variable {p : Position} {sq : ℤ}

theorem sqValid_ofPos (h : p.IsValid) : SqValid (ofPos p) := sqValid_SQ h

@[simp] theorem toPos_ofPos (h : p.IsValid) : toPos (ofPos p) = p := toPos_SQ h

@[simp] theorem ofPos_toPos (h : SqValid sq) : ofPos (toPos sq) = sq := SQ_sqRow_sqCol h

theorem placement_eq_mailbox (b : Board) (h : p.IsValid) :
    placement b.toViews p = b.mailbox (ofPos p) := if_pos h

end Squares

/-- What the generators of C allow the side to move. -/
def book (b : Board) : Book where
  place := placement b.toViews
  mover := b.side
  goes t a z := (kbLocked b = true → t = .king) ∧ ¬ Frozen b (ofPos a) ∧
    if b.mod = .saveQueen ∧ t = .queen then StqQueenOk b (ofPos a) (ofPos z)
    else Reach (placement b.toViews) t a z ∧ LandsOk b t (ofPos z)
  pawnGoes a z := b.mod = .mercenary ∧ KingStep a z ∧
    ∀ c capt, b.mailbox (ofPos z) = some (c, capt) → c = b.side.opposite ∧ capt ≠ .king
  pushes a := b.mod ≠ .mercenary ∧ ¬ Frozen b (ofPos a)
  takes a z := (b.mod ≠ .mercenary ∧ ¬ Frozen b (ofPos a) ∧ truceNoCap b = false ∧
      ¬ PawnSkips b (ofPos z)) ∧
    ((∃ capt, b.mailbox (ofPos z) = some (b.side.opposite, capt)) ∨
      ∃ capt, b.mailbox (ofPos z) = some (b.side, capt) ∧ OwnOk b (ofPos z) capt)
  becomes z t := t ∈ promoTypes b (ofPos z)
  passant a z := (b.mod ≠ .mercenary ∧ ¬ Frozen b (ofPos a) ∧ truceNoCap b = false ∧
      ¬ PawnSkips b (ofPos z)) ∧ b.epSquare = ofPos z ∧
    ∃ t, b.mailbox (ofPos ⟨a.row, z.col⟩) = some (b.side.opposite, t)
  castles w := CastlesNow b ∧ CastleOpen b w

section Pseudo

variable {b : Board} {v : MoveView}

theorem not_frozen (hcap : truceNoCap b = false) (sq : ℤ) : ¬ Frozen b sq := by
  rintro ⟨h, -⟩
  rw [hcap] at h
  cases h

theorem not_frozen_of_mercenary (hmod : b.mod = .mercenary) (sq : ℤ) : ¬ Frozen b sq :=
  not_frozen (by simp [truceNoCap, hmod]) sq

theorem exists_genPieceMoves_iff (h : RepInv b.toViews) :
    (∃ pt, pt ≠ .pawn ∧ ∃ m ∈ genPieceMoves b pt false, m.view = v) ↔
      v.src.IsValid ∧ v.dst.IsValid ∧ ∃ t, t ≠ .pawn ∧
        (book b).place v.src = some (b.side, t) ∧ (book b).goes t v.src v.dst ∧
        v = .plain v.src v.dst := by
  constructor
  · rintro ⟨pt, hpt, m, hm, rfl⟩
    obtain ⟨hlock, sq, hsq, hman, hfr, toSq, hto, hok, rfl⟩ := (mem_genPieceMoves h).mp hm
    refine ⟨hsq.toPos, hto.toPos, pt, hpt, ?_, ⟨hlock, ?_, ?_⟩, rfl⟩
    · exact (placement_toPos hsq).trans hman
    · show ¬ Frozen b (ofPos (toPos sq))
      rwa [ofPos_toPos hsq]
    · show if b.mod = .saveQueen ∧ pt = .queen then
        StqQueenOk b (ofPos (toPos sq)) (ofPos (toPos toSq))
        else Reach (placement b.toViews) pt (toPos sq) (toPos toSq) ∧
          LandsOk b pt (ofPos (toPos toSq))
      rwa [ofPos_toPos hsq, ofPos_toPos hto]
  · rintro ⟨hsrc, hdst, t, ht, hman, ⟨hlock, hfr, hok⟩, hv⟩
    refine ⟨t, ht, plainMove b (ofPos v.src) (ofPos v.dst) t, ?_, ?_⟩
    · refine (mem_genPieceMoves h).mpr ⟨hlock, ofPos v.src, sqValid_ofPos hsrc, ?_, hfr,
        ofPos v.dst, sqValid_ofPos hdst, ?_, rfl⟩
      · exact (placement_eq_mailbox b hsrc).symm.trans hman
      · rw [toPos_ofPos hsrc, toPos_ofPos hdst]
        exact hok
    · rw [hv]
      show MoveView.plain (toPos (ofPos v.src)) (toPos (ofPos v.dst)) = _
      rw [toPos_ofPos hsrc, toPos_ofPos hdst]

theorem exists_genCastling_iff :
    (∃ m ∈ genCastling b, m.view = v) ↔ ∃ w, (book b).castles w ∧ v = .castling b.side w := by
  have hview : ∀ w, (castleMove b.side w).view = .castling b.side w := by
    intro w
    cases b.side <;> cases w <;> decide
  constructor
  · rintro ⟨m, hm, rfl⟩
    obtain ⟨hnow, w, hopen, rfl⟩ := mem_genCastling.mp hm
    exact ⟨w, ⟨hnow, hopen⟩, hview w⟩
  · rintro ⟨w, ⟨hnow, hopen⟩, rfl⟩
    exact ⟨_, mem_genCastling.mpr ⟨hnow, w, hopen, rfl⟩, hview w⟩

/-! ## Pawns -/

variable {sq toSq : ℤ}

theorem rank7_iff (c : Color) (r : ℤ) : r = rank7 c ↔ r + c.forward = promotionRow c := by
  cases c <;> simp only [rank7, promotionRow, Color.forward] <;> omega

theorem rank2_eq (c : Color) : rank2 c = doubleRow c := by cases c <;> rfl

/-- A pawn arrives on its target in the book as in the generators. -/
theorem arrives_iff (hto : SqValid toSq)
    (hrow : sqRow toSq = sqRow sq + b.side.forward) (capt : Option PieceType) :
    (∃ m, (if sqRow sq = rank7 b.side then
        ∃ pt ∈ promoTypes b toSq, m = movePromo sq toSq capt pt
      else m = plainMove b sq toSq .pawn) ∧ m.view = v) ↔
      v.src = toPos sq ∧ v.dst = toPos toSq ∧ (book b).Arrives v := by
  have hlast : sqRow sq = rank7 b.side ↔ (toPos toSq).row = promotionRow b.side := by
    rw [rank7_iff, ← hrow]
    rfl
  unfold Book.Arrives
  show _ ↔ _ ∧ _ ∧ if v.dst.row = promotionRow b.side then
    ∃ t, t ∈ promoTypes b (ofPos v.dst) ∧ v = .promotion v.src v.dst t else _
  by_cases hr : sqRow sq = rank7 b.side
  · simp only [hr, if_true]
    constructor
    · rintro ⟨m, ⟨pt, hpt, rfl⟩, rfl⟩
      refine ⟨rfl, rfl, ?_⟩
      refine (if_pos (hlast.mp hr)).mpr ⟨pt, ?_, rfl⟩
      show pt ∈ promoTypes b (ofPos (toPos toSq))
      rwa [ofPos_toPos hto]
    · rintro ⟨hsrc, hdst, harr⟩
      rw [hdst, if_pos (hlast.mp hr), ofPos_toPos hto] at harr
      obtain ⟨t, ht, hv⟩ := harr
      refine ⟨_, ⟨t, ht, rfl⟩, ?_⟩
      rw [hv, hsrc]
      rfl
  · simp only [hr, if_false]
    constructor
    · rintro ⟨m, rfl, rfl⟩
      exact ⟨rfl, rfl, (if_neg fun h => hr (hlast.mpr h)).mpr rfl⟩
    · rintro ⟨hsrc, hdst, harr⟩
      rw [hdst, if_neg fun h => hr (hlast.mpr h)] at harr
      refine ⟨_, rfl, ?_⟩
      rw [harr, hsrc]
      rfl

/-- The square ahead of a pawn is on the board when its index is. -/
theorem inside_ahead (hsq : SqValid sq) {c : Color}
    (hone : SqValid (SQ (sqRow sq + c.forward) (sqCol sq))) :
    Grid.Inside 8 (sqRow sq + c.forward) (sqCol sq) := by
  have hin := hsq.inside
  unfold SqValid SQ at hone
  unfold Grid.Inside at hin ⊢
  cases c <;> simp only [Color.forward] at hone ⊢ <;> omega

/-- Two squares ahead of the starting row is still on the board. -/
theorem inside_twoAhead (hsq : SqValid sq) {c : Color} (hrow : sqRow sq = doubleRow c) :
    Grid.Inside 8 (sqRow sq + 2 * c.forward) (sqCol sq) := by
  have hin := hsq.inside
  unfold Grid.Inside at hin ⊢
  cases c <;> simp only [Color.forward, doubleRow] at hrow ⊢ <;> omega

theorem ofPos_offset (sq dr : ℤ) :
    ofPos ((toPos sq).offset dr 0) = SQ (sqRow sq + dr) (sqCol sq) := by
  simp [ofPos, toPos]

theorem isValid_offset_iff {dr : ℤ} :
    ((toPos sq).offset dr 0).IsValid ↔ Grid.Inside 8 (sqRow sq + dr) (sqCol sq) := by
  rw [Position.isValid_iff]
  simp [toPos, Grid.Inside]

theorem isValid_twoAhead (hsq : SqValid sq) {c : Color} (hrow : sqRow sq = doubleRow c) :
    ((toPos sq).offset (c.forward * 2) 0).IsValid := by
  rw [isValid_offset_iff, mul_comm]
  exact inside_twoAhead hsq hrow

/-- The two pushes. A pawn that has its double step does not promote. -/
theorem mem_pawnPushes_iff {m : Move} (hsq : SqValid sq) : m ∈ pawnPushes b sq false ↔
    ((toPos sq).offset b.side.forward 0).IsValid ∧
    placement b.toViews ((toPos sq).offset b.side.forward 0) = none ∧
    ((if sqRow sq = rank7 b.side then
        ∃ pt ∈ promoTypes b (ofPos ((toPos sq).offset b.side.forward 0)),
          m = movePromo sq (ofPos ((toPos sq).offset b.side.forward 0)) none pt
      else m = plainMove b sq (ofPos ((toPos sq).offset b.side.forward 0)) .pawn) ∨
      (sqRow sq = doubleRow b.side ∧
        placement b.toViews ((toPos sq).offset (b.side.forward * 2) 0) = none ∧
        m = plainMove b sq (ofPos ((toPos sq).offset (b.side.forward * 2) 0)) .pawn)) := by
  rw [mem_pawnPushes, mul_comm 2, ← ofPos_offset, ← ofPos_offset, rank2_eq]
  constructor
  · rintro ⟨hvalid, hempty, hkind⟩
    have hpos := isValid_offset_iff.mpr (inside_ahead hsq (ofPos_offset _ _ ▸ hvalid))
    refine ⟨hpos, by rwa [placement_eq_mailbox b hpos], ?_⟩
    by_cases hr : sqRow sq = rank7 b.side
    · rw [if_pos hr] at hkind ⊢
      exact .inl hkind
    · rw [if_neg hr] at hkind ⊢
      apply hkind.imp id
      rintro ⟨hr2, hfree, hm⟩
      exact ⟨hr2, by rwa [placement_eq_mailbox b (isValid_twoAhead hsq hr2)], hm⟩
  · rintro ⟨hpos, hempty, hkind⟩
    refine ⟨sqValid_ofPos hpos, by rwa [← placement_eq_mailbox b hpos], ?_⟩
    rcases hkind with hkind | ⟨hr2, hfree, hm⟩
    · split_ifs at hkind ⊢
      · exact hkind
      · exact .inl hkind
    · have hr : ¬ sqRow sq = rank7 b.side := by
        rw [hr2]
        cases b.side <;> simp [rank7, doubleRow]
      rw [if_neg hr]
      exact .inr ⟨hr2, by rwa [← placement_eq_mailbox b (isValid_twoAhead hsq hr2)], hm⟩

theorem exists_singlePush_iff (hpos : ((toPos sq).offset b.side.forward 0).IsValid) :
    (∃ m, (if sqRow sq = rank7 b.side then
        ∃ pt ∈ promoTypes b (ofPos ((toPos sq).offset b.side.forward 0)),
          m = movePromo sq (ofPos ((toPos sq).offset b.side.forward 0)) none pt
      else m = plainMove b sq (ofPos ((toPos sq).offset b.side.forward 0)) .pawn) ∧ m.view = v) ↔
      v.src = toPos sq ∧ v.dst = (toPos sq).offset b.side.forward 0 ∧ (book b).Arrives v := by
  have hrow : sqRow (ofPos ((toPos sq).offset b.side.forward 0)) = sqRow sq + b.side.forward := by
    rw [ofPos_offset]
    exact sqRow_SQ (isValid_offset_iff.mp hpos)
  rw [arrives_iff (sqValid_ofPos hpos) hrow none, toPos_ofPos hpos]

theorem exists_pawnPushes_iff (hsq : SqValid sq) :
    (∃ m ∈ pawnPushes b sq false, m.view = v) ↔ v.src = toPos sq ∧ v.dst.IsValid ∧
      placement b.toViews (v.src.offset b.side.forward 0) = none ∧
      ((v.dst = v.src.offset b.side.forward 0 ∧ (book b).Arrives v) ∨
        (v.src.row = doubleRow b.side ∧ v.dst = v.src.offset (b.side.forward * 2) 0 ∧
          placement b.toViews v.dst = none ∧ v = .plain v.src v.dst)) := by
  constructor
  · rintro ⟨m, hm, hv⟩
    obtain ⟨hpos, hempty, hkind | ⟨hr2, hfree, rfl⟩⟩ := (mem_pawnPushes_iff hsq).mp hm
    · obtain ⟨hsrc, hdst, harr⟩ := (exists_singlePush_iff hpos).mp ⟨m, hkind, hv⟩
      rw [hsrc, hdst]
      exact ⟨rfl, hpos, hempty, .inl ⟨rfl, harr⟩⟩
    · have hpos2 := isValid_twoAhead hsq hr2
      have hview : v = .plain (toPos sq) ((toPos sq).offset (b.side.forward * 2) 0) := by
        rw [← hv]
        show MoveView.plain (toPos sq) (toPos (ofPos _)) = _
        rw [toPos_ofPos hpos2]
      rw [hview]
      exact ⟨rfl, hpos2, hempty, .inr ⟨hr2, rfl, hfree, rfl⟩⟩
  · rintro ⟨hsrc, hdst, hempty, hkind⟩
    rw [hsrc] at hempty hkind
    rcases hkind with ⟨heq, harr⟩ | ⟨hr2, heq, hfree, hv⟩
    · have hpos := heq ▸ hdst
      obtain ⟨m, hm, hview⟩ := (exists_singlePush_iff hpos).mpr ⟨hsrc, heq, harr⟩
      exact ⟨m, (mem_pawnPushes_iff hsq).mpr ⟨hpos, hempty, .inl hm⟩, hview⟩
    · rw [heq] at hdst hfree hv
      have hpos : ((toPos sq).offset b.side.forward 0).IsValid := by
        have hin := hsq.inside
        rw [isValid_offset_iff] at hdst ⊢
        unfold Grid.Inside at hin hdst ⊢
        cases hs : b.side <;> rw [hs] at hdst <;> simp only [Color.forward] at hdst ⊢ <;> omega
      refine ⟨_, (mem_pawnPushes_iff hsq).mpr ⟨hpos, hempty, .inr ⟨hr2, hfree, rfl⟩⟩, ?_⟩
      rw [hv]
      show MoveView.plain (toPos sq) (toPos (ofPos _)) = _
      rw [toPos_ofPos hdst]

theorem exists_pawnCaptures_iff (hsq : SqValid sq) (hmod : b.mod ≠ .mercenary)
    (hfr : ¬ Frozen b sq) (hcap : truceNoCap b = false) :
    (∃ m ∈ pawnCaptures b sq (-1) ++ pawnCaptures b sq 1, m.view = v) ↔ v.src = toPos sq ∧
      v.dst.IsValid ∧ PawnStep b.side v.src v.dst ∧
      (((book b).takes v.src v.dst ∧ (book b).Arrives v) ∨
        ((book b).passant v.src v.dst ∧ v = .enPassant v.src v.dst)) := by
  have hbase : ∀ toSq, ¬ PawnSkips b toSq → SqValid toSq →
      (b.mod ≠ .mercenary ∧ ¬ Frozen b (ofPos (toPos sq)) ∧ truceNoCap b = false ∧
        ¬ PawnSkips b (ofPos (toPos toSq))) := by
    intro toSq hskip hto
    rw [ofPos_toPos hsq, ofPos_toPos hto]
    exact ⟨hmod, hfr, hcap, hskip⟩
  constructor
  · rintro ⟨m, hm, hv⟩
    obtain ⟨toSq, hto, hstep, hskip, hkind⟩ := (mem_pawnCaptures hsq).mp hm
    have harrives : ∀ capt, (if sqRow sq = rank7 b.side then
        ∃ pt ∈ promoTypes b toSq, m = movePromo sq toSq capt pt
        else m = plainMove b sq toSq .pawn) →
        v.src = toPos sq ∧ v.dst = toPos toSq ∧ (book b).Arrives v :=
      fun capt h => (arrives_iff hto hstep.1 capt).mp ⟨m, h, hv⟩
    rcases hkind with hm | hm | hm
    · obtain ⟨capt, hman, hkind⟩ := mem_pawnTakesEnemy.mp hm
      obtain ⟨hsrc, hdst, harr⟩ := harrives _ hkind
      rw [hsrc, hdst]
      refine ⟨rfl, hto.toPos, hstep, .inl ⟨⟨hbase toSq hskip hto, .inl ⟨capt, ?_⟩⟩, harr⟩⟩
      rwa [ofPos_toPos hto]
    · obtain ⟨capt, hman, hown, hkind⟩ := mem_pawnTakesOwn.mp hm
      have htypes : promoTypes b toSq = [.queen, .rook, .bishop, .knight] := by
        simp [promoTypes, hown.1]
      rw [← htypes] at hkind
      obtain ⟨hsrc, hdst, harr⟩ := harrives _ hkind
      rw [hsrc, hdst]
      refine ⟨rfl, hto.toPos, hstep, .inl ⟨⟨hbase toSq hskip hto, .inr ⟨capt, ?_⟩⟩, harr⟩⟩
      rw [ofPos_toPos hto]
      exact ⟨hman, hown⟩
    · obtain ⟨htarget, -, t, hman, rfl⟩ := mem_pawnTakesEp.mp hm
      subst hv
      refine ⟨rfl, hto.toPos, hstep, .inr ⟨⟨hbase toSq hskip hto, ?_, t, hman⟩, rfl⟩⟩
      show b.epSquare = ofPos (toPos toSq)
      rw [ofPos_toPos hto, htarget]
  · rintro ⟨hsrc, hdst, hstep, hkind⟩
    have hto := sqValid_ofPos hdst
    have hstep' : PawnStep b.side (toPos sq) (toPos (ofPos v.dst)) := by
      rw [toPos_ofPos hdst, ← hsrc]
      exact hstep
    rcases hkind with ⟨⟨⟨-, -, -, hskip⟩, hman⟩, harr⟩ | ⟨⟨⟨-, -, -, hskip⟩, hep, t, hman⟩, hv⟩
    · have harrives : ∀ capt, ∃ m, (if sqRow sq = rank7 b.side then
          ∃ pt ∈ promoTypes b (ofPos v.dst), m = movePromo sq (ofPos v.dst) capt pt
          else m = plainMove b sq (ofPos v.dst) .pawn) ∧ m.view = v :=
        fun capt => (arrives_iff hto hstep'.1 capt).mpr
          ⟨hsrc, (toPos_ofPos hdst).symm, harr⟩
      rcases hman with ⟨capt, hman⟩ | ⟨capt, hman, hown⟩
      · obtain ⟨m, hm, hview⟩ := harrives (some capt)
        exact ⟨m, (mem_pawnCaptures hsq).mpr ⟨_, hto, hstep', hskip,
          .inl (mem_pawnTakesEnemy.mpr ⟨capt, hman, hm⟩)⟩, hview⟩
      · obtain ⟨m, hm, hview⟩ := harrives (some capt)
        have htypes : promoTypes b (ofPos v.dst) = [.queen, .rook, .bishop, .knight] := by
          simp [promoTypes, hown.1]
        rw [htypes] at hm
        exact ⟨m, (mem_pawnCaptures hsq).mpr ⟨_, hto, hstep', hskip,
          .inr (.inl (mem_pawnTakesOwn.mpr ⟨capt, hman, hown, hm⟩))⟩, hview⟩
    · refine ⟨epMove sq (ofPos v.dst) t, (mem_pawnCaptures hsq).mpr ⟨_, hto, hstep', hskip,
        .inr (.inr (mem_pawnTakesEp.mpr ⟨hep.symm, ?_, t, ?_, rfl⟩))⟩, ?_⟩
      · rw [hep]
        intro hnone
        rw [hnone] at hto
        exact absurd hto.1 (by decide)
      · rw [hsrc] at hman
        have hcol : sqCol (ofPos v.dst) = v.dst.col :=
          congrArg Position.col (toPos_ofPos hdst)
        rw [hcol]
        exact hman
      · rw [hv, hsrc]
        show MoveView.enPassant (toPos sq) (toPos (ofPos v.dst)) = _
        rw [toPos_ofPos hdst]

/-- The generated pawn moves, by the square of the pawn. -/
theorem exists_genPawnMoves_square_iff (h : RepInv b.toViews) :
    (∃ m ∈ genPawnMoves b false, m.view = v) ↔ ∃ sq, SqValid sq ∧
      b.mailbox sq = some (b.side, .pawn) ∧ ¬ Frozen b sq ∧
      (if b.mod = .mercenary then ∃ m ∈ mercenaryPawnMoves b sq false, m.view = v
        else (∃ m ∈ pawnPushes b sq false, m.view = v) ∨ (truceNoCap b = false ∧
          ∃ m ∈ pawnCaptures b sq (-1) ++ pawnCaptures b sq 1, m.view = v)) := by
  simp only [mem_genPawnMoves h]
  constructor
  · rintro ⟨m, ⟨sq, hsq, hman, hfr, hkind⟩, hv⟩
    refine ⟨sq, hsq, hman, hfr, ?_⟩
    split_ifs at hkind ⊢
    · exact ⟨m, hkind, hv⟩
    · exact hkind.imp (fun hm => ⟨m, hm, hv⟩) fun hm => ⟨hm.1, m, hm.2, hv⟩
  · rintro ⟨sq, hsq, hman, hfr, hkind⟩
    by_cases hmod : b.mod = .mercenary
    · rw [if_pos hmod] at hkind
      obtain ⟨m, hm, hv⟩ := hkind
      exact ⟨m, ⟨sq, hsq, hman, hfr, by rwa [if_pos hmod]⟩, hv⟩
    · rw [if_neg hmod] at hkind
      rcases hkind with ⟨m, hm, hv⟩ | ⟨hcap, m, hm, hv⟩
      · exact ⟨m, ⟨sq, hsq, hman, hfr, by rw [if_neg hmod]; exact .inl hm⟩, hv⟩
      · exact ⟨m, ⟨sq, hsq, hman, hfr, by rw [if_neg hmod]; exact .inr ⟨hcap, hm⟩⟩, hv⟩

theorem exists_genPawnMoves_iff (h : RepInv b.toViews) :
    (∃ m ∈ genPawnMoves b false, m.view = v) ↔ v.src.IsValid ∧ v.dst.IsValid ∧
      (book b).place v.src = some (b.side, .pawn) ∧ (book b).PawnAllows v := by
  have hplace : ∀ sq, SqValid sq → v.src = toPos sq →
      (b.mailbox sq = some (b.side, .pawn) ↔ (book b).place v.src = some (b.side, .pawn)) := by
    intro sq hsq hsrc
    rw [hsrc]
    show _ ↔ placement b.toViews (toPos sq) = _
    rw [placement_toPos hsq]
  rw [exists_genPawnMoves_square_iff h]
  by_cases hmod : b.mod = .mercenary
  · simp only [hmod, if_true]
    constructor
    · rintro ⟨sq, hsq, hman, -, m, hm, rfl⟩
      obtain ⟨toSq, hto, hstep, hcapt, rfl⟩ := (mem_mercenaryPawnMoves h hmod).mp hm
      refine ⟨hsq.toPos, hto.toPos, (hplace sq hsq rfl).mp hman, .inl ⟨⟨hmod, hstep, ?_⟩, rfl⟩⟩
      show ∀ c capt, b.mailbox (ofPos (toPos toSq)) = some (c, capt) → _
      rwa [ofPos_toPos hto]
    · rintro ⟨hsrc, hdst, hman, ⟨⟨-, hstep, hcapt⟩, hv⟩ | ⟨⟨hno, -⟩, -⟩ | ⟨-, hkind⟩⟩
      · have hsq := sqValid_ofPos hsrc
        refine ⟨ofPos v.src, hsq, (hplace _ hsq (toPos_ofPos hsrc).symm).mpr hman,
          not_frozen_of_mercenary hmod _, plainMove b (ofPos v.src) (ofPos v.dst) .pawn, ?_, ?_⟩
        · refine (mem_mercenaryPawnMoves h hmod).mpr ⟨_, sqValid_ofPos hdst, ?_, hcapt, rfl⟩
          rwa [toPos_ofPos hsrc, toPos_ofPos hdst]
        · rw [hv]
          show MoveView.plain (toPos (ofPos v.src)) (toPos (ofPos v.dst)) = _
          rw [toPos_ofPos hsrc, toPos_ofPos hdst]
      · exact absurd hmod hno
      · rcases hkind with ⟨⟨⟨hno, -⟩, -⟩, -⟩ | ⟨⟨⟨hno, -⟩, -⟩, -⟩
        · exact absurd hmod hno
        · exact absurd hmod hno
  · simp only [hmod, if_false]
    constructor
    · rintro ⟨sq, hsq, hman, hfr, hpush | ⟨hcap, htake⟩⟩
      · obtain ⟨hsrc, hdst, hrest⟩ := (exists_pawnPushes_iff hsq).mp hpush
        refine ⟨hsrc ▸ hsq.toPos, hdst, (hplace sq hsq hsrc).mp hman, .inr (.inl ⟨⟨hmod, ?_⟩, hrest⟩)⟩
        rwa [hsrc, ofPos_toPos hsq]
      · obtain ⟨hsrc, hdst, hstep, hrest⟩ :=
          (exists_pawnCaptures_iff hsq hmod hfr hcap).mp htake
        exact ⟨hsrc ▸ hsq.toPos, hdst, (hplace sq hsq hsrc).mp hman, .inr (.inr ⟨hstep, hrest⟩)⟩
    · rintro ⟨hsrc, hdst, hman, ⟨⟨hno, -⟩, -⟩ | ⟨⟨-, hfr⟩, hrest⟩ | ⟨hstep, hrest⟩⟩
      · exact absurd hno hmod
      · have hsq := sqValid_ofPos hsrc
        have heq := (toPos_ofPos hsrc).symm
        exact ⟨ofPos v.src, hsq, (hplace _ hsq heq).mpr hman, hfr,
          .inl ((exists_pawnPushes_iff hsq).mpr ⟨heq, hdst, hrest⟩)⟩
      · have hsq := sqValid_ofPos hsrc
        have heq := (toPos_ofPos hsrc).symm
        have hok : ¬ Frozen b (ofPos v.src) ∧ truceNoCap b = false := by
          rcases hrest with ⟨⟨⟨-, hfr, hcap, -⟩, -⟩, -⟩ | ⟨⟨⟨-, hfr, hcap, -⟩, -⟩, -⟩
          · exact ⟨hfr, hcap⟩
          · exact ⟨hfr, hcap⟩
        exact ⟨ofPos v.src, hsq, (hplace _ hsq heq).mpr hman, hok.1,
          .inr ⟨hok.2, (exists_pawnCaptures_iff hsq hmod hok.1 hok.2).mpr
            ⟨heq, hdst, hstep, hrest⟩⟩⟩

theorem exists_pseudoMoves_iff (h : RepInv b.toViews) :
    (∃ m ∈ pseudoMoves b, m.view = v) ↔ (book b).Allows v := by
  have hsplit : (∃ m ∈ pseudoMoves b, m.view = v) ↔
      (∃ m ∈ genPawnMoves b false, m.view = v) ∨
      (∃ pt, pt ≠ .pawn ∧ ∃ m ∈ genPieceMoves b pt false, m.view = v) ∨
      ∃ m ∈ genCastling b, m.view = v := by
    simp only [mem_pseudoMoves]
    constructor
    · rintro ⟨m, hm | ⟨pt, hpt, hm⟩ | hm, hv⟩
      · exact .inl ⟨m, hm, hv⟩
      · exact .inr (.inl ⟨pt, hpt, m, hm, hv⟩)
      · exact .inr (.inr ⟨m, hm, hv⟩)
    · rintro (⟨m, hm, hv⟩ | ⟨pt, hpt, m, hm, hv⟩ | ⟨m, hm, hv⟩)
      · exact ⟨m, .inl hm, hv⟩
      · exact ⟨m, .inr (.inl ⟨pt, hpt, hm⟩), hv⟩
      · exact ⟨m, .inr (.inr hm), hv⟩
  rw [hsplit, exists_genPawnMoves_iff h, exists_genPieceMoves_iff h, exists_genCastling_iff]
  constructor
  · rintro (⟨hsrc, hdst, hman, hpawn⟩ | ⟨hsrc, hdst, hpiece⟩ | hcastle)
    · exact .inl ⟨hsrc, hdst, .inr ⟨hman, hpawn⟩⟩
    · exact .inl ⟨hsrc, hdst, .inl hpiece⟩
    · exact .inr hcastle
  · rintro (⟨hsrc, hdst, hpiece | ⟨hman, hpawn⟩⟩ | hcastle)
    · exact .inr (.inl ⟨hsrc, hdst, hpiece⟩)
    · exact .inl ⟨hsrc, hdst, hman, hpawn⟩
    · exact .inr (.inr hcastle)

end Pseudo

end ChessRecast.Engine
