import ChessRecast.Engine.LegalTheorems

/-!
# Invariants of a game on the C board

`BoardInv` is what `generate_moves` relies on without looking again: the views agree, the
en-passant square is that of a pawn just moved, and a castling right means that the rook is
still in its corner and, in the mods where kings cannot leave the board, the king at home.
Every generated move keeps it.
-/

namespace ChessRecast.Engine

open Rules

/-! ## Castling rights -/

/-- Position of a castling right in the rights byte. -/
def castleBit : Color → Wing → ℕ
  | .white, .king => 0
  | .white, .queen => 1
  | .black, .king => 2
  | .black, .queen => 3

/-- The colour may still castle to the wing. -/
def HasRight (castling : BitVec 8) (c : Color) (w : Wing) : Prop := castling &&& castleRight c w ≠ 0

theorem hasRight_iff {castling : BitVec 8} {c : Color} {w : Wing} :
    HasRight castling c w ↔ castling.getLsbD (castleBit c w) = true := by
  have hsingle : castleRight c w = Bits.single 8 (castleBit c w) := by
    cases c <;> cases w <;> decide
  unfold HasRight
  rw [hsingle]
  exact Bits.and_single_ne_zero_iff (by cases c <;> cases w <;> decide)

def corner (c : Color) (w : Wing) : ℤ := SQ (homeRow c) w.rookCol

def kingHome (c : Color) : ℤ := SQ (homeRow c) 4

theorem getLsbD_clearRights {cond : Bool} {mask r : BitVec 8} {i : ℕ} (hi : i < 8) :
    (clearRights cond mask r).getLsbD i = (r.getLsbD i && !(cond && mask.getLsbD i)) := by
  cases cond <;> simp [clearRights, hi]

/-- A right survives a move exactly when king and rook stay and the corner is not entered. -/
theorem hasRight_makeCastling {b : Board} {m : Move} {c : Color} {w : Wing} :
    HasRight (makeCastling b m) c w ↔ HasRight b.castling c w ∧
      ¬ (m.piece = .king ∧ b.side = c) ∧ ¬ (m.piece = .rook ∧ m.fromSq = corner c w) ∧
      m.toSq ≠ corner c w := by
  simp only [hasRight_iff, makeCastling]
  cases c <;> cases w <;>
  · simp only [castleBit, corner, homeRow, Wing.rookCol]
    simp (disch := decide) only [getLsbD_clearRights]
    simp [castleWK, castleWQ, castleBK, castleBQ, not_and, and_assoc]
    tauto

/-! ## What a move leaves alone -/

section Step

variable {b : Board} {m : Move} {s : ℤ} {man : Man}

/-- A man stays where it is unless the move starts or ends there, takes it en passant or
castles with it. -/
theorem makeMailbox_of_occupied (wf : WellFormed b m) (hman : b.mailbox s = some man)
    (hfrom : s ≠ m.fromSq) (hto : s ≠ m.toSq)
    (hep : m.ep = true → man ≠ (b.side.opposite, .pawn))
    (hrook : m.castle = true → man ≠ (b.side, .rook)) : makeMailbox b m s = some man := by
  have hcapture : captureMailbox b m s = some man := by
    unfold captureMailbox
    split
    · rename_i h
      rw [Function.update_of_ne, hman]
      rintro rfl
      rw [(wf.ep_ok h).2.2.2.1] at hman
      exact hep h (Option.some.inj hman).symm
    · split
      · dsimp only
        split
        · rename_i hre
          rw [Function.update_of_ne, Function.update_of_ne hto, hman]
          rintro rfl
          rw [hre.2.2.2] at hman
          cases hman
        · rw [Function.update_of_ne hto, hman]
      · exact hman
  unfold makeMailbox
  split
  · rename_i hc
    obtain ⟨cor, target, hr, hcorner, hempty, -⟩ := wf.castle_squares hc
    rw [hr]
    dsimp only
    have hne1 : s ≠ target := by
      rintro rfl
      rw [hempty] at hman
      cases hman
    have hne2 : s ≠ cor := by
      rintro rfl
      rw [hcorner] at hman
      exact hrook hc (Option.some.inj hman).symm
    rw [Function.update_of_ne hne1, Function.update_of_ne hne2, Function.update_of_ne hto,
      Function.update_of_ne hfrom, hcapture]
  · rw [Function.update_of_ne hto, Function.update_of_ne hfrom, hcapture]

theorem boardMakeMove_mailbox (h : RepInv b.toViews) (wf : WellFormed b m) :
    (boardMakeMove b m).mailbox = makeMailbox b m :=
  (shows_makeViews h wf).mailbox_eq

/-- Who may stand on the target square: an own man only where the mod lets it be taken, a king
only in Heir. -/
theorem target_of_mem (h : GenSafe b) (hm : m ∈ pseudoMoves b) {c : Color} {capt : PieceType}
    (hman : b.mailbox m.toSq = some (c, capt)) :
    (c = b.side → OwnOk b m.toSq capt) ∧ (capt = .king → b.mod = .heir) := by
  have henemy : ∀ {P : Prop}, c = b.side.opposite → c = b.side → P := by
    intro P hc hc'
    rw [hc] at hc'
    exact absurd hc' (Color.opposite_ne _)
  rcases mem_pseudoMoves.mp hm with hm' | ⟨pt, -, hm'⟩ | hm'
  · obtain ⟨sq, hsq, -, -, hkind⟩ := (mem_genPawnMoves h.rep).mp hm'
    split at hkind
    · rename_i hmerc
      obtain ⟨toSq, -, -, hok, rfl⟩ := (mem_mercenaryPawnMoves h.rep hmerc).mp hkind
      exact ⟨henemy (hok c capt hman).1, fun hk => absurd hk (hok c capt hman).2⟩
    · rcases hkind with hm' | ⟨-, hm'⟩
      · -- a push ends on an empty square
        obtain ⟨-, hone, hrest⟩ := mem_pawnPushes.mp hm'
        split at hrest
        · obtain ⟨pt, -, rfl⟩ := hrest
          cases hman.symm.trans hone
        · rcases hrest with rfl | ⟨-, htwo, rfl⟩
          · cases hman.symm.trans hone
          · cases hman.symm.trans htwo
      · obtain ⟨toSq, hto, hstep, hskip, hkind⟩ := (mem_pawnCaptures hsq).mp hm'
        rcases hkind with hm' | hm' | hm'
        · obtain ⟨capt', hcapt, hrest⟩ := mem_pawnTakesEnemy.mp hm'
          have hto' : m.toSq = toSq := by
            split at hrest
            · obtain ⟨pt, -, rfl⟩ := hrest
              rfl
            · exact hrest ▸ rfl
          obtain ⟨rfl, rfl⟩ : c = b.side.opposite ∧ capt = capt' := by
            simpa [hto', hcapt, eq_comm] using hman
          refine ⟨henemy rfl, fun hk => by_contra fun hmod => hskip ?_⟩
          simp [PawnSkips, hcapt, hk, hmod]
        · obtain ⟨capt', hcapt, hok, hrest⟩ := mem_pawnTakesOwn.mp hm'
          have hto' : m.toSq = toSq := by
            split at hrest
            · obtain ⟨pt, -, rfl⟩ := hrest
              rfl
            · exact hrest ▸ rfl
          obtain ⟨rfl, rfl⟩ : c = b.side ∧ capt = capt' := by
            simpa [hto', hcapt, eq_comm] using hman
          exact ⟨fun _ => hto' ▸ hok, fun hk => absurd hk hok.2.1⟩
        · have wf := wellFormed_of_mem_pseudoMoves h hm
          obtain ⟨-, -, t, -, rfl⟩ := mem_pawnTakesEp.mp hm'
          cases hman.symm.trans (wf.ep_ok rfl).2.2.1
  · obtain ⟨-, sq, hsq, -, -, toSq, hto, hkind, rfl⟩ := (mem_genPieceMoves h.rep).mp hm'
    split at hkind
    · unfold StqQueenOk at hkind
      split at hkind
      · rcases hkind with hkind | hkind
        · obtain ⟨hc, -, hk⟩ := hkind.2 c capt hman
          exact ⟨henemy hc, fun hk' => absurd hk' hk⟩
        · obtain ⟨rfl, rfl⟩ := Prod.mk.inj (Option.some.inj (hman.symm.trans (hkind.captive h.rep).1))
          exact ⟨henemy rfl, fun hk => by cases hk⟩
      · cases hman.symm.trans hkind.2
    · have hland := hkind.2.2 c capt hman
      split at hland
      · exact ⟨fun _ => hland, fun hk => absurd hk hland.2.1⟩
      · rename_i hc
        exact ⟨fun hc' => absurd hc' hc, fun hk => by_contra fun hmod =>
          hland.2.1 ⟨hk, .inl hmod⟩⟩
  · have wf := wellFormed_of_mem_pseudoMoves h hm
    obtain ⟨-, w, -, rfl⟩ := mem_genCastling.mp hm'
    cases hman.symm.trans (wf.to_empty rfl)

theorem captured_ne_king (h : GenSafe b) (hm : m ∈ pseudoMoves b) (hmod : b.mod ≠ .heir) :
    m.captured ≠ some .king := by
  have wf := wellFormed_of_mem_pseudoMoves h hm
  intro hcap
  cases hep : m.ep with
  | true =>
    rw [(wf.ep_ok hep).2.1] at hcap
    cases hcap
  | false =>
    rw [wf.captured_eq hep, pieceType, Option.map_eq_some_iff] at hcap
    obtain ⟨⟨c, t⟩, hman, rfl⟩ := hcap
    exact hmod ((target_of_mem h hm hman).2 rfl)

theorem makeMailbox_to (wf : WellFormed b m) :
    makeMailbox b m m.toSq = some (b.side, placedType m) := by
  unfold makeMailbox
  split
  · rename_i hc
    obtain ⟨cor, target, hr, -, -, -, ht, hcor⟩ := wf.castle_squares hc
    rw [hr]
    dsimp only
    rw [Function.update_of_ne ht.2.1.symm, Function.update_of_ne hcor.1.symm,
      Function.update_self]
  · rw [Function.update_self]

theorem makeMailbox_of_empty (hs : b.mailbox s = none) (hto : s ≠ m.toSq) (hep : m.ep = false)
    (hcap : m.captured = none) (hc : m.castle = false) : makeMailbox b m s = none := by
  unfold makeMailbox captureMailbox
  simp only [hc, hep, Move.isCapture, hcap, Option.isSome_none, Bool.false_eq_true, if_false]
  rw [Function.update_of_ne hto, Function.update_apply]
  split
  · rfl
  · exact hs

/-- The double step of a pawn over an empty square. -/
def DoubleStep (b : Board) (m : Move) : Prop :=
  SqValid m.fromSq ∧ sqRow m.fromSq = rank2 b.side ∧
    b.mailbox (SQ (sqRow m.fromSq + b.side.forward) (sqCol m.fromSq)) = none ∧
    m.toSq = SQ (sqRow m.fromSq + 2 * b.side.forward) (sqCol m.fromSq) ∧
    b.mailbox m.toSq = none ∧ m = plainMove b m.fromSq m.toSq .pawn

/-- A double step, read off the en-passant test of `board_make_move`. -/
theorem doubleStep_of_mem (h : GenSafe b) (hm : m ∈ pseudoMoves b) (hmod : b.mod ≠ .mercenary)
    (hpawn : m.piece = .pawn) (hdiff : m.toSq - m.fromSq = 16 ∨ m.toSq - m.fromSq = -16) :
    DoubleStep b m := by
  have hfwd : b.side.forward = 1 ∨ b.side.forward = -1 := by
    cases b.side
    · exact .inl rfl
    · exact .inr rfl
  rcases mem_pseudoMoves.mp hm with hm' | ⟨pt, hpt, hm'⟩ | hm'
  · obtain ⟨sq, hsq, -, -, hkind⟩ := (mem_genPawnMoves h.rep).mp hm'
    rw [if_neg hmod] at hkind
    have hin := hsq.inside
    have hsq' : sq = sqRow sq * 8 + sqCol sq := by
      rw [← SQ_eq hin, SQ_sqRow_sqCol hsq]
    -- single steps and captures change the square index by 7, 8 or 9
    rcases hkind with hm' | ⟨-, hm'⟩
    · obtain ⟨hv1, hone, hrest⟩ := mem_pawnPushes.mp hm'
      have hins : Grid.Inside 8 (sqRow sq + b.side.forward) (sqCol sq) := by
        have hv := hv1
        unfold SqValid SQ at hv
        unfold Grid.Inside at hin ⊢
        omega
      have hsingle : ¬ (SQ (sqRow sq + b.side.forward) (sqCol sq) - sq = 16 ∨
          SQ (sqRow sq + b.side.forward) (sqCol sq) - sq = -16) := by
        rw [SQ_eq hins]
        omega
      split at hrest
      · obtain ⟨pt, -, rfl⟩ := hrest
        exact absurd hdiff hsingle
      · rcases hrest with rfl | ⟨hr2, htwo, rfl⟩
        · exact absurd hdiff hsingle
        · exact ⟨hsq, hr2, hone, rfl, htwo, rfl⟩
    · obtain ⟨toSq, hto, hstep, -, hkind⟩ := (mem_pawnCaptures hsq).mp hm'
      have hends : m.fromSq = sq ∧ m.toSq = toSq := by
        rcases hkind with hm' | hm' | hm'
        · obtain ⟨capt, -, hrest⟩ := mem_pawnTakesEnemy.mp hm'
          split at hrest
          · obtain ⟨pt, -, rfl⟩ := hrest
            exact ⟨rfl, rfl⟩
          · exact hrest ▸ ⟨rfl, rfl⟩
        · obtain ⟨capt, -, -, hrest⟩ := mem_pawnTakesOwn.mp hm'
          split at hrest
          · obtain ⟨pt, -, rfl⟩ := hrest
            exact ⟨rfl, rfl⟩
          · exact hrest ▸ ⟨rfl, rfl⟩
        · obtain ⟨-, -, t, -, rfl⟩ := mem_pawnTakesEp.mp hm'
          exact ⟨rfl, rfl⟩
      have hto' : toSq = sqRow toSq * 8 + sqCol toSq := by
        rw [← SQ_eq hto.inside, SQ_sqRow_sqCol hto]
      obtain ⟨hr, hc⟩ := hstep
      simp only [toPos] at hr hc
      rw [hends.1, hends.2] at hdiff
      omega
  · obtain ⟨-, sq, -, -, -, toSq, -, -, rfl⟩ := (mem_genPieceMoves h.rep).mp hm'
    exact absurd hpawn hpt
  · obtain ⟨-, w, -, rfl⟩ := mem_genCastling.mp hm'
    simp [castleMove] at hpawn

theorem epInv_boardMakeMove (h : RepInv b.toViews) (wf : WellFormed b m)
    (hdouble : b.mod ≠ .mercenary → m.piece = .pawn →
      m.toSq - m.fromSq = 16 ∨ m.toSq - m.fromSq = -16 → DoubleStep b m) :
    EpInv (boardMakeMove b m) := by
  by_cases hcond : b.mod ≠ .mercenary ∧ m.piece = .pawn ∧
      (m.toSq - m.fromSq = 16 ∨ m.toSq - m.fromSq = -16)
  · obtain ⟨hfv, hr2, hone, hto, htwo, hplain⟩ := hdouble hcond.1 hcond.2.1 hcond.2.2
    have hcap : m.captured = none := by
      rw [hplain]
      simp [plainMove, htwo, pieceType]
    have hbonus : (makeKb b m).bonus = false := by
      simp only [makeKb, hcond.2.1, reduceCtorEq, false_and, if_false]
      split_ifs <;> rfl
    have hside : (boardMakeMove b m).side = b.side.opposite := by
      show (if (makeKb b m).bonus then b.side else b.side.opposite) = _
      rw [hbonus]
      rfl
    have hin := hfv.inside
    have hins : Grid.Inside 8 (sqRow m.fromSq + b.side.forward) (sqCol m.fromSq) ∧
        Grid.Inside 8 (sqRow m.fromSq + 2 * b.side.forward) (sqCol m.fromSq) := by
      unfold Grid.Inside at *
      cases hs : b.side <;> rw [hs] at hr2 <;> simp only [Color.forward, rank2] at * <;> omega
    have hep : (boardMakeMove b m).epSquare =
        SQ (sqRow m.fromSq + b.side.forward) (sqCol m.fromSq) := by
      show makeEpSquare b m = _
      unfold makeEpSquare
      rw [if_pos hcond, hto, sqRow_SQ hins.2]
      congr 1
      omega
    right
    rw [hep, hside, Color.opposite_opposite, boardMakeMove_mailbox h wf, sqRow_SQ hins.1,
      sqCol_SQ hins.1]
    have hfwd : b.side.opposite.forward = -b.side.forward := by cases b.side <;> rfl
    have hne : b.side.forward ≠ 0 := by cases b.side <;> decide
    refine ⟨sqValid_SQ hins.1, ?_, ?_⟩
    · apply makeMailbox_of_empty hone _ (by rw [hplain]; rfl) hcap (by rw [hplain]; rfl)
      rw [hto, ne_eq, SQ_inj hins.1 hins.2]
      omega
    · have hpawn : placedType m = .pawn := by
        rw [hplain]
        rfl
      have hsq : SQ (sqRow m.fromSq + b.side.forward - b.side.opposite.forward) (sqCol m.fromSq) =
          m.toSq := by
        rw [hto, hfwd]
        congr 1
        ring
      rw [hsq, makeMailbox_to wf, hpawn]
  · left
    show makeEpSquare b m = sqNone
    unfold makeEpSquare
    rw [if_neg hcond]

end Step

/-! ## The invariant -/

/-- What `generate_moves` relies on, for both colours. -/
structure BoardInv (b : Board) : Prop where
  rep : RepInv b.toViews
  ep : EpInv b
  rook : ∀ c w, HasRight b.castling c w → b.mailbox (corner c w) = some (c, .rook)
  king : b.mod ≠ .heir → b.mod ≠ .succession → ∀ c w, HasRight b.castling c w →
    b.mailbox (kingHome c) = some (c, .king)

/-- In Heir and Succession a king may be missing: castling may only be open when it is not. -/
def CastleSane (b : Board) : Prop :=
  b.mod = .heir ∨ b.mod = .succession → ∀ w, CastlesNow b → CastleOpen b w → KingHome b

namespace BoardInv

variable {b : Board} {m : Move}

theorem genSafe (h : BoardInv b) (hc : CastleSane b) : GenSafe b where
  rep := h.rep
  ep := h.ep
  rook := h.rook b.side
  king := by
    intro w hnow hopen
    by_cases hmod : b.mod = .heir ∨ b.mod = .succession
    · exact hc hmod w hnow hopen
    · push Not at hmod
      exact h.king hmod.1 hmod.2 b.side w hopen.1

theorem epInv_step (h : GenSafe b) (hm : m ∈ pseudoMoves b) : EpInv (boardMakeMove b m) :=
  epInv_boardMakeMove h.rep (wellFormed_of_mem_pseudoMoves h hm) (doubleStep_of_mem h hm)

theorem step (h : BoardInv b) (hc : CastleSane b) (hm : m ∈ pseudoMoves b) :
    BoardInv (boardMakeMove b m) := by
  have hg := h.genSafe hc
  have wf := wellFormed_of_mem_pseudoMoves hg hm
  have hmailbox := boardMakeMove_mailbox h.rep wf
  refine ⟨repInv_boardMakeMove h.rep wf, epInv_step hg hm, ?_, ?_⟩
  · intro c w hright
    obtain ⟨hbefore, hking, hrook, hto⟩ := hasRight_makeCastling.mp hright
    have hcorner := h.rook c w hbefore
    rw [hmailbox]
    apply makeMailbox_of_occupied wf hcorner
    · intro hfrom
      -- whoever leaves the corner is the rook, and then the right is gone
      rw [hfrom, wf.from_holds, Option.some.injEq, Prod.mk.injEq] at hcorner
      exact hrook ⟨hcorner.2, hfrom.symm⟩
    · exact hto.symm
    · simp
    · intro hcastle hrk
      rw [Prod.mk.injEq] at hrk
      exact hking ⟨(wf.castle_ok hcastle).1, hrk.1.symm⟩
  · intro hheir hsucc c w hright
    obtain ⟨hbefore, hking, -, -⟩ := hasRight_makeCastling.mp hright
    have hhome := h.king hheir hsucc c w hbefore
    rw [hmailbox]
    apply makeMailbox_of_occupied wf hhome
    · intro hfrom
      rw [hfrom, wf.from_holds, Option.some.injEq, Prod.mk.injEq] at hhome
      exact hking ⟨hhome.2, hhome.1⟩
    · intro hto
      have hep : m.ep = false := by
        cases hep : m.ep with
        | false => rfl
        | true =>
          rw [hto, (wf.ep_ok hep).2.2.1] at hhome
          cases hhome
      have hcap := wf.captured_eq hep
      rw [← hto, hhome] at hcap
      exact captured_ne_king hg hm hheir hcap
    · simp
    · simp

end BoardInv

/-! ## No man appears or vanishes -/

/-- Number of squares on which the man stands. -/
def menOn (mb : ℤ → Piece) (man : Man) : ℕ :=
  ((Finset.range 64).filter fun i : ℕ => mb i = some man).card

/-- 1 if the square content is this man, 0 otherwise. -/
def isMan (p : Piece) (man : Man) : ℕ := if p = some man then 1 else 0

theorem menOn_update (mb : ℤ → Piece) {s : ℤ} (hs : SqValid s) (p : Piece) (man : Man) :
    menOn (Function.update mb s p) man + isMan (mb s) man = menOn mb man + isMan p man := by
  obtain ⟨i, rfl⟩ : ∃ i : ℕ, s = i := ⟨s.toNat, by unfold SqValid at hs; omega⟩
  have hmem : i ∈ Finset.range 64 := by
    unfold SqValid at hs
    rw [Finset.mem_range]
    omega
  -- split off the square that changes
  have hsplit : ∀ f : ℤ → Piece, menOn f man =
      (((Finset.range 64).erase i).filter fun x : ℕ => f x = some man).card +
        isMan (f i) man := by
    intro f
    unfold menOn isMan
    conv_lhs => rw [← Finset.insert_erase hmem, Finset.filter_insert]
    split
    · rw [Finset.card_insert_of_notMem (by simp)]
    · rfl
  rw [hsplit (Function.update mb i p), hsplit mb, Function.update_self]
  have hrest : (((Finset.range 64).erase i).filter
      fun x : ℕ => Function.update mb (i : ℤ) p x = some man) =
      (((Finset.range 64).erase i).filter fun x : ℕ => mb x = some man) := by
    apply Finset.filter_congr
    intro x hx
    have hne : (x : ℤ) ≠ i := by exact_mod_cast Finset.ne_of_mem_erase hx
    rw [Function.update_of_ne hne]
  rw [hrest]
  omega

/-- What the move captures, and where from. -/
def capturedMan (b : Board) (m : Move) : Piece :=
  if m.ep then b.mailbox (epCapSq m) else if m.isCapture then b.mailbox m.toSq else none

/-- The queen that goes back to its prison. -/
def returnedMan (b : Board) (m : Move) : Piece :=
  if m.ep = false ∧ m.isCapture = true ∧ StqReprisons b m then some (b.side.opposite, .queen)
  else none

/-- Making a move takes the captured man off, changes a promoted pawn and puts a captured
prisoner back; all other men are still there. -/
theorem menOn_make {b : Board} {m : Move} (wf : WellFormed b m) (man : Man) :
    menOn (makeMailbox b m) man + isMan (some (b.side, m.piece)) man +
        isMan (capturedMan b m) man =
      menOn b.mailbox man + isMan (some (b.side, placedType m)) man +
        isMan (returnedMan b m) man := by
  have hcapture : menOn (captureMailbox b m) man + isMan (capturedMan b m) man =
      menOn b.mailbox man + isMan (returnedMan b m) man := by
    unfold captureMailbox capturedMan returnedMan
    cases hep : m.ep with
    | true =>
      have := menOn_update b.mailbox wf.epCapSq_valid none man
      simpa [isMan] using this
    | false =>
      cases hcap : m.isCapture with
      | false => simp [isMan]
      | true =>
        have h1 := menOn_update b.mailbox wf.to_valid none man
        by_cases hre : StqReprisons b m
        · have h2 := menOn_update (Function.update b.mailbox m.toSq none)
            (stqPrison_valid b.side.opposite) (some (b.side.opposite, .queen)) man
          rw [Function.update_of_ne (hre.prison_ne wf).2, hre.2.2.2] at h2
          simp only [hre, Bool.false_eq_true, if_false, if_true, and_self]
          simp only [isMan, reduceCtorEq, if_false] at h1 h2 ⊢
          omega
        · simp only [hre, Bool.false_eq_true, if_false, if_true, and_false]
          simpa [isMan] using h1
  have hfrom : captureMailbox b m m.fromSq = some (b.side, m.piece) := by
    unfold captureMailbox
    split
    · rename_i hep
      rw [Function.update_of_ne, wf.from_holds]
      intro heq
      have := (wf.ep_ok hep).2.2.2.1
      rw [← heq, wf.from_holds] at this
      simp at this
    · split
      · dsimp only
        split
        · rename_i hre
          rw [Function.update_of_ne (hre.prison_ne wf).1.symm, Function.update_of_ne wf.from_ne_to,
            wf.from_holds]
        · rw [Function.update_of_ne wf.from_ne_to, wf.from_holds]
      · exact wf.from_holds
  have h1 := menOn_update (captureMailbox b m) wf.from_valid none man
  have h2 := menOn_update (Function.update (captureMailbox b m) m.fromSq none) wf.to_valid
    (some (b.side, placedType m)) man
  rw [hfrom] at h1
  rw [Function.update_of_ne wf.from_ne_to.symm, captureMailbox_to wf] at h2
  unfold makeMailbox
  split
  · rename_i hc
    obtain ⟨cor, target, hr, hcorner, hempty, hvalid, ht, hcor⟩ := wf.castle_squares hc
    rw [hr]
    dsimp only
    -- the rook leaves its corner and appears beside the king
    have hcm := captureMailbox_of_castle wf hc
    have h3 := menOn_update (Function.update (Function.update (captureMailbox b m) m.fromSq
      none) m.toSq (some (b.side, placedType m))) hvalid.1 none man
    have h4 := menOn_update (Function.update (Function.update (Function.update
      (captureMailbox b m) m.fromSq none) m.toSq (some (b.side, placedType m))) cor none)
      hvalid.2 (some (b.side, .rook)) man
    rw [Function.update_of_ne hcor.1, Function.update_of_ne hcor.2, hcm, hcorner] at h3
    rw [Function.update_of_ne ht.1, Function.update_of_ne ht.2.1, Function.update_of_ne ht.2.2,
      hcm, hempty] at h4
    rw [hcm] at h1 h2 hcapture ⊢
    simp only [isMan, reduceCtorEq, if_false] at h1 h2 h3 h4 hcapture ⊢
    omega
  · simp only [isMan, reduceCtorEq, if_false] at h1 h2 hcapture ⊢
    omega

end ChessRecast.Engine
