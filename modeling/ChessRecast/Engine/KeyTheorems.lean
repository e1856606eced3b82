import ChessRecast.Engine.HashTheorems
import ChessRecast.Engine.SafetyTheorems

/-!
# What the Zobrist key covers

Two boards with the same key can differ in the state the key leaves out: which men have moved
(Truce, Friendly Fire) and how many idle king moves were played (Kings' Battle). Where they agree
on that as well they generate the same list of moves, and every move keeps the agreement.
-/

namespace ChessRecast.Engine

/-- The mod and everything that `zobrist_compute` reads. -/
structure SameKey (b b' : Board) : Prop where
  mod_eq : b'.mod = b.mod
  pieces_eq : b'.pieces = b.pieces
  side_eq : b'.side = b.side
  castling_eq : b'.castling = b.castling
  ep_eq : b'.epSquare = b.epSquare
  heir_eq : b'.heirPromoted = b.heirPromoted
  truce_eq : b'.truceActive = b.truceActive
  kb_eq : b'.kbUnlocked = b.kbUnlocked

/-- The state that the key leaves out, as far as it matters: the moved men on the board in Truce
and Friendly Fire, the idle-king count in Phase 1 of Kings' Battle. -/
structure SameMoved (b b' : Board) : Prop where
  frozen : truceNoCap b = true → ∀ sq, SqValid sq → b.mailbox sq ≠ none →
    bbHas b'.truceFrozen sq = bbHas b.truceFrozen sq
  moved : b.mod = .friendlyFire → ∀ sq, SqValid sq → b.mailbox sq ≠ none →
    bbHas b'.ffMoved sq = bbHas b.ffMoved sq
  idle : kbLocked b = true → b'.kbIdleKings = b.kbIdleKings

/-- The four views agree, and the mailbox is an array of 64 squares. -/
structure Proper (b : Board) : Prop where
  rep : RepInv b.toViews
  array : ∀ sq, ¬ SqValid sq → b.mailbox sq = none

/-! ## Legality in lockstep -/

/-- The boards agree on all that making a move and testing its legality read. -/
structure Twin (b b' : Board) : Prop where
  same : b' = { b with
    castling := b'.castling, epSquare := b'.epSquare, halfmove := b'.halfmove,
    fullmove := b'.fullmove, truceFrozen := b'.truceFrozen, ffMoved := b'.ffMoved,
    kbIdleKings := b'.kbIdleKings, hash := b'.hash, history := b'.history, ply := b'.ply }
  idle : kbLocked b = true → b'.kbIdleKings = b.kbIdleKings

theorem Proper.views_eq {b b' : Board} (hb : Proper b) (hb' : Proper b') (h : SameKey b b') :
    b'.toViews = b.toViews := by
  refine hb'.rep.ext hb.rep (funext fun sq => ?_)
  by_cases hsq : SqValid sq
  · refine Option.ext fun man => ?_
    rw [← hb'.rep.bit_iff man.1 man.2 sq hsq, ← hb.rep.bit_iff man.1 man.2 sq hsq, h.pieces_eq]
  · rw [hb.array sq hsq, hb'.array sq hsq]

theorem Proper.twin {b b' : Board} (hb : Proper b) (hb' : Proper b') (h : SameKey b b')
    (hm : SameMoved b b') : Twin b b' := by
  refine ⟨?_, hm.idle⟩
  have hviews := hb.views_eq hb' h
  obtain ⟨v, side, castling, ep, half, full, mod, heir, ta, tf, ff, ku, ki, hash, hist, ply⟩ := b
  obtain ⟨v', side', castling', ep', half', full', mod', heir', ta', tf', ff', ku', ki', hash',
    hist', ply'⟩ := b'
  have h1 := h.mod_eq
  have h2 := h.side_eq
  have h3 := h.heir_eq
  have h4 := h.truce_eq
  have h5 := h.kb_eq
  simp only at h1 h2 h3 h4 h5 hviews
  simp only [h1, h2, h3, h4, h5, hviews]

namespace Twin

variable {b b' : Board} {m : Move}

theorem makeViews_eq (h : Twin b b') : makeViews b' m = makeViews b m := by
  rw [h.same]
  rfl

theorem legalAfter_eq (h : Twin b b') (c : Color) : legalAfter b' c = legalAfter b c := by
  rw [h.same]
  rfl

/-- The parts of the undo entry that unmaking reads for the placement. -/
theorem undo_eq (h : Twin b b') : (makeUndo b' m).move = (makeUndo b m).move ∧
    (makeUndo b' m).captured = (makeUndo b m).captured ∧
    (makeUndo b' m).capturedSq = (makeUndo b m).capturedSq ∧
    (makeUndo b' m).stqReprisoned = (makeUndo b m).stqReprisoned ∧
    (makeUndo b' m).stqReprisonSq = (makeUndo b m).stqReprisonSq := by
  have hmail : b'.mailbox = b.mailbox := by rw [h.same]
  have hside : b'.side = b.side := by rw [h.same]
  have hre : StqReprisons b' m ↔ StqReprisons b m := by
    rw [h.same]
    exact Iff.rfl
  unfold makeUndo captureUndo
  by_cases hst : StqReprisons b m
  · simp only [if_pos hst, if_pos (hre.mpr hst), hmail, hside]
    split <;> [skip; split] <;> exact ⟨rfl, rfl, rfl, rfl, rfl⟩
  · simp only [if_neg hst, if_neg (mt hre.mp hst), hmail]
    split <;> [skip; split] <;> exact ⟨rfl, rfl, rfl, rfl, rfl⟩

/-- The Kings' Battle state follows in step: equal in Phase 1, untouched in Phase 2. -/
theorem makeKb_eq (h : Twin b b') : (makeKb b' m).unlocked = (makeKb b m).unlocked ∧
    (makeKb b' m).bonus = (makeKb b m).bonus ∧
    (kbLocked b = true → (makeKb b' m).idleKings = (makeKb b m).idleKings) := by
  by_cases hlock : kbLocked b = true
  · have hidle := h.idle hlock
    have hcap : (captureUndo b' m).captured = (captureUndo b m).captured := h.undo_eq.2.1
    have hphase : b'.mod = b.mod ∧ b'.kbUnlocked = b.kbUnlocked := by
      rw [h.same]
      exact ⟨rfl, rfl⟩
    have heq : makeKb b' m = makeKb b m := by
      unfold makeKb
      rw [hcap, hidle, hphase.1, hphase.2]
    exact ⟨by rw [heq], by rw [heq], fun _ => by rw [heq]⟩
  · have hphase : ¬ (b.mod = .kingsBattle ∧ b.kbUnlocked = false) := by
      simpa [kbLocked] using hlock
    have hphase' : ¬ (b'.mod = .kingsBattle ∧ b'.kbUnlocked = false) := by
      rw [h.same]
      exact hphase
    have hunlocked : b'.kbUnlocked = b.kbUnlocked := by rw [h.same]
    refine ⟨?_, ?_, fun hl => absurd hl hlock⟩
    · rw [makeKb, makeKb, if_neg hphase, if_neg hphase']
      exact hunlocked
    · rw [makeKb, makeKb, if_neg hphase, if_neg hphase']

theorem make (h : Twin b b') : Twin (boardMakeMove b m) (boardMakeMove b' m) := by
  obtain ⟨hunlocked, hbonus, hidle⟩ := h.makeKb_eq (m := m)
  have hviews := h.makeViews_eq (m := m)
  have hside : b'.side = b.side := by rw [h.same]
  have hmod : b'.mod = b.mod := by rw [h.same]
  have htruce : b'.truceActive = b.truceActive := by rw [h.same]
  have hheir : makeHeirPromoted b' m = makeHeirPromoted b m := by
    rw [h.same]
    rfl
  constructor
  · unfold boardMakeMove makeUnhashed
    simp only [hunlocked, hbonus, hviews, hside, hmod, htruce, hheir]
  · intro hlock
    -- still locked after the move, so locked before it
    apply hidle
    simp only [kbLocked, Bool.and_eq_true, decide_eq_true_eq, Bool.not_eq_true'] at hlock ⊢
    refine ⟨hlock.1, ?_⟩
    by_contra hopen
    have hphase : ¬ (b.mod = .kingsBattle ∧ b.kbUnlocked = false) := fun hh => hopen hh.2
    have : (makeKb b m).unlocked = false := hlock.2
    rw [makeKb, if_neg hphase] at this
    exact hopen this

end Twin

namespace Twin

variable {b b' : Board} {m : Move}

theorem unmake_make (h : Twin b b') (hply : b.ply < maxHistory) (hply' : b'.ply < maxHistory) :
    Twin (boardUnmakeMove (boardMakeMove b m)) (boardUnmakeMove (boardMakeMove b' m)) := by
  have hviews : unmakeViews (makeViews b' m) (makeUndo b' m) b'.side =
      unmakeViews (makeViews b m) (makeUndo b m) b.side := by
    obtain ⟨h1, h2, h3, h4, h5⟩ := h.undo_eq (m := m)
    have hside : b'.side = b.side := by rw [h.same]
    unfold unmakeViews
    rw [h.makeViews_eq, h1, h2, h3, h4, h5, hside]
  rw [unmake_make_eq hply, unmake_make_eq hply']
  refine ⟨?_, h.idle⟩
  rw [hviews]
  obtain ⟨hsame, -⟩ := h
  rw [hsame]

theorem filterLegal_eq (ms : List Move) : ∀ {b b' : Board}, Twin b b' → b.ply < maxHistory →
    b'.ply < maxHistory → ∀ ml, filterLegal b' ms ml = filterLegal b ms ml := by
  induction ms with
  | nil => exact fun _ _ _ _ => rfl
  | cons m ms ih =>
    intro b b' h hply hply' ml
    have hside : b'.side = b.side := by rw [h.same]
    have hverdict : (isLegal b' m).1 = (isLegal b m).1 := by
      show legalAfter (boardMakeMove b' m) b'.side = legalAfter (boardMakeMove b m) b.side
      rw [hside, h.make.legalAfter_eq]
    show filterLegal (isLegal b' m).2 ms (if (isLegal b' m).1 then movelistAdd ml m else ml) =
      filterLegal (isLegal b m).2 ms (if (isLegal b m).1 then movelistAdd ml m else ml)
    rw [hverdict]
    exact ih (h.unmake_make hply hply') hply hply' _

end Twin

/-! ## Generation in lockstep -/

/-- Masking with marks that agree on the masked squares. -/
theorem and_not_eq {x y y' : Bitboard}
    (h : ∀ sq, SqValid sq → bbHas x sq = true → bbHas y' sq = bbHas y sq) :
    x &&& ~~~y' = x &&& ~~~y := by
  refine bb_ext fun sq hsq => ?_
  rw [bbHas_and, bbHas_and, bbHas_not hsq, bbHas_not hsq]
  cases hx : bbHas x sq with
  | false => rfl
  | true => rw [h sq hsq hx]

/-- The boards differ only in the clocks, the marks, the idle count and the history, and agree on
the marks that matter. -/
structure Alike (b b' : Board) : Prop where
  proper : Proper b
  same : b' = { b with
    halfmove := b'.halfmove, fullmove := b'.fullmove, truceFrozen := b'.truceFrozen,
    ffMoved := b'.ffMoved, kbIdleKings := b'.kbIdleKings, hash := b'.hash, history := b'.history,
    ply := b'.ply }
  moved : SameMoved b b'

theorem Proper.alike {b b' : Board} (hb : Proper b) (hb' : Proper b') (h : SameKey b b')
    (hm : SameMoved b b') : Alike b b' := by
  refine ⟨hb, ?_, hm⟩
  have htwin := (hb.twin hb' h hm).same
  rw [h.castling_eq, h.ep_eq] at htwin
  exact htwin

namespace Alike

variable {b b' : Board} {sq toSq : ℤ}

theorem occupied_of_piece (h : Alike b b') {c : Color} {t : PieceType} (hsq : SqValid sq)
    (hbit : bbHas (b.pieces c t) sq = true) : b.mailbox sq ≠ none := by
  rw [(h.proper.rep.bit_iff c t sq hsq).mp hbit]
  exact fun hn => by cases hn

theorem unfrozen_eq (h : Alike b b') (t : PieceType) :
    (if truceNoCap b' then b'.pieces b'.side t &&& ~~~b'.truceFrozen else b'.pieces b'.side t) =
      if truceNoCap b then b.pieces b.side t &&& ~~~b.truceFrozen else b.pieces b.side t := by
  have hcap : truceNoCap b' = truceNoCap b := by rw [h.same]; rfl
  have hpieces : b'.pieces b'.side t = b.pieces b.side t := by rw [h.same]
  rw [hcap, hpieces]
  by_cases ht : truceNoCap b = true
  · rw [if_pos ht, if_pos ht]
    exact and_not_eq fun sq hsq hbit =>
      h.moved.frozen ht sq hsq (h.occupied_of_piece hsq hbit)
  · rw [if_neg ht, if_neg ht]

theorem pawnTakesOwn_eq (h : Alike b b') (hto : SqValid toSq) :
    pawnTakesOwn b' sq toSq = pawnTakesOwn b sq toSq := by
  have hmail : b'.mailbox = b.mailbox := by rw [h.same]
  have hmod : b'.mod = b.mod := by rw [h.same]
  have hside : b'.side = b.side := by rw [h.same]
  unfold pawnTakesOwn
  rw [hmail, hmod, hside]
  split
  · rename_i c capt hman
    by_cases hff : b.mod = .friendlyFire
    · rw [h.moved.moved hff toSq hto (by rw [hman]; exact fun hn => by cases hn)]
    · rw [if_neg fun hh => hff hh.1, if_neg fun hh => hff hh.1]
  · rfl

theorem pawnCaptures_eq (h : Alike b b') (dc : ℤ) :
    pawnCaptures b' sq dc = pawnCaptures b sq dc := by
  have hparts : ∀ toSq, pawnTakesEnemy b' sq toSq = pawnTakesEnemy b sq toSq ∧
      pawnTakesEp b' sq toSq = pawnTakesEp b sq toSq ∧
      (PawnSkips b' toSq ↔ PawnSkips b toSq) := by
    intro toSq
    rw [h.same]
    exact ⟨rfl, rfl, Iff.rfl⟩
  have hside : b'.side = b.side := by rw [h.same]
  unfold pawnCaptures
  dsimp only
  rw [hside]
  generalize SQ (sqRow sq + b.side.forward) (sqCol sq + dc) = toSq
  obtain ⟨henemy, hep, hskips⟩ := hparts toSq
  split
  · rfl
  · split
    · rfl
    · rename_i hto
      rw [henemy, hep, h.pawnTakesOwn_eq (not_not.mp hto)]
      by_cases hs : PawnSkips b toSq
      · rw [if_pos hs, if_pos (hskips.mpr hs)]
      · rw [if_neg hs, if_neg (mt hskips.mp hs)]

theorem genPawnMoves_eq (h : Alike b b') : genPawnMoves b' false = genPawnMoves b false := by
  have hcap : truceNoCap b' = truceNoCap b := by rw [h.same]; rfl
  have hmod : b'.mod = b.mod := by rw [h.same]
  have hbody : ∀ sq, mercenaryPawnMoves b' sq false = mercenaryPawnMoves b sq false ∧
      pawnPushes b' sq false = pawnPushes b sq false := by
    intro sq
    rw [h.same]
    exact ⟨rfl, rfl⟩
  unfold genPawnMoves
  dsimp only
  rw [h.unfrozen_eq .pawn]
  refine List.flatMap_congr fun sq _ => ?_
  rw [hmod, (hbody sq).1, (hbody sq).2, h.pawnCaptures_eq, h.pawnCaptures_eq, hcap]

/-- The own men that may not be taken in Friendly Fire. -/
theorem unmoved_eq (h : Alike b b') (hff : b.mod = .friendlyFire) :
    b.occupied b.side &&& ~~~b'.ffMoved = b.occupied b.side &&& ~~~b.ffMoved := by
  refine and_not_eq fun sq hsq hbit => h.moved.moved hff sq hsq ?_
  obtain ⟨t, hman⟩ := (h.proper.rep.occupied_iff hsq).mp hbit
  rw [hman]
  exact fun hn => by cases hn

theorem pieceTargets_eq (h : Alike b b') (pt : PieceType) :
    pieceTargets b' pt sq false = pieceTargets b pt sq false := by
  by_cases hff : b.mod = .friendlyFire
  · have hmod : b'.mod = .friendlyFire := by rw [h.same]; exact hff
    have hmask := h.unmoved_eq hff
    unfold pieceTargets
    simp only [hff, hmod, if_true]
    rw [h.same]
    simp only [hmask]
    rfl
  · have hmod : b'.mod ≠ .friendlyFire := by rw [h.same]; exact hff
    unfold pieceTargets
    simp only [hff, hmod, if_false]
    rw [h.same]
    rfl

theorem genPieceMoves_eq (h : Alike b b') (pt : PieceType) :
    genPieceMoves b' pt false = genPieceMoves b pt false := by
  have hlock : kbLocked b' = kbLocked b := by rw [h.same]; rfl
  have hmod : b'.mod = b.mod := by rw [h.same]
  have hfrom : ∀ sq, pieceMovesFrom b' pt sq false = pieceMovesFrom b pt sq false := by
    intro sq
    unfold pieceMovesFrom
    rw [h.pieceTargets_eq, h.same]
    rfl
  have hqueen : ∀ sq, stqQueenMoves b' sq false = stqQueenMoves b sq false := by
    intro sq
    rw [h.same]
    rfl
  unfold genPieceMoves
  dsimp only
  rw [h.unfrozen_eq pt, hlock, hmod]
  simp only [hfrom, hqueen]

theorem genCastling_eq (h : Alike b b') : genCastling b' = genCastling b := by
  have hking : truceNoCap b = true →
      (b'.truceFrozen &&& bbSq (bbLsb (b.pieces b.side .king)) ≠ 0 ↔
        b.truceFrozen &&& bbSq (bbLsb (b.pieces b.side .king)) ≠ 0) := by
    intro ht
    by_cases hnone : b.pieces b.side .king = 0
    · -- without a king there is no bit to look at
      rw [hnone, show bbSq (bbLsb 0) = 0 by decide]
      simp
    · obtain ⟨hv, hbit⟩ := bbLsb_spec hnone
      have hagree := h.moved.frozen ht _ hv (h.occupied_of_piece hv hbit)
      have hone : ∀ x : Bitboard, x &&& bbSq (bbLsb (b.pieces b.side .king)) ≠ 0 ↔
          bbHas x (bbLsb (b.pieces b.side .king)) = true := fun x =>
        Bits.and_single_ne_zero_iff hv.toNat_lt
      rw [hone, hone, hagree]
  have hcap : truceNoCap b' = truceNoCap b := by rw [h.same]; rfl
  have hlock : kbLocked b' = kbLocked b := by rw [h.same]; rfl
  have hneed : needCheckSafe b' = needCheckSafe b := by rw [h.same]; rfl
  have hrest : boardInCheck b' b'.side = boardInCheck b b.side ∧
      castlesOf b' b'.side = castlesOf b b.side ∧ b'.pieces b'.side .king = b.pieces b.side .king := by
    rw [h.same]
    exact ⟨rfl, rfl, rfl⟩
  unfold genCastling
  rw [hcap, hlock, hneed, hrest.1, hrest.2.1, hrest.2.2]
  by_cases ht : truceNoCap b = true ∧
      b.truceFrozen &&& bbSq (bbLsb (b.pieces b.side .king)) ≠ 0
  · rw [if_pos (c := truceNoCap b = true ∧ _) ⟨ht.1, (hking ht.1).mpr ht.2⟩, if_pos ht]
  · rw [if_neg (c := truceNoCap b = true ∧ _) fun hh => ht ⟨hh.1, (hking hh.1).mp hh.2⟩, if_neg ht]

theorem pseudoMoves_eq (h : Alike b b') : pseudoMoves b' = pseudoMoves b := by
  unfold pseudoMoves
  simp only [h.genPawnMoves_eq, h.genPieceMoves_eq, h.genCastling_eq]

end Alike

/-! ## The marks after a move -/

/-- How a move changes the marks of the moved men. -/
def marksAfter (m : Move) (bb : Bitboard) : Bitboard :=
  let bb := bbSet (bbClr bb m.fromSq) m.toSq
  castleMark m (if m.ep then bbClr bb (epCapSq m) else bb)

section Marks

variable {b b' : Board} {m : Move} {s : ℤ}

theorem makeFfMoved_eq (hff : b.mod = .friendlyFire) :
    makeFfMoved b m = marksAfter m b.ffMoved := by
  unfold makeFfMoved
  rw [if_pos hff]
  rfl

theorem makeTruceFrozen_eq (ht : truceNoCap b = true) (hto : SqValid m.toSq) :
    makeTruceFrozen b m = marksAfter m b.truceFrozen := by
  have hcond : b.mod = .truce ∧ b.truceActive = true := by simpa [truceNoCap] using ht
  have hagain : ∀ x : Bitboard, bbSet (bbClr (bbSet x m.toSq) m.toSq) m.toSq = bbSet x m.toSq := by
    intro x
    refine bb_ext fun sq hsq => ?_
    rw [bbHas_bbSet hto hsq, bbHas_bbClr hto hsq, bbHas_bbSet hto hsq]
    cases bbHas x sq <;> by_cases heq : sq = m.toSq <;> simp [heq]
  unfold makeTruceFrozen marksAfter
  rw [if_pos hcond]
  dsimp only
  split
  · rfl
  · rw [hagain, ite_self]

/-- The mark on a square after the move depends on the mark before it, and on nothing else of
the marks. -/
theorem marksAfter_congr (wf : WellFormed b m) (hs : SqValid s) {x y : Bitboard}
    (h : bbHas x s = bbHas y s) : bbHas (marksAfter m x) s = bbHas (marksAfter m y) s := by
  have hstep : bbHas (if m.ep then bbClr (bbSet (bbClr x m.fromSq) m.toSq) (epCapSq m)
        else bbSet (bbClr x m.fromSq) m.toSq) s =
      bbHas (if m.ep then bbClr (bbSet (bbClr y m.fromSq) m.toSq) (epCapSq m)
        else bbSet (bbClr y m.fromSq) m.toSq) s := by
    split
    · rw [bbHas_bbClr wf.epCapSq_valid hs, bbHas_bbClr wf.epCapSq_valid hs,
        bbHas_bbSet wf.to_valid hs, bbHas_bbSet wf.to_valid hs, bbHas_bbClr wf.from_valid hs,
        bbHas_bbClr wf.from_valid hs, h]
    · rw [bbHas_bbSet wf.to_valid hs, bbHas_bbSet wf.to_valid hs, bbHas_bbClr wf.from_valid hs,
        bbHas_bbClr wf.from_valid hs, h]
  unfold marksAfter castleMark
  dsimp only
  by_cases hc : m.castle = true
  · obtain ⟨corner, target, hrook, -, -, ⟨hcv, htv⟩, -⟩ := wf.castle_squares hc
    rw [if_pos hc, if_pos hc, hrook]
    dsimp only
    rw [bbHas_bbSet htv hs, bbHas_bbSet htv hs, bbHas_bbClr hcv hs, bbHas_bbClr hcv hs, hstep]
  · rw [if_neg hc, if_neg hc]
    exact hstep

/-- A man that has come to an empty square is marked. -/
theorem marksAfter_of_arrived (wf : WellFormed b m) (hs : SqValid s) (hmod : b.mod ≠ .saveQueen)
    (hempty : b.mailbox s = none) (hman : makeMailbox b m s ≠ none) (x : Bitboard) :
    bbHas (marksAfter m x) s = true := by
  have hno : ¬ StqReprisons b m := fun h => hmod h.1
  have hcapture : captureMailbox b m s = none := by
    unfold captureMailbox
    split
    · rw [Function.update_apply, hempty, ite_self]
    · split
      · dsimp only
        rw [Function.update_apply, hempty, ite_self]
      · exact hempty
  have hbase : ∀ s', s' = m.toSq → m.ep = true → s' ≠ epCapSq m := by
    rintro s' rfl hep heq
    have := (wf.ep_ok hep).2.2.2.1
    rw [← heq, (wf.ep_ok hep).2.2.1] at this
    cases this
  have hto : s = m.toSq → bbHas (if m.ep then bbClr (bbSet (bbClr x m.fromSq) m.toSq) (epCapSq m)
      else bbSet (bbClr x m.fromSq) m.toSq) s = true := by
    intro heq
    split
    · rename_i hep
      rw [bbHas_bbClr wf.epCapSq_valid hs, bbHas_bbSet wf.to_valid hs]
      simp [heq, hbase _ rfl hep]
    · rw [bbHas_bbSet wf.to_valid hs]
      simp [heq]
  unfold makeMailbox at hman
  unfold marksAfter castleMark
  dsimp only at hman ⊢
  by_cases hc : m.castle = true
  · obtain ⟨corner, target, hrook, -, -, ⟨hcv, htv⟩, -, hcor, -⟩ := wf.castle_squares hc
    rw [if_pos hc, hrook] at hman ⊢
    dsimp only at hman ⊢
    rw [bbHas_bbSet htv hs, bbHas_bbClr hcv hs]
    by_cases htar : s = target
    · simp [htar]
    · rw [Function.update_of_ne htar] at hman
      by_cases hsc : s = corner
      · rw [hsc, Function.update_self] at hman
        exact absurd rfl hman
      · rw [Function.update_of_ne hsc] at hman
        have heq : s = m.toSq := by
          by_contra hne
          rw [Function.update_of_ne hne, Function.update_apply, hcapture, ite_self] at hman
          exact hman rfl
        rw [hto heq]
        simp [hsc]
  · rw [if_neg hc] at hman ⊢
    refine hto ?_
    by_contra hne
    rw [Function.update_of_ne hne, Function.update_apply, hcapture, ite_self] at hman
    exact hman rfl

/-- A man that the move does not touch keeps its mark. -/
theorem marksAfter_of_staying (wf : WellFormed b m) (hs : SqValid s)
    (hep : m.ep = false) (hfrom : s ≠ m.fromSq) (hto : s ≠ m.toSq)
    (hrook : m.castle = true → toPos s ≠ m.view.rookSrc ∧ toPos s ≠ m.view.rookDst)
    (x : Bitboard) : bbHas (marksAfter m x) s = bbHas x s := by
  have hplain : bbHas (bbSet (bbClr x m.fromSq) m.toSq) s = bbHas x s := by
    rw [bbHas_bbSet wf.to_valid hs, bbHas_bbClr wf.from_valid hs]
    simp [hfrom, hto]
  unfold marksAfter castleMark
  dsimp only
  by_cases hc : m.castle = true
  · obtain ⟨corner, target, hcastle, hsrc, hdst, -, hcv, htv⟩ := castle_view wf hc
    obtain ⟨hnosrc, hnodst⟩ := hrook hc
    have hcorner : s ≠ corner := fun heq => hnosrc (heq ▸ hsrc)
    have htarget : s ≠ target := fun heq => hnodst (heq ▸ hdst)
    rw [if_pos hc, hcastle]
    dsimp only
    rw [bbHas_bbSet htv hs, bbHas_bbClr hcv hs, hep, if_neg Bool.false_ne_true, hplain]
    simp [hcorner, htarget]
  · rw [if_neg hc, hep, if_neg Bool.false_ne_true]
    exact hplain

/-- The marks that agree before a move agree after it. -/
theorem marksAfter_agree (hrep : RepInv b.toViews) (wf : WellFormed b m)
    (hmod : b.mod ≠ .saveQueen) {x y : Bitboard}
    (h : ∀ sq, SqValid sq → b.mailbox sq ≠ none → bbHas y sq = bbHas x sq) (hs : SqValid s)
    (hman : (boardMakeMove b m).mailbox s ≠ none) :
    bbHas (marksAfter m y) s = bbHas (marksAfter m x) s := by
  by_cases hempty : b.mailbox s = none
  · rw [boardMakeMove_mailbox hrep wf] at hman
    rw [marksAfter_of_arrived wf hs hmod hempty hman, marksAfter_of_arrived wf hs hmod hempty hman]
  · exact marksAfter_congr wf hs (h s hs hempty)

end Marks

/-! ## The key after a move -/

namespace Alike

variable {b b' : Board} {m : Move}

theorem twin (h : Alike b b') : Twin b b' := by
  have hc : b'.castling = b.castling := by rw [h.same]
  have he : b'.epSquare = b.epSquare := by rw [h.same]
  refine ⟨?_, h.moved.idle⟩
  rw [hc, he]
  exact h.same

theorem sameKey_make (h : Alike b b') : SameKey (boardMakeMove b m) (boardMakeMove b' m) := by
  have htwin := h.twin.make (m := m)
  constructor
  · rw [htwin.same]
  · rw [htwin.same]
  · rw [htwin.same]
  · show makeCastling b' m = makeCastling b m
    rw [h.same]
    rfl
  · show makeEpSquare b' m = makeEpSquare b m
    rw [h.same]
    rfl
  · rw [htwin.same]
  · rw [htwin.same]
  · rw [htwin.same]

theorem sameMoved_make (h : Alike b b') (wf : WellFormed b m) :
    SameMoved (boardMakeMove b m) (boardMakeMove b' m) := by
  have hcap : truceNoCap b' = truceNoCap b := by rw [h.same]; rfl
  have hmod : b'.mod = b.mod := by rw [h.same]
  refine ⟨fun ht sq hsq hman => ?_, fun hff sq hsq hman => ?_, (h.twin.make (m := m)).idle⟩
  · have ht' : truceNoCap b = true := ht
    have hstq : b.mod ≠ .saveQueen := by
      have : b.mod = .truce := by
        simp only [truceNoCap, Bool.and_eq_true, decide_eq_true_eq] at ht'
        exact ht'.1
      rw [this]
      decide
    show bbHas (makeTruceFrozen b' m) sq = bbHas (makeTruceFrozen b m) sq
    rw [makeTruceFrozen_eq ht' wf.to_valid, makeTruceFrozen_eq (hcap.trans ht') wf.to_valid]
    exact marksAfter_agree h.proper.rep wf hstq (h.moved.frozen ht') hsq hman
  · have hff' : b.mod = .friendlyFire := hff
    show bbHas (makeFfMoved b' m) sq = bbHas (makeFfMoved b m) sq
    rw [makeFfMoved_eq hff', makeFfMoved_eq (hmod.trans hff')]
    exact marksAfter_agree h.proper.rep wf (by rw [hff']; decide) (h.moved.moved hff') hsq hman

end Alike

/-- A well-formed move touches squares of the board only. -/
theorem Proper.make {b : Board} {m : Move} (h : Proper b) (wf : WellFormed b m) :
    Proper (boardMakeMove b m) := by
  refine ⟨repInv_boardMakeMove h.rep wf, fun sq hsq => ?_⟩
  have hne : ∀ {s : ℤ}, SqValid s → sq ≠ s := fun hs heq => hsq (heq ▸ hs)
  have hcapture : captureMailbox b m sq = none := by
    rw [captureMailbox_apply (hne wf.to_valid), if_neg fun hh => hne (stqPrison_valid _) hh.2]
    split
    · rfl
    · exact h.array sq hsq
  rw [boardMakeMove_mailbox h.rep wf]
  unfold makeMailbox
  by_cases hc : m.castle = true
  · obtain ⟨corner, target, hrook, -, -, ⟨hcv, htv⟩, -⟩ := wf.castle_squares hc
    rw [if_pos hc, hrook]
    dsimp only
    rw [Function.update_of_ne (hne htv), Function.update_of_ne (hne hcv),
      Function.update_of_ne (hne wf.to_valid), Function.update_of_ne (hne wf.from_valid), hcapture]
  · rw [if_neg hc, Function.update_of_ne (hne wf.to_valid),
      Function.update_of_ne (hne wf.from_valid), hcapture]

/-! ## Main result -/

/-- Two boards with the same key that agree on the moved men and the idle-king count generate the
same list of moves; after any move they have the same key again, and after a well-formed one they
agree on the rest as well. -/
theorem key_and_marks_determine_moves (b b' : Board) (hb : Proper b) (hb' : Proper b')
    (hkey : SameKey b b') (hmoved : SameMoved b b') (hply : b.ply < maxHistory)
    (hply' : b'.ply < maxHistory) :
    generateMoves b' = generateMoves b ∧
    ∀ m, SameKey (boardMakeMove b m) (boardMakeMove b' m) ∧
      (WellFormed b m → Proper (boardMakeMove b m) ∧
        SameMoved (boardMakeMove b m) (boardMakeMove b' m)) := by
  have h := hb.alike hb' hkey hmoved
  refine ⟨?_, fun m => ⟨h.sameKey_make, fun wf => ⟨hb.make wf, h.sameMoved_make wf⟩⟩⟩
  unfold generateMoves
  rw [h.pseudoMoves_eq]
  exact Twin.filterLegal_eq _ h.twin hply hply' []

/-! ### Boards from a FEN text -/

theorem proper_boardSetFen (fen : List Char) : Proper (boardSetFen fen) := by
  have hmail : (boardSetFen fen).mailbox =
      (parsePlacement fen 7 0 boardClear.toViews).1.mailbox := by
    unfold boardSetFen boardRefresh
    rfl
  refine ⟨repInv_boardSetFen fen, ?_⟩
  rw [hmail]
  refine parsePlacement_preserves (P := fun v => ∀ sq, ¬ SqValid sq → v.mailbox sq = none)
    (fun v sq c t hsq _ hv s hs => ?_) fen 7 0 _ le_rfl le_rfl (fun _ _ => rfl) fun _ _ _ _ => rfl
  rw [boardPlace_mailbox, if_neg, hv s hs]
  rintro rfl
  exact hs hsq

theorem Proper.withMod {b : Board} (h : Proper b) (mod : Mod) : Proper { b with mod := mod } :=
  ⟨h.rep.withMod mod, h.array⟩

/-- The starting position of Friendly Fire. -/
def friendlyFireStart : Board :=
  { boardSetFen "rnbqkbnr/pppppppp/8/8/8/8/PPPPPPPP/RNBQKBNR w KQkq - 0 1".toList with
    mod := .friendlyFire }

theorem proper_friendlyFireStart : Proper friendlyFireStart := by
  unfold friendlyFireStart
  exact Proper.withMod (proper_boardSetFen _) _

/-- The clock does not matter. -/
theorem key_and_marks_determine_moves_clock :
    generateMoves { friendlyFireStart with halfmove := 3 } = generateMoves friendlyFireStart :=
  (key_and_marks_determine_moves friendlyFireStart { friendlyFireStart with halfmove := 3 }
    proper_friendlyFireStart ⟨proper_friendlyFireStart.rep, proper_friendlyFireStart.array⟩
    ⟨rfl, rfl, rfl, rfl, rfl, rfl, rfl, rfl⟩
    ⟨fun _ _ _ _ => rfl, fun _ _ _ _ => rfl, fun _ => rfl⟩ (by decide) (by decide)).1

/-- The king's knights go out and come back. -/
def knightsBack : List Move :=
  [moveSimple (SQ 0 6) (SQ 2 5) .knight, moveSimple (SQ 7 6) (SQ 5 5) .knight,
    moveSimple (SQ 2 5) (SQ 0 6) .knight, moveSimple (SQ 5 5) (SQ 7 6) .knight]

/-- Kings' Battle, two kings alone after a number of idle king moves. -/
def idleKingsBoard (idle : ℕ) : Board :=
  { boardSetFen "4k3/8/8/8/8/8/8/4K3 w - - 0 1".toList with
    mod := .kingsBattle, kbIdleKings := idle }

/-- The same key, but in Friendly Fire a rook may take the knight that has moved, and in Kings'
Battle the sixth idle king move unlocks Phase 2. -/
theorem key_misses_moved_men_and_idle_kings :
    (SameKey friendlyFireStart (knightsBack.foldl boardMakeMove friendlyFireStart) ∧
      moveCapture (SQ 0 7) (SQ 0 6) .rook (some .knight) ∈
        generateMoves (knightsBack.foldl boardMakeMove friendlyFireStart) ∧
      moveCapture (SQ 0 7) (SQ 0 6) .rook (some .knight) ∉ generateMoves friendlyFireStart) ∧
    (SameKey (idleKingsBoard 0) (idleKingsBoard 5) ∧
      moveSimple (SQ 0 4) (SQ 0 3) .king ∈ generateMoves (idleKingsBoard 0) ∧
      moveSimple (SQ 0 4) (SQ 0 3) .king ∈ generateMoves (idleKingsBoard 5) ∧
      ¬ SameKey (boardMakeMove (idleKingsBoard 0) (moveSimple (SQ 0 4) (SQ 0 3) .king))
        (boardMakeMove (idleKingsBoard 5) (moveSimple (SQ 0 4) (SQ 0 3) .king))) := by
  refine ⟨⟨?_, ?_, ?_⟩, ⟨rfl, rfl, rfl, rfl, rfl, rfl, rfl, rfl⟩, ?_, ?_, ?_⟩
  · refine ⟨rfl, ?_, rfl, by decide +kernel, by decide +kernel, ?_, rfl, by decide +kernel⟩
    · funext c t
      cases c <;> cases t <;> decide +kernel
    · funext c
      cases c <;> rfl
  · decide +kernel
  · decide +kernel
  · decide +kernel
  · decide +kernel
  · intro h
    exact absurd h.kb_eq (by decide +kernel)

end ChessRecast.Engine
