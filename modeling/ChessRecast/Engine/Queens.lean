import ChessRecast.Engine.SafetyTheorems
import ChessRecast.Engine.Search

/-!
# The queens of Save the Queen in the C engine

The men of a kind are counted on the mailbox (`menOn_make`). A generated move that captures a queen
without sending it back either takes it in the queen's own half or is the escape itself, and
`stq_terminal_score` reports both.
-/

namespace ChessRecast.Engine

open Rules

/-! ## Counting men -/

section Count

variable {b : Board} {mb : ℤ → Piece} {man : Man} {s : ℤ}

/-- The one man of its kind is where it is. -/
theorem eq_of_menOn_one (h : menOn mb man = 1) (hs : SqValid s) (hman : mb s = some man) :
    ∀ s', SqValid s' → (mb s' = some man ↔ s' = s) := by
  obtain ⟨i, hi⟩ := Finset.card_eq_one.mp h
  have hone : ∀ s', SqValid s' → mb s' = some man → s' = i := by
    intro s' hs' hman'
    obtain ⟨j, rfl⟩ : ∃ j : ℕ, s' = j := ⟨s'.toNat, by unfold SqValid at hs'; omega⟩
    have hmem : j ∈ (Finset.range 64).filter fun x : ℕ => mb x = some man := by
      rw [Finset.mem_filter, Finset.mem_range]
      unfold SqValid at hs'
      exact ⟨by omega, hman'⟩
    rw [hi, Finset.mem_singleton] at hmem
    rw [hmem]
  intro s' hs'
  constructor
  · intro hman'
    rw [hone s' hs' hman', hone s hs hman]
  · rintro rfl
    exact hman

theorem bbPopcount_eq_menOn (h : RepInv b.toViews) (c : Color) (t : PieceType) :
    bbPopcount (b.pieces c t) = menOn b.mailbox (c, t) := by
  have hperm : (bbSquares (b.pieces c t)).Perm
      (((List.range 64).filter fun i : ℕ => b.mailbox i = some (c, t)).map Int.ofNat) := by
    rw [List.perm_ext_iff_of_nodup nodup_bbSquares
      ((List.nodup_range.filter _).map Int.ofNat_injective)]
    intro s
    rw [mem_bbSquares, List.mem_map]
    constructor
    · rintro ⟨hs, hbit⟩
      obtain ⟨i, rfl⟩ : ∃ i : ℕ, s = i := ⟨s.toNat, by unfold SqValid at hs; omega⟩
      refine ⟨i, List.mem_filter.mpr ⟨?_, decide_eq_true ((h.bit_iff c t _ hs).mp hbit)⟩, rfl⟩
      unfold SqValid at hs
      exact List.mem_range.mpr (by omega)
    · rintro ⟨i, hi, rfl⟩
      obtain ⟨hrange, hman⟩ := List.mem_filter.mp hi
      have hs : SqValid (Int.ofNat i) := by
        have := List.mem_range.mp hrange
        unfold SqValid
        constructor
        · exact Int.natCast_nonneg i
        · exact Int.ofNat_lt.mpr this
      exact ⟨hs, (h.bit_iff c t _ hs).mpr (of_decide_eq_true hman)⟩
  have hlen := hperm.length_eq
  rw [bbSquares, List.length_map, List.length_map] at hlen
  exact hlen

end Count

/-! ## The queens after a move -/

section Queens

variable {b : Board} {m : Move} {c : Color} {sq : ℤ}

theorem bbHas_boardPlace {v : Views} {s : ℤ} (hs : SqValid s) (hsq : SqValid sq) (c' : Color)
    (t t' : PieceType) (h : bbHas ((boardPlace v s c' t').pieces c t) sq = true) :
    bbHas (v.pieces c t) sq = true ∨ (c = c' ∧ t = t' ∧ sq = s) := by
  rw [boardPlace] at h
  dsimp only at h
  split at h
  · rename_i heq
    rw [bbHas_bbSet hs hsq, Bool.or_eq_true, decide_eq_true_eq] at h
    exact h.imp id fun h => ⟨heq.1, heq.2, h⟩
  · exact .inl h

theorem bbHas_boardRemove {v : Views} {s : ℤ} {t : PieceType}
    (h : bbHas ((boardRemove v s).pieces c t) sq = true) : bbHas (v.pieces c t) sq = true := by
  unfold boardRemove at h
  split at h
  · exact h
  · dsimp only at h
    split at h
    · rw [bbClr, bbHas_and, Bool.and_eq_true] at h
      exact h.1
    · exact h

/-- A queen of C comes from the board before, from the move, or from a prison. -/
theorem bbHas_queens_makeViews (hto : SqValid m.toSq) (hsq : SqValid sq)
    (h : bbHas ((makeViews b m).pieces c .queen) sq = true) :
    bbHas (b.pieces c .queen) sq = true ∨
      (c = b.side ∧ placedType m = .queen ∧ sq = m.toSq) ∨ sq = stqPrison c := by
  -- the castling rook is no queen
  have hplaced : bbHas ((boardPlace (boardRemove (captureViews b m) m.fromSq) m.toSq b.side
      (placedType m)).pieces c .queen) sq = true := by
    unfold makeViews at h
    dsimp only at h
    split at h
    · split at h
      · rw [boardPlace] at h
        dsimp only at h
        rw [if_neg (by rintro ⟨-, h⟩; cases h)] at h
        exact bbHas_boardRemove h
      · exact h
    · exact h
  rcases bbHas_boardPlace hto hsq _ _ _ hplaced with hcap | ⟨hc, ht, heq⟩
  · have hcap := bbHas_boardRemove hcap
    unfold captureViews at hcap
    dsimp only at hcap
    split at hcap
    · exact .inl (bbHas_boardRemove hcap)
    · split at hcap
      · split at hcap
        · rcases bbHas_boardPlace (stqPrison_valid _) hsq _ _ _ hcap with hcap | ⟨hc, -, heq⟩
          · exact .inl (bbHas_boardRemove hcap)
          · exact .inr (.inr (by rw [heq, hc]))
        · exact .inl (bbHas_boardRemove hcap)
      · exact .inl hcap
  · exact .inr (.inl ⟨hc, ht.symm, heq⟩)

theorem stqPrison_opposite_ne (c : Color) : stqPrison c.opposite ≠ stqPrison c := by
  cases c <;> decide

/-- No queen escapes without moving to the enemy's prison square. -/
theorem not_stqEscaped_make (hto : SqValid m.toSq)
    (hbefore : bbHas (b.pieces c .queen) (stqPrison c.opposite) = false)
    (hmove : ¬ (c = b.side ∧ placedType m = .queen ∧ stqPrison c.opposite = m.toSq)) :
    ¬ StqEscaped (boardMakeMove b m) c := by
  rintro ⟨hne, -, hon⟩
  have hbit := (bbLsb_spec hne).2
  rw [show bbLsb ((boardMakeMove b m).pieces c .queen) = stqPrison c.opposite from hon] at hbit
  rcases bbHas_queens_makeViews hto (stqPrison_valid _) hbit with h | h | h
  · rw [hbefore] at h
    cases h
  · exact hmove h
  · exact stqPrison_opposite_ne c h

/-- The only queen of a colour has escaped when it stands on the enemy's prison square. -/
theorem stqEscaped_of_unique (h : RepInv b.toViews)
    (hq : ∀ s, SqValid s → (b.mailbox s = some (c, .queen) ↔ s = stqPrison c.opposite)) :
    StqEscaped b c := by
  have hvalid := stqPrison_valid c.opposite
  have hbit : bbHas (b.pieces c .queen) (stqPrison c.opposite) = true :=
    (h.bit_iff c .queen _ hvalid).mpr ((hq _ hvalid).mpr rfl)
  have hlsb : bbLsb (b.pieces c .queen) = stqPrison c.opposite :=
    bbLsb_eq_of_unique hvalid hbit fun s hs hbit =>
      (hq s hs).mp ((h.bit_iff c .queen s hs).mp hbit)
  refine ⟨bb_ne_zero_iff.mpr ⟨_, hvalid, hbit⟩, ?_, hlsb⟩
  rw [hlsb]
  cases c <;> decide

end Queens

/-! ## The line goes on -/

section Terminal

variable {b : Board} {m : Move}

theorem stqTerminalScore_eq_none_iff (hmod : b.mod = .saveQueen) {ply : ℤ} :
    stqTerminalScore b ply = none ↔ ¬ StqEscaped b b.side ∧ ¬ StqEscaped b b.side.opposite ∧
      stqCapturedQueen b = none := by
  unfold stqTerminalScore
  rw [if_neg (not_not.mpr hmod)]
  by_cases hown : StqEscaped b b.side
  · simp [hown]
  · by_cases hother : StqEscaped b b.side.opposite
    · simp [hown, hother]
    · rw [if_neg hown, if_neg hother]
      cases stqCapturedQueen b <;> simp [hown, hother]

/-- The capture of a queen in its own half is found in the history. -/
theorem stqCapturedQueen_make {c : Color} (hply : b.ply < maxHistory) (hto : SqValid m.toSq)
    (hep : m.ep = false) (hcap : m.isCapture = true) (hman : b.mailbox m.toSq = some (c, .queen))
    (hhalf : StqIsOwnHalf m.toSq c) : stqCapturedQueen (boardMakeMove b m) = some c := by
  have hentry : (boardMakeMove b m).history ((boardMakeMove b m).ply - 1) = makeUndo b m := by
    show pushHistory b.history b.ply (makeUndo b m) (b.ply + 1 - 1) = _
    rw [pushHistory, Nat.add_sub_cancel, if_pos ⟨rfl, hply⟩]
  have hundo : (makeUndo b m).captured = some (c, .queen) ∧
      (makeUndo b m).capturedSq = m.toSq := by
    unfold makeUndo captureUndo
    dsimp only
    rw [hep, hcap]
    simp only [Bool.false_eq_true, if_false, if_true]
    split <;> exact ⟨hman, rfl⟩
  have hne : m.toSq ≠ sqNone := by
    rintro heq
    rw [heq] at hto
    exact absurd hto (by decide)
  unfold stqCapturedQueen
  rw [if_pos (show (boardMakeMove b m).ply > 0 from Nat.succ_pos _)]
  dsimp only
  rw [hentry, hundo.1, hundo.2]
  exact if_pos ⟨hne, hhalf⟩

end Terminal

section Step

variable {b : Board} {m : Move}

/-- A generated capture of a queen spares a prisoner whose prison is occupied, unless it is the
escape of the own queen. -/
theorem queen_target (h : RepInv b.toViews) (hmod : b.mod = .saveQueen) (hm : m ∈ pseudoMoves b)
    (hfrom : SqValid m.fromSq) (hto : SqValid m.toSq)
    (hman : b.mailbox m.toSq = some (b.side.opposite, .queen)) :
    ¬ StqProtected b m.toSq .queen ∨
      (b.mailbox m.fromSq = some (b.side, .queen) ∧ StqOnPrison m.toSq b.side.opposite) := by
  have hdst : ofPos m.view.dst = m.toSq := ofPos_toPos hto
  have hsrc : ofPos m.view.src = m.fromSq := ofPos_toPos hfrom
  have hplace : placement b.toViews m.view.dst = some (b.side.opposite, .queen) := by
    rw [placement_eq_mailbox b (show m.view.dst.IsValid from hto.toPos), hdst]
    exact hman
  -- pawns skip a protected queen
  have hskips : ¬ PawnSkips b (ofPos m.view.dst) → ¬ StqProtected b m.toSq .queen := by
    intro hskip hprot
    apply hskip
    unfold PawnSkips
    rw [hdst, hman]
    exact ⟨rfl, .inr hprot⟩
  rcases (exists_pseudoMoves_iff h).mp ⟨m, hm, rfl⟩ with
    ⟨hv, -, ⟨t, -, hat, hgo, -⟩ | ⟨-, ⟨hgo, -⟩ | ⟨-, hfree, ⟨hone, -⟩ | ⟨-, -, htwo, -⟩⟩ |
      ⟨-, ⟨hgo, -⟩ | ⟨hgo, -⟩⟩⟩⟩ | ⟨w, ⟨-, hopen⟩, hview⟩
  · obtain ⟨-, -, hkind⟩ := hgo
    by_cases ht : t = .queen
    · subst ht
      rw [if_pos ⟨hmod, rfl⟩, hsrc, hdst] at hkind
      unfold StqQueenOk at hkind
      split at hkind
      · rcases hkind with ⟨-, hno⟩ | htake
        · exact absurd rfl (hno _ _ hman).2.1
        · refine .inr ⟨?_, htake.2.2.1⟩
          rw [← hsrc, ← placement_eq_mailbox b hv]
          exact hat
      · rw [hman] at hkind
        cases hkind.2
    · rw [if_neg fun hboth => ht hboth.2, hdst] at hkind
      have hok := hkind.2.2 _ _ hman
      rw [if_neg (Color.opposite_ne _)] at hok
      exact .inl hok.2.2
  · cases hmod.symm.trans hgo.1
  · rw [hone] at hplace
    cases hfree.symm.trans hplace
  · cases htwo.symm.trans hplace
  · exact .inl (hskips hgo.1.2.2.2)
  · exact .inl (hskips hgo.1.2.2.2)
  · -- castling ends on an empty square
    have hempty := hopen.2.1 w.kingTo (kingTo_mem_empties w)
    have hsq : m.toSq = SQ (homeRow b.side) w.kingTo := by
      rw [← hdst, hview]
      rfl
    rw [← hsq, hman] at hempty
    cases hempty

theorem placedType_queen_iff (h : RepInv b.toViews) (hmod : b.mod = .saveQueen)
    (hm : m ∈ pseudoMoves b) (wf : WellFormed b m) :
    placedType m = .queen ↔ m.piece = .queen := by
  unfold placedType
  cases hpromo : m.promo with
  | false => simp
  | true =>
    obtain ⟨hpawn, hsome⟩ := wf.promo_ok hpromo
    obtain ⟨t, ht⟩ := Option.ne_none_iff_exists'.mp hsome
    have hmem : t ∈ promoTypes b (ofPos m.view.dst) :=
      promo_mem_promoTypes h hm (by show (if m.promo then m.promoType else none) = _; rw [hpromo, ht]; rfl)
    unfold promoTypes at hmem
    rw [hmod] at hmem
    rw [hpawn, ht]
    refine iff_of_false ?_ (by decide)
    rintro rfl
    exact absurd (show PieceType.queen ∈ [PieceType.rook, .bishop, .knight] from hmem) (by decide)

/-- A captured queen is the enemy's, and it was not taken en passant. -/
theorem capturedMan_queen (h : GenSafe b) (hmod : b.mod = .saveQueen) (hm : m ∈ pseudoMoves b)
    {c : Color} (hcap : capturedMan b m = some (c, .queen)) :
    m.ep = false ∧ m.isCapture = true ∧ b.mailbox m.toSq = some (c, .queen) ∧
      c = b.side.opposite := by
  have wf := wellFormed_of_mem_pseudoMoves h hm
  unfold capturedMan at hcap
  cases hep : m.ep with
  | true =>
    rw [hep, if_pos rfl, (wf.ep_ok hep).2.2.2.1] at hcap
    cases hcap
  | false =>
    rw [hep, if_neg (by decide)] at hcap
    split at hcap
    · rename_i hc
      refine ⟨rfl, hc, hcap, Color.ne_iff_eq_opposite.mp fun hown => ?_⟩
      have hff := ((target_of_mem h hm hcap).1 hown).1
      cases hmod.symm.trans hff
    · cases hcap

/-- What a line of Save the Queen keeps: the invariant of the board and one queen each. -/
structure QueenInv (b : Board) : Prop extends BoardInv b where
  mod : b.mod = .saveQueen
  queens : ∀ c, menOn b.mailbox (c, .queen) = 1

theorem QueenInv.genSafe (h : QueenInv b) : GenSafe b :=
  h.toBoardInv.genSafe fun hmod => by rw [h.mod] at hmod; exact absurd hmod (by decide)

/-- The count of queens, for a move that has no queen to put back. -/
theorem QueenInv.queens_make (h : QueenInv b) (hm : m ∈ pseudoMoves b) (c : Color)
    (hback : isMan (capturedMan b m) (c, .queen) = isMan (returnedMan b m) (c, .queen)) :
    menOn (boardMakeMove b m).mailbox (c, .queen) = 1 := by
  have wf := wellFormed_of_mem_pseudoMoves h.genSafe hm
  have hplaced : isMan (some (b.side, m.piece)) (c, .queen) =
      isMan (some (b.side, placedType m)) (c, .queen) := by
    unfold isMan
    simp only [Option.some.injEq, Prod.mk.injEq, placedType_queen_iff h.rep h.mod hm wf]
  have hcount := menOn_make wf (c, .queen)
  rw [h.queens c, hplaced, hback] at hcount
  rw [boardMakeMove_mailbox h.rep wf]
  omega

/-- A queen that takes on the enemy's prison square has escaped. -/
theorem QueenInv.escapes (h : QueenInv b) (hm : m ∈ pseudoMoves b)
    (hpiece : m.piece = .queen) (hprison : StqOnPrison m.toSq b.side.opposite)
    (hback : isMan (capturedMan b m) (b.side, .queen) = isMan (returnedMan b m) (b.side, .queen)) :
    StqEscaped (boardMakeMove b m) b.side := by
  have wf := wellFormed_of_mem_pseudoMoves h.genSafe hm
  have hto : (boardMakeMove b m).mailbox m.toSq = some (b.side, .queen) := by
    rw [boardMakeMove_mailbox h.rep wf, makeMailbox_to wf,
      (placedType_queen_iff h.rep h.mod hm wf).mpr hpiece]
  have hrep := (h.toBoardInv.step (fun hmod => by rw [h.mod] at hmod; exact absurd hmod (by decide))
    hm).rep
  apply stqEscaped_of_unique hrep
  intro s hs
  rw [eq_of_menOn_one (h.queens_make hm _ hback) wf.to_valid hto s hs, hprison]

/-- As long as the game goes on, every captured queen goes back. -/
theorem QueenInv.returned (h : QueenInv b) (hply : b.ply < maxHistory) (hm : m ∈ pseudoMoves b)
    (hend : stqTerminalScore (boardMakeMove b m) 0 = none) {c : Color}
    (hcap : capturedMan b m = some (c, .queen)) : returnedMan b m = some (c, .queen) := by
  have wf := wellFormed_of_mem_pseudoMoves h.genSafe hm
  obtain ⟨hep, hc, hman, rfl⟩ := capturedMan_queen h.genSafe h.mod hm hcap
  have hmod : (boardMakeMove b m).mod = .saveQueen := h.mod
  obtain ⟨-, hescaped, hnone⟩ := (stqTerminalScore_eq_none_iff hmod).mp hend
  have hhalf : ¬ StqIsOwnHalf m.toSq b.side.opposite := by
    intro hhalf
    rw [stqCapturedQueen_make hply wf.to_valid hep hc hman hhalf] at hnone
    cases hnone
  unfold returnedMan
  refine if_pos ⟨hep, hc, h.mod, by rw [hman]; rfl, hhalf, ?_⟩
  by_contra hfull
  rcases queen_target h.rep h.mod hm wf.from_valid wf.to_valid hman with hfree | ⟨hown, hprison⟩
  · exact hfree ⟨h.mod, rfl, hhalf, hfull⟩
  · -- the own queen takes the prisoner in its prison, and the game is over
    have hpiece : m.piece = .queen := by
      have heq := wf.from_holds.symm.trans hown
      exact congrArg Prod.snd (Option.some.inj heq)
    have hback : isMan (capturedMan b m) (b.side, .queen) =
        isMan (returnedMan b m) (b.side, .queen) := by
      have hret : returnedMan b m = none := if_neg fun hre => hfull hre.2.2.2.2.2
      rw [hcap, hret]
      unfold isMan
      rw [if_neg (by simp), if_neg (by simp)]
    have hside : (boardMakeMove b m).side.opposite = b.side := by
      have hkb : (makeKb b m).bonus = false := by
        unfold makeKb
        rw [if_neg fun hkb => by rw [h.mod] at hkb; cases hkb.1]
      show (if (makeKb b m).bonus then b.side else b.side.opposite).opposite = b.side
      rw [hkb]
      exact Color.opposite_opposite _
    rw [hside] at hescaped
    exact hescaped (h.escapes hm hpiece hprison hback)

/-- A line of Save the Queen keeps one queen each until it ends. -/
theorem QueenInv.step (h : QueenInv b) (hply : b.ply < maxHistory) (hm : m ∈ pseudoMoves b)
    (hend : stqTerminalScore (boardMakeMove b m) 0 = none) : QueenInv (boardMakeMove b m) where
  toBoardInv := h.toBoardInv.step
    (fun hmod => by rw [h.mod] at hmod; exact absurd hmod (by decide)) hm
  mod := h.mod
  queens := by
    intro c
    apply h.queens_make hm c
    unfold isMan
    by_cases hcap : capturedMan b m = some (c, .queen)
    · rw [if_pos hcap, if_pos (h.returned hply hm hend hcap)]
    · rw [if_neg hcap, if_neg]
      intro hret
      -- what goes back was captured
      unfold returnedMan at hret
      split at hret
      · rename_i hre
        obtain ⟨hep, hc, -, htype, -⟩ := hre
        cases hman : b.mailbox m.toSq with
        | none =>
          rw [hman] at htype
          cases htype
        | some man =>
          obtain ⟨c', t⟩ := man
          rw [hman] at htype
          obtain rfl : t = .queen := Option.some.inj htype
          have hcap' : capturedMan b m = some (c', .queen) := by
            unfold capturedMan
            rw [hep, if_neg (by decide), if_pos hc, hman]
          obtain rfl := (capturedMan_queen h.genSafe h.mod hm hcap').2.2.2
          exact hcap (hcap'.trans hret)
      · cases hret

end Step

end ChessRecast.Engine
