import ChessRecast.Bridge.Classic

/-!
# Rules equivalence in Save the Queen

A captured prisoner queen goes back to its prison. C puts it there before it tests the safety of
the king, Dart only when the move is played; so C has the additional captures in which the queen
on its prison square shields the king.
-/

namespace ChessRecast.Bridge

open App Engine Rules

/-! ## Where pieces may land -/

/-- Save the Queen in Dart: where a queen may go. -/
def QueenLands (d : ChessBoard) (piece : ChessPiece) (z : Position) : Prop :=
  if piece.color.OwnHalf piece.position.row ∧ piece.color.OwnHalf z.row then
    ∀ q, d.getPieceAt z = some q → q.type = .queen →
      z = ChessBoard.queenPrison q.color ∧ KingStep piece.position z
  else KingStep piece.position z ∧ d.getPieceAt z = none

/-- Save the Queen in Dart: where another piece may go. A queen on its prison square is safe, and
so is a prisoner whose prison is occupied. -/
def TakesQueen (d : ChessBoard) (z : Position) : Prop :=
  ∀ q, d.getPieceAt z = some q → q.type = .queen → z ≠ ChessBoard.queenPrison q.color ∧
    (¬ q.color.OwnHalf z.row → d.getPieceAt (ChessBoard.queenPrison q.color) = none)

/-- Where the ruleset of Save the Queen lets a piece land. -/
def StqLands (d : ChessBoard) (piece : ChessPiece) (z : Position) : Prop :=
  d.NoKing z ∧ if piece.type = .queen then QueenLands d piece z else TakesQueen d z

section Dart

variable {d : ChessBoard} {m : ChessMove} {piece : ChessPiece}

theorem any_position_iff (hd : d.Tidy) (z : Position) :
    (d.pieces.any fun p => p.position = z) = true ↔ d.getPieceAt z ≠ none := by
  rw [List.any_eq_true, Option.ne_none_iff_exists']
  constructor
  · rintro ⟨p, hp, hpos⟩
    exact ⟨p, hd.getPieceAt_iff.mpr ⟨hp, of_decide_eq_true hpos⟩⟩
  · rintro ⟨p, hp⟩
    obtain ⟨hmem, hpos⟩ := ChessBoard.mem_of_getPieceAt hp
    exact ⟨p, hmem, decide_eq_true hpos⟩

theorem takesQueenOk_iff (hd : d.Tidy) : d.takesQueenOk m = true ↔ TakesQueen d m.toPos := by
  unfold ChessBoard.takesQueenOk TakesQueen
  cases hq : d.getPieceAt m.toPos with
  | none => simp
  | some target =>
    have hpos := (ChessBoard.mem_of_getPieceAt hq).2
    simp only [Option.some.injEq, forall_eq', hpos]
    by_cases ht : target.type = .queen
    · simp only [ht, if_true, forall_const]
      by_cases hprison : m.toPos = ChessBoard.queenPrison target.color
      · simp [hprison]
      · rw [if_neg hprison]
        simp only [hprison, ne_eq, not_false_eq_true, true_and]
        by_cases hhalf : target.color.OwnHalf m.toPos.row
        · simp [hhalf]
        · rw [if_pos hhalf, Bool.not_eq_true', ← Bool.not_eq_true, any_position_iff hd, not_not]
          simp [hhalf]
    · simp [ht]

theorem isAdjacent_iff {a z : Position} (hne : a ≠ z) :
    ChessBoard.isAdjacent z a = true ↔ KingStep a z := by
  unfold ChessBoard.isAdjacent KingStep
  rw [decide_eq_true_eq]
  exact ⟨fun h => ⟨h.1, h.2, hne⟩, fun h => ⟨h.1, h.2.1⟩⟩

theorem queenTakesQueenOk_iff (hne : piece.position ≠ m.toPos) :
    d.queenTakesQueenOk piece m = true ↔ ∀ q, d.getPieceAt m.toPos = some q → q.type = .queen →
      m.toPos = ChessBoard.queenPrison q.color ∧ KingStep piece.position m.toPos := by
  unfold ChessBoard.queenTakesQueenOk
  cases hq : d.getPieceAt m.toPos with
  | none => simp
  | some target =>
    simp only [Option.some.injEq, forall_eq']
    by_cases ht : target.type = .queen
    · by_cases hprison : m.toPos = ChessBoard.queenPrison target.color
      · simp only [ht, if_true, hprison, ne_eq, not_true, if_false, forall_const, true_and]
        rw [← hprison]
        exact isAdjacent_iff hne
      · simp [ht, hprison]
    · simp [ht]

theorem mem_queenFilter (hd : d.Tidy) (hpiece : piece ∈ d.pieces) (hq : piece.type = .queen) :
    m ∈ d.saveTheQueenFilter (d.getPotentialMoves piece) piece ↔
      m ∈ d.getPotentialMoves piece ∧ QueenLands d piece m.toPos := by
  have hpot : m ∈ d.getPotentialMoves piece ↔ ∃ toPos : Position, toPos.IsValid ∧
      Reach d.placement .queen piece.position toPos ∧ d.NotOwn piece toPos ∧
      m = d.plainMove piece toPos := by
    rw [ChessBoard.mem_getPotentialMoves (hd.valid piece hpiece) (by rw [hq]; decide), hq]
    simp
  unfold ChessBoard.saveTheQueenFilter
  rw [if_pos hq]
  dsimp only
  by_cases hhalf : piece.color.OwnHalf piece.position.row
  · rw [if_pos hhalf, List.mem_filter, List.mem_filter, and_assoc]
    refine and_congr_right fun hm => ?_
    obtain ⟨toPos, -, hreach, -, rfl⟩ := hpot.mp hm
    rw [queenTakesQueenOk_iff hreach.ne]
    show _ ∧ (if piece.color.OwnHalf toPos.row then true else
      ChessBoard.isAdjacent toPos piece.position && (d.getPieceAt toPos).isNone) = true ↔
      QueenLands d piece toPos
    unfold QueenLands
    by_cases hto : piece.color.OwnHalf toPos.row
    · simp only [hhalf, hto, if_true, and_true, and_self]
      rfl
    · rw [if_neg hto, if_neg fun h => hto h.2, Bool.and_eq_true, isAdjacent_iff hreach.ne,
        Option.isNone_iff_eq_none]
      refine ⟨fun h => h.2, fun h => ⟨fun q hq' => ?_, h⟩⟩
      have hq'' : d.getPieceAt toPos = some q := hq'
      rw [h.2] at hq''
      cases hq''
  · rw [if_neg hhalf, ChessBoard.mem_prisonerMoves, hpot]
    have hlands : ∀ toPos, QueenLands d piece toPos ↔
        KingStep piece.position toPos ∧ d.getPieceAt toPos = none := by
      intro toPos
      rw [QueenLands, if_neg fun h => hhalf h.1]
    constructor
    · rintro ⟨toPos, hto, hstep, hfree, rfl⟩
      refine ⟨⟨toPos, hto, hstep.reach_queen hto, fun q hq' => ?_, rfl⟩, (hlands toPos).mpr ⟨hstep, hfree⟩⟩
      rw [hfree] at hq'
      cases hq'
    · rintro ⟨⟨toPos, hto, -, -, rfl⟩, hl⟩
      obtain ⟨hstep, hfree⟩ := (hlands toPos).mp hl
      exact ⟨toPos, hto, hstep, hfree, rfl⟩

theorem mem_saveQueenRuleset (hd : d.Tidy) (hmod : d.gameType = .saveQueen)
    (hpiece : piece ∈ d.pieces) :
    (m ∈ d.applyRulesetFilter (d.getPotentialMoves piece) piece ∧ d.NoKing m.toPos) ↔
      (d.Unlocked piece ∧ m ∈ d.getPotentialMoves piece ∧ StqLands d piece m.toPos) := by
  have hunlocked : d.Unlocked piece := by
    intro hkb
    rw [hmod] at hkb
    cases hkb
  rw [ChessBoard.applyRulesetFilter, hmod]
  unfold StqLands
  by_cases hq : piece.type = .queen
  · rw [if_pos hq, mem_queenFilter hd hpiece hq]
    tauto
  · rw [if_neg hq]
    dsimp only
    rw [ChessBoard.saveTheQueenFilter, if_neg hq, List.mem_filter, takesQueenOk_iff hd]
    tauto

end Dart

/-! ## The rulebooks agree -/

theorem ofPos_queenPrison (c : Color) : ofPos (ChessBoard.queenPrison c) = stqPrison c := by
  cases c <;> rfl

theorem isValid_queenPrison (c : Color) : (ChessBoard.queenPrison c).IsValid := by
  cases c <;> decide

theorem not_ownHalf_queenPrison (c : Color) : ¬ c.OwnHalf (ChessBoard.queenPrison c).row := by
  cases c <;> decide

/-- At most one queen of the colour is on the board. -/
def OneQueen (p : Placement) (c : Color) : Prop :=
  ∀ k k', p k = some (c, .queen) → p k' = some (c, .queen) → k = k'

section Agree

variable {d : ChessBoard} {b : Board} {a z : Position} {piece : ChessPiece}

theorem stqIsOwnHalf_iff (hz : z.IsValid) (c : Color) :
    StqIsOwnHalf (ofPos z) c ↔ c.OwnHalf z.row := by
  unfold StqIsOwnHalf
  rw [show sqRow (ofPos z) = z.row from sqRow_SQ hz]

/-- The captures of queens that C excludes are those that Dart excludes. -/
theorem takesQueen_iff (h : Sim d b) (hmod : d.gameType = .saveQueen) (hz : z.IsValid)
    {q : ChessPiece} (hq : d.getPieceAt z = some q) (hc : q.color = d.currentPlayer.opposite) :
    TakesQueen d z ↔ ¬ StqProtected b (ofPos z) q.type := by
  unfold TakesQueen StqProtected
  rw [h.mod_eq, h.side_eq, stqIsOwnHalf_iff hz, ← ofPos_queenPrison,
    h.mailbox (isValid_queenPrison _), ne_eq, ChessBoard.placement_eq_none]
  simp only [hq, Option.some.injEq, forall_eq', hmod, true_and, hc]
  constructor
  · rintro hok ⟨ht, hhalf, hfull⟩
    exact hfull ((hok ht).2 hhalf)
  · intro hno ht
    refine ⟨?_, fun hhalf => ?_⟩
    · rintro rfl
      refine hno ⟨ht, not_ownHalf_queenPrison _, ?_⟩
      rw [hq]
      exact fun heq => by cases heq
    · by_contra hfull
      exact hno ⟨ht, hhalf, hfull⟩

/-- Taking the queen in its prison, when it is the only enemy queen. -/
theorem prisonTake_iff (h : Sim d b) (hone : OneQueen d.placement d.currentPlayer.opposite)
    (ha : a.IsValid) (hz : z.IsValid) : PrisonTake b (ofPos a) (ofPos z) ↔
      d.placement z = some (d.currentPlayer.opposite, .queen) ∧
      z = ChessBoard.queenPrison d.currentPlayer.opposite ∧ KingStep a z := by
  have hprison : ofPos z = stqPrison d.currentPlayer.opposite ↔
      z = ChessBoard.queenPrison d.currentPlayer.opposite := by
    rw [← ofPos_queenPrison]
    refine ⟨fun heq => ?_, fun heq => congrArg ofPos heq⟩
    rw [← toPos_ofPos hz, heq, toPos_ofPos (isValid_queenPrison _)]
  constructor
  · intro hp
    have hman := (hp.captive h.rep).1
    rw [h.mailbox hz, h.side_eq] at hman
    obtain ⟨-, -, hon, hstep⟩ := hp
    rw [toPos_ofPos ha, toPos_ofPos hz] at hstep
    unfold StqOnPrison at hon
    rw [h.side_eq, hprison] at hon
    exact ⟨hman, hon, hstep⟩
  · rintro ⟨hman, hon, hstep⟩
    have hhalf : StqIsOwnHalf (ofPos z) b.side := by
      rw [stqIsOwnHalf_iff hz, hon, h.side_eq]
      cases d.currentPlayer <;> decide
    have hbit : bbHas (b.pieces b.side.opposite .queen &&& halfMask b.side) (ofPos z) = true := by
      rw [bbHas_and, Bool.and_eq_true, h.rep.bit_iff _ _ _ (sqValid_ofPos hz), h.mailbox hz,
        h.side_eq, bbHas_halfMask (sqValid_ofPos hz)]
      exact ⟨hman, h.side_eq ▸ hhalf⟩
    have hne : b.pieces b.side.opposite .queen &&& halfMask b.side ≠ 0 :=
      bb_ne_zero_iff.mpr ⟨_, sqValid_ofPos hz, hbit⟩
    obtain ⟨hv, hlsb⟩ := bbLsb_spec hne
    rw [bbHas_and, Bool.and_eq_true, h.rep.bit_iff _ _ _ hv] at hlsb
    have hsame : toPos (bbLsb (b.pieces b.side.opposite .queen &&& halfMask b.side)) = z := by
      apply hone _ _ _ hman
      rw [← h.placement_eq, placement_toPos hv, hlsb.1, h.side_eq]
    refine ⟨hne, ?_, ?_, ?_⟩
    · rw [← hsame, ofPos_toPos hv]
    · unfold StqOnPrison
      rw [h.side_eq, hprison]
      exact hon
    · rw [toPos_ofPos ha, toPos_ofPos hz]
      exact hstep

theorem stqQueenOk_iff (h : Sim d b) (hone : OneQueen d.placement d.currentPlayer.opposite)
    (hat : d.getPieceAt a = some piece) (hcolor : piece.color = d.currentPlayer)
    (hz : z.IsValid) : StqQueenOk b (ofPos a) (ofPos z) ↔
      Reach d.placement .queen a z ∧ d.NotOwn piece z ∧ d.NoKing z ∧ QueenLands d piece z := by
  have ha := h.tidy.valid_of_getPieceAt hat
  have hpos := (ChessBoard.mem_of_getPieceAt hat).2
  have hhalves : StqIsOwnHalf (ofPos a) b.side ∧ StqIsOwnHalf (ofPos z) b.side ↔
      d.currentPlayer.OwnHalf a.row ∧ d.currentPlayer.OwnHalf z.row := by
    rw [stqIsOwnHalf_iff ha, stqIsOwnHalf_iff hz, h.side_eq]
  unfold StqQueenOk QueenLands
  rw [hcolor, hpos]
  by_cases hhalf : d.currentPlayer.OwnHalf a.row ∧ d.currentPlayer.OwnHalf z.row
  · rw [if_pos (hhalves.mpr hhalf), if_pos hhalf, prisonTake_iff h hone ha hz, toPos_ofPos ha,
      toPos_ofPos hz, h.mailbox hz, h.placement_eq, h.side_eq]
    constructor
    · rintro (⟨hreach, hmen⟩ | ⟨hman, hon, hstep⟩)
      · have hq : ∀ q, d.getPieceAt z = some q → q.color = d.currentPlayer.opposite ∧
            q.type ≠ .queen ∧ q.type ≠ .king := fun q hq =>
          hmen q.color q.type (ChessBoard.placement_eq_some.mpr ⟨q, hq, rfl⟩)
        refine ⟨hreach, fun q hq' => ?_, fun q hq' => (hq q hq').2.2,
          fun q hq' ht => absurd ht (hq q hq').2.1⟩
        rw [hcolor, (hq q hq').1]
        exact Color.opposite_ne _
      · obtain ⟨q, hq, hqm⟩ := ChessBoard.placement_eq_some.mp hman
        obtain ⟨hqc, hqt⟩ := Prod.mk.inj hqm
        have hsame : ∀ q', d.getPieceAt z = some q' → q' = q := by
          intro q' hq'
          rw [hq] at hq'
          exact (Option.some.inj hq').symm
        refine ⟨hstep.reach_queen hz, fun q' hq' => ?_, fun q' hq' => ?_, fun q' hq' _ => ?_⟩
        · rw [hsame q' hq', hcolor, hqc]
          exact Color.opposite_ne _
        · rw [hsame q' hq', hqt]
          decide
        · rw [hsame q' hq', hqc]
          exact ⟨hon, hstep⟩
    · rintro ⟨hreach, hown, hking, hlands⟩
      by_cases hqueen : ∃ q, d.getPieceAt z = some q ∧ q.type = .queen
      · obtain ⟨q, hq, hqt⟩ := hqueen
        have hqc : q.color = d.currentPlayer.opposite := by
          have := hown q hq
          rw [hcolor] at this
          exact Color.ne_iff_eq_opposite.mp this
        have hl := hlands q hq hqt
        rw [hqc] at hl
        exact .inr ⟨ChessBoard.placement_eq_some.mpr ⟨q, hq, Prod.ext hqc hqt⟩, hl⟩
      · refine .inl ⟨hreach, fun c capt hman => ?_⟩
        obtain ⟨q, hq, hqm⟩ := ChessBoard.placement_eq_some.mp hman
        obtain ⟨rfl, rfl⟩ := Prod.mk.inj hqm
        have hc := hown q hq
        rw [hcolor] at hc
        exact ⟨Color.ne_iff_eq_opposite.mp hc, fun ht => hqueen ⟨q, hq, ht⟩, hking q hq⟩
  · rw [if_neg (mt hhalves.mp hhalf), if_neg hhalf, toPos_ofPos ha, toPos_ofPos hz, h.mailbox hz,
      ChessBoard.placement_eq_none]
    have hnone : d.getPieceAt z = none → ∀ q, d.getPieceAt z ≠ some q := by
      intro hz q hq
      rw [hz] at hq
      cases hq
    constructor
    · rintro ⟨hstep, hfree⟩
      exact ⟨hstep.reach_queen hz, fun q hq => absurd hq (hnone hfree q),
        fun q hq => absurd hq (hnone hfree q), hstep, hfree⟩
    · exact fun hok => hok.2.2.2

theorem stqLandsOk_iff (h : Sim d b) (hmod : d.gameType = .saveQueen) (hz : z.IsValid)
    (t : PieceType) (hcolor : piece.color = d.currentPlayer) :
    LandsOk b t (ofPos z) ↔ d.NotOwn piece z ∧ d.NoKing z ∧ TakesQueen d z := by
  have hheir : b.mod ≠ .heir := by rw [h.mod_eq, hmod]; decide
  have hff : b.mod ≠ .friendlyFire := by rw [h.mod_eq, hmod]; decide
  have hcap : truceNoCap b = false := by simp [truceNoCap, h.mod_eq, hmod]
  have hking : HeirKingOk b t (ofPos z) := fun _ hh => absurd hh hheir
  unfold LandsOk
  rw [and_iff_right hking, h.mailbox hz]
  cases hq : d.getPieceAt z with
  | none =>
    rw [ChessBoard.placement_eq_none.mpr hq]
    simp [ChessBoard.NotOwn, ChessBoard.NoKing, TakesQueen, hq]
  | some q =>
    rw [ChessBoard.placement_eq_some.mpr ⟨q, hq, rfl⟩]
    simp only [ChessPiece.man, Option.some.injEq, Prod.mk.injEq, and_imp, forall_eq',
      forall_apply_eq_imp_iff, ChessBoard.NotOwn, ChessBoard.NoKing, hq, hcolor, h.side_eq]
    by_cases hc : q.color = d.currentPlayer
    · simp [hc, OwnOk, hff]
    · rw [if_neg hc, takesQueen_iff h hmod hz hq (Color.ne_iff_eq_opposite.mp hc)]
      unfold EnemyOk
      simp [hcap, hheir, hc]

theorem stqGoes_iff (h : Sim d b) (hmod : d.gameType = .saveQueen)
    (hone : OneQueen d.placement d.currentPlayer.opposite) {t : PieceType} (ht : t ≠ .pawn)
    (hman : d.placement a = some (d.currentPlayer, t)) (hz : z.IsValid) :
    (d.appBook d.Unlocked (StqLands d)).goes t a z ↔ (book b).goes t a z := by
  have hcap : truceNoCap b = false := by simp [truceNoCap, h.mod_eq, hmod]
  obtain ⟨piece, hat, hpm⟩ := ChessBoard.placement_eq_some.mp hman
  obtain ⟨hcolor, rfl⟩ : piece.color = d.currentPlayer ∧ piece.type = t := Prod.mk.inj hpm
  show (∃ piece', d.getPieceAt a = some piece' ∧ d.Unlocked piece' ∧
      Reach d.placement piece.type a z ∧ d.NotOwn piece' z ∧ StqLands d piece' z) ↔
    (kbLocked b = true → piece.type = .king) ∧ ¬ Frozen b (ofPos a) ∧
      if b.mod = .saveQueen ∧ piece.type = .queen then StqQueenOk b (ofPos a) (ofPos z) else
        Reach (placement b.toViews) piece.type a z ∧ LandsOk b piece.type (ofPos z)
  rw [← h.unlocked_iff ht]
  simp only [hat, Option.some.injEq, exists_eq_left', not_frozen hcap, not_false_eq_true, true_and]
  refine and_congr_right fun _ => ?_
  unfold StqLands
  by_cases hq : piece.type = .queen
  · rw [if_pos hq, if_pos ⟨h.mod_eq.trans hmod, hq⟩, hq, stqQueenOk_iff h hone hat hcolor hz]
  · rw [if_neg hq, if_neg fun hh => hq hh.2, stqLandsOk_iff h hmod hz _ hcolor, h.placement_eq]

theorem stqTakes_iff (h : Sim d b) (hmod : d.gameType = .saveQueen)
    (hman : d.placement a = some (d.currentPlayer, .pawn)) (hz : z.IsValid) :
    (d.appBook d.Unlocked (StqLands d)).takes a z ↔ (book b).takes a z := by
  have hheir : b.mod ≠ .heir := by rw [h.mod_eq, hmod]; decide
  have hff : b.mod ≠ .friendlyFire := by rw [h.mod_eq, hmod]; decide
  have hmerc : b.mod ≠ .mercenary := by rw [h.mod_eq, hmod]; decide
  have hcap : truceNoCap b = false := by simp [truceNoCap, h.mod_eq, hmod]
  obtain ⟨piece, hat, hpm⟩ := ChessBoard.placement_eq_some.mp hman
  obtain ⟨hcolor, hp⟩ : piece.color = d.currentPlayer ∧ piece.type = .pawn := Prod.mk.inj hpm
  have hfree : d.Unlocked piece := fun _ _ => .inr hp
  show (d.gameType ≠ .mercenary ∧ ∃ piece', d.getPieceAt a = some piece' ∧ d.Unlocked piece' ∧
      (∃ target, d.getPieceAt z = some target ∧ target.color ≠ piece'.color) ∧
      StqLands d piece' z) ↔
    (b.mod ≠ .mercenary ∧ ¬ Frozen b (ofPos a) ∧ truceNoCap b = false ∧
      ¬ PawnSkips b (ofPos z)) ∧
    ((∃ capt, b.mailbox (ofPos z) = some (b.side.opposite, capt)) ∨
      ∃ capt, b.mailbox (ofPos z) = some (b.side, capt) ∧ OwnOk b (ofPos z) capt)
  unfold PawnSkips StqLands ChessBoard.NoKing OwnOk
  rw [← h.mod_eq, h.mailbox hz, h.side_eq]
  simp only [hat, Option.some.injEq, exists_eq_left', hfree, true_and, not_frozen hcap, hcap,
    hff, false_and, and_false, exists_false, or_false, not_false_eq_true, hcolor, ne_eq, hmerc,
    hp, reduceCtorEq, if_false]
  cases htarget : d.getPieceAt z with
  | none =>
    rw [ChessBoard.placement_eq_none.mpr htarget]
    simp
  | some target =>
    rw [ChessBoard.placement_eq_some.mpr ⟨target, htarget, rfl⟩]
    simp only [Option.some.injEq, exists_eq_left', forall_eq', ChessPiece.man, Prod.mk.injEq]
    by_cases hc : target.color = d.currentPlayer
    · simp [hc]
    · have hc' := Color.ne_iff_eq_opposite.mp hc
      rw [takesQueen_iff h hmod hz htarget hc']
      simp [hc', hheir]

theorem stqAgree (h : Sim d b) (hmod : d.gameType = .saveQueen)
    (hking : OneKing d.placement d.currentPlayer)
    (hone : OneQueen d.placement d.currentPlayer.opposite) (hcastle : CastlingSound d) :
    Book.Agree (d.appBook d.Unlocked (StqLands d)) (book b) := by
  have hne : ∀ mod, decide (mod = .saveQueen) = false → d.gameType ≠ mod := by
    rintro mod hno rfl
    exact absurd hmod (of_decide_eq_false hno)
  have hcap : truceNoCap b = false := by simp [truceNoCap, h.mod_eq, hmod]
  have hunlocked : ∀ piece, d.Unlocked piece := fun piece hkb => absurd hkb (hne .kingsBattle rfl)
  refine ⟨h.placement_eq.symm, h.side_eq.symm, fun t a z ht hman hz => ?_, fun a z hman hz => ?_,
    fun a hman => ?_, fun a z hman hz _ => ?_, fun a z t _ _ _ => ?_, fun w => ?_⟩
  · exact stqGoes_iff h hmod hone ht hman hz
  · exact h.pawnGoes_iff d.Unlocked (StqLands d) hman hz (fun piece _ => hunlocked piece)
      fun hmerc => absurd hmerc (hne .mercenary rfl)
  · exact h.pushes_iff d.Unlocked (StqLands d) hman fun piece _ =>
      iff_of_true (hunlocked piece) (not_frozen hcap _)
  · exact stqTakes_iff h hmod hman hz
  · exact h.becomes_iff (hne .heir rfl) (hne .succession rfl) (hne .mercenary rfl)
  · have hlock : kbLocked b = false := by simp [kbLocked, h.mod_eq, hmod]
    exact h.castles_iff hking hcastle (hne .heir rfl) hcap hlock d.Unlocked (StqLands d)
      (fun king _ => hunlocked king) w

end Agree

/-! ## The queen goes back to prison -/

/-- The move captures a prisoner queen whose prison is free. -/
def Recaptures (d : ChessBoard) (v : MoveView) : Prop :=
  d.placement v.dst = some (d.currentPlayer.opposite, .queen) ∧
    ¬ d.currentPlayer.opposite.OwnHalf v.dst.row ∧
    d.placement (ChessBoard.queenPrison d.currentPlayer.opposite) = none

/-- The placement after the capture, the queen back in prison. -/
def imprisoned (d : ChessBoard) (v : MoveView) : Placement :=
  Function.update (after d.placement v) (ChessBoard.queenPrison d.currentPlayer.opposite)
    (some (d.currentPlayer.opposite, .queen))

/-- The capture is safe only because the queen, back in prison, stands before the king. -/
def Shielded (d : ChessBoard) (v : MoveView) : Prop :=
  Recaptures d v ∧ Checked d.gameType false (after d.placement v) d.currentPlayer ∧
    ¬ Checked d.gameType false (imprisoned d v) d.currentPlayer

section Legality

variable {d : ChessBoard} {b : Board} {m : Move} {v : MoveView}

theorem reprisons_iff (h : Sim d b) (hsafe : GenSafe b) (hmod : d.gameType = .saveQueen)
    (hm : m ∈ pseudoMoves b) : Reprisons b m ↔ Recaptures d m.view := by
  have wf := wellFormed_of_mem_pseudoMoves hsafe hm
  have hto : d.placement m.view.dst = b.mailbox m.toSq := by
    rw [← h.placement_eq]
    exact placement_toPos wf.to_valid
  have hhalf : StqIsOwnHalf m.toSq b.side.opposite ↔
      d.currentPlayer.opposite.OwnHalf m.view.dst.row := by
    rw [h.side_eq]
    rfl
  have hprison : b.mailbox (stqPrison b.side.opposite) =
      d.placement (ChessBoard.queenPrison d.currentPlayer.opposite) := by
    rw [← ofPos_queenPrison, h.side_eq, h.mailbox (isValid_queenPrison _)]
  unfold Reprisons Recaptures StqReprisons
  rw [hhalf, hprison, hto]
  constructor
  · rintro ⟨-, -, -, htype, hrest⟩
    obtain ⟨⟨c, t⟩, hman, rfl⟩ := Option.map_eq_some_iff.mp htype
    refine ⟨?_, hrest⟩
    have hc : c ≠ b.side := by
      rintro rfl
      have hown := (target_of_mem hsafe hm hman).1 rfl
      rw [OwnOk, h.mod_eq, hmod] at hown
      cases hown.1
    rw [hman, Color.ne_iff_eq_opposite.mp hc, h.side_eq]
  · rintro ⟨hman, hrest⟩
    have hep : m.ep = false := by
      rw [← Bool.not_eq_true]
      intro hep
      rw [(wf.ep_ok hep).2.2.1] at hman
      cases hman
    refine ⟨hep, ?_, h.mod_eq.trans hmod, ?_, hrest⟩
    · rw [Move.isCapture, wf.captured_eq hep, hman]
      rfl
    · rw [hman]
      rfl

/-- `is_legal`, with the captured queen already back in prison. -/
theorem stqLegal_iff (h : Sim d b) (hsafe : GenSafe b) (hmod : d.gameType = .saveQueen)
    (hone : OneKing d.placement d.currentPlayer) (hm : m ∈ pseudoMoves b)
    (hre : Recaptures d m.view) :
    legal b m = true ↔ ¬ Checked d.gameType false (imprisoned d m.view) d.currentPlayer := by
  have wf := wellFormed_of_mem_pseudoMoves hsafe hm
  have hcap : truceNoCap b = false := by simp [truceNoCap, h.mod_eq, hmod]
  have hplace : placement (boardMakeMove b m).toViews = imprisoned d m.view := by
    funext q
    rw [placement_boardMakeMove h.rep wf, imprisoned, Function.update_apply, h.placement_eq,
      h.side_eq, ← ofPos_queenPrison, toPos_ofPos (isValid_queenPrison _)]
    simp only [(reprisons_iff h hsafe hmod hm).mpr hre, true_and]
  have hpromo := promo_ne_king h.rep (by rw [h.mod_eq, hmod]; decide)
    (by rw [h.mod_eq, hmod]; decide) hm
  have hafter : OneKing (after d.placement m.view) d.currentPlayer := by
    rw [← h.placement_eq]
    exact Engine.oneKing_view wf (h.placement_eq.symm ▸ hone) hpromo
  have hkings : OneKing (imprisoned d m.view) d.currentPlayer := by
    intro k k' hk hk'
    unfold imprisoned at hk hk'
    rw [Function.update_apply] at hk hk'
    split at hk
    · simp at hk
    · split at hk'
      · simp at hk'
      · exact hafter k k' hk hk'
  rw [legal_iff hcap, ← Bool.not_eq_true, not_iff_not,
    boardInCheck_iff (repInv_boardMakeMove h.rep wf) (by rw [hplace, h.side_eq]; exact hkings),
    hplace, show (boardMakeMove b m).mod = d.gameType from h.mod_eq, h.side_eq, hmod]
  simp only [reduceCtorEq, false_and, not_false_eq_true, true_and]
  exact checked_phase (by decide) _ _ _ _

theorem checked_of_imprisoned (hmod : d.gameType = .saveQueen) (hep : v.ep = false)
    (hcastle : v.castle = false) (hre : Recaptures d v)
    (h : Checked d.gameType false (imprisoned d v) d.currentPlayer) :
    Checked d.gameType false (after d.placement v) d.currentPlayer := by
  obtain ⟨hqueen, -, hfree⟩ := hre
  have hempty : after d.placement v (ChessBoard.queenPrison d.currentPlayer.opposite) = none := by
    have hdst : ChessBoard.queenPrison d.currentPlayer.opposite ≠ v.dst := by
      intro heq
      rw [heq, hqueen] at hfree
      cases hfree
    simp only [after, hcastle, hep, Bool.false_eq_true, false_and, if_false, hdst, hfree, ite_self]
  have hstays : ∀ {s man}, imprisoned d v s = some man →
      s ≠ ChessBoard.queenPrison d.currentPlayer.opposite → after d.placement v s = some man := by
    intro s man hs hne
    rwa [imprisoned, Function.update_of_ne hne] at hs
  obtain ⟨k, hk, a, t, ha, hman, hphase, hhalf, hreach⟩ := h
  have hkp : k ≠ ChessBoard.queenPrison d.currentPlayer.opposite := by
    rintro rfl
    rw [imprisoned, Function.update_self] at hk
    simp at hk
  have hap : a ≠ ChessBoard.queenPrison d.currentPlayer.opposite := by
    rintro rfl
    rw [imprisoned, Function.update_self] at hman
    obtain rfl := congrArg Prod.snd (Option.some.inj hman)
    exact not_ownHalf_queenPrison _ (hhalf hmod rfl)
  refine ⟨k, hstays hk hkp, a, t, ha, hstays hman hap, hphase, hhalf, ?_⟩
  split at hreach
  · rename_i hp
    rw [if_pos hp]
    exact hreach
  · rename_i hp
    rw [if_neg hp]
    refine hreach.mono fun s hs => ?_
    by_cases hsp : s = ChessBoard.queenPrison d.currentPlayer.opposite
    · rw [hsp, hempty]
    · rwa [imprisoned, Function.update_of_ne hsp] at hs

/-- What Dart offers of the pseudo-legal moves of C: the legal ones that are not shielded. -/
theorem offers_iff_not_shielded (h : Sim d b) (hsafe : GenSafe b) (hmod : d.gameType = .saveQueen)
    (hone : OneKing d.placement d.currentPlayer) (hm : m ∈ pseudoMoves b) :
    ¬ Checked d.gameType false (after d.placement m.view) d.currentPlayer ↔
      legal b m = true ∧ ¬ Shielded d m.view := by
  have wf := wellFormed_of_mem_pseudoMoves hsafe hm
  by_cases hre : Recaptures d m.view
  · have hre' := (reprisons_iff h hsafe hmod hm).mpr hre
    have hcastle : m.castle = false := by
      rw [← Bool.not_eq_true]
      exact fun hc => not_reprisons_of_castle wf hc hre'
    rw [stqLegal_iff h hsafe hmod hone hm hre]
    constructor
    · intro hno
      exact ⟨fun hc => hno (checked_of_imprisoned hmod hre'.1 hcastle hre hc),
        fun hsh => hno hsh.2.1⟩
    · exact fun hlegal hc => hlegal.2 ⟨hre, hc, hlegal.1⟩
  · have hphase : d.gameType = .kingsBattle → (boardMakeMove b m).kbUnlocked = false := by
      rw [hmod]
      exact fun hkb => by cases hkb
    rw [h.legal_iff_safe wf hone (by rw [hmod]; decide) (by rw [hmod]; decide)
      (by simp [truceNoCap, h.mod_eq, hmod]) hm (mt (reprisons_iff h hsafe hmod hm).mp hre) hphase]
    exact ⟨fun hno => ⟨hno, fun hsh => hre hsh.1⟩, fun hno => hno.1⟩

end Legality

/-- A Save the Queen position that is still ongoing: a valid one with one queen each. -/
structure QueenPosition (d : ChessBoard) : Prop extends ValidPosition d where
  mod : d.gameType = .saveQueen
  queens : ∀ c, (d.pieces.filter fun p => p.type = .queen ∧ p.color = c).length = 1

theorem QueenPosition.oneQueen {d : ChessBoard} (h : QueenPosition d) (c : Color) :
    OneQueen d.placement c :=
  fun _ _ hk hk' => ChessBoard.unique_of_filter (h.queens c).le hk hk'

/-- Dart offers what C has as pseudo-legal moves and leaves the king safe before the captured
queen is back in prison. -/
theorem QueenPosition.offers_iff {d : ChessBoard} (h : QueenPosition d) (v : MoveView) :
    d.Offers v ↔ (∃ m ∈ pseudoMoves (handOver d), m.view = v) ∧
      ¬ Checked d.gameType false (after d.placement v) d.currentPlayer := by
  have hking := ChessBoard.kingFound_of_oneKing h.tidy (h.oneKing d.currentPlayer)
  have hcap : truceNoCap (handOver d) = false := by simp [truceNoCap, h.sim.mod_eq, h.mod]
  rw [exists_pseudoMoves_iff h.sim.rep, ← Book.allows_congr (stqAgree h.sim h.mod (h.oneKing _)
    (h.oneQueen _) h.castling)]
  · refine ChessBoard.offers_iff_book h.tidy hking (fun _ => h.enPassant) (by rw [h.mod]; decide)
      (fun ht => by rw [h.mod] at ht; cases ht.1) ?_ ?_ ?_
    · intro piece z hp hz
      have hnone : ∀ q, d.getPieceAt z ≠ some q := by simp [hz]
      refine ⟨fun q hq => absurd hq (hnone q), ?_⟩
      rw [if_neg hp]
      exact fun q hq => absurd hq (hnone q)
    · intro piece hpiece _ m _
      exact mem_saveQueenRuleset h.tidy h.mod hpiece
    · intro m hm hv
      have hphase : d.gameType = .kingsBattle → d.unlockedAfter m = false := by
        rw [h.mod]
        exact fun hkb => by cases hkb
      rw [ChessBoard.validation_safe_iff h.tidy (h.oneKing _) (by rw [h.mod]; decide)
        (by rw [h.mod]; decide) hm (fun _ => h.enPassant) hphase, hv]
  · intro _ hman hdst hstep
    exact h.sim.passant_iff h.enPassant
      (reads_handOver h.tidy fun t ht => (h.enPassant t ht).1).ep_eq hcap d.Unlocked (StqLands d)
      (fun piece hp _ _ => .inr hp) hman hdst hstep

/-- In Save the Queen both engines have the same moves exactly when no shielded capture is among
the first `MAX_MOVES` pseudo-legal moves of C and no other legal move is behind them. -/
theorem saveQueen_moves_agree_iff (d : ChessBoard) (hd : QueenPosition d) :
    (∀ v, d.Offers v ↔ Generates (handOver d) v) ↔
      (∀ m ∈ (pseudoMoves (handOver d)).take maxMoves, ¬ Shielded d m.view) ∧
      ∀ m ∈ pseudoMoves (handOver d), legal (handOver d) m = true → ¬ Shielded d m.view →
        m ∈ (pseudoMoves (handOver d)).take maxMoves := by
  have hsplit : ∀ m ∈ pseudoMoves (handOver d), (d.Offers m.view ↔
      legal (handOver d) m = true ∧ ¬ Shielded d m.view) := by
    intro m hm
    rw [hd.offers_iff, and_iff_right ⟨m, hm, rfl⟩]
    exact offers_iff_not_shielded hd.sim hd.genSafe hd.mod (hd.oneKing _) hm
  constructor
  · intro hall
    constructor
    · intro m hm hsh
      have hm' := List.mem_of_mem_take hm
      have hlegal : legal (handOver d) m = true :=
        (stqLegal_iff hd.sim hd.genSafe hd.mod (hd.oneKing _) hm' hsh.1).mpr hsh.2.2
      have hgen := (generates_iff_mem_take hd.genSafe.soundMoves hd.ply_lt hm' hlegal).mpr hm
      exact ((hsplit m hm').mp ((hall _).mpr hgen)).2 hsh
    · intro m hm hlegal hsh
      rw [← generates_iff_mem_take hd.genSafe.soundMoves hd.ply_lt hm hlegal, ← hall]
      exact (hsplit m hm).mpr ⟨hlegal, hsh⟩
  · rintro ⟨hno, hfits⟩ v
    rw [generates_iff hd.genSafe.soundMoves hd.ply_lt]
    constructor
    · intro hoff
      obtain ⟨⟨m, hm, rfl⟩, -⟩ := (hd.offers_iff v).mp hoff
      obtain ⟨hlegal, hsh⟩ := (hsplit m hm).mp hoff
      exact ⟨m, hfits m hm hlegal hsh, hlegal, rfl⟩
    · rintro ⟨m, hm, hlegal, rfl⟩
      exact (hsplit m (List.mem_of_mem_take hm)).mpr ⟨hlegal, hno m hm⟩

/-- At the start no queen can be taken. -/
theorem saveQueen_moves_agree_start : QueenPosition (ChessBoard.initial .saveQueen) ∧ ∀ v,
    (ChessBoard.initial .saveQueen).Offers v ↔ Generates (startBoard .saveQueen) v := by
  have hvalid : QueenPosition (ChessBoard.initial .saveQueen) := by
    refine ⟨⟨⟨by decide, by decide +kernel⟩, ?_, ?_, ?_⟩, rfl, ?_⟩
    · intro c
      cases c <;> decide
    · intro c w _
      cases c <;> cases w <;> decide +kernel
    · intro t ht
      cases ht
    · intro c
      cases c <;> decide
  refine ⟨hvalid, (saveQueen_moves_agree_iff _ hvalid).mpr ⟨?_, ?_⟩⟩
  · intro m hm hsh
    have hall : ∀ m ∈ (pseudoMoves (startBoard .saveQueen)).take maxMoves,
        (ChessBoard.initial .saveQueen).placement m.view.dst ≠ some (.black, .queen) := by
      decide +kernel
    exact hall m hm hsh.1.1
  · intro m hm _ _
    rw [List.take_of_length_le (by decide +kernel)]
    exact hm

/-- A rook on c1, pinned before its king, can take the prisoner queen on c3, which then stands
on d1 in the way of the pinning rook. -/
def shieldBoard : ChessBoard where
  pieces := [⟨.king, .white, ⟨0, 1⟩, true⟩, ⟨.rook, .white, ⟨0, 2⟩, true⟩,
    ⟨.queen, .white, ⟨7, 3⟩, false⟩, ⟨.king, .black, ⟨7, 6⟩, true⟩,
    ⟨.rook, .black, ⟨0, 7⟩, true⟩, ⟨.queen, .black, ⟨2, 2⟩, true⟩]
  whiteCanCastleKingside := false
  whiteCanCastleQueenside := false
  blackCanCastleKingside := false
  blackCanCastleQueenside := false
  gameType := .saveQueen

theorem queenPosition_shieldBoard : QueenPosition shieldBoard where
  tidy := ⟨by decide, by decide +kernel⟩
  kings := by
    intro c
    cases c <;> decide
  castling := by
    intro c w h
    cases c <;> cases w <;> cases h
  enPassant := by
    intro t ht
    cases ht
  mod := rfl
  queens := by
    intro c
    cases c <;> decide

/-- C generates the capture of the queen, Dart does not offer it. -/
theorem shieldBoard_capture_differs : QueenPosition shieldBoard ∧
    Generates (handOver shieldBoard) (.plain ⟨0, 2⟩ ⟨2, 2⟩) ∧
    ¬ shieldBoard.Offers (.plain ⟨0, 2⟩ ⟨2, 2⟩) := by
  refine ⟨queenPosition_shieldBoard, ?_⟩
  unfold ChessBoard.Offers Generates
  decide +kernel

end ChessRecast.Bridge
