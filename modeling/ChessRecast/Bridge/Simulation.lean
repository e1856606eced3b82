import ChessRecast.App.SafetyTheorems
import ChessRecast.Bridge.FenTheorems
import ChessRecast.Engine.SafetyTheorems

/-!
# The same position on both boards

`Sim d b` says that the C board `b` shows the Dart position `d`. Then both engines see the same
attacks and checks, and the two rulebooks agree wherever the mod has no rules of its own.
-/

namespace ChessRecast.Bridge

open App Engine Rules

/-- The C board shows the Dart position, en passant aside. -/
structure Sim (d : ChessBoard) (b : Board) : Prop where
  tidy : d.Tidy
  rep : RepInv b.toViews
  placement_eq : placement b.toViews = d.placement
  side_eq : b.side = d.currentPlayer
  mod_eq : b.mod = d.gameType
  rights : ∀ c w, HasRight b.castling c w ↔ d.castleFlag c w = true
  phase : d.gameType = .kingsBattle → b.kbUnlocked = d.isPhase2Unlocked
  moved : d.gameType = .friendlyFire → ∀ z : Position, z.IsValid →
    (bbHas b.ffMoved (ofPos z) = true ↔ ∃ q, d.getPieceAt z = some q ∧ q.hasMoved = true)

/-- A castling flag implies king and rook at home. -/
def CastlingSound (d : ChessBoard) : Prop :=
  ∀ c w, d.castleFlag c w = true → d.placement ⟨homeRow c, 4⟩ = some (c, .king) ∧
    d.placement ⟨homeRow c, w.rookCol⟩ = some (c, .rook)

/-- Every en-passant capture that the C generator sees takes a pawn and ends on an empty
square. A stale target of the Dart board need not be like that. -/
def PassantFits (d : ChessBoard) : Prop :=
  ∀ t, d.enPassantTarget = some t → ∀ a, d.placement a = some (d.currentPlayer, .pawn) →
    PawnStep d.currentPlayer a t →
    ∀ type, d.placement ⟨a.row, t.col⟩ = some (d.currentPlayer.opposite, type) →
      d.placement t = none ∧ type = .pawn

theorem sim_handOver {d : ChessBoard} (hd : d.Tidy)
    (hep : ∀ t, d.enPassantTarget = some t → t.IsValid) : Sim d (handOver d) where
  tidy := hd
  rep := repInv_handOver d
  placement_eq := (reads_handOver hd hep).placement_eq
  side_eq := (reads_handOver hd hep).side_eq
  mod_eq := rfl
  rights := (reads_handOver hd hep).rights
  phase := by
    intro hmod
    show (if d.gameType = .kingsBattle then truceActiveArg d else false) = _
    rw [if_pos hmod, truceActiveArg, hmod]
  moved := by
    intro hmod z hz
    have hbits : (handOver d).ffMoved = getHasMovedBitboard d := by
      show (if d.gameType = .friendlyFire then truceFrozenArg d else 0) = _
      rw [if_pos hmod, truceFrozenArg, hmod]
    rw [hbits]
    exact bbHas_marks hd (fun p => p.hasMoved) hz

namespace Sim

variable {d : ChessBoard} {b : Board} {z : Position} {c : Color}

theorem mailbox (h : Sim d b) (hz : z.IsValid) : b.mailbox (ofPos z) = d.placement z := by
  rw [← h.placement_eq, placement_eq_mailbox b hz]

/-! ## Attack and check -/

theorem attacked_iff (h : Sim d b) (hz : z.IsValid) :
    boardSquareAttacked b (ofPos z) c = true ↔ d.isPositionUnderAttack z c = true := by
  rw [boardSquareAttacked_iff h.rep (sqValid_ofPos hz), toPos_ofPos hz,
    ChessBoard.isPositionUnderAttack_iff h.tidy hz, h.placement_eq, h.mod_eq]
  unfold Attacked Bears
  by_cases hkb : d.gameType = .kingsBattle
  · rw [h.phase hkb]
    rfl
  · simp only [hkb, false_implies]

theorem inCheck_iff (h : Sim d b) (hone : OneKing d.placement c) (hheir : d.gameType ≠ .heir)
    (hcap : truceNoCap b = false) :
    boardInCheck b c = true ↔ d.isKingInCheck c = true := by
  have htruce : ¬ (b.mod = .truce ∧ b.truceActive = true) := by
    intro ht
    simp [truceNoCap, ht.1, ht.2] at hcap
  have hheir' : ¬ (b.mod = .heir ∧ heirCheckApplies b c = false) := fun hh =>
    hheir (h.mod_eq ▸ hh.1)
  rw [boardInCheck_iff h.rep (by rw [h.placement_eq]; exact hone),
    ChessBoard.isKingInCheck_iff h.tidy hone, h.placement_eq, h.mod_eq]
  rw [h.mod_eq] at htruce hheir'
  have hphase : Checked d.gameType b.kbUnlocked d.placement c ↔
      Checked d.gameType d.isKingsBattlePhase2Unlocked d.placement c := by
    by_cases hkb : d.gameType = .kingsBattle
    · rw [h.phase hkb]
      rfl
    · exact checked_phase hkb _ _ _ _
  rw [hphase]
  exact ⟨fun hc => hc.2.2, fun hc => ⟨hheir', htruce, hc⟩⟩

/-! ## What the generator trusts -/

theorem epInv (h : Sim d b) (hep : d.EpSound) (hsame : b.epSquare = epOf d.enPassantTarget) :
    EpInv b := by
  cases ht : d.enPassantTarget with
  | none =>
    left
    rw [hsame, ht]
    rfl
  | some t =>
    obtain ⟨hv, hempty, hpawn⟩ := hep t ht
    have hsq : b.epSquare = ofPos t := by
      rw [hsame, ht]
      rfl
    have hvb : (t.offset (-d.currentPlayer.forward) 0).IsValid := by
      obtain ⟨q, hq, -⟩ := ChessBoard.placement_eq_some.mp hpawn
      exact h.tidy.valid_of_getPieceAt hq
    right
    rw [hsq]
    refine ⟨sqValid_ofPos hv, ?_, ?_⟩
    · rw [h.mailbox hv, hempty]
    · have hrow : sqRow (ofPos t) = t.row := sqRow_SQ hv
      have hcol : sqCol (ofPos t) = t.col := sqCol_SQ hv
      rw [hrow, hcol, h.side_eq]
      have := h.mailbox hvb
      rw [hpawn] at this
      simpa [ofPos, sub_eq_add_neg] using this

theorem genSafe (h : Sim d b) (hep : d.EpSound) (hsame : b.epSquare = epOf d.enPassantTarget)
    (hcastle : CastlingSound d) : GenSafe b where
  rep := h.rep
  ep := h.epInv hep hsame
  rook := by
    intro w hright
    have hflag := (h.rights _ _).mp hright
    have hrook := (hcastle _ _ hflag).2
    rw [← h.mailbox (isValid_home (rookCol_bounds w))] at hrook
    exact hrook
  king := by
    intro w _ hopen
    have hflag := (h.rights _ _).mp hopen.1
    have hking := (hcastle _ _ hflag).1
    rw [← h.mailbox (isValid_home (by norm_num))] at hking
    exact hking

/-- With king and rook at home wherever there is a right and with captures in order, every
pseudo-legal move is well formed. -/
theorem soundMoves (h : Sim d b) (hcastle : CastlingSound d)
    (hpassant : ∀ m, PseudoShape b m → PassantOk b m) : SoundMoves b where
  rep := h.rep
  wellFormed := by
    intro m hm
    have hshape := shape_of_mem_pseudoMoves h.rep hm
    refine hshape.wellFormed (fun w _ hopen _ => ?_) (hpassant m hshape)
    obtain ⟨hking, hrook⟩ := hcastle _ _ ((h.rights _ _).mp hopen.1)
    rw [← h.mailbox (isValid_home (by norm_num))] at hking
    rw [← h.mailbox (isValid_home (rookCol_bounds w))] at hrook
    exact ⟨hking, hrook⟩

theorem passantOk (h : Sim d b) (hvalid : ∀ t, d.enPassantTarget = some t → t.IsValid)
    (hfits : PassantFits d) (hsame : b.epSquare = epOf d.enPassantTarget) {m : Move}
    (hm : PseudoShape b m) : PassantOk b m := by
  intro hep
  cases hm with
  | plain sq toSq pt hsq hto hne hman heq => subst heq; cases hep
  | promotion sq toSq pt hsq hto hne hman heq => subst heq; cases hep
  | castle w hnow hopen heq => subst heq; cases hep
  | passant sq t hsq hto hstep hman hsome hcapt heq =>
    subst heq
    cases htarget : d.enPassantTarget with
    | none =>
      rw [hsame, htarget] at hsome
      exact absurd rfl hsome
    | some target =>
      have hpos : toPos b.epSquare = target := by
        rw [hsame, htarget]
        exact toPos_ofPos (hvalid target htarget)
      have hplace : ∀ s, SqValid s → d.placement (toPos s) = b.mailbox s := fun s hs => by
        rw [← h.placement_eq, placement_toPos hs]
      have hbeside : (⟨(toPos sq).row, target.col⟩ : Position) =
          toPos (SQ (sqRow sq) (sqCol b.epSquare)) := by
        rw [← hpos]
        exact (toPos_ofPos (p := ⟨sqRow sq, sqCol b.epSquare⟩)
          ⟨hsq.inside.1, hsq.inside.2.1, hto.inside.2.2⟩).symm
      have hvb : SqValid (SQ (sqRow sq) (sqCol b.epSquare)) :=
        sqValid_SQ ⟨hsq.inside.1, hsq.inside.2.1, hto.inside.2.2⟩
      have hfit := hfits target htarget (toPos sq)
        (by rw [hplace sq hsq, hman, h.side_eq]) (by rw [← hpos, ← h.side_eq]; exact hstep) t
        (by rw [hbeside, hplace _ hvb, hcapt, h.side_eq])
      refine ⟨?_, ?_⟩
      · show b.mailbox b.epSquare = none
        rw [← hplace _ hto, hpos]
        exact hfit.1
      · show b.mailbox (SQ (sqRow sq) (sqCol b.epSquare)) = _
        rw [hcapt, hfit.2]

/-! ## Agreement of the rulebooks -/

/-- The square may be entered: no own man and no king stands there. -/
def Enters (p : Placement) (c : Color) (z : Position) : Prop :=
  ∀ man, p z = some man → man.1 ≠ c ∧ man.2 ≠ .king

theorem notOwn_noKing_iff {piece : ChessPiece} :
    d.NotOwn piece z ∧ d.NoKing z ↔ Enters d.placement piece.color z := by
  unfold ChessBoard.NotOwn ChessBoard.NoKing Enters
  simp only [ChessBoard.placement_eq_some]
  constructor
  · rintro ⟨hown, hking⟩ _ ⟨q, hq, rfl⟩
    exact ⟨hown q hq, hking q hq⟩
  · intro h
    exact ⟨fun q hq => (h _ ⟨q, hq, rfl⟩).1, fun q hq => (h _ ⟨q, hq, rfl⟩).2⟩

theorem ownOk_iff (h : Sim d b) (hz : z.IsValid) :
    (∃ capt, b.mailbox (ofPos z) = some (b.side, capt) ∧ OwnOk b (ofPos z) capt) ↔
      d.OwnTarget z := by
  unfold OwnOk ChessBoard.OwnTarget
  rw [h.mailbox hz, h.side_eq, h.mod_eq]
  simp only [ChessBoard.placement_eq_some]
  constructor
  · rintro ⟨capt, ⟨q, hq, hman⟩, hmod, hking, hmoved⟩
    obtain ⟨q', hq', hm⟩ := (h.moved hmod z hz).mp hmoved
    rw [hq] at hq'
    obtain rfl := Option.some.inj hq'
    obtain ⟨hcolor, rfl⟩ := Prod.mk.inj hman
    exact ⟨hmod, q, hq, hcolor, hking, hm⟩
  · rintro ⟨hmod, q, hq, hcolor, hking, hm⟩
    exact ⟨q.type, ⟨q, hq, Prod.ext hcolor rfl⟩, hmod, hking, (h.moved hmod z hz).mpr ⟨q, hq, hm⟩⟩

theorem landsOk_iff (h : Sim d b) (hz : z.IsValid) (t : PieceType) (hheir : b.mod ≠ .heir)
    (hstq : b.mod ≠ .saveQueen) (hcap : truceNoCap b = false) :
    LandsOk b t (ofPos z) ↔ Enters d.placement d.currentPlayer z ∨ d.OwnTarget z := by
  rw [← h.ownOk_iff hz]
  unfold LandsOk Enters
  have hking : HeirKingOk b t (ofPos z) := fun _ hh => absurd hh hheir
  rw [and_iff_right hking, ← h.side_eq, ← h.mailbox hz]
  cases hman : b.mailbox (ofPos z) with
  | none => simp
  | some man =>
    obtain ⟨c, capt⟩ := man
    simp only [Option.some.injEq, Prod.mk.injEq, and_imp, forall_eq', forall_apply_eq_imp_iff]
    unfold EnemyOk StqProtected
    by_cases hc : c = b.side
    · simp [hc]
    · simp [hc, hcap, hheir, hstq]

/-! ### Field by field -/

theorem kbLocked_iff (h : Sim d b) :
    kbLocked b = true ↔ d.gameType = .kingsBattle ∧ d.isPhase2Unlocked = false := by
  unfold kbLocked
  rw [Bool.and_eq_true, decide_eq_true_eq, h.mod_eq, Bool.not_eq_true']
  exact and_congr_right fun hmod => by rw [h.phase hmod]

section Fields

variable (free : ChessPiece → Prop) (lands : ChessPiece → Position → Prop) {a : Position}

theorem pawnGoes_iff (h : Sim d b) (hman : d.placement a = some (d.currentPlayer, .pawn))
    (hz : z.IsValid) (hfree : ∀ piece, piece.type = .pawn → free piece)
    (hlands : d.gameType = .mercenary → ∀ piece, d.NoKing z → lands piece z) :
    (d.appBook free lands).pawnGoes a z ↔ (book b).pawnGoes a z := by
  obtain ⟨piece, hat, hpm⟩ := ChessBoard.placement_eq_some.mp hman
  obtain ⟨hcolor, hp⟩ : piece.color = d.currentPlayer ∧ piece.type = .pawn := Prod.mk.inj hpm
  have henters : (∀ c capt, b.mailbox (ofPos z) = some (c, capt) →
      c = b.side.opposite ∧ capt ≠ .king) ↔ d.NotOwn piece z ∧ d.NoKing z := by
    rw [notOwn_noKing_iff, h.mailbox hz, Enters, Prod.forall, hcolor, h.side_eq]
    simp only [Color.ne_iff_eq_opposite]
  show (d.gameType = .mercenary ∧ ∃ piece, d.getPieceAt a = some piece ∧ free piece ∧
    KingStep a z ∧ d.NotOwn piece z ∧ d.NoKing z ∧ lands piece z) ↔
    b.mod = .mercenary ∧ KingStep a z ∧ _
  rw [henters, h.mod_eq]
  constructor
  · rintro ⟨hmod, q, hq, -, hstep, hown, hking, -⟩
    rw [hat] at hq
    obtain rfl := Option.some.inj hq
    exact ⟨hmod, hstep, hown, hking⟩
  · rintro ⟨hmod, hstep, hown, hking⟩
    exact ⟨hmod, piece, hat, hfree piece hp, hstep, hown, hking, hlands hmod piece hking⟩

theorem pushes_iff (h : Sim d b) (hman : d.placement a = some (d.currentPlayer, .pawn))
    (hfree : ∀ piece, d.getPieceAt a = some piece → (free piece ↔ ¬ Frozen b (ofPos a))) :
    (d.appBook free lands).pushes a ↔ (book b).pushes a := by
  obtain ⟨piece, hat, -⟩ := ChessBoard.placement_eq_some.mp hman
  show (d.gameType ≠ .mercenary ∧ ∃ piece, d.getPieceAt a = some piece ∧ free piece) ↔
    b.mod ≠ .mercenary ∧ ¬ Frozen b (ofPos a)
  rw [h.mod_eq, ← hfree piece hat]
  simp only [hat, Option.some.injEq, exists_eq_left']

theorem unlocked_iff (h : Sim d b) {piece : ChessPiece} (hp : piece.type ≠ .pawn) :
    d.Unlocked piece ↔ (kbLocked b = true → piece.type = .king) := by
  rw [h.kbLocked_iff, and_imp]
  unfold ChessBoard.Unlocked
  simp only [hp, or_false]

/-- Where pieces go, in the mods without a rule of their own. -/
theorem goes_iff (h : Sim d b) (hheir : d.gameType ≠ .heir) (hstq : d.gameType ≠ .saveQueen)
    (hcap : truceNoCap b = false) {t : PieceType} (ht : t ≠ .pawn)
    (hman : d.placement a = some (d.currentPlayer, t)) (hz : z.IsValid)
    (hlock : d.gameType = .friendlyFire → ∀ piece, d.Unlocked piece) :
    ((d.appBook d.Unlocked fun _ => d.NoKing).withTakes d.OwnTarget).goes t a z ↔
      (book b).goes t a z := by
  have hlands := h.landsOk_iff hz t (h.mod_eq ▸ hheir) (h.mod_eq ▸ hstq) hcap
  obtain ⟨piece, hat, hpm⟩ := ChessBoard.placement_eq_some.mp hman
  obtain ⟨hcolor, rfl⟩ : piece.color = d.currentPlayer ∧ piece.type = t := Prod.mk.inj hpm
  show ((∃ piece', d.getPieceAt a = some piece' ∧ d.Unlocked piece' ∧
      Reach d.placement piece.type a z ∧ d.NotOwn piece' z ∧ d.NoKing z) ∨
      (d.OwnTarget z ∧ Reach d.placement piece.type a z)) ↔
    (kbLocked b = true → piece.type = .king) ∧ ¬ Frozen b (ofPos a) ∧
      if b.mod = .saveQueen ∧ piece.type = .queen then _ else
        Reach (placement b.toViews) piece.type a z ∧ LandsOk b piece.type (ofPos z)
  rw [if_neg fun hq => hstq (h.mod_eq ▸ hq.1), hlands, ← hcolor, ← notOwn_noKing_iff,
    h.placement_eq, ← h.unlocked_iff ht]
  simp only [hat, Option.some.injEq, exists_eq_left', not_frozen hcap, not_false_eq_true, true_and]
  constructor
  · rintro (⟨hfree, hreach, henters⟩ | ⟨hown, hreach⟩)
    · exact ⟨hfree, hreach, .inl henters⟩
    · exact ⟨hlock hown.1 piece, hreach, .inr hown⟩
  · rintro ⟨hfree, hreach, henters | hown⟩
    · exact .inl ⟨hfree, hreach, henters⟩
    · exact .inr ⟨hown, hreach⟩

/-- Where pawns take, in the mods without a rule of their own. -/
theorem takes_iff (h : Sim d b) (hheir : d.gameType ≠ .heir) (hstq : d.gameType ≠ .saveQueen)
    (hcap : truceNoCap b = false) (hman : d.placement a = some (d.currentPlayer, .pawn))
    (hz : z.IsValid) :
    ((d.appBook d.Unlocked fun _ => d.NoKing).withTakes d.OwnTarget).takes a z ↔
      (book b).takes a z := by
  obtain ⟨piece, hat, hpm⟩ := ChessBoard.placement_eq_some.mp hman
  obtain ⟨hcolor, hp⟩ : piece.color = d.currentPlayer ∧ piece.type = .pawn := Prod.mk.inj hpm
  have hfree : d.Unlocked piece := fun _ _ => .inr hp
  show ((d.gameType ≠ .mercenary ∧ ∃ piece, d.getPieceAt a = some piece ∧ d.Unlocked piece ∧
      (∃ target, d.getPieceAt z = some target ∧ target.color ≠ piece.color) ∧ d.NoKing z) ∨
      d.OwnTarget z) ↔
    (b.mod ≠ .mercenary ∧ ¬ Frozen b (ofPos a) ∧ truceNoCap b = false ∧
      ¬ PawnSkips b (ofPos z)) ∧
    ((∃ capt, b.mailbox (ofPos z) = some (b.side.opposite, capt)) ∨
      ∃ capt, b.mailbox (ofPos z) = some (b.side, capt) ∧ OwnOk b (ofPos z) capt)
  rw [h.ownOk_iff hz]
  unfold PawnSkips StqProtected ChessBoard.NoKing
  rw [h.mailbox hz, h.mod_eq, h.side_eq]
  simp only [hat, Option.some.injEq, exists_eq_left', hfree, true_and, not_frozen hcap, hcap,
    hstq, hheir, false_and, or_false, not_false_eq_true, hcolor, ne_eq, and_true]
  cases htarget : d.getPieceAt z with
  | none =>
    rw [ChessBoard.placement_eq_none.mpr htarget]
    simp only [ChessBoard.OwnTarget, htarget]
    simp
  | some target =>
    rw [ChessBoard.placement_eq_some.mpr ⟨target, htarget, rfl⟩]
    simp only [Option.some.injEq, exists_eq_left', forall_eq', ChessPiece.man, Prod.mk.injEq]
    have hopp := @Color.ne_iff_eq_opposite target.color d.currentPlayer
    simp only [ne_eq] at hopp
    rw [hopp]
    constructor
    · rintro (⟨hmod, hc, hk⟩ | hown)
      · exact ⟨⟨hmod, fun hh => hk hh.2⟩, .inl ⟨target.type, hc, rfl⟩⟩
      · obtain ⟨hmod, f, hf, hc, -⟩ := id hown
        rw [htarget] at hf
        obtain rfl := Option.some.inj hf
        refine ⟨⟨by rw [hmod]; decide, fun hh => ?_⟩, .inr hown⟩
        rw [hh.1] at hc
        exact absurd hc (Color.opposite_ne _)
    · rintro ⟨⟨hmod, hno⟩, ⟨-, hc, -⟩ | hown⟩
      · exact .inl ⟨hmod, hc, fun hk => hno ⟨hc, hk⟩⟩
      · exact .inr hown

end Fields

theorem needCheckSafe_eq (h : Sim d b) (hheir : d.gameType ≠ .heir)
    (hcap : truceNoCap b = false) : needCheckSafe b = true := by
  unfold needCheckSafe
  rw [if_neg fun hh => hheir (h.mod_eq ▸ hh.1), hcap]
  rfl

/-- The squares of a castling, where C asks for safe ones. -/
theorem castleOpen_iff (h : Sim d b) (hsafe : needCheckSafe b = true) (w : Wing) :
    CastleOpen b w ↔ d.castleFlag d.currentPlayer w = true ∧
      (∀ col ∈ w.empties, d.getPieceAt ⟨homeRow d.currentPlayer, col⟩ = none) ∧
      ∀ col ∈ w.safes, d.isPositionUnderAttack ⟨homeRow d.currentPlayer, col⟩
        d.currentPlayer.opposite = false := by
  have hsq : ∀ c col, SQ (homeRow c) col = ofPos ⟨homeRow c, col⟩ := fun _ _ => rfl
  have hempty : (∀ col ∈ w.empties, b.mailbox (SQ (homeRow b.side) col) = none) ↔
      ∀ col ∈ w.empties, d.getPieceAt ⟨homeRow d.currentPlayer, col⟩ = none := by
    refine forall_congr' fun col => imp_congr_right fun hcol => ?_
    rw [hsq, h.mailbox (isValid_home (empties_bounds hcol)), h.side_eq,
      ChessBoard.placement_eq_none]
  have hpath : (∀ col ∈ w.safes,
      boardSquareAttacked b (SQ (homeRow b.side) col) b.side.opposite = false) ↔
      ∀ col ∈ w.safes, d.isPositionUnderAttack ⟨homeRow d.currentPlayer, col⟩
        d.currentPlayer.opposite = false := by
    refine forall_congr' fun col => imp_congr_right fun hcol => ?_
    rw [hsq, ← Bool.not_eq_true, h.attacked_iff (isValid_home (safes_bounds hcol)), h.side_eq,
      Bool.not_eq_true]
  have hright : b.castling &&& castleRight b.side w ≠ 0 ↔
      d.castleFlag d.currentPlayer w = true := by
    rw [← h.side_eq]
    exact h.rights b.side w
  unfold CastleOpen
  rw [hempty, hright, hpath]
  simp only [hsafe, forall_const]

theorem castles_iff (h : Sim d b) (hone : OneKing d.placement d.currentPlayer)
    (hcastle : CastlingSound d) (hheir : d.gameType ≠ .heir) (hcap : truceNoCap b = false)
    (hlock : kbLocked b = false) (free : ChessPiece → Prop)
    (lands : ChessPiece → Position → Prop)
    (hfree : ∀ king, d.getKing d.currentPlayer = some king → free king) (w : Wing) :
    (d.appBook free lands).castles w ↔ (book b).castles w := by
  have hsafe := h.needCheckSafe_eq hheir hcap
  have hcheck : boardInCheck b b.side = true ↔ d.isKingInCheck d.currentPlayer = true := by
    rw [h.side_eq]
    exact h.inCheck_iff hone hheir hcap
  show (d.castleFlag d.currentPlayer w = true ∧ d.canCastleTo d.currentPlayer w = true ∧
    ∃ king, d.getKing d.currentPlayer = some king ∧ free king) ↔ CastlesNow b ∧ CastleOpen b w
  rw [h.castleOpen_iff hsafe]
  unfold CastlesNow
  rw [hcheck, ChessBoard.canCastleTo_iff]
  simp only [hsafe, true_and, hlock, hcap, Bool.false_eq_true, false_and,
    not_false_eq_true, Bool.not_eq_true]
  constructor
  · rintro ⟨hflag, ⟨-, -, hfreeSquares, hnocheck, hsafes⟩, -⟩
    exact ⟨hnocheck, hflag, hfreeSquares, hsafes⟩
  · rintro ⟨hnocheck, hflag, hfreeSquares, hsafes⟩
    obtain ⟨hking, hrook⟩ := hcastle _ _ hflag
    obtain ⟨king, hat, hman⟩ := ChessBoard.placement_eq_some.mp hking
    obtain ⟨hmem, hpos⟩ := ChessBoard.mem_of_getPieceAt hat
    have hget := ChessBoard.getKing_eq_some h.tidy hone hmem hman
    exact ⟨hflag, ⟨⟨king, hget, hpos⟩, ChessBoard.placement_eq_some.mp hrook, hfreeSquares,
      hnocheck, hsafes⟩, king, hget, hfree king hget⟩

theorem passant_iff (h : Sim d b) (hep : d.EpSound) (hsame : b.epSquare = epOf d.enPassantTarget)
    (hcap : truceNoCap b = false) (free : ChessPiece → Prop)
    (lands : ChessPiece → Position → Prop)
    (hfree : ∀ piece, piece.type = .pawn → free piece) {a : Position}
    (hman : d.placement a = some (d.currentPlayer, .pawn)) (hz : z.IsValid)
    (hstep : PawnStep d.currentPlayer a z) :
    (d.appBook free lands).passant a z ↔ (book b).passant a z := by
  have htarget : b.epSquare = ofPos z ↔ d.enPassantTarget = some z := by
    rw [hsame]
    cases ht : d.enPassantTarget with
    | none =>
      refine iff_of_false (fun heq => ?_) (fun heq => by cases heq)
      have := (sqValid_ofPos hz).1
      rw [← heq] at this
      exact absurd this (by decide)
    | some t =>
      rw [Option.some.injEq]
      show ofPos t = ofPos z ↔ _
      refine ⟨fun heq => ?_, fun heq => congrArg ofPos heq⟩
      rw [← toPos_ofPos (hep t ht).1, heq, toPos_ofPos hz]
  have hnofrozen := not_frozen hcap (ofPos a)
  show (d.gameType ≠ .mercenary ∧ ∃ piece, d.getPieceAt a = some piece ∧ free piece ∧
      d.enPassantTarget = some z ∧
      ∃ captured, d.getPieceAt ⟨a.row, z.col⟩ = some captured ∧ captured.type = .pawn) ↔
    (b.mod ≠ .mercenary ∧ ¬ Frozen b (ofPos a) ∧ truceNoCap b = false ∧
      ¬ PawnSkips b (ofPos z)) ∧ b.epSquare = ofPos z ∧
    ∃ t, b.mailbox (ofPos ⟨a.row, z.col⟩) = some (b.side.opposite, t)
  rw [h.mod_eq, htarget]
  by_cases hz' : d.enPassantTarget = some z
  · -- the pawn beside is the one behind the target
    obtain ⟨-, hempty, hpawn⟩ := hep z hz'
    have hbeside : (⟨a.row, z.col⟩ : Position) = z.offset (-d.currentPlayer.forward) 0 := by
      have := hstep.1
      rw [Position.eq_iff]
      simp only [Position.offset_row, Position.offset_col]
      constructor <;> omega
    have hskips : ¬ PawnSkips b (ofPos z) := by
      unfold PawnSkips
      rw [h.mailbox hz, hempty]
      exact not_false
    obtain ⟨piece, hat, hpm⟩ := ChessBoard.placement_eq_some.mp hman
    obtain ⟨captured, hcat, hcm⟩ := ChessBoard.placement_eq_some.mp hpawn
    rw [hbeside, h.mailbox (h.tidy.valid_of_getPieceAt hcat), hpawn, h.side_eq]
    constructor
    · rintro ⟨hmod, -⟩
      exact ⟨⟨hmod, hnofrozen, hcap, hskips⟩, hz', .pawn, rfl⟩
    · rintro ⟨⟨hmod, -⟩, -⟩
      exact ⟨hmod, piece, hat, hfree piece (congrArg Prod.snd hpm), hz', captured, hcat,
        congrArg Prod.snd hcm⟩
  · constructor
    · rintro ⟨-, piece, -, -, ht, -⟩
      exact absurd ht hz'
    · rintro ⟨-, ht, -⟩
      exact absurd ht hz'

/-- The promotions of the mods without a rule of their own. -/
theorem becomes_iff (h : Sim d b) (hheir : d.gameType ≠ .heir) (hsucc : d.gameType ≠ .succession)
    (hmerc : d.gameType ≠ .mercenary) {c : Color} {sq : ℤ} {t : PieceType} :
    (∃ letter ∈ d.getPromotionPieces c z, promotedType (some letter) = t) ↔
      t ∈ promoTypes b sq := by
  unfold ChessBoard.getPromotionPieces promoTypes
  rw [h.mod_eq]
  cases hmod : d.gameType with
  | heir => exact absurd hmod hheir
  | succession => exact absurd hmod hsucc
  | mercenary => exact absurd hmod hmerc
  | _ => cases t <;> simp [promotedType]

/-- The two books agree wherever their promotions and their castling do. -/
theorem agree_of (h : Sim d b) (hheir : d.gameType ≠ .heir) (hstq : d.gameType ≠ .saveQueen)
    (hcap : truceNoCap b = false)
    (hbecomes : d.gameType ≠ .mercenary → ∀ z t, z.IsValid →
      ((∃ letter ∈ d.getPromotionPieces d.currentPlayer z, promotedType (some letter) = t) ↔
        t ∈ promoTypes b (ofPos z)))
    {castles castles' : Wing → Prop} (hcastles : ∀ w, castles w ↔ castles' w) :
    Book.Agree { (d.appBook d.Unlocked fun _ => d.NoKing).withTakes d.OwnTarget with castles }
      { book b with castles := castles' } where
  place := h.placement_eq.symm
  mover := h.side_eq.symm
  goes := by
    intro t a z ht hman hz
    refine h.goes_iff hheir hstq hcap ht hman hz fun hmod piece hkb => ?_
    rw [hmod] at hkb
    cases hkb
  pawnGoes := by
    intro a z hman hz
    exact h.pawnGoes_iff d.Unlocked (fun _ => d.NoKing) hman hz (fun piece hp _ _ => .inr hp)
      fun _ _ hking => hking
  pushes := by
    intro a hman
    refine h.pushes_iff d.Unlocked (fun _ => d.NoKing) hman fun piece hat =>
      iff_of_true (fun _ _ => .inr ?_) (not_frozen hcap _)
    obtain ⟨piece', hat', hpm⟩ := ChessBoard.placement_eq_some.mp hman
    rw [hat] at hat'
    obtain rfl := Option.some.inj hat'
    exact congrArg Prod.snd hpm
  takes := by
    intro a z hman hz _
    exact h.takes_iff hheir hstq hcap hman hz
  becomes := by
    intro a z t hgo hz _
    refine hbecomes ?_ z t hz
    rcases hgo with hgo | hgo | hgo
    · exact hgo.1
    · exact hgo.1
    · rw [hgo.1]
      decide
  castles := hcastles

/-- Where the mod has no rules of its own on captures, the rulebooks agree, captures of own men
included; in Phase 1 of Kings' Battle only if nobody can castle. -/
theorem agree (h : Sim d b) (hone : OneKing d.placement d.currentPlayer)
    (hcastle : CastlingSound d) (hheir : d.gameType ≠ .heir) (hsucc : d.gameType ≠ .succession)
    (hstq : d.gameType ≠ .saveQueen) (hcap : truceNoCap b = false)
    (hlocked : kbLocked b = true → ∀ w, ¬ (d.castleFlag d.currentPlayer w = true ∧
      d.canCastleTo d.currentPlayer w = true)) :
    Book.Agree ((d.appBook d.Unlocked fun _ => d.NoKing).withTakes d.OwnTarget) (book b) := by
  refine h.agree_of hheir hstq hcap (fun hmerc z t _ => h.becomes_iff hheir hsucc hmerc) fun w => ?_
  by_cases hlock : kbLocked b = true
  · refine iff_of_false (fun hc => hlocked hlock w ⟨hc.1, hc.2.1⟩) (fun hc => ?_)
    rw [hc.1.1] at hlock
    cases hlock
  · refine h.castles_iff hone hcastle hheir hcap (by simpa using hlock) d.Unlocked
      (fun _ => d.NoKing) (fun king hk => ?_) w
    exact fun _ _ => .inl (ChessBoard.mem_of_getKing hk).2.1

/-! ## Agreement of the moves -/

/-- The legal moves of C, where safety is a matter of the view. -/
theorem exists_legal_iff (h : Sim d b) {v : MoveView} {safe : Prop}
    (hL : ∀ m ∈ pseudoMoves b, m.view = v → (legal b m = true ↔ safe)) :
    (∃ m ∈ pseudoMoves b, legal b m = true ∧ m.view = v) ↔ (book b).Allows v ∧ safe := by
  rw [← exists_pseudoMoves_iff h.rep]
  constructor
  · rintro ⟨m, hm, hlegal, hv⟩
    exact ⟨⟨m, hm, hv⟩, (hL m hm hv).mp hlegal⟩
  · rintro ⟨⟨m, hm, hv⟩, hsafe⟩
    exact ⟨m, hm, (hL m hm hv).mpr hsafe, hv⟩

/-- `is_legal` in terms of the Dart position; `unlocked` is the phase of Kings' Battle after the
move. -/
theorem legal_iff_safe (h : Sim d b) {m : Move} (wf : WellFormed b m)
    (hone : OneKing d.placement d.currentPlayer) (hheir : d.gameType ≠ .heir)
    (hsucc : d.gameType ≠ .succession) (hcap : truceNoCap b = false) {unlocked : Bool}
    (hm : m ∈ pseudoMoves b) (hre : ¬ Reprisons b m)
    (hphase : d.gameType = .kingsBattle → (boardMakeMove b m).kbUnlocked = unlocked) :
    legal b m = true ↔
      ¬ Checked d.gameType unlocked (after d.placement m.view) d.currentPlayer := by
  have hpromo := promo_ne_king h.rep (h.mod_eq ▸ hheir) (h.mod_eq ▸ hsucc) hm
  rw [Engine.legal_iff_safe h.rep wf
    (by rw [h.placement_eq, h.side_eq]; exact hone) (h.mod_eq ▸ hheir) hcap hre hpromo,
    h.placement_eq, h.side_eq, h.mod_eq, not_iff_not]
  by_cases hkb : d.gameType = .kingsBattle
  · rw [hphase hkb]
  · exact checked_phase hkb _ _ _ _

/-- Under ordinary rules both engines have the same moves. -/
theorem offers_iff_legal (h : Sim d b) {v : MoveView}
    (hwf : ∀ m ∈ pseudoMoves b, m.view = v → WellFormed b m)
    (hone : OneKing d.placement d.currentPlayer) (hcastle : CastlingSound d)
    (hheir : d.gameType ≠ .heir) (hsucc : d.gameType ≠ .succession)
    (hff : d.gameType ≠ .friendlyFire) (hstq : d.gameType ≠ .saveQueen)
    (htruce : d.gameType = .truce → d.isTruceBroken = true) (hcap : truceNoCap b = false)
    (hlocked : kbLocked b = true → ∀ w, ¬ (d.castleFlag d.currentPlayer w = true ∧
      d.canCastleTo d.currentPlayer w = true))
    (hep : v.ep = true → d.EpSound ∧ b.epSquare = epOf d.enPassantTarget) (unlocked : Bool)
    (hphase : d.gameType = .kingsBattle →
      (∀ m, d.Filtered m → m.view = v → d.unlockedAfter m = unlocked) ∧
      ∀ m ∈ pseudoMoves b, m.view = v → (boardMakeMove b m).kbUnlocked = unlocked) :
    d.Offers v ↔ ∃ m ∈ pseudoMoves b, legal b m = true ∧ m.view = v := by
  have hking := ChessBoard.kingFound_of_oneKing h.tidy hone
  have hno : ¬ (d.appBook d.Unlocked fun _ => d.NoKing).TakesOwn d.OwnTarget v :=
    fun hown => hff hown.2.2.1.1
  rw [h.exists_legal_iff fun m hm hv => hv ▸ h.legal_iff_safe (hwf m hm hv) hone hheir hsucc hcap hm
      (fun hre => hstq (h.mod_eq ▸ hre.2.2.1)) fun hkb => (hphase hkb).2 m hm hv,
    ← Book.allows_congr (h.agree hone hcastle hheir hsucc hstq hcap hlocked),
    Book.allows_withTakes, or_iff_left hno]
  · refine ChessBoard.offers_iff_book h.tidy hking (fun hh => (hep hh).1) hheir ?_ ?_ ?_ ?_
    · rintro ⟨hmod, hactive⟩
      rw [ChessBoard.isTruceActive, htruce hmod] at hactive
      cases hactive
    · intro piece z _ hz q hq
      rw [hz] at hq
      cases hq
    · intro piece hpiece _ m _
      exact ChessBoard.mem_plainRuleset hff hstq htruce h.tidy hpiece
    · intro m hm hv
      rw [ChessBoard.validation_safe_iff h.tidy hone hheir hsucc hm (fun hh => (hep (hv ▸ hh)).1)
        fun hkb => (hphase hkb).1 m hm hv, hv]
  · intro hv hman hdst hstep
    exact h.passant_iff (hep hv).1 (hep hv).2 hcap d.Unlocked (fun _ => d.NoKing)
      (fun piece hp _ _ => .inr hp) hman hdst hstep

end Sim

end ChessRecast.Bridge
