import ChessRecast.App.Truce
import ChessRecast.Bridge.Lines
import ChessRecast.Engine.KeyTheorems

/-!
# Rules equivalence in Truce

Dart asks anew on every board whether the side to move has a truce move left. C has a flag that is
handed over and never changed. While both are under truce, the frozen squares of C are those of the
men that have moved in Dart, and the moves differ in castling only: Dart asks for safe squares
there, C does not.
-/

namespace ChessRecast.Bridge

open App Engine Rules

/-! ## Dart under truce -/

/-- What the truce allows in Dart: men that have not moved go to empty squares. -/
def truceBook (d : ChessBoard) : Book :=
  d.appBook (fun piece => d.pieceHasMoved piece = false) fun _ z => d.getPieceAt z = none

section Dart

variable {d : ChessBoard} {m : ChessMove} {v : MoveView}

/-- A move gives check if the enemy king is attacked after it. -/
theorem moveGivesCheck_iff (hd : d.Tidy) (hm : d.Proper m)
    (hking : ∃ k, d.placement k = some (m.piece.color.opposite, .king))
    (hone : OneKing d.placement m.piece.color.opposite) (hpromo : m.view.promo ≠ some .king) :
    d.moveGivesCheck m = true ↔ Checked d.gameType (d.unlockedAfter m)
      (after d.placement m.view) m.piece.color.opposite := by
  rw [← ChessBoard.validation_check_iff hd hm hone hpromo]
  have hsome := (ChessBoard.getKing_isNone_iff hd).mpr hking
  unfold ChessBoard.moveGivesCheck ChessBoard.isKingInCheck
  dsimp only
  rw [Color.opposite_opposite]
  cases hk : d.getKing m.piece.color.opposite with
  | none =>
    rw [hk] at hsome
    cases hsome
  | some king => rfl

theorem mem_truceRuleset (hmod : d.gameType = .truce) (hactive : d.isTruceActive = true)
    {piece : ChessPiece} : m ∈ d.applyRulesetFilter (d.getPotentialMoves piece) piece ↔
      d.pieceHasMoved piece = false ∧ m ∈ d.getPotentialMoves piece ∧ m.capturedPiece = none ∧
        d.moveGivesCheck m = false := by
  have hbroken : d.isTruceBroken = false := by
    unfold ChessBoard.isTruceActive at hactive
    rwa [Bool.not_eq_true'] at hactive
  unfold ChessBoard.applyRulesetFilter ChessBoard.truceFilter
  rw [hmod]
  dsimp only
  rw [hbroken, if_neg (by decide)]
  cases d.pieceHasMoved piece with
  | true => simp
  | false =>
    rw [if_neg (by decide), List.mem_filter, List.mem_filter]
    simp [and_assoc]

theorem offers_iff_truceMove (hd : d.Tidy) (hmod : d.gameType = .truce)
    (hactive : d.isTruceActive = true) : d.Offers v ↔ ∃ m, d.TruceMove m ∧ m.view = v := by
  rw [ChessBoard.offers_iff hd]
  constructor
  · rintro ⟨m, ⟨piece, hpiece, hcolor, hm⟩, -, hv⟩
    obtain ⟨hmoved, hm⟩ := (mem_truceRuleset hmod hactive).mp hm
    exact ⟨m, ⟨piece, List.mem_filter.mpr ⟨hpiece, decide_eq_true hcolor⟩, hmoved, hm⟩, hv⟩
  · rintro ⟨m, ⟨piece, hpiece, hmoved, hm, hcap, hcheck⟩, hv⟩
    obtain ⟨hmem, hcolor⟩ := List.mem_filter.mp hpiece
    refine ⟨m, ⟨piece, hmem, of_decide_eq_true hcolor,
      (mem_truceRuleset hmod hactive).mpr ⟨hmoved, hm, hcap, hcheck⟩⟩, ?_, hv⟩
    unfold ChessBoard.keepsMove
    dsimp only
    rw [hcap, if_neg (by simp), if_pos ⟨hmod, hactive⟩]

theorem offers_iff_truceBook (hinv : d.GameInv) (hmod : d.gameType = .truce)
    (hactive : d.isTruceActive = true) (hep : v.ep = false) : d.Offers v ↔
      (truceBook d).Allows v ∧
        ¬ Checked .truce false (after d.placement v) d.currentPlayer.opposite := by
  have hneeds : ChessBoard.NeedsKings d.gameType := by
    rw [hmod]
    decide
  have hfound := ChessBoard.kingFound_of_oneKing hinv.tidy (hinv.kings hneeds d.currentPlayer).2
  have hpassant : v.ep = true → d.EpSound := fun hv => (by rw [hep] at hv; cases hv)
  have hfacts : ∀ piece ∈ d.pieces, piece.color = d.currentPlayer →
      ∀ m ∈ d.getPotentialMoves piece, m.view = v →
        (m.capturedPiece = none ↔ d.getPieceAt m.toPos = none) ∧
        (d.moveGivesCheck m = false ↔
          ¬ Checked .truce false (after d.placement v) d.currentPlayer.opposite) := by
    rintro piece hpiece hcolor m hm rfl
    have hshape := ChessBoard.shape_of_getPotentialMoves (hinv.tidy.valid piece hpiece) hm
    have hproper := hshape.proper hinv.tidy hfound hpiece hcolor hpassant
    have hmover : m.piece.color = d.currentPlayer := by
      rw [(ChessBoard.moveOf_getPotentialMoves hm).piece_eq, hcolor]
    have hpromo := hshape.promo_ne_king (by rw [hmod]; decide) (by rw [hmod]; decide)
    have hkings := hinv.kings hneeds d.currentPlayer.opposite
    rw [← hmover] at hkings ⊢
    refine ⟨by rw [hproper.captured hep], ?_⟩
    rw [← Bool.not_eq_true, moveGivesCheck_iff hinv.tidy hproper hkings.1 hkings.2 hpromo, hmod,
      checked_phase (by decide)]
  rw [offers_iff_truceMove hinv.tidy hmod hactive, truceBook, ← ChessBoard.exists_potential_iff
    hinv.tidy hfound (fun _ _ _ hempty => hempty) fun hv => (by rw [hep] at hv; cases hv)]
  constructor
  · rintro ⟨m, ⟨piece, hpiece, hmoved, hm, hcap, hcheck⟩, hv⟩
    obtain ⟨hmem, hcolor⟩ := List.mem_filter.mp hpiece
    obtain ⟨hlands, hsafe⟩ := hfacts piece hmem (of_decide_eq_true hcolor) m hm hv
    exact ⟨⟨piece, hmem, of_decide_eq_true hcolor, hmoved, m, hm, hlands.mp hcap, hv⟩,
      hsafe.mp hcheck⟩
  · rintro ⟨⟨piece, hmem, hcolor, hmoved, m, hm, hland, hv⟩, hcheck⟩
    obtain ⟨hlands, hsafe⟩ := hfacts piece hmem hcolor m hm hv
    exact ⟨m, ⟨piece, List.mem_filter.mpr ⟨hmem, decide_eq_true hcolor⟩, hmoved, hm,
      hlands.mpr hland, hsafe.mpr hcheck⟩, hv⟩

end Dart

/-! ## C under truce -/

section Truced

variable {b : Board} {m : Move}

theorem boardInCheck_of_truce (hcap : truceNoCap b = true) (c : Color) :
    boardInCheck b c = false := by
  have hcond : b.mod = .truce ∧ b.truceActive = true := by simpa [truceNoCap] using hcap
  unfold boardInCheck
  dsimp only
  split_ifs
  · rfl
  · rfl
  · rfl

/-- Under truce `is_legal` asks whether the enemy is in check afterwards. -/
theorem legal_iff_noCheck (h : RepInv b.toViews) (wf : WellFormed b m) (hcap : truceNoCap b = true)
    (hone : OneKing (placement b.toViews) b.side.opposite) (hpromo : m.view.promo ≠ some .king) :
    legal b m = true ↔
      ¬ Checked .truce false (after (placement b.toViews) m.view) b.side.opposite := by
  have hcond : b.mod = .truce ∧ b.truceActive = true := by simpa [truceNoCap] using hcap
  have hcap' : truceNoCap (boardMakeMove b m) = true := hcap
  have hmod' : (boardMakeMove b m).mod = .truce := hcond.1
  have hrep := repInv_boardMakeMove h wf
  have hplace := placement_boardMakeMove_eq h wf fun hre => by
    have hstq := hre.2.2.1
    rw [hcond.1] at hstq
    cases hstq
  have hafter := Engine.oneKing_view wf hone hpromo
  rw [← hplace] at hafter ⊢
  unfold legal legalAfter
  rw [boardInCheck_of_truce hcap', hcap', if_neg (by decide), if_pos rfl]
  by_cases hzero : (boardMakeMove b m).pieces b.side.opposite .king = 0
  · rw [if_neg (by simpa using hzero)]
    refine iff_of_true rfl ?_
    rintro ⟨k, hk, -⟩
    exact (pieces_ne_zero_iff hrep).mpr ⟨k, hk⟩ hzero
  · obtain ⟨k, hk⟩ := (pieces_ne_zero_iff hrep).mp hzero
    rw [if_pos hzero, Bool.not_eq_true', ← Bool.not_eq_true, not_iff_not,
      boardSquareAttacked_iff hrep (bbLsb_spec hzero).1, toPos_bbLsb_king hrep hafter hk, hmod']
    have hphase : ∀ z, Attacked .truce (boardMakeMove b m).kbUnlocked
        (placement (boardMakeMove b m).toViews) b.side z ↔
        Attacked .truce false (placement (boardMakeMove b m).toViews)
          b.side.opposite.opposite z := by
      intro z
      rw [Color.opposite_opposite]
      unfold Attacked Bears
      simp
    rw [hphase]
    constructor
    · exact fun hatt => ⟨k, hk, hatt⟩
    · rintro ⟨k', hk', hatt⟩
      rwa [hafter k k' hk hk']

end Truced

/-! ## The two books under truce -/

/-- C's conditions for castling under truce, on the Dart board: the flag, the empty squares and a
king that has not moved. -/
def OpenWing (d : ChessBoard) (w : Wing) : Prop :=
  d.castleFlag d.currentPlayer w = true ∧
  (∀ col ∈ w.empties, d.getPieceAt ⟨homeRow d.currentPlayer, col⟩ = none) ∧
  ∃ king, d.getKing d.currentPlayer = some king ∧ d.pieceHasMoved king = false

/-- Dart's further conditions: the king is not attacked where it stands, passes and arrives. -/
def SafeWing (d : ChessBoard) (w : Wing) : Prop :=
  d.isKingInCheck d.currentPlayer = false ∧
  ∀ col ∈ w.safes, d.isPositionUnderAttack ⟨homeRow d.currentPlayer, col⟩
    d.currentPlayer.opposite = false

/-- Every castling that is open and gives no check is safe. -/
def CastlesSafely (d : ChessBoard) : Prop :=
  ∀ w, OpenWing d w →
    ¬ Checked .truce false (after d.placement (.castling d.currentPlayer w))
      d.currentPlayer.opposite →
    SafeWing d w

/-- Both boards in a line that was handed over with the given phase. -/
structure TruceSim (active : Bool) (d : ChessBoard) (b : Board) : Prop extends Sim d b where
  inv : d.GameInv
  mod : d.gameType = .truce
  passant : ∀ m, PseudoShape b m → PassantOk b m
  flag : b.truceActive = active
  frozen : active = true → ∀ z q, d.getPieceAt z = some q →
    (bbHas b.truceFrozen (ofPos z) = true ↔ d.pieceHasMoved q = true)

namespace TruceSim

section Books

variable {d : ChessBoard} {b : Board} {active : Bool}

theorem needsKings (h : TruceSim active d b) : ChessBoard.NeedsKings d.gameType := by
  rw [h.mod]
  decide

theorem truceNoCap_eq (h : TruceSim active d b) : truceNoCap b = active := by
  simp [truceNoCap, h.mod_eq, h.mod, h.flag]

theorem castlingSound (h : TruceSim active d b) : CastlingSound d :=
  castlingSound_of_gameInv h.inv h.needsKings

theorem frozen_iff (h : TruceSim true d b) {z : Position} {q : ChessPiece}
    (hq : d.getPieceAt z = some q) : ¬ Frozen b (ofPos z) ↔ d.pieceHasMoved q = false := by
  unfold Frozen
  rw [h.truceNoCap_eq, h.frozen rfl z q hq, ← Bool.not_eq_true]
  simp

theorem castles_engine_iff (h : TruceSim true d b) (w : Wing) :
    (book b).castles w ↔ OpenWing d w := by
  have hsafe : needCheckSafe b = false := by
    unfold needCheckSafe
    rw [if_neg (by rw [h.mod_eq, h.mod]; simp), h.truceNoCap_eq, if_pos rfl]
  have hlock : kbLocked b = false := by simp [kbLocked, h.mod_eq, h.mod]
  have hright : b.castling &&& castleRight b.side w ≠ 0 ↔
      d.castleFlag d.currentPlayer w = true := by
    rw [← h.side_eq]
    exact h.rights b.side w
  have hempty : (∀ col ∈ w.empties, b.mailbox (SQ (homeRow b.side) col) = none) ↔
      ∀ col ∈ w.empties, d.getPieceAt ⟨homeRow d.currentPlayer, col⟩ = none := by
    refine forall_congr' fun col => imp_congr_right fun hcol => ?_
    rw [show SQ (homeRow b.side) col = ofPos ⟨homeRow b.side, col⟩ from rfl,
      h.mailbox (isValid_home (empties_bounds hcol)), h.side_eq, ChessBoard.placement_eq_none]
  -- the square that `bb_lsb` finds is that of the king Dart finds
  have hking : ∀ king, d.getKing d.currentPlayer = some king →
      (b.truceFrozen &&& bbSq (bbLsb (b.pieces b.side .king)) ≠ 0 ↔
        d.pieceHasMoved king = true) := by
    intro king hfound
    obtain ⟨hmem, htype, hcolor⟩ := ChessBoard.mem_of_getKing hfound
    have hplace : placement b.toViews king.position = some (b.side, .king) := by
      rw [h.placement_eq, ChessBoard.placement_of_mem h.tidy hmem, hcolor, htype, h.side_eq]
    have hone : OneKing (placement b.toViews) b.side := by
      rw [h.placement_eq, h.side_eq]
      exact (h.inv.kings h.needsKings _).2
    have hzero : b.pieces b.side .king ≠ 0 := (pieces_ne_zero_iff h.rep).mpr ⟨_, hplace⟩
    have hsq : bbLsb (b.pieces b.side .king) = ofPos king.position := by
      rw [← toPos_bbLsb_king h.rep hone hplace, ofPos_toPos (bbLsb_spec hzero).1]
    rw [hsq, ← h.frozen rfl _ _ (h.tidy.getPieceAt_iff.mpr ⟨hmem, rfl⟩)]
    exact Bits.and_single_ne_zero_iff (sqValid_ofPos (h.tidy.valid king hmem)).toNat_lt
  show CastlesNow b ∧ CastleOpen b w ↔ _
  unfold CastlesNow CastleOpen OpenWing
  rw [hempty, hright]
  simp only [hsafe, hlock, h.truceNoCap_eq, Bool.false_eq_true, false_and, not_false_eq_true,
    true_and, and_true, false_implies]
  constructor
  · rintro ⟨hnot, hflag, hsquares⟩
    refine ⟨hflag, hsquares, ?_⟩
    obtain ⟨king, hat, hman⟩ := ChessBoard.placement_eq_some.mp (h.castlingSound _ _ hflag).1
    have hfound := ChessBoard.getKing_eq_some h.tidy (h.inv.kings h.needsKings _).2
      (ChessBoard.mem_of_getPieceAt hat).1 hman
    refine ⟨king, hfound, ?_⟩
    rw [hking king hfound] at hnot
    exact Bool.not_eq_true _ ▸ hnot
  · rintro ⟨hflag, hsquares, king, hfound, hmoved⟩
    rw [hking king hfound, hmoved]
    exact ⟨by decide, hflag, hsquares⟩

theorem castles_app_iff (h : TruceSim active d b) (w : Wing) :
    (truceBook d).castles w ↔ OpenWing d w ∧ SafeWing d w := by
  show (d.castleFlag d.currentPlayer w = true ∧ d.canCastleTo d.currentPlayer w = true ∧
    ∃ king, d.getKing d.currentPlayer = some king ∧ d.pieceHasMoved king = false) ↔ _
  rw [ChessBoard.canCastleTo_iff]
  constructor
  · rintro ⟨hflag, ⟨-, -, hempty, hcheck, hsafe⟩, hking⟩
    exact ⟨⟨hflag, hempty, hking⟩, hcheck, hsafe⟩
  · rintro ⟨⟨hflag, hempty, king, hfound, hmoved⟩, hcheck, hsafe⟩
    obtain ⟨hhome, hrook⟩ := h.castlingSound _ _ hflag
    obtain ⟨hmem, htype, hcolor⟩ := ChessBoard.mem_of_getKing hfound
    have hpos : king.position = ⟨homeRow d.currentPlayer, 4⟩ := by
      refine (h.inv.kings h.needsKings d.currentPlayer).2 _ _ ?_ hhome
      rw [ChessBoard.placement_of_mem h.tidy hmem, hcolor, htype]
    exact ⟨hflag, ⟨⟨king, hfound, hpos⟩, ChessBoard.placement_eq_some.mp hrook, hempty, hcheck,
      hsafe⟩, king, hfound, hmoved⟩

/-- Castling apart, the two books are the same. -/
theorem agree (h : TruceSim true d b) :
    Book.Agree (truceBook d).withoutCastling (book b).withoutCastling where
  place := h.placement_eq.symm
  mover := h.side_eq.symm
  goes := by
    intro t a z _ hman hz
    obtain ⟨piece, hat, -⟩ := ChessBoard.placement_eq_some.mp hman
    have hlands : LandsOk b t (ofPos z) ↔ d.getPieceAt z = none := by
      rw [← ChessBoard.placement_eq_none, ← h.mailbox hz]
      unfold LandsOk OwnOk EnemyOk HeirKingOk
      rw [h.mod_eq, h.mod, h.truceNoCap_eq]
      cases b.mailbox (ofPos z) with
      | none => simp
      | some man => simp [Prod.exists.symm]
    show (∃ piece, d.getPieceAt a = some piece ∧ d.pieceHasMoved piece = false ∧
        Reach d.placement t a z ∧ d.NotOwn piece z ∧ d.getPieceAt z = none) ↔
      (kbLocked b = true → t = .king) ∧ ¬ Frozen b (ofPos a) ∧
        if b.mod = .saveQueen ∧ t = .queen then _ else
          Reach (placement b.toViews) t a z ∧ LandsOk b t (ofPos z)
    rw [if_neg (by rw [h.mod_eq, h.mod]; simp), h.frozen_iff hat, hlands, h.placement_eq]
    have hlock : kbLocked b = false := by simp [kbLocked, h.mod_eq, h.mod]
    rw [hlock]
    constructor
    · rintro ⟨piece', hat', hmoved, hreach, -, hempty⟩
      rw [hat] at hat'
      obtain rfl := Option.some.inj hat'
      exact ⟨fun hl => (by cases hl), hmoved, hreach, hempty⟩
    · rintro ⟨-, hmoved, hreach, hempty⟩
      refine ⟨piece, hat, hmoved, hreach, fun q hq => ?_, hempty⟩
      rw [hempty] at hq
      cases hq
  pawnGoes := by
    intro a z _ _
    show (d.gameType = .mercenary ∧ _) ↔ (b.mod = .mercenary ∧ _)
    rw [h.mod_eq, h.mod]
    simp
  pushes := by
    intro a hman
    exact h.toSim.pushes_iff (fun piece => d.pieceHasMoved piece = false)
      (fun _ z => d.getPieceAt z = none) hman fun piece hat => (h.frozen_iff hat).symm
  takes := by
    intro a z _ _ _
    refine iff_of_false ?_ ?_
    · rintro ⟨-, piece, -, -, ⟨target, htarget, -⟩, hempty⟩
      rw [hempty] at htarget
      cases htarget
    · rintro ⟨⟨-, -, hcap, -⟩, -⟩
      rw [h.truceNoCap_eq] at hcap
      cases hcap
  becomes := by
    intro a z t _ _ _
    exact h.becomes_iff (by rw [h.mod]; decide) (by rw [h.mod]; decide) (by rw [h.mod]; decide)
  castles := fun _ => Iff.rfl

/-! ### The moves -/

theorem soundMoves (h : TruceSim active d b) : SoundMoves b :=
  h.toSim.soundMoves h.castlingSound h.passant

theorem generates_iff_truce (h : TruceSim true d b) (hply : b.ply < maxHistory)
    (hroom : ¬ Overflows b) (v : MoveView) : Generates b v ↔ (book b).Allows v ∧
      ¬ Checked .truce false (after d.placement v) d.currentPlayer.opposite := by
  have hsound := h.soundMoves
  have hone : OneKing (placement b.toViews) b.side.opposite := by
    rw [h.placement_eq, h.side_eq]
    exact (h.inv.kings h.needsKings _).2
  rw [generates_iff_legal hsound hply hroom]
  refine h.toSim.exists_legal_iff fun m hm hv => ?_
  have hpromo := promo_ne_king h.rep (by rw [h.mod_eq, h.mod]; decide)
    (by rw [h.mod_eq, h.mod]; decide) hm
  rw [legal_iff_noCheck h.rep (hsound.wellFormed m hm) h.truceNoCap_eq hone hpromo, hv,
    h.placement_eq, h.side_eq]

/-- Under truce the moves are the same if and only if every open castling is safe. -/
theorem moves_agree_iff (h : TruceSim true d b) (hactive : d.isTruceActive = true)
    (hply : b.ply < maxHistory) (hroom : ¬ Overflows b) :
    (∀ v, v.ep = false → (d.Offers v ↔ Generates b v)) ↔ CastlesSafely d := by
  have hboth : ∀ v, v.ep = false → ((d.Offers v ↔ Generates b v) ↔
      (¬ Checked .truce false (after d.placement v) d.currentPlayer.opposite →
        ((truceBook d).Allows v ↔ (book b).Allows v))) := by
    intro v hep
    rw [offers_iff_truceBook h.inv h.mod hactive hep, h.generates_iff_truce hply hroom]
    exact and_congr_left_iff
  constructor
  · intro hsame w hopen hquiet
    have hallows := ((hboth (.castling d.currentPlayer w) rfl).mp (hsame _ rfl) hquiet).mpr
      (.inr ⟨w, (h.castles_engine_iff w).mpr hopen, by rw [← h.side_eq]; rfl⟩)
    obtain ⟨w', hcastles, heq⟩ := (Book.allows_of_castle rfl).mp hallows
    obtain rfl := MoveView.castling_inj heq
    exact ((h.castles_app_iff w).mp hcastles).2
  · intro hsafe v hep
    refine (hboth v hep).mpr fun hquiet => ?_
    cases hv : v.castle with
    | false =>
      rw [← Book.allows_withoutCastling hv, ← @Book.allows_withoutCastling (book b) v hv]
      exact Book.allows_congr h.agree fun hep' => by rw [hep] at hep'; cases hep'
    | true =>
      rw [Book.allows_of_castle hv, Book.allows_of_castle hv]
      refine exists_congr fun w => ?_
      rw [h.castles_app_iff, h.castles_engine_iff]
      show (OpenWing d w ∧ SafeWing d w) ∧ v = .castling d.currentPlayer w ↔
        OpenWing d w ∧ v = .castling b.side w
      rw [h.side_eq]
      constructor
      · exact fun hc => ⟨hc.1.1, hc.2⟩
      · exact fun hc => ⟨⟨hc.1, hsafe w hc.1 (hc.2 ▸ hquiet)⟩, hc.2⟩

/-- Outside the truce the moves are the same. -/
theorem moves_agree_of_broken (h : TruceSim false d b) (hbroken : d.isTruceActive = false)
    (hply : b.ply < maxHistory) (hroom : ¬ Overflows b) {v : MoveView} (hep : v.ep = false) :
    d.Offers v ↔ Generates b v := by
  have hne : ∀ mod, mod ≠ .truce → d.gameType ≠ mod := by
    rintro mod hno rfl
    exact hno h.mod
  have hsound := h.soundMoves
  have hlock : kbLocked b = false := by simp [kbLocked, h.mod_eq, h.mod]
  rw [generates_iff_legal hsound hply hroom]
  refine h.toSim.offers_iff_legal (fun m hm _ => hsound.wellFormed m hm)
    (h.inv.kings h.needsKings _).2 h.castlingSound (hne _ (by decide)) (hne _ (by decide))
    (hne _ (by decide)) (hne _ (by decide)) (fun _ => ?_) h.truceNoCap_eq (fun hl => ?_)
    (fun hv => by rw [hep] at hv; cases hv) false fun hkb => absurd hkb (hne _ (by decide))
  · unfold ChessBoard.isTruceActive at hbroken
    rwa [Bool.not_eq_false'] at hbroken
  · rw [hlock] at hl
    cases hl

end Books

section Step

variable {d d' : ChessBoard} {b : Board} {active : Bool} {m : ChessMove}

/-- A quiet move marks the men that it moves, and no others, on both sides. -/
theorem frozen_step (h : TruceSim true d b) (hm : d.Sound m) (hquiet : m.capturedPiece = none)
    (henemy : TakesEnemyPawn d m) {player : Color} {status : GameStatus}
    {counter : List (List Char × ℤ)}
    (hsim : Sim (d.settled m player status counter) (boardMakeMove b (engineMove m)))
    {z : Position} {q : ChessPiece}
    (hq : (d.settled m player status counter).getPieceAt z = some q) :
    bbHas (boardMakeMove b (engineMove m)).truceFrozen (ofPos z) = true ↔
      (d.settled m player status counter).pieceHasMoved q = true := by
  have hep : m.isEnPassant = false := by
    by_contra hep
    obtain ⟨-, -, -, q', hq', -⟩ := hm.ep (by simpa using hep)
    rw [hquiet] at hq'
    cases hq'
  have hfrom : m.fromPos.IsValid := h.tidy.valid_of_getPieceAt hm.from_holds
  have hz : z.IsValid := hsim.tidy.valid_of_getPieceAt hq
  have wf := wellFormed_engineMove h.toSim hm henemy
  have hview := view_engineMove hfrom hm.to_valid
  have hmarks : (boardMakeMove b (engineMove m)).truceFrozen =
      marksAfter (engineMove m) b.truceFrozen := makeTruceFrozen_eq h.truceNoCap_eq wf.to_valid
  have hposition : q.position = z := (ChessBoard.mem_of_getPieceAt hq).2
  have hmoved : (d.settled m player status counter).pieceHasMoved q = true ↔
      d.pieceHasMoved q = true ∨ (m.piece.color = q.color ∧ m.toPos = z) := by
    unfold ChessBoard.pieceHasMoved
    rw [ChessBoard.settled_moveHistory, List.any_append, ← Bool.or_assoc, Bool.or_eq_true,
      hposition]
    simp
  have hnil : d.returnedQueen m = [] :=
    ChessBoard.returnedQueen_eq_nil (by rw [h.mod]; decide)
  have hlookup := ChessBoard.lookup_movedPieces h.tidy hm.toProper
    ChessBoard.placedPiece_position z
  have hafter : (d.settled m player status counter).getPieceAt z =
      Keyed.lookup ChessPiece.position (d.movedPieces m (placedPiece m)) z := by
    show Keyed.lookup ChessPiece.position (d.makePieces m ++ d.returnedQueen m) z = _
    rw [hnil, List.append_nil, ChessBoard.makePieces_eq]
  rw [← hafter, hq] at hlookup
  rw [hmarks, hmoved]
  cases hold : d.getPieceAt z with
  | none =>
    -- the man has come with this move
    have hempty : b.mailbox (ofPos z) = none := by
      rw [h.mailbox hz, ChessBoard.placement_eq_none.mpr hold]
    have hman : makeMailbox b (engineMove m) (ofPos z) ≠ none := by
      rw [← boardMakeMove_mailbox h.rep wf, hsim.mailbox hz,
        ChessBoard.placement_eq_some.mpr ⟨q, hq, rfl⟩]
      simp
    refine iff_of_true (marksAfter_of_arrived wf (sqValid_ofPos hz)
      (by rw [h.mod_eq, h.mod]; decide) hempty hman _) ?_
    rw [hold] at hlookup
    split_ifs at hlookup with h1 h2 h3
    · obtain ⟨rook, -, rfl⟩ := Option.map_eq_some_iff.mp hlookup.symm
      exact .inl rfl
    · obtain rfl := Option.some.inj hlookup
      exact .inr ⟨(congrArg Prod.fst ChessBoard.placedPiece_man).symm, h3.symm⟩
  | some q' =>
    have hto : z ≠ m.toPos := by
      rintro rfl
      rw [← hm.captured hep, hquiet] at hold
      cases hold
    have hdst : m.isCastling = true → z ≠ m.view.rookDst := by
      rintro hc rfl
      rw [(hm.castle hc).2.2.2.2.2.1] at hold
      cases hold
    rw [if_neg fun hc => hdst hc.1 hc.2] at hlookup
    split_ifs at hlookup with h1 h2 h3
    · rw [hold] at hlookup
      obtain rfl := Option.some.inj hlookup
      have hinj : ∀ p : Position, p.IsValid → z ≠ p → ofPos z ≠ ofPos p := by
        intro p hp hne heq
        exact hne (by rw [← toPos_ofPos hz, heq, toPos_ofPos hp])
      rw [marksAfter_of_staying wf (sqValid_ofPos hz) hep (hinj _ hfrom h2)
        (hinj _ hm.to_valid hto) ?_, h.frozen rfl z q hold]
      · exact (or_iff_left fun hc => hto hc.2.symm).symm
      · intro hc
        rw [hview, toPos_ofPos hz]
        exact ⟨fun heq => h1 ⟨hc, heq⟩, hdst hc⟩

theorem step (h : TruceSim active d b) (hphase : d.isTruceActive = active) (hclean : d.Clean m)
    (hexec : d.executeMove m = some d') : TruceSim active d' (boardMakeMove b (engineMove m)) := by
  have hne : ∀ mod, mod ≠ .truce → d.gameType ≠ mod := by
    rintro mod hno rfl
    exact hno h.mod
  have hsucc : d.gameType = .succession → m.isCastling = false :=
    fun hs => absurd hs (hne _ (by decide))
  have hmem := ChessBoard.mem_of_executeMove hexec
  have hm := h.inv.sound hclean hmem hsucc
  have hinv := h.inv.step hclean hsucc hexec
  obtain ⟨status, counter, rfl⟩ := h.inv.executeMove_eq hclean hsucc hexec
  have hsim := h.toSim.step hm hclean.takes (fun hs => absurd hs (hne _ (by decide))) h.inv.rooks
    (hne _ (by decide)) (fun hs => absurd hs (hne _ (by decide))) status counter
  refine { hsim with
    inv := hinv
    mod := ChessBoard.settled_gameType.trans h.mod
    passant := ?_
    flag := h.flag
    frozen := ?_ }
  · exact fun _ hshape => (h.toSim.epInv_engineMove hm hclean.takes hmem).passantOk hshape
  · intro htrue z q hq
    subst htrue
    obtain ⟨piece, -, -, hfilter, -⟩ := ChessBoard.mem_getValidMovesFor.mp hmem
    obtain ⟨-, -, hquiet, -⟩ := (mem_truceRuleset h.mod hphase).mp hfilter
    exact h.frozen_step hm hquiet hclean.takes hsim hq

end Step

theorem handOver {d : ChessBoard} (hinv : d.GameInv) (hmod : d.gameType = .truce)
    (hpassant : PassantFits d) : TruceSim d.isTruceActive d (handOver d) := by
  have hsim := sim_handOver hinv.tidy hinv.target
  refine { hsim with
    inv := hinv
    mod := hmod
    passant := fun _ => hsim.passantOk hinv.target hpassant
      (reads_handOver hinv.tidy hinv.target).ep_eq
    flag := ?_
    frozen := ?_ }
  · show (if d.gameType = .kingsBattle then false else truceActiveArg d) = _
    rw [truceActiveArg, hmod]
    rfl
  · intro hactive z q hq
    have hbroken : d.isTruceBroken = false := by
      unfold ChessBoard.isTruceActive at hactive
      rwa [Bool.not_eq_true'] at hactive
    have hbits : (Bridge.handOver d).truceFrozen = d.pieces.foldl (fun frozen piece =>
        if d.pieceHasMoved piece then frozen ||| (1#64 <<< ChessBoard.squareIndex piece.position)
        else frozen) 0 := by
      show (if d.gameType = .friendlyFire then 0 else truceFrozenArg d) = _
      rw [truceFrozenArg, hmod, if_neg (by decide)]
      exact if_neg (by rw [hbroken]; decide)
    rw [hbits, bbHas_marks hinv.tidy d.pieceHasMoved (hinv.tidy.valid_of_getPieceAt hq), hq]
    simp

end TruceSim

/-! ## Lines -/

/-- Along every line on which the phase stays what it was at the hand-over, both boards are
together. -/
theorem Tracks.truceSim {active : Bool} {d : ChessBoard} {b : Board}
    (h : Tracks ChessBoard.Clean (fun d => PassantFits d ∧ d.isTruceActive = active)
      (fun d _ => d.isTruceActive = active) (ChessBoard.initial .truce) d b) :
    TruceSim active d b := by
  induction h with
  | handOver hd hhand =>
    obtain ⟨hinv, hmod⟩ := hd.gameInv (fun _ _ hclean => hclean) (ChessBoard.gameInv_initial .truce)
      (by decide)
    obtain ⟨hpassant, rfl⟩ := hhand
    exact .handOver hinv hmod hpassant
  | step _ hphase hclean hexec ih => exact ih.step hphase hclean hexec

/-- While the phase has stayed what it was at the hand-over, the two engines agree on it and on the
moves other than en-passant captures if and only if it still is what it was and, under truce, every
open castling is safe. -/
theorem truce_lines_agree_iff (active : Bool) (d : ChessBoard) (b : Board)
    (h : Tracks ChessBoard.Clean (fun d => PassantFits d ∧ d.isTruceActive = active)
      (fun d _ => d.isTruceActive = active) (ChessBoard.initial .truce) d b)
    (hply : b.ply < maxHistory) (hroom : ¬ Overflows b) :
    (b.truceActive = d.isTruceActive ∧ ∀ v, v.ep = false → (d.Offers v ↔ Generates b v)) ↔
      d.isTruceActive = active ∧ (active = true → CastlesSafely d) := by
  have hsim := h.truceSim
  rw [hsim.flag, eq_comm]
  refine and_congr_right fun hphase => ?_
  cases active with
  | true =>
    rw [hsim.moves_agree_iff hphase hply hroom]
    simp
  | false =>
    refine iff_of_true (fun v hep => hsim.moves_agree_of_broken hphase hply hroom hep) ?_
    exact fun hfalse => (by cases hfalse)

theorem truce_lines_agree_start :
    (startBoard .truce).truceActive = (ChessBoard.initial .truce).isTruceActive ∧
    ∀ v, v.ep = false →
      ((ChessBoard.initial .truce).Offers v ↔ Generates (startBoard .truce) v) := by
  have hactive : (ChessBoard.initial .truce).isTruceActive = true := by decide +kernel
  have hhand : PassantFits (ChessBoard.initial .truce) := fun t ht => by cases ht
  refine (truce_lines_agree_iff true _ _ (.handOver .start ⟨hhand, hactive⟩) (by decide +kernel)
    (by decide +kernel)).mpr ⟨hactive, fun _ w hopen => ?_⟩
  have hfull : ∀ w : Wing, ¬ ∀ col ∈ w.empties,
      (ChessBoard.initial .truce).getPieceAt ⟨homeRow .white, col⟩ = none := by
    intro w
    cases w <;> decide +kernel
  exact absurd hopen.2.1 (hfull w)

/-- 1. e3 b6 2. g3 Ba6 3. Bg2 h6 4. Nf3 g6 -/
def sightedLine : List ChessMove :=
  let pawn := fun (c : Color) (a z : Position) => ChessMove.simple a z ⟨.pawn, c, a, false⟩ none
  [pawn .white ⟨1, 4⟩ ⟨2, 4⟩, pawn .black ⟨6, 1⟩ ⟨5, 1⟩, pawn .white ⟨1, 6⟩ ⟨2, 6⟩,
    ChessMove.simple ⟨7, 2⟩ ⟨5, 0⟩ ⟨.bishop, .black, ⟨7, 2⟩, false⟩ none,
    ChessMove.simple ⟨0, 5⟩ ⟨1, 6⟩ ⟨.bishop, .white, ⟨0, 5⟩, false⟩ none,
    pawn .black ⟨6, 7⟩ ⟨5, 7⟩,
    ChessMove.simple ⟨0, 6⟩ ⟨2, 5⟩ ⟨.knight, .white, ⟨0, 6⟩, false⟩ none,
    pawn .black ⟨6, 6⟩ ⟨5, 6⟩]

/-- 1. e3 a6 2. Bb5 d6, played on both boards, ends the truce in Dart only. After
1. e3 b6 2. g3 Ba6 3. Bg2 h6 4. Nf3 g6 white castles in C only, past the bishop on a6. -/
theorem truce_end_unseen :
    (∃ d b, Tracks ChessBoard.Clean PassantFits (fun _ _ => True) (ChessBoard.initial .truce) d b ∧
      d.isTruceActive = false ∧ b.truceActive = true) ∧
    ∃ d, ChessBoard.Reached ChessBoard.PlaysOn (ChessBoard.initial .truce) d ∧
      d.isTruceActive = true ∧ ¬ d.Offers (.castling .white .king) ∧
      Generates (handOver d) (.castling .white .king) := by
  have hend : (ChessBoard.initial .truce).PlainLine ChessBoard.exposedKingLine ∧
      (ChessBoard.exposedKingLine.foldl ChessBoard.next
        (ChessBoard.initial .truce)).isTruceActive = false ∧
      (ChessBoard.exposedKingLine.foldl (fun b m => boardMakeMove b (engineMove m))
        (startBoard .truce)).truceActive = true := by
    decide +kernel
  have hcastle : (ChessBoard.initial .truce).PlainLine sightedLine ∧
      (sightedLine.foldl ChessBoard.next (ChessBoard.initial .truce)).isTruceActive = true ∧
      (¬ ∃ m ∈ (sightedLine.foldl ChessBoard.next (ChessBoard.initial .truce)).getAllValidMoves,
        m.view = .castling .white .king) ∧
      ∃ m ∈ generateMoves (handOver (sightedLine.foldl ChessBoard.next
        (ChessBoard.initial .truce))), m.view = .castling .white .king := by
    decide +kernel
  exact ⟨⟨_, _, .line ChessBoard.exposedKingLine _ _ (.handOver .start fun t ht => by cases ht)
      hend.1, hend.2⟩,
    _, .line sightedLine _ .start hcastle.1, hcastle.2⟩

end ChessRecast.Bridge
