import ChessRecast.Bridge.Lines

/-!
# Rules equivalence in Kings' Battle

Dart recomputes the phase from the whole history; C carries a flag and a count of idle king moves.
The flag is handed over and the count is not, so the two phases can part when some of six idle
king moves were made before the hand-over.
-/

namespace ChessRecast.Bridge

open App Engine Rules

/-! ## The phase after a move -/

/-- Does a man of the type stand on the square? -/
def holds (p : Placement) (z : Position) (t : PieceType) : Bool := (p z).map Prod.snd = some t

/-- The phase after a move, read off the board before it. -/
def phaseAfter (p : Placement) (unlocked : Bool) (idleKings : ℕ) (v : MoveView) : Bool :=
  unlocked || (holds p v.src .king && holds p v.dst .pawn) ||
    (holds p v.src .pawn && v.promo.isSome) ||
    (holds p v.src .king && (p v.dst).isNone && 6 ≤ idleKings + 1)

section Phase

variable {d : ChessBoard} {b : Board}

theorem unlockedAfter_eq_phaseAfter {m : ChessMove} (hm : d.Proper m)
    (hking : m.piece.type = .king → m.isEnPassant = false) :
    d.unlockedAfter m = phaseAfter d.placement d.isPhase2Unlocked d.idleKings m.view := by
  have hsrc : d.placement m.view.src = some m.piece.man :=
    ChessBoard.placement_eq_some.mpr ⟨m.piece, hm.from_holds, rfl⟩
  have hpromo : m.view.promo.isSome = m.isPromotion := by
    show (if m.isPromotion then some _ else none : Option PieceType).isSome = _
    cases m.isPromotion <;> rfl
  rw [ChessBoard.unlockedAfter_eq]
  unfold phaseAfter holds ChessMove.isFirstBlood ChessMove.isKingsKill ChessMove.isIdleKing
  rw [hsrc, hpromo]
  by_cases hk : m.piece.type = .king
  · have hdst : d.placement m.view.dst = m.capturedPiece.map ChessPiece.man := by
      rw [hm.captured (hking hk)]
      rfl
    rw [hdst]
    cases m.capturedPiece <;> simp [hk, ChessPiece.man]
  · simp [hk, ChessPiece.man]

theorem captured_captureUndo {m : Move} (hep : m.ep = false) (hcap : m.isCapture = true) :
    (captureUndo b m).captured = b.mailbox m.toSq := by
  unfold captureUndo
  dsimp only
  rw [hep, hcap]
  split_ifs <;> first | rfl | contradiction

theorem kbUnlocked_eq_phaseAfter {m : Move} (hmod : b.mod = .kingsBattle) (wf : WellFormed b m)
    (hidle : b.kbUnlocked = false → b.kbIdleKings < 255) : (boardMakeMove b m).kbUnlocked =
      phaseAfter (placement b.toViews) b.kbUnlocked b.kbIdleKings m.view := by
  have hsrc : placement b.toViews m.view.src = some (b.side, m.piece) :=
    (placement_toPos wf.from_valid).trans wf.from_holds
  have hdst : placement b.toViews m.view.dst = b.mailbox m.toSq := placement_toPos wf.to_valid
  have hpromo : m.view.promo.isSome = m.promo := by
    show (if m.promo then m.promoType else none).isSome = _
    cases hp : m.promo with
    | true => exact Option.isSome_iff_ne_none.mpr (wf.promo_ok hp).2
    | false => rfl
  show (makeKb b m).unlocked = _
  unfold makeKb phaseAfter holds
  rw [hsrc, hpromo, hdst]
  cases hopen : b.kbUnlocked with
  | true => simp
  | false =>
    rw [if_pos ⟨hmod, rfl⟩, if_pos (hidle hopen)]
    by_cases hk : m.piece = .king
    · have hep : m.ep = false := by
        by_contra hep
        rw [(wf.ep_ok (by simpa using hep)).1] at hk
        cases hk
      have hcap : m.isCapture = (b.mailbox m.toSq).isSome := by
        unfold Move.isCapture
        rw [wf.captured_eq hep]
        cases b.mailbox m.toSq <;> rfl
      cases hman : b.mailbox m.toSq with
      | none => simp [hk, hcap, hman]
      | some man =>
        have hundo : (captureUndo b m).captured = some man := by
          rw [captured_captureUndo hep (by rw [hcap, hman]; rfl), hman]
        obtain ⟨c, t⟩ := man
        rw [hundo, hcap, hman]
        by_cases ht : t = .pawn <;> simp [hk, ht, pieceType]
    · by_cases hp : m.piece = .pawn ∧ m.promo = true
      · simp [hp]
      · simpa [hk, hp] using fun hpawn : m.piece = .pawn =>
          Bool.eq_false_iff.mpr fun hflag => hp ⟨hpawn, hflag⟩

end Phase

/-! ## Lines -/

/-- What the C board needs at a ply: room for the move and its undo entry, and all idle king moves
of the game if five of them are the last. -/
structure KbFits (d : ChessBoard) (b : Board) : Prop where
  ply : b.ply < maxHistory
  room : ¬ Overflows b
  idle : d.isPhase2Unlocked = false → d.idleKings = 5 → b.kbIdleKings = 5

/-- Both boards at a ply of a line. -/
structure KbSim (d : ChessBoard) (b : Board) : Prop extends Sim d b where
  inv : d.KbInv
  passant : ∀ m, PseudoShape b m → PassantOk b m
  idle_le : d.isPhase2Unlocked = false → b.kbIdleKings ≤ d.idleKings

section Lines

variable {d d' : ChessBoard} {b : Board} {m : ChessMove}

theorem KbSim.phaseAfter_eq (h : KbSim d b)
    (hidle : d.isPhase2Unlocked = false → d.idleKings = 5 → b.kbIdleKings = 5) (v : MoveView) :
    phaseAfter (placement b.toViews) b.kbUnlocked b.kbIdleKings v =
      phaseAfter d.placement d.isPhase2Unlocked d.idleKings v := by
  rw [h.placement_eq, h.phase h.inv.mod]
  cases hlocked : d.isPhase2Unlocked with
  | true => simp [phaseAfter]
  | false =>
    have hle := h.idle_le hlocked
    have hfive := d.idleKings_le hlocked
    have hsame : 6 ≤ b.kbIdleKings + 1 ↔ 6 ≤ d.idleKings + 1 := by
      have := hidle hlocked
      omega
    simp only [phaseAfter, hsame]

theorem KbSim.idle_lt (h : KbSim d b) (hlocked : b.kbUnlocked = false) : b.kbIdleKings < 255 := by
  rw [h.phase h.inv.mod] at hlocked
  have hle := h.idle_le hlocked
  have hfive := d.idleKings_le hlocked
  omega

theorem KbSim.kbUnlocked_engineMove (h : KbSim d b) (hfits : KbFits d b) (hm : d.Sound m)
    (hclean : d.Clean m) :
    (boardMakeMove b (engineMove m)).kbUnlocked = d.unlockedAfter m := by
  have hfrom : m.fromPos.IsValid := h.tidy.valid_of_getPieceAt hm.from_holds
  rw [kbUnlocked_eq_phaseAfter (h.mod_eq.trans h.inv.mod)
      (wellFormed_engineMove h.toSim hm hclean.takes) h.idle_lt, h.phaseAfter_eq hfits.idle,
    view_engineMove hfrom hm.to_valid, unlockedAfter_eq_phaseAfter hm.toProper]
  intro hking
  by_contra hep
  rw [(hm.passant (by simpa using hep)).1] at hking
  cases hking

/-- The count of C grows with that of Dart, and both start again together. -/
theorem KbSim.idle_step (h : KbSim d b) (hlocked : d.isPhase2Unlocked = false) :
    (makeKb b (engineMove m)).idleKings ≤ if m.isIdleKing then d.idleKings + 1 else 0 := by
  have hphase : b.mod = .kingsBattle ∧ b.kbUnlocked = false :=
    ⟨h.mod_eq.trans h.inv.mod, (h.phase h.inv.mod).trans hlocked⟩
  have hidle : ((engineMove m).piece = .king ∧ (engineMove m).isCapture = false) ↔
      m.isIdleKing = true := by
    show m.piece.type = .king ∧ (m.capturedPiece.map ChessPiece.type).isSome = false ↔ _
    unfold ChessMove.isIdleKing
    cases m.capturedPiece <;> simp
  have hle := h.idle_le hlocked
  unfold makeKb
  rw [if_pos hphase, if_pos (h.idle_lt hphase.2)]
  split
  · exact Nat.zero_le _
  · split
    · exact Nat.zero_le _
    · split
      · rename_i hking
        rw [if_pos (hidle.mp hking)]
        exact Nat.succ_le_succ hle
      · exact Nat.zero_le _

theorem KbSim.step (h : KbSim d b) (hfits : KbFits d b) (hclean : d.Clean m)
    (hexec : d.executeMove m = some d') : KbSim d' (boardMakeMove b (engineMove m)) := by
  have hne : ∀ mod, mod ≠ .kingsBattle → d.gameType ≠ mod := by
    rintro mod hno rfl
    exact hno h.inv.mod
  have hsucc : d.gameType = .succession → m.isCastling = false :=
    fun hs => absurd hs (hne _ (by decide))
  have hmem := ChessBoard.mem_of_executeMove hexec
  have hm := h.inv.toGameInv.sound hclean hmem hsucc
  have hinv := h.inv.step hclean hexec
  obtain ⟨status, counter, rfl⟩ := h.inv.toGameInv.executeMove_eq hclean hsucc hexec
  refine { h.toSim.step hm hclean.takes (fun hs => absurd hs (hne _ (by decide))) h.inv.rooks
    (hne _ (by decide)) (fun _ => h.kbUnlocked_engineMove hfits hm hclean) status counter with
    inv := hinv, passant := ?_, idle_le := ?_ }
  · exact fun _ hshape => (h.toSim.epInv_engineMove hm hclean.takes hmem).passantOk hshape
  · intro hlocked
    rw [ChessBoard.isPhase2Unlocked_settled, ChessBoard.unlockedAfter_eq, Bool.or_eq_false_iff,
      Bool.or_eq_false_iff] at hlocked
    rw [ChessBoard.idleKings_settled]
    exact h.idle_step hlocked.1.1

theorem KbSim.offers_iff (h : KbSim d b) (hfits : KbFits d b) {v : MoveView} (hep : v.ep = false) :
    d.Offers v ↔ Generates b v := by
  have hne : ∀ mod, mod ≠ .kingsBattle → d.gameType ≠ mod := by
    rintro mod hno rfl
    exact hno h.inv.mod
  have hcastle := castlingSound_of_gameInv h.inv.toGameInv h.inv.needsKings
  have hsound := h.toSim.soundMoves hcastle h.passant
  have hone := (h.inv.kings h.inv.needsKings d.currentPlayer).2
  have hpassant : v.ep = true → d.EpSound := fun hv => by rw [hep] at hv; cases hv
  rw [generates_iff_legal hsound hfits.ply hfits.room]
  refine h.toSim.offers_iff_legal (fun m hm _ => hsound.wellFormed m hm) hone hcastle
    (hne _ (by decide)) (hne _ (by decide)) (hne _ (by decide)) (hne _ (by decide))
    (fun hs => absurd hs (hne _ (by decide))) ?_ (fun hlock w => ?_)
    (fun hv => by rw [hep] at hv; cases hv)
    (phaseAfter d.placement d.isPhase2Unlocked d.idleKings v) fun _ => ⟨?_, ?_⟩
  · simp [truceNoCap, h.mod_eq, h.inv.mod]
  · exact h.inv.notCastles (h.kbLocked_iff.mp hlock).2 w
  · intro m hm hv
    have hking := ChessBoard.kingFound_of_oneKing h.tidy hone
    subst hv
    exact unlockedAfter_eq_phaseAfter (hm.proper h.tidy hking hpassant) fun _ => hep
  · intro m hm hv
    rw [kbUnlocked_eq_phaseAfter (h.mod_eq.trans h.inv.mod) (hsound.wellFormed m hm) h.idle_lt,
      h.phaseAfter_eq hfits.idle, hv]

/-- Along every line that fits, both boards are together. -/
theorem Tracks.kbSim (h : Tracks ChessBoard.Clean PassantFits KbFits
    (ChessBoard.initial .kingsBattle) d b) : KbSim d b := by
  induction h with
  | @handOver d hd hhand =>
    have hinv := hd.kbInv fun _ _ hclean => hclean
    have hsim := sim_handOver hinv.tidy hinv.target
    have hreads := reads_handOver hinv.tidy hinv.target
    exact { hsim with
      inv := hinv
      passant := fun _ => hsim.passantOk hinv.target hhand hreads.ep_eq
      idle_le := fun _ => hreads.fresh.2.trans_le (Nat.zero_le _) }
  | step _ hfits hclean hexec ih => exact ih.step hfits hclean hexec

end Lines

/-- Along every line that fits the two engines agree on the phase, the player and the moves other
than en-passant captures; Phase 2 stays unlocked, and a player moves again exactly after the
king's capture of a pawn that unlocks it. -/
theorem kingsBattle_lines_agree (d : ChessBoard) (b : Board)
    (h : Tracks ChessBoard.Clean PassantFits KbFits (ChessBoard.initial .kingsBattle) d b)
    (hfits : KbFits d b) :
    b.kbUnlocked = d.isPhase2Unlocked ∧ b.side = d.currentPlayer ∧
    (∀ v, v.ep = false → (d.Offers v ↔ Generates b v)) ∧
    ∀ m d', d.Clean m → d.executeMove m = some d' →
      (d.isPhase2Unlocked = true → d'.isPhase2Unlocked = true) ∧
      (d'.currentPlayer = d.currentPlayer ↔
        m.isKingsKill = true ∧ d.isPhase2Unlocked = false ∧ d'.isPhase2Unlocked = true) := by
  have hsim := h.kbSim
  refine ⟨hsim.phase hsim.inv.mod, hsim.side_eq, fun v hep => hsim.offers_iff hfits hep, ?_⟩
  intro m d' hclean hexec
  obtain ⟨status, counter, rfl⟩ := hsim.inv.toGameInv.executeMove_eq hclean
    (fun hs => by rw [hsim.inv.mod] at hs; cases hs) hexec
  rw [ChessBoard.isPhase2Unlocked_settled, ChessBoard.unlockedAfter_eq]
  refine ⟨fun hopen => by simp [hopen], ?_⟩
  show (if d.KeepsTurn m then d.currentPlayer else d.currentPlayer.opposite) = _ ↔ _
  by_cases hkeeps : d.KeepsTurn m
  · rw [if_pos hkeeps]
    refine iff_of_true rfl ⟨hkeeps.2.2, hkeeps.2.1, ?_⟩
    simp [ChessMove.isFirstBlood, hkeeps.2.2]
  · rw [if_neg hkeeps]
    refine iff_of_false d.currentPlayer.opposite_ne ?_
    exact fun hall => hkeeps ⟨hsim.inv.mod, hall.2.1, hall.1⟩

/-- The hand-over of the starting position. -/
theorem kingsBattle_lines_agree_start :
    (startBoard .kingsBattle).side = (ChessBoard.initial .kingsBattle).currentPlayer ∧
    ∀ v, v.ep = false →
      ((ChessBoard.initial .kingsBattle).Offers v ↔ Generates (startBoard .kingsBattle) v) := by
  have h := kingsBattle_lines_agree (ChessBoard.initial .kingsBattle) (startBoard .kingsBattle)
    (.handOver .start fun t ht => by cases ht) ⟨by decide +kernel, by decide +kernel, nofun⟩
  exact ⟨h.2.1, h.2.2.1⟩

/-- 1. e3 e6 2. Ke2 Ke7 3. Kd3 -/
def kingsWalkOut : List ChessMove :=
  [ChessMove.simple ⟨1, 4⟩ ⟨2, 4⟩ ⟨.pawn, .white, ⟨1, 4⟩, false⟩ none,
    ChessMove.simple ⟨6, 4⟩ ⟨5, 4⟩ ⟨.pawn, .black, ⟨6, 4⟩, false⟩ none,
    ChessMove.simple ⟨0, 4⟩ ⟨1, 4⟩ ⟨.king, .white, ⟨0, 4⟩, false⟩ none,
    ChessMove.simple ⟨7, 4⟩ ⟨6, 4⟩ ⟨.king, .black, ⟨7, 4⟩, false⟩ none,
    ChessMove.simple ⟨1, 4⟩ ⟨2, 3⟩ ⟨.king, .white, ⟨1, 4⟩, true⟩ none]

/-- 3... Kd6 4. Kc3 Kc6 -/
def kingsWalkOn : List ChessMove :=
  [ChessMove.simple ⟨6, 4⟩ ⟨5, 3⟩ ⟨.king, .black, ⟨6, 4⟩, true⟩ none,
    ChessMove.simple ⟨2, 3⟩ ⟨2, 2⟩ ⟨.king, .white, ⟨2, 3⟩, true⟩ none,
    ChessMove.simple ⟨5, 3⟩ ⟨5, 2⟩ ⟨.king, .black, ⟨5, 3⟩, true⟩ none]

/-- Six idle king moves, three of them before the hand-over: Dart is in Phase 2, C is not. -/
theorem idle_kings_lost_at_handOver : ∃ d b,
    Tracks ChessBoard.Clean PassantFits (fun _ _ => True) (ChessBoard.initial .kingsBattle) d b ∧
    d.isPhase2Unlocked = true ∧ b.kbUnlocked = false := by
  refine ⟨kingsWalkOn.foldl ChessBoard.next
      (kingsWalkOut.foldl ChessBoard.next (ChessBoard.initial .kingsBattle)),
    _, .line kingsWalkOn _ _ (.handOver ?_ ?_) (by decide +kernel), by decide +kernel,
    by decide +kernel⟩
  · exact (ChessBoard.Reached.line kingsWalkOut _ .start (by decide +kernel)).mono
      fun _ _ h => h.2
  · have hnone : (kingsWalkOut.foldl ChessBoard.next
        (ChessBoard.initial .kingsBattle)).enPassantTarget = none := by decide +kernel
    intro t ht
    rw [hnone] at ht
    cases ht

end ChessRecast.Bridge
