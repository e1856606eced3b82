import ChessRecast.Engine.BoardTheorems
import ChessRecast.Engine.Make

/-!
# `board_make_move` and `board_unmake_move` on the mailbox

`Shows v mb` says that the views are consistent and show the mailbox `mb`. Each primitive of C
is an update of `mb`, so making a well-formed move is a short chain of updates
(`makeMailbox`), and unmaking it is another chain that leads back.
-/

namespace ChessRecast.Engine

/-! ## Views that show a mailbox -/

/-- The views are consistent and their mailbox is `mb`. -/
structure Shows (v : Views) (mb : ℤ → Piece) : Prop where
  rep : RepInv v
  mailbox_eq : v.mailbox = mb

namespace Shows

variable {v w : Views} {mb : ℤ → Piece} {sq : ℤ}

theorem place (h : Shows v mb) (hsq : SqValid sq) (hempty : mb sq = none) (c : Color)
    (t : PieceType) : Shows (boardPlace v sq c t) (Function.update mb sq (some (c, t))) where
  rep := h.rep.place hsq (by rw [h.mailbox_eq, hempty]) c t
  mailbox_eq := by
    funext s
    rw [boardPlace_mailbox, h.mailbox_eq, Function.update_apply]

theorem remove (h : Shows v mb) (hsq : SqValid sq) :
    Shows (boardRemove v sq) (Function.update mb sq none) where
  rep := h.rep.remove hsq
  mailbox_eq := by
    funext s
    rw [boardRemove_mailbox, h.mailbox_eq, Function.update_apply]

theorem unique (hv : Shows v mb) (hw : Shows w mb) : v = w :=
  hv.rep.ext hw.rep (hv.mailbox_eq.trans hw.mailbox_eq.symm)

end Shows

/-! ## `board_set_fen` -/

/-- The squares that the scan has not reached yet are empty. -/
def AheadEmpty (v : Views) (row col : ℤ) : Prop :=
  ∀ r c, Grid.Inside 8 r c → (r < row ∨ (r = row ∧ col ≤ c)) → v.mailbox (SQ r c) = none

private theorem digit_nonneg {ch : Char} (h : '1' ≤ ch) : (0 : ℤ) ≤ ch.toNat - '0'.toNat := by
  have hle : '1'.toNat ≤ ch.toNat := h
  have h1 : '1'.toNat = 49 := rfl
  have h0 : '0'.toNat = 48 := rfl
  omega

/-- The scan places men on empty squares of the board, and does nothing else. -/
theorem parsePlacement_preserves {P : Views → Prop}
    (hplace : ∀ v sq c t, SqValid sq → v.mailbox sq = none → P v → P (boardPlace v sq c t))
    (fen : List Char) : ∀ (row col : ℤ) (v : Views),
      row ≤ 7 → 0 ≤ col → P v → AheadEmpty v row col → P (parsePlacement fen row col v).1 := by
  -- rows only go down and columns only go up, so every square is met at most once
  induction fen with
  | nil => intro row col v _ _ hv _; exact hv
  | cons ch fen ih =>
    intro row col v hrow hcol hv hahead
    unfold parsePlacement
    split
    · exact hv
    · split
      · apply ih (row - 1) 0 v (by omega) le_rfl hv
        intro r c hin hlt
        exact hahead r c hin (by omega)
      · split
        · rename_i hdigit
          have hnn := digit_nonneg hdigit.1
          apply ih row _ v hrow (by omega) hv
          intro r c hin hlt
          exact hahead r c hin (by omega)
        · apply ih row (col + 1) _ hrow (by omega)
          · split
            · split
              · rename_i hon
                have hin : Grid.Inside 8 row col := ⟨hon.1, by omega, hcol, hon.2⟩
                exact hplace _ _ _ _ (sqValid_SQ hin) (hahead row col hin (by omega)) hv
              · exact hv
            · exact hv
          · intro r c hin hlt
            have hold := hahead r c hin (by omega)
            split
            · split
              · rename_i hon
                have hon' : Grid.Inside 8 row col := ⟨hon.1, by omega, hcol, hon.2⟩
                rw [boardPlace_mailbox, if_neg, hold]
                rw [SQ_inj hin hon']
                omega
              · exact hold
            · exact hold

theorem repInv_boardClear : RepInv boardClear.toViews := by
  apply RepInv.of_squares <;> intros <;> simp [boardClear]

theorem repInv_boardRefresh {b : Board} (h : RepInv b.toViews) :
    RepInv (boardRefresh b).toViews := by
  have hocc : (boardRefresh b).occupied = b.occupied := by
    funext c
    exact (h.occupied_eq c).symm
  have hall : (boardRefresh b).all = b.all := by
    show b.pieceUnion .white ||| b.pieceUnion .black = b.all
    rw [h.all_eq, h.occupied_eq, h.occupied_eq]
  have hviews : (boardRefresh b).toViews = b.toViews := by
    show (⟨b.pieces, (boardRefresh b).occupied, (boardRefresh b).all, b.mailbox⟩ : Views) = _
    rw [hocc, hall]
  rw [hviews]
  exact h

theorem repInv_boardSetFen (fen : List Char) : RepInv (boardSetFen fen).toViews := by
  apply repInv_boardRefresh
  apply parsePlacement_preserves _ fen 7 0 boardClear.toViews le_rfl le_rfl repInv_boardClear
  · intro r c _ _
    rfl
  · exact fun v sq c t hsq hempty hv => hv.place hsq hempty c t

/-- The invariant does not look at the mod. -/
theorem RepInv.withMod {b : Board} (h : RepInv b.toViews) (mod : Mod) :
    RepInv ({ b with mod := mod } : Board).toViews := h

/-! ## Well-formed moves -/

/-- The fields of the move describe the board truthfully. -/
structure WellFormed (b : Board) (m : Move) : Prop where
  from_valid : SqValid m.fromSq
  to_valid : SqValid m.toSq
  from_ne_to : m.fromSq ≠ m.toSq
  from_holds : b.mailbox m.fromSq = some (b.side, m.piece)
  captured_eq : m.ep = false → m.captured = pieceType (b.mailbox m.toSq)
  ep_ok : m.ep = true → m.piece = .pawn ∧ m.captured = some .pawn ∧ b.mailbox m.toSq = none ∧
    b.mailbox (epCapSq m) = some (b.side.opposite, .pawn) ∧ m.castle = false
  castle_ok : m.castle = true → m.piece = .king ∧ m.captured = none ∧
    ∃ corner target, castleRook m.toSq = some (corner, target, b.side) ∧
      m.fromSq = SQ (sqRow m.toSq) 4 ∧ b.mailbox corner = some (b.side, .rook) ∧
      b.mailbox target = none
  promo_ok : m.promo = true → m.piece = .pawn ∧ m.promoType ≠ none

theorem castleRook_cases {toSq corner target : ℤ} {c : Color}
    (h : castleRook toSq = some (corner, target, c)) :
    (toSq = 6 ∧ corner = 7 ∧ target = 5 ∧ c = .white) ∨
    (toSq = 2 ∧ corner = 0 ∧ target = 3 ∧ c = .white) ∨
    (toSq = 62 ∧ corner = 63 ∧ target = 61 ∧ c = .black) ∨
    (toSq = 58 ∧ corner = 56 ∧ target = 59 ∧ c = .black) := by
  norm_num [castleRook, SQ] at h
  split_ifs at h <;> simp_all

namespace WellFormed

variable {b : Board} {m : Move}

theorem epCapSq_valid (h : WellFormed b m) : SqValid (epCapSq m) := by
  apply sqValid_SQ
  have hf := h.from_valid.inside
  have ht := h.to_valid.inside
  exact ⟨hf.1, hf.2.1, ht.2.2.1, ht.2.2.2⟩

theorem to_empty (h : WellFormed b m) (hcap : m.captured = none) : b.mailbox m.toSq = none := by
  cases hep : m.ep with
  | true => exact (h.ep_ok hep).2.2.1
  | false =>
    have := h.captured_eq hep
    rw [hcap] at this
    simpa [pieceType] using this.symm

/-- A capture that is not en passant finds a man on the target square. -/
theorem to_occupied (h : WellFormed b m) (hep : m.ep = false) (hcap : m.isCapture = true) :
    b.mailbox m.toSq ≠ none := by
  intro hnone
  have := h.captured_eq hep
  rw [hnone] at this
  simp [Move.isCapture, this, pieceType] at hcap

theorem ep_false_of_castle (h : WellFormed b m) (hc : m.castle = true) : m.ep = false := by
  cases hep : m.ep with
  | false => rfl
  | true => simp [(h.ep_ok hep).2.2.2.2] at hc

theorem castle_squares (h : WellFormed b m) (hc : m.castle = true) :
    ∃ corner target, castleRook m.toSq = some (corner, target, b.side) ∧
      b.mailbox corner = some (b.side, .rook) ∧ b.mailbox target = none ∧
      (SqValid corner ∧ SqValid target) ∧ (target ≠ corner ∧ target ≠ m.toSq ∧
        target ≠ m.fromSq) ∧ corner ≠ m.toSq ∧ corner ≠ m.fromSq := by
  obtain ⟨-, -, corner, target, hrook, hfrom, hcorner, hempty⟩ := h.castle_ok hc
  refine ⟨corner, target, hrook, hcorner, hempty, ?_⟩
  rcases castleRook_cases hrook with ⟨hto, rfl, rfl, -⟩ | ⟨hto, rfl, rfl, -⟩ |
      ⟨hto, rfl, rfl, -⟩ | ⟨hto, rfl, rfl, -⟩ <;>
  · rw [hfrom, hto]
    decide

end WellFormed

/-! ## Making a move on the mailbox -/

/-- `captureViews` on the mailbox. -/
def captureMailbox (b : Board) (m : Move) : ℤ → Piece :=
  if m.ep then Function.update b.mailbox (epCapSq m) none
  else if m.isCapture then
    let mb := Function.update b.mailbox m.toSq none
    if StqReprisons b m then
      Function.update mb (stqPrison b.side.opposite) (some (b.side.opposite, .queen))
    else mb
  else b.mailbox

/-- `makeViews` on the mailbox. -/
def makeMailbox (b : Board) (m : Move) : ℤ → Piece :=
  let mb := Function.update (captureMailbox b m) m.fromSq none
  let mb := Function.update mb m.toSq (some (b.side, placedType m))
  if m.castle then
    match castleRook m.toSq with
    | some (corner, target, c) =>
      Function.update (Function.update mb corner none) target (some (c, .rook))
    | none => mb
  else mb

theorem stqPrison_valid (c : Color) : SqValid (stqPrison c) := by cases c <;> decide

section Make

variable {b : Board} {m : Move}

/-- A queen goes back to a square where nothing stands, so not to a square of the move. -/
theorem StqReprisons.prison_ne (h : StqReprisons b m) (wf : WellFormed b m) :
    stqPrison b.side.opposite ≠ m.fromSq ∧ stqPrison b.side.opposite ≠ m.toSq := by
  obtain ⟨-, hqueen, -, hempty⟩ := h
  constructor
  · intro heq
    rw [heq, wf.from_holds] at hempty
    cases hempty
  · intro heq
    rw [heq] at hempty
    rw [hempty] at hqueen
    cases hqueen

theorem shows_captureViews (h : RepInv b.toViews) (wf : WellFormed b m) :
    Shows (captureViews b m) (captureMailbox b m) := by
  have hb : Shows b.toViews b.mailbox := ⟨h, rfl⟩
  unfold captureViews captureMailbox
  split
  · exact hb.remove wf.epCapSq_valid
  · split
    · have hto := hb.remove wf.to_valid
      by_cases hre : StqReprisons b m
      · rw [if_pos hre, if_pos hre]
        apply hto.place (stqPrison_valid _)
        rw [Function.update_apply]
        split
        · rfl
        · exact hre.2.2.2
      · rw [if_neg hre, if_neg hre]
        exact hto
    · exact hb

theorem captureMailbox_to (wf : WellFormed b m) : captureMailbox b m m.toSq = none := by
  unfold captureMailbox
  split
  · rename_i hep
    rw [Function.update_apply, (wf.ep_ok hep).2.2.1, ite_self]
  · rename_i hep
    split
    · by_cases hre : StqReprisons b m
      · rw [if_pos hre, Function.update_apply, if_neg (hre.prison_ne wf).2.symm,
          Function.update_self]
      · rw [if_neg hre, Function.update_self]
    · rename_i hcap
      apply wf.to_empty
      simpa [Move.isCapture] using hcap

/-- A castling move leaves the mailbox as it is at the captures. -/
theorem captureMailbox_of_castle (wf : WellFormed b m) (hc : m.castle = true) :
    captureMailbox b m = b.mailbox := by
  have hcap := (wf.castle_ok hc).2.1
  simp [captureMailbox, wf.ep_false_of_castle hc, Move.isCapture, hcap]

/-- Making a well-formed move keeps the views consistent and shows `makeMailbox`. -/
theorem shows_makeViews (h : RepInv b.toViews) (wf : WellFormed b m) :
    Shows (makeViews b m) (makeMailbox b m) := by
  have hfrom := (shows_captureViews h wf).remove wf.from_valid
  have hto := hfrom.place wf.to_valid
    (by rw [Function.update_apply, captureMailbox_to wf, ite_self]) b.side (placedType m)
  unfold makeViews makeMailbox
  by_cases hc : m.castle = true
  · obtain ⟨corner, target, hrook, -, hempty, hvalid, ht, -⟩ := wf.castle_squares hc
    simp only [hc, if_true, hrook]
    apply (hto.remove hvalid.1).place hvalid.2
    rw [captureMailbox_of_castle wf hc]
    simp [ht, hempty]
  · simp only [hc]
    exact hto

/-! ## Unmaking a move on the mailbox -/

/-- The piece is back on its square; what the move captured is still missing. -/
theorem shows_pieceBack (h : RepInv b.toViews) (wf : WellFormed b m) (hc : m.castle = false) :
    Shows (boardPlace (boardRemove (makeViews b m) m.toSq) m.fromSq b.side m.piece)
      (Function.update (captureMailbox b m) m.fromSq (some (b.side, m.piece))) := by
  have hto := (shows_makeViews h wf).remove wf.to_valid
  have hmb : Function.update (makeMailbox b m) m.toSq none =
      Function.update (captureMailbox b m) m.fromSq none := by
    funext s
    simp only [makeMailbox, hc, Bool.false_eq_true, if_false, Function.update_apply]
    by_cases hs : s = m.toSq
    · rw [if_pos hs, hs, if_neg wf.from_ne_to.symm, captureMailbox_to wf]
    · rw [if_neg hs, if_neg hs]
  rw [hmb] at hto
  have hplace := hto.place wf.from_valid (Function.update_self _ _ _) b.side m.piece
  rwa [Function.update_idem] at hplace

theorem unmakeViews_of_ep (h : RepInv b.toViews) (wf : WellFormed b m) (hep : m.ep = true) :
    Shows (unmakeViews (makeViews b m) (makeUndo b m) b.side) b.mailbox := by
  obtain ⟨-, -, -, hcap, hc⟩ := wf.ep_ok hep
  have hne : m.fromSq ≠ epCapSq m := by
    intro heq
    rw [← heq, wf.from_holds] at hcap
    simp at hcap
  have hback := shows_pieceBack h wf hc
  simp only [unmakeViews, makeUndo, captureUndo, hep, if_true, hcap, hc, Bool.false_eq_true,
    false_and, if_false]
  simp only [captureMailbox, hep, if_true] at hback
  have hplace := hback.place wf.epCapSq_valid
    (by rw [Function.update_of_ne hne.symm, Function.update_self]) b.side.opposite .pawn
  refine ⟨hplace.rep, hplace.mailbox_eq.trans ?_⟩
  rw [Function.update_comm hne, Function.update_idem, ← hcap, Function.update_eq_self,
    ← wf.from_holds, Function.update_eq_self]

theorem unmakeViews_of_castle (h : RepInv b.toViews) (wf : WellFormed b m)
    (hc : m.castle = true) :
    Shows (unmakeViews (makeViews b m) (makeUndo b m) b.side) b.mailbox := by
  obtain ⟨corner, target, hrook, hcorner, hempty, hvalid, ht, hcn⟩ := wf.castle_squares hc
  have hcap := (wf.castle_ok hc).2.1
  have hep := wf.ep_false_of_castle hc
  have hmake := shows_makeViews h wf
  simp only [makeMailbox, hc, if_true, hrook, captureMailbox_of_castle wf hc] at hmake
  simp only [unmakeViews, makeUndo, captureUndo, hep, Bool.false_eq_true, if_false,
    Move.isCapture, hcap, Option.isSome_none, false_and, hc, if_true, hrook]
  have h1 := hmake.remove wf.to_valid
  have h2 := h1.place wf.from_valid
    (by simp [Function.update_apply, ht.2.2.symm, wf.from_ne_to]) b.side m.piece
  have h3 := (h2.remove hvalid.2).place hvalid.1
    (by simp [Function.update_apply, hcn]) b.side .rook
  refine ⟨h3.rep, h3.mailbox_eq.trans ?_⟩
  have hto := wf.to_empty hcap
  have hholds := wf.from_holds
  funext s
  simp only [Function.update_apply]
  split_ifs <;> simp_all

theorem unmakeViews_of_plain (h : RepInv b.toViews) (wf : WellFormed b m) (hep : m.ep = false)
    (hc : m.castle = false) :
    Shows (unmakeViews (makeViews b m) (makeUndo b m) b.side) b.mailbox := by
  have hback := shows_pieceBack h wf hc
  by_cases hcap : m.isCapture = true
  · obtain ⟨⟨c, t⟩, hman⟩ := Option.ne_none_iff_exists'.mp (wf.to_occupied hep hcap)
    by_cases hre : StqReprisons b m
    · obtain ⟨hpf, hpt⟩ := hre.prison_ne wf
      have hne : stqPrison b.side.opposite ≠ sqNone := by cases b.side <;> decide
      simp only [captureMailbox, hep, Bool.false_eq_true, if_false, hcap, if_true, hre] at hback
      simp only [unmakeViews, makeUndo, captureUndo, hep, Bool.false_eq_true, if_false, hcap,
        if_true, hre, hman, hc, hne, ne_eq, not_false_eq_true, and_self]
      -- the queen leaves the prison before the captured one is put back
      have h1 := hback.remove (stqPrison_valid b.side.opposite)
      have h2 := h1.place wf.to_valid
        (by simp [hpt.symm, wf.from_ne_to.symm]) c t
      refine ⟨h2.rep, h2.mailbox_eq.trans ?_⟩
      funext s
      have hprison := hre.2.2.2
      have hholds := wf.from_holds
      simp only [Function.update_apply]
      split_ifs <;> simp_all
    · simp only [captureMailbox, hep, Bool.false_eq_true, if_false, hcap, if_true, hre] at hback
      simp only [unmakeViews, makeUndo, captureUndo, hep, Bool.false_eq_true, if_false, hcap,
        if_true, hre, hman, hc, false_and]
      have h1 := hback.place wf.to_valid
        (by simp [wf.from_ne_to.symm]) c t
      refine ⟨h1.rep, h1.mailbox_eq.trans ?_⟩
      rw [Function.update_comm wf.from_ne_to, Function.update_idem, ← hman,
        Function.update_eq_self, ← wf.from_holds, Function.update_eq_self]
  · have hcap' : m.isCapture = false := by simpa using hcap
    simp only [captureMailbox, hep, hcap', Bool.false_eq_true, if_false] at hback
    simp only [unmakeViews, makeUndo, captureUndo, hep, hcap', Bool.false_eq_true, if_false,
      hc, false_and]
    refine ⟨hback.rep, hback.mailbox_eq.trans ?_⟩
    rw [← wf.from_holds, Function.update_eq_self]

/-- The placement after unmaking a well-formed move is the one before it. -/
theorem unmakeViews_makeViews (h : RepInv b.toViews) (wf : WellFormed b m) :
    unmakeViews (makeViews b m) (makeUndo b m) b.side = b.toViews := by
  have hshows : Shows (unmakeViews (makeViews b m) (makeUndo b m) b.side) b.mailbox := by
    cases hep : m.ep with
    | true => exact unmakeViews_of_ep h wf hep
    | false =>
      cases hc : m.castle with
      | true => exact unmakeViews_of_castle h wf hc
      | false => exact unmakeViews_of_plain h wf hep hc
  exact hshows.unique ⟨h, rfl⟩

end Make

/-! ## The whole board -/

/-- `b'` is the board `b` again, the used part of the undo stack aside. -/
def Restored (b b' : Board) : Prop := b' = { b with history := b'.history }

namespace Restored

variable {b b' b'' : Board}

theorem trans (h : Restored b b') (h' : Restored b' b'') : Restored b b'' := by
  unfold Restored at *
  rw [h] at h'
  exact h'

theorem repInv (h : Restored b b') (hb : RepInv b.toViews) : RepInv b'.toViews := by
  rw [h]
  exact hb

theorem wellFormed {m : Move} (h : Restored b b') (wf : WellFormed b m) : WellFormed b' m := by
  rw [h]
  exact ⟨wf.1, wf.2, wf.3, wf.4, wf.5, wf.6, wf.7, wf.8⟩

end Restored

theorem repInv_boardMakeMove {b : Board} {m : Move} (h : RepInv b.toViews) (wf : WellFormed b m) :
    RepInv (boardMakeMove b m).toViews :=
  (shows_makeViews h wf).rep

theorem boardMakeMove_history {b : Board} {m : Move} {i : ℕ} (hi : i ≠ b.ply) :
    (boardMakeMove b m).history i = b.history i := by
  show (if i = b.ply ∧ b.ply < maxHistory then makeUndo b m else b.history i) = _
  rw [if_neg fun hc => hi hc.1]

/-- Make and unmake, for whatever move: only the placement can change. -/
theorem unmake_make_eq {b : Board} {m : Move} (hply : b.ply < maxHistory) :
    boardUnmakeMove (boardMakeMove b m) =
      { b with
        toViews := unmakeViews (makeViews b m) (makeUndo b m) b.side
        history := (boardMakeMove b m).history } := by
  have hentry : (boardMakeMove b m).history b.ply = makeUndo b m := by
    show pushHistory b.history b.ply (makeUndo b m) b.ply = _
    rw [pushHistory, if_pos ⟨rfl, hply⟩]
  have hfields : (makeUndo b m).castling = b.castling ∧ (makeUndo b m).epSquare = b.epSquare ∧
      (makeUndo b m).halfmove = b.halfmove ∧ (makeUndo b m).hash = b.hash ∧
      (makeUndo b m).heirPromoted = b.heirPromoted ∧
      (makeUndo b m).truceActive = b.truceActive ∧ (makeUndo b m).truceFrozen = b.truceFrozen ∧
      (makeUndo b m).ffMoved = b.ffMoved ∧ (makeUndo b m).kbUnlocked = b.kbUnlocked ∧
      (makeUndo b m).kbIdleKings = b.kbIdleKings := by
    unfold makeUndo captureUndo
    split
    · exact ⟨rfl, rfl, rfl, rfl, rfl, rfl, rfl, rfl, rfl, rfl⟩
    · split
      · split <;> exact ⟨rfl, rfl, rfl, rfl, rfl, rfl, rfl, rfl, rfl, rfl⟩
      · exact ⟨rfl, rfl, rfl, rfl, rfl, rfl, rfl, rfl, rfl, rfl⟩
  obtain ⟨h1, h2, h3, h4, h5, h6, h7, h8, h9, h10⟩ := hfields
  have hbonus : (makeUndo b m).kbBonus = (makeKb b m).bonus := rfl
  have hus : (if (makeUndo b m).kbBonus = true then (boardMakeMove b m).side
      else (boardMakeMove b m).side.opposite) = b.side := by
    rw [hbonus]
    show (if (makeKb b m).bonus = true then (if (makeKb b m).bonus = true then b.side
      else b.side.opposite) else (if (makeKb b m).bonus = true then b.side
      else b.side.opposite).opposite) = b.side
    cases (makeKb b m).bonus <;> simp
  have hfull : (if b.side = .black then (boardMakeMove b m).fullmove - 1
      else (boardMakeMove b m).fullmove) = b.fullmove := by
    show (if b.side = .black then (if b.side = .black then b.fullmove + 1 else b.fullmove) - 1
      else (if b.side = .black then b.fullmove + 1 else b.fullmove)) = b.fullmove
    cases b.side <;> simp
  unfold boardUnmakeMove
  rw [show (boardMakeMove b m).ply - 1 = b.ply from rfl, hentry]
  simp only [hus, hfull, h1, h2, h3, h4, h5, h6, h7, h8, h9, h10]
  rfl

theorem boardUnmakeMove_boardMakeMove {b : Board} {m : Move} (h : RepInv b.toViews)
    (wf : WellFormed b m) (hply : b.ply < maxHistory) :
    Restored b (boardUnmakeMove (boardMakeMove b m)) := by
  rw [unmake_make_eq hply, unmakeViews_makeViews h wf]
  rfl

/-! ## Lines and sessions -/

/-- Every move of the line is well formed where it is played, and the undo stack has room. -/
def WellFormedLine (b : Board) : List Move → Prop
  | [] => True
  | m :: ms => WellFormed b m ∧ b.ply < maxHistory ∧ WellFormedLine (boardMakeMove b m) ms

/-- The same board, with the same undo entries below its ply. -/
structure Agree (b b' : Board) : Prop where
  restored : Restored b b'
  below : ∀ i, i < b.ply → b'.history i = b.history i

namespace Agree

variable {b b' : Board} {m : Move}

theorem refl (b : Board) : Agree b b := ⟨rfl, fun _ _ => rfl⟩

theorem trans {b'' : Board} (h : Agree b b') (h' : Agree b' b'') : Agree b b'' := by
  have hply : b'.ply = b.ply := by rw [h.restored]
  exact ⟨h.restored.trans h'.restored, fun i hi => (h'.below i (by omega)).trans (h.below i hi)⟩

/-- Unmaking reads one entry, which agreeing boards share. -/
theorem unmake (h : Agree b b') (hply : 0 < b.ply) :
    Agree (boardUnmakeMove b) (boardUnmakeMove b') := by
  have hentry := h.below (b.ply - 1) (by omega)
  refine ⟨?_, fun i hi => h.below i (lt_of_lt_of_le hi (Nat.sub_le _ _))⟩
  have hr := h.restored
  unfold Restored at hr ⊢
  rw [hr]
  simp only [boardUnmakeMove, hentry]

theorem of_make (h : RepInv b.toViews) (wf : WellFormed b m) (hply : b.ply < maxHistory) :
    Agree b (boardUnmakeMove (boardMakeMove b m)) := by
  refine ⟨boardUnmakeMove_boardMakeMove h wf hply, fun i hi => ?_⟩
  exact boardMakeMove_history (Nat.ne_of_lt hi)

end Agree

/-- After as many unmakes as makes the board is back, with its undo entries. -/
theorem agree_unmakes (ms : List Move) : ∀ b : Board, RepInv b.toViews → WellFormedLine b ms →
    Agree b (boardUnmakeMove^[ms.length] (ms.foldl boardMakeMove b)) := by
  induction ms with
  | nil => intro b _ _; exact Agree.refl b
  | cons m ms ih =>
    intro b h hline
    obtain ⟨wf, hply, hrest⟩ := hline
    have hmade := ih (boardMakeMove b m) (repInv_boardMakeMove h wf) hrest
    rw [List.foldl_cons, List.length_cons, Function.iterate_succ_apply']
    exact (Agree.of_make h wf hply).trans (hmade.unmake (Nat.succ_pos _))

/-- Makes and unmakes in any order, an unmake only of a make that is still open; the list holds
the boards on which the open makes were called. -/
inductive Session (start : Board) : List Board → Board → Prop
  | start : Session start [] start
  | make {stack : List Board} {b : Board} {m : Move} : Session start stack b → WellFormed b m →
      b.ply < maxHistory → Session start (b :: stack) (boardMakeMove b m)
  | unmake {stack : List Board} {b prev : Board} : Session start (prev :: stack) b →
      Session start stack (boardUnmakeMove b)

/-- The board agrees with one made from the last open board, and so on down the stack. -/
def Nested : List Board → Board → Prop
  | [], _ => True
  | prev :: stack, b => RepInv prev.toViews ∧ prev.ply < maxHistory ∧
      (∃ m, WellFormed prev m ∧ Agree (boardMakeMove prev m) b) ∧ Nested stack prev

theorem Nested.congr {stack : List Board} {b b' : Board} (h : Nested stack b) (ha : Agree b b') :
    Nested stack b' := by
  cases stack with
  | nil => trivial
  | cons prev stack =>
    obtain ⟨hrep, hply, ⟨m, wf, hm⟩, hrest⟩ := h
    exact ⟨hrep, hply, ⟨m, wf, hm.trans ha⟩, hrest⟩

/-- Along a session the invariant holds and the open makes stay nested. -/
theorem Session.invariant {start : Board} {stack : List Board} {b : Board}
    (hs : Session start stack b) (h : RepInv start.toViews) :
    RepInv b.toViews ∧ Nested stack b := by
  induction hs with
  | start => exact ⟨h, trivial⟩
  | make _ wf hply ih =>
    exact ⟨repInv_boardMakeMove ih.1 wf, ih.1, hply, ⟨_, wf, Agree.refl _⟩, ih.2⟩
  | unmake _ ih =>
    obtain ⟨-, hrep, hply, ⟨m, wf, hm⟩, hrest⟩ := ih
    have hback := (Agree.of_make hrep wf hply).trans (hm.unmake (Nat.succ_pos _))
    exact ⟨hback.restored.repInv hrep, hrest.congr hback⟩

/-! ## Main results -/

/-- Unmaking restores every field of the board, for one well-formed move and for any number of
them. -/
theorem unmake_restores_make :
    (∀ (b : Board) (m : Move), RepInv b.toViews → b.ply < maxHistory → WellFormed b m →
      Restored b (boardUnmakeMove (boardMakeMove b m))) ∧
    (∀ (b : Board) (ms : List Move), RepInv b.toViews → WellFormedLine b ms →
      Restored b (boardUnmakeMove^[ms.length] (ms.foldl boardMakeMove b))) := by
  constructor
  · intro b m h hply wf
    exact boardUnmakeMove_boardMakeMove h wf hply
  · intro b ms h hline
    exact (agree_unmakes ms b h hline).restored

/-- Save the Queen: the pawn b2 can take the prisoner queen c3, whose prison d1 is free. -/
def prisonerBoard : Board :=
  { boardSetFen "4k3/8/8/8/8/2q5/1P6/4K3 w - - 0 1".toList with mod := .saveQueen }

/-- The capture b2xc3 on `prisonerBoard`. -/
def prisonerCapture : Move := moveCapture (SQ 1 1) (SQ 2 2) .pawn (some .queen)

private theorem repInv_prisonerBoard : RepInv prisonerBoard.toViews :=
  (repInv_boardSetFen _).withMod _

private theorem wellFormed_prisonerCapture : WellFormed prisonerBoard prisonerCapture where
  from_valid := by decide
  to_valid := by decide
  from_ne_to := by decide
  from_holds := by decide +kernel
  captured_eq := fun _ => by decide +kernel
  ep_ok := fun h => by cases h
  castle_ok := fun h => by cases h
  promo_ok := fun h => by cases h

theorem unmake_restores_prisonerCapture :
    Restored prisonerBoard (boardUnmakeMove (boardMakeMove prisonerBoard prisonerCapture)) ∧
    Restored prisonerBoard
      (boardUnmakeMove^[1] ([prisonerCapture].foldl boardMakeMove prisonerBoard)) :=
  ⟨unmake_restores_make.1 _ _ repInv_prisonerBoard (by decide) wellFormed_prisonerCapture,
    unmake_restores_make.2 _ [prisonerCapture] repInv_prisonerBoard
      ⟨wellFormed_prisonerCapture, by decide, trivial⟩⟩

/-- The representation invariant: `board_set_fen` establishes it whatever it reads, a
well-formed make keeps it, and so does every nesting of makes and unmakes. -/
theorem repInv_established_and_kept :
    (∀ fen : List Char, RepInv (boardSetFen fen).toViews) ∧
    (∀ (b : Board) (m : Move), RepInv b.toViews → WellFormed b m →
      RepInv (boardMakeMove b m).toViews) ∧
    (∀ (start : Board) (stack : List Board) (b : Board), RepInv start.toViews →
      Session start stack b → RepInv b.toViews) := by
  refine ⟨repInv_boardSetFen, ?_, ?_⟩
  · intro b m h wf
    exact repInv_boardMakeMove h wf
  · intro start stack b h hs
    exact (hs.invariant h).1

theorem repInv_kept_by_prisonerCapture :
    RepInv (boardMakeMove prisonerBoard prisonerCapture).toViews ∧
    RepInv (boardUnmakeMove (boardMakeMove prisonerBoard prisonerCapture)).toViews :=
  ⟨repInv_established_and_kept.2.1 _ _ repInv_prisonerBoard wellFormed_prisonerCapture,
    repInv_established_and_kept.2.2 prisonerBoard [] _ repInv_prisonerBoard
      (.unmake (.make .start wellFormed_prisonerCapture (by decide)))⟩

end ChessRecast.Engine
