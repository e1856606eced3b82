import ChessRecast.Engine.BookTheorems
import ChessRecast.Engine.Invariants

/-!
# King safety in the C engine

Making a well-formed move is `Rules.after` on the placement, up to the queen that Save the Queen
puts back; `is_legal` asks whether a king is `Checked` there.
-/

namespace ChessRecast.Engine

open Rules

/-- The move is a capture that sends a queen back to prison. -/
def Reprisons (b : Board) (m : Move) : Prop :=
  m.ep = false ∧ m.isCapture = true ∧ StqReprisons b m

instance (b : Board) (m : Move) : Decidable (Reprisons b m) :=
  inferInstanceAs (Decidable (_ ∧ _ ∧ _))

section Made

variable {b : Board} {m : Move}

/-- The squares of the castling rook, as the view names them. -/
theorem castle_view (wf : WellFormed b m) (hc : m.castle = true) :
    ∃ corner target, castleRook m.toSq = some (corner, target, b.side) ∧
      toPos corner = m.view.rookSrc ∧ toPos target = m.view.rookDst ∧
      b.mailbox corner = some (b.side, .rook) ∧ (SqValid corner ∧ SqValid target) := by
  obtain ⟨-, -, corner, target, hrook, hfrom, hcorner, -⟩ := wf.castle_ok hc
  refine ⟨corner, target, hrook, ?_⟩
  have hsrc : m.view.rookSrc = ⟨sqRow (SQ (sqRow m.toSq) 4),
      if sqCol m.toSq = 6 then 7 else 0⟩ := by rw [← hfrom]; rfl
  have hdst : m.view.rookDst = ⟨sqRow (SQ (sqRow m.toSq) 4),
      if sqCol m.toSq = 6 then 5 else 3⟩ := by rw [← hfrom]; rfl
  rw [hsrc, hdst]
  rcases castleRook_cases hrook with ⟨hto, rfl, rfl, -⟩ | ⟨hto, rfl, rfl, -⟩ |
      ⟨hto, rfl, rfl, -⟩ | ⟨hto, rfl, rfl, -⟩ <;>
  · rw [hto]
    exact ⟨by decide, by decide, hcorner, by decide⟩

theorem epSquare_view (wf : WellFormed b m) : toPos (epCapSq m) = m.view.epSquare := by
  have hf := wf.from_valid.inside
  have ht := wf.to_valid.inside
  exact toPos_SQ (p := ⟨sqRow m.fromSq, sqCol m.toSq⟩) ⟨hf.1, hf.2.1, ht.2.2.1, ht.2.2.2⟩

/-- What stands on a square that is neither end of the move. -/
theorem captureMailbox_apply {s : ℤ} (hto : s ≠ m.toSq) : captureMailbox b m s =
    if Reprisons b m ∧ s = stqPrison b.side.opposite then some (b.side.opposite, .queen)
    else if m.ep = true ∧ s = epCapSq m then none else b.mailbox s := by
  unfold captureMailbox
  by_cases hep : m.ep = true
  · have hre : ¬ Reprisons b m := fun h => by simp [h.1] at hep
    simp [hep, hre, Function.update_apply]
  · by_cases hcap : m.isCapture = true
    · by_cases hstq : StqReprisons b m
      · have hre : Reprisons b m := ⟨by simpa using hep, hcap, hstq⟩
        simp [hep, hcap, hstq, hre, Function.update_apply, hto]
      · have hre : ¬ Reprisons b m := fun h => hstq h.2.2
        simp [hep, hcap, hstq, hre, hto]
    · have hre : ¬ Reprisons b m := fun h => hcap h.2.1
      simp [hep, hcap, hre]

theorem not_reprisons_of_castle (wf : WellFormed b m) (hc : m.castle = true) :
    ¬ Reprisons b m := by
  rintro ⟨-, hcap, -⟩
  simp [Move.isCapture, (wf.castle_ok hc).2.1] at hcap

theorem placement_boardMakeMove (h : RepInv b.toViews) (wf : WellFormed b m) (q : Position) :
    placement (boardMakeMove b m).toViews q =
      if Reprisons b m ∧ q = toPos (stqPrison b.side.opposite) then
        some (b.side.opposite, .queen)
      else after (placement b.toViews) m.view q := by
  have hsrc : placement b.toViews m.view.src = some (b.side, m.piece) :=
    (placement_toPos wf.from_valid).trans wf.from_holds
  have hplaced : m.view.promo.getD m.piece = placedType m := by
    unfold placedType Move.view
    cases m.promo <;> rfl
  by_cases hq : q.IsValid
  · obtain ⟨s, hs, rfl⟩ := exists_toPos hq
    rw [placement_toPos hs, boardMakeMove_mailbox h wf]
    have hto : toPos s = m.view.dst ↔ s = m.toSq := toPos_inj hs wf.to_valid
    have hfrom : toPos s = m.view.src ↔ s = m.fromSq := toPos_inj hs wf.from_valid
    have hep : toPos s = m.view.epSquare ↔ s = epCapSq m := by
      rw [← epSquare_view wf]
      exact toPos_inj hs wf.epCapSq_valid
    have hprison : toPos s = toPos (stqPrison b.side.opposite) ↔
        s = stqPrison b.side.opposite := toPos_inj hs (stqPrison_valid _)
    unfold after makeMailbox
    by_cases hc : m.castle = true
    · have hre := not_reprisons_of_castle wf hc
      obtain ⟨corner, target, hrook, hcor, htar, hman, hv⟩ := castle_view wf hc
      have hcor' : toPos s = m.view.rookSrc ↔ s = corner := by
        rw [← hcor]
        exact toPos_inj hs hv.1
      have htar' : toPos s = m.view.rookDst ↔ s = target := by
        rw [← htar]
        exact toPos_inj hs hv.2
      have hmanp : placement b.toViews m.view.rookSrc = some (b.side, .rook) := by
        rw [← hcor, placement_toPos hv.1, hman]
      have hnoep : m.ep = false := wf.ep_false_of_castle hc
      simp only [hc, if_true, hrook, captureMailbox_of_castle wf hc, Function.update_apply, hre,
        false_and, if_false, hto, hfrom, hcor', htar', hmanp, hsrc, hplaced, Option.map_some,
        placement_toPos hs, show m.view.castle = true from hc, true_and,
        show m.view.ep = false from hnoep, Bool.false_eq_true]
    · simp only [hc, if_false, Function.update_apply, show ¬ m.view.castle = true from hc,
        false_and, hto, hfrom, hsrc, hplaced, Option.map_some, placement_toPos hs, hprison, hep,
        show m.view.ep = m.ep from rfl, Bool.false_eq_true]
      by_cases hst : s = m.toSq
      · have hno : ¬ (Reprisons b m ∧ s = stqPrison b.side.opposite) := fun hre =>
          (hre.1.2.2.prison_ne wf).2 (hre.2.symm.trans hst)
        simp [hst, hst ▸ hno]
      · rw [if_neg hst, if_neg hst, captureMailbox_apply hst]
        by_cases hsf : s = m.fromSq
        · have hno : ¬ (Reprisons b m ∧ s = stqPrison b.side.opposite) := fun hre =>
            (hre.1.2.2.prison_ne wf).1 (hre.2.symm.trans hsf)
          rw [if_pos hsf, if_neg hno, if_pos hsf]
        · rw [if_neg hsf, if_neg hsf]
  · have hne : ∀ {r : Position}, r.IsValid → q ≠ r := fun hr heq => hq (heq ▸ hr)
    have hempty : ∀ v : Views, placement v q = none := fun v => if_neg hq
    rw [hempty, if_neg fun hre => hne (stqPrison_valid _).toPos hre.2]
    unfold after
    rw [if_neg, if_neg, if_neg (show q ≠ m.view.dst from hne wf.to_valid.toPos),
      if_neg (show q ≠ m.view.src from hne wf.from_valid.toPos), hempty]
    · simp
    · rintro ⟨hc, heq⟩
      obtain ⟨corner, target, -, hcor, -, -, hv⟩ := castle_view wf hc
      exact hne hv.1.toPos (heq.trans hcor.symm)
    · rintro ⟨hc, heq⟩
      obtain ⟨corner, target, -, -, htar, -, hv⟩ := castle_view wf hc
      exact hne hv.2.toPos (heq.trans htar.symm)

theorem placement_boardMakeMove_eq (h : RepInv b.toViews) (wf : WellFormed b m)
    (hre : ¬ Reprisons b m) :
    placement (boardMakeMove b m).toViews = after (placement b.toViews) m.view := by
  funext q
  rw [placement_boardMakeMove h wf, if_neg fun hr => hre hr.1]

end Made

/-! ## Check -/

section Check

variable {b : Board} {m : Move} {c : Color}

theorem pieces_ne_zero_iff (h : RepInv b.toViews) {t : PieceType} :
    b.pieces c t ≠ 0 ↔ ∃ k, placement b.toViews k = some (c, t) := by
  rw [bb_ne_zero_iff]
  constructor
  · rintro ⟨sq, hsq, hbit⟩
    exact ⟨toPos sq, (placement_toPos hsq).trans ((h.bit_iff c t sq hsq).mp hbit)⟩
  · rintro ⟨k, hk⟩
    have hv := placement_eq_some_valid hk
    rw [placement_eq_mailbox b hv] at hk
    exact ⟨ofPos k, sqValid_ofPos hv, (h.bit_iff c t _ (sqValid_ofPos hv)).mpr hk⟩

theorem lowestKing_iff (h : RepInv b.toViews) {k : Position} :
    LowestKing (placement b.toViews) c k ↔
      b.pieces c .king ≠ 0 ∧ k = toPos (bbLsb (b.pieces c .king)) := by
  have hlow : b.pieces c .king ≠ 0 →
      LowestKing (placement b.toViews) c (toPos (bbLsb (b.pieces c .king))) := by
    intro hne
    obtain ⟨hv, hbit⟩ := bbLsb_spec hne
    refine ⟨(placement_toPos hv).trans ((h.bit_iff c .king _ hv).mp hbit), fun k' hk' => ?_⟩
    have hv' := placement_eq_some_valid hk'
    rw [placement_eq_mailbox b hv'] at hk'
    have hle := bbLsb_le (sqValid_ofPos hv')
      ((h.bit_iff c .king _ (sqValid_ofPos hv')).mpr hk')
    have hin := hv.inside
    rw [← SQ_sqRow_sqCol hv, ofPos] at hle
    unfold SQ at hle
    unfold Grid.Inside at hin
    rw [Position.isValid_iff] at hv'
    show sqRow _ < k'.row ∨ (sqRow _ = k'.row ∧ sqCol _ ≤ k'.col)
    omega
  constructor
  · intro hk
    have hne := (pieces_ne_zero_iff h).mpr ⟨k, hk.1⟩
    refine ⟨hne, ?_⟩
    -- two lowest kings stand before each other
    have h1 := hk.2 _ (hlow hne).1
    have h2 := (hlow hne).2 _ hk.1
    rw [Position.eq_iff]
    omega
  · rintro ⟨hne, rfl⟩
    exact hlow hne

theorem toPos_bbLsb_king (h : RepInv b.toViews) (hone : OneKing (placement b.toViews) c)
    {k : Position} (hk : placement b.toViews k = some (c, .king)) :
    toPos (bbLsb (b.pieces c .king)) = k :=
  ((lowestKing_iff h).mp (hone.lowestKing_iff.mpr hk)).2.symm

/-- A side is in check exactly when its lowest king is attacked and check rules apply. -/
theorem boardInCheck_iff_lowest (h : RepInv b.toViews) :
    boardInCheck b c = true ↔ ¬ (b.mod = .heir ∧ heirCheckApplies b c = false) ∧
      ¬ (b.mod = .truce ∧ b.truceActive = true) ∧
      ∃ k, LowestKing (placement b.toViews) c k ∧
        Attacked b.mod b.kbUnlocked (placement b.toViews) c.opposite k := by
  unfold boardInCheck
  dsimp only
  by_cases hzero : b.pieces c .king = 0
  · rw [if_pos hzero]
    simp only [Bool.false_eq_true, false_iff]
    rintro ⟨-, -, k, hk, -⟩
    exact ((lowestKing_iff h).mp hk).1 hzero
  · rw [if_neg hzero]
    have hattack : boardSquareAttacked b (bbLsb (b.pieces c .king)) c.opposite = true ↔
        ∃ k, LowestKing (placement b.toViews) c k ∧
          Attacked b.mod b.kbUnlocked (placement b.toViews) c.opposite k := by
      rw [boardSquareAttacked_iff h (bbLsb_spec hzero).1]
      simp only [lowestKing_iff h, ne_eq, hzero, not_false_eq_true, true_and, exists_eq_left]
    split_ifs with h1 h2
    · simp [h1]
    · simp [h2]
    · rw [hattack]
      exact ⟨fun ha => ⟨h1, h2, ha⟩, fun ha => ha.2.2⟩

/-- A side with one king is in check exactly when it is attacked and check rules apply. -/
theorem boardInCheck_iff (h : RepInv b.toViews) (hone : OneKing (placement b.toViews) c) :
    boardInCheck b c = true ↔ ¬ (b.mod = .heir ∧ heirCheckApplies b c = false) ∧
      ¬ (b.mod = .truce ∧ b.truceActive = true) ∧
      Checked b.mod b.kbUnlocked (placement b.toViews) c := by
  rw [boardInCheck_iff_lowest h]
  simp only [hone.lowestKing_iff]
  rfl

/-- Outside an active truce, `is_legal` asks whether the mover is in check afterwards. -/
theorem legal_iff (hcap : truceNoCap b = false) :
    legal b m = true ↔ boardInCheck (boardMakeMove b m) b.side = false := by
  have hcap' : truceNoCap (boardMakeMove b m) = false := hcap
  unfold legal legalAfter
  rw [hcap']
  cases boardInCheck (boardMakeMove b m) b.side <;> simp

theorem promo_mem_promoTypes (h : RepInv b.toViews) (hm : m ∈ pseudoMoves b) {t : PieceType}
    (ht : m.view.promo = some t) : t ∈ promoTypes b (ofPos m.view.dst) := by
  have harr : (book b).Arrives m.view → t ∈ promoTypes b (ofPos m.view.dst) := by
    intro harr
    unfold Book.Arrives at harr
    split at harr
    · obtain ⟨t', hbecomes, hv⟩ := harr
      rw [hv] at ht
      obtain rfl := Option.some.inj ht
      exact hbecomes
    · rw [harr] at ht
      cases ht
  -- no other move promotes
  have hplain : ∀ v : MoveView, v.promo = none → m.view ≠ v := by
    intro v hv heq
    rw [heq, hv] at ht
    cases ht
  rcases (exists_pseudoMoves_iff h).mp ⟨m, hm, rfl⟩ with
    ⟨-, -, ⟨t, -, -, -, hv⟩ | ⟨-, ⟨-, hv⟩ | ⟨-, -, ⟨-, hgo⟩ | ⟨-, -, -, hv⟩⟩ |
      ⟨-, ⟨-, hgo⟩ | ⟨-, hv⟩⟩⟩⟩ | ⟨w, -, hv⟩
  · exact absurd hv (hplain _ rfl)
  · exact absurd hv (hplain _ rfl)
  · exact harr hgo
  · exact absurd hv (hplain _ rfl)
  · exact harr hgo
  · exact absurd hv (hplain _ rfl)
  · exact absurd hv (hplain _ rfl)

/-- Promotion to king is an option of Heir and Succession only. -/
theorem promo_ne_king (h : RepInv b.toViews) (hheir : b.mod ≠ .heir) (hsucc : b.mod ≠ .succession)
    (hm : m ∈ pseudoMoves b) : m.view.promo ≠ some .king := by
  intro hking
  have ht := promo_mem_promoTypes h hm hking
  unfold promoTypes at ht
  split at ht
  · rename_i hmod
    exact hheir hmod
  · rename_i hmod
    exact hsucc hmod
  · simp at ht
  · simp at ht

theorem oneKing_view (wf : WellFormed b m) (hone : OneKing (placement b.toViews) c)
    (hpromo : m.view.promo ≠ some .king) :
    OneKing (after (placement b.toViews) m.view) c := by
  apply hone.after hpromo
  intro hc heq
  obtain ⟨corner, target, -, hcor, -, hrook, hv⟩ := castle_view wf hc
  have hsq : m.fromSq = corner := (toPos_inj wf.from_valid hv.1).mp (heq.trans hcor.symm)
  have hking := wf.from_holds
  rw [hsq, hrook, (wf.castle_ok hc).1] at hking
  cases hking

/-- Under ordinary check rules `is_legal` asks whether the mover's king is attacked after the
move. -/
theorem legal_iff_unchecked (h : RepInv b.toViews) (wf : WellFormed b m)
    (hone : OneKing (after (placement b.toViews) m.view) b.side) (hheir : b.mod ≠ .heir)
    (hcap : truceNoCap b = false) (hre : ¬ Reprisons b m) :
    legal b m = true ↔ ¬ Checked b.mod (boardMakeMove b m).kbUnlocked
      (after (placement b.toViews) m.view) b.side := by
  have hplace := placement_boardMakeMove_eq h wf hre
  have hmod : (boardMakeMove b m).mod = b.mod := rfl
  rw [legal_iff hcap, ← Bool.not_eq_true, not_iff_not,
    boardInCheck_iff (repInv_boardMakeMove h wf) (by rw [hplace]; exact hone), hplace, hmod]
  have htruce : ¬ (b.mod = .truce ∧ (boardMakeMove b m).truceActive = true) := by
    intro ht
    have hcap' : truceNoCap (boardMakeMove b m) = false := hcap
    simp [truceNoCap, hmod, ht.1, ht.2] at hcap'
  exact ⟨fun hc => hc.2.2, fun hc => ⟨fun hh => hheir hh.1, htruce, hc⟩⟩

theorem legal_iff_safe (h : RepInv b.toViews) (wf : WellFormed b m)
    (hone : OneKing (placement b.toViews) b.side) (hheir : b.mod ≠ .heir)
    (hcap : truceNoCap b = false) (hre : ¬ Reprisons b m)
    (hpromo : m.view.promo ≠ some .king) :
    legal b m = true ↔ ¬ Checked b.mod (boardMakeMove b m).kbUnlocked
      (after (placement b.toViews) m.view) b.side :=
  legal_iff_unchecked h wf (oneKing_view wf hone hpromo) hheir hcap hre

end Check

/-! ## The generated moves by their views -/

/-- `generate_moves` returns a move with this view. -/
def Generates (b : Board) (v : MoveView) : Prop := ∃ m ∈ generateMoves b, m.view = v

/-- A legal move is lost behind the first `MAX_MOVES` pseudo-legal ones. -/
def Overflows (b : Board) : Prop :=
  ∃ m ∈ pseudoMoves b, legal b m = true ∧ m ∉ (pseudoMoves b).take maxMoves

instance (b : Board) : Decidable (Overflows b) :=
  inferInstanceAs (Decidable (∃ m ∈ pseudoMoves b, _ ∧ _))

section Views

variable {b : Board} {m m' : Move} {v : MoveView}

theorem promoType_of_mem_pseudoMoves (h : RepInv b.toViews) (hm : m ∈ pseudoMoves b)
    (hpromo : m.promo = false) : m.promoType = none := by
  cases shape_of_mem_pseudoMoves h hm with
  | plain sq toSq pt hsq hto hne hman heq => subst heq; rfl
  | promotion sq toSq pt hsq hto hne hman heq => subst heq; cases hpromo
  | passant sq t hsq hto hstep hman hsome hcapt heq => subst heq; rfl
  | castle w hnow hopen heq => subst heq; rfl

/-- A castling move, or a move that would be there without any castling right. -/
theorem castle_or_mem (h : RepInv b.toViews) (hm : m ∈ pseudoMoves b) :
    (∃ w, CastlesNow b ∧ CastleOpen b w ∧ m = castleMove b.side w) ∨
      (m.castle = false ∧ m ∈ pseudoMoves { b with castling := 0 }) := by
  cases hc : m.castle with
  | true =>
    left
    cases shape_of_mem_pseudoMoves h hm with
    | plain sq toSq pt hsq hto hne hman heq => subst heq; cases hc
    | promotion sq toSq pt hsq hto hne hman heq => subst heq; cases hc
    | passant sq t hsq hto hstep hman hsome hcapt heq => subst heq; cases hc
    | castle w hnow hopen heq => exact ⟨w, hnow, hopen, heq⟩
  | false =>
    refine .inr ⟨rfl, ?_⟩
    rcases mem_pseudoMoves.mp hm with hm | ⟨pt, hpt, hm⟩ | hm
    · exact mem_pseudoMoves.mpr (.inl hm)
    · exact mem_pseudoMoves.mpr (.inr (.inl ⟨pt, hpt, hm⟩))
    · obtain ⟨-, w, -, rfl⟩ := mem_genCastling.mp hm
      cases hc

/-- Without rights nothing but the en-passant square can make a move malformed. -/
theorem genSafe_withoutRights (h : RepInv b.toViews) (hep : EpInv b) :
    GenSafe { b with castling := 0 } where
  rep := h
  ep := hep
  rook := fun _ hright => absurd (BitVec.zero_and) hright
  king := fun _ _ hopen => absurd (BitVec.zero_and) hopen.1

theorem eq_of_wellFormed (wf : WellFormed b m) (wf' : WellFormed b m')
    (hplain : m.promo = false → m.promoType = none)
    (hplain' : m'.promo = false → m'.promoType = none) (hv : m.view = m'.view) : m = m' := by
  have hfrom : m.fromSq = m'.fromSq :=
    (toPos_inj wf.from_valid wf'.from_valid).mp (congrArg MoveView.src hv)
  have hto : m.toSq = m'.toSq :=
    (toPos_inj wf.to_valid wf'.to_valid).mp (congrArg MoveView.dst hv)
  have hcastle : m.castle = m'.castle := congrArg MoveView.castle hv
  have hep : m.ep = m'.ep := congrArg MoveView.ep hv
  have hpiece : m.piece = m'.piece := by
    have := wf.from_holds
    rw [hfrom, wf'.from_holds] at this
    exact (Prod.mk.inj (Option.some.inj this)).2.symm
  have hcapt : m.captured = m'.captured := by
    cases he : m.ep with
    | true => rw [(wf.ep_ok he).2.1, (wf'.ep_ok (hep ▸ he)).2.1]
    | false => rw [wf.captured_eq he, wf'.captured_eq (hep ▸ he), hto]
  have hpromo : (if m.promo then m.promoType else none) =
      if m'.promo then m'.promoType else none := congrArg MoveView.promo hv
  have hkind : m.promo = m'.promo ∧ m.promoType = m'.promoType := by
    cases hp : m.promo <;> cases hp' : m'.promo <;> rw [hp, hp'] at hpromo
    · exact ⟨rfl, (hplain hp).trans (hplain' hp').symm⟩
    · exact absurd hpromo.symm (wf'.promo_ok hp').2
    · exact absurd hpromo (wf.promo_ok hp).2
    · exact ⟨rfl, hpromo⟩
  obtain ⟨f, t, p, c, ca, e, pr, pt⟩ := m
  obtain ⟨f', t', p', c', ca', e', pr', pt'⟩ := m'
  simp only at hfrom hto hcastle hep hpiece hcapt hkind
  rw [hfrom, hto, hpiece, hcapt, hcastle, hep, hkind.1, hkind.2]

theorem eq_of_view_eq (h : SoundMoves b) (hm : m ∈ pseudoMoves b) (hm' : m' ∈ pseudoMoves b)
    (hv : m.view = m'.view) : m = m' :=
  eq_of_wellFormed (h.wellFormed m hm) (h.wellFormed m' hm')
    (promoType_of_mem_pseudoMoves h.rep hm) (promoType_of_mem_pseudoMoves h.rep hm') hv

theorem generates_iff (h : SoundMoves b) (hply : b.ply < maxHistory) : Generates b v ↔
    ∃ m ∈ (pseudoMoves b).take maxMoves, legal b m = true ∧ m.view = v := by
  unfold Generates
  rw [generateMoves_eq h hply]
  simp only [List.mem_filter, and_assoc]

/-- A legal move is generated exactly when there is room for it. -/
theorem generates_iff_mem_take (h : SoundMoves b) (hply : b.ply < maxHistory)
    (hm : m ∈ pseudoMoves b) (hlegal : legal b m = true) :
    Generates b m.view ↔ m ∈ (pseudoMoves b).take maxMoves := by
  rw [generates_iff h hply]
  constructor
  · rintro ⟨m', hm', -, hv⟩
    exact eq_of_view_eq h (List.mem_of_mem_take hm') hm hv ▸ hm'
  · exact fun htake => ⟨m, htake, hlegal, rfl⟩

/-- With room for all legal moves nothing is lost. -/
theorem generates_iff_legal (h : SoundMoves b) (hply : b.ply < maxHistory) (hroom : ¬ Overflows b) :
    Generates b v ↔ ∃ m ∈ pseudoMoves b, legal b m = true ∧ m.view = v := by
  rw [generates_iff h hply]
  constructor
  · rintro ⟨m, hm, hlegal, hv⟩
    exact ⟨m, List.mem_of_mem_take hm, hlegal, hv⟩
  · rintro ⟨m, hm, hlegal, hv⟩
    by_contra hno
    exact hroom ⟨m, hm, hlegal, fun htake => hno ⟨m, htake, hlegal, hv⟩⟩

/-- A specification of the legal moves is met exactly when no legal move is lost. -/
theorem generates_agree_iff (h : SoundMoves b) (hply : b.ply < maxHistory) {P : MoveView → Prop}
    (hP : ∀ v, P v ↔ ∃ m ∈ pseudoMoves b, legal b m = true ∧ m.view = v) :
    (∀ v, P v ↔ Generates b v) ↔ ¬ Overflows b := by
  constructor
  · rintro hagree ⟨m, hm, hlegal, hlost⟩
    rw [← generates_iff_mem_take h hply hm hlegal] at hlost
    exact hlost ((hagree m.view).mp ((hP m.view).mpr ⟨m, hm, hlegal, rfl⟩))
  · intro hroom v
    rw [hP, generates_iff_legal h hply hroom]

end Views

end ChessRecast.Engine
