import ChessRecast.App.Succession

/-!
# Safety of the own king

`getValidMovesFor` looks at the own king on a copy of the board after the move, but decides on the
board before the move whether it matters. A move that puts the player under check rules can leave
a king attacked: the one that ends the truce, and in Heir a promotion to king or of the last pawn.
With two kings Heir protects the first of the list only.
-/

namespace ChessRecast.App

open Rules

namespace ChessBoard

/-- Check rules bind the player on this board. -/
def CheckBound (d : ChessBoard) (c : Color) : Prop :=
  (d.gameType = .kingsBattle → d.isPhase2Unlocked = true) ∧
  (d.gameType = .heir → d.shouldApplyCheckRules c = true) ∧
  (d.gameType = .truce → d.isTruceActive = false)

instance (d : ChessBoard) (c : Color) : Decidable (d.CheckBound c) :=
  inferInstanceAs (Decidable (_ ∧ _ ∧ _))

/-- No king of the colour is attacked. -/
def KingsSafe (d : ChessBoard) (c : Color) : Prop :=
  ∀ king ∈ d.pieces, king.type = .king → king.color = c →
    d.isPositionUnderAttack king.position c.opposite = false

instance (d : ChessBoard) (c : Color) : Decidable (d.KingsSafe c) :=
  inferInstanceAs (Decidable (∀ king ∈ d.pieces, _ → _ → _ = _))

/-- A clean move, in Succession of a game that goes on. -/
def Fair (d : ChessBoard) (m : ChessMove) : Prop :=
  d.Clean m ∧ (d.gameType = .succession → d.Running)

/-- The truce is over. In Heir the player has one king if check rules bind them, and otherwise the
move neither promotes to king nor promotes the last pawn. -/
structure RegimeKept (d : ChessBoard) (m : ChessMove) : Prop where
  truce : d.gameType = .truce → d.isTruceActive = false
  oneKing : d.gameType = .heir → d.shouldApplyCheckRules d.currentPlayer = true →
    (d.kingsOf d.currentPlayer).length ≤ 1
  promotes : d.gameType = .heir → d.shouldApplyCheckRules d.currentPlayer = false →
    m.isPromotion = true →
    m.promotionPiece ≠ some 'K' ∧ (d.pawnsOf d.currentPlayer).length ≠ 1

section Step

variable {d d' : ChessBoard} {m : ChessMove} {player : Color} {status : GameStatus}
  {counter : List (List Char × ℤ)}

/-- Where check rules bind the player before the move, the copy of the board has been tested. -/
theorem unchecked_of_keepsMove (htruce : d.gameType = .truce → d.isTruceActive = false)
    (hheir : d.gameType = .heir → d.shouldApplyCheckRules d.currentPlayer = true)
    (h : d.keepsMove m = true) :
    (d.makeMoveForValidation m).isKingInCheck d.currentPlayer = false := by
  unfold keepsMove at h
  dsimp only at h
  split at h
  · cases h
  · rw [if_neg fun ht => by rw [htruce ht.1] at ht; cases ht.2] at h
    split at h
    · cases h
    · rw [if_neg fun hh => by rw [hheir hh.1] at hh; cases hh.2] at h
      simpa using h

/-- A queen that goes back to prison attacks nobody and opens no line. -/
theorem attacked_settled (hd : d.Tidy) (hm : d.Sound m) {unlocked : Bool} {c : Color}
    {z : Position} (h : Attacked d.gameType unlocked
      (d.settled m player status counter).placement c z) :
    Attacked d.gameType unlocked (after d.placement m.view) c z := by
  obtain ⟨a, t, ha, hman, hphase, hhalf, hreach⟩ := h
  rcases placement_settled_cases hd hm hman with hsame | ⟨hmod, hqueen, rfl⟩
  · refine ⟨a, t, ha, hsame, hphase, hhalf, ?_⟩
    by_cases ht : t = .pawn
    · rw [if_pos ht] at hreach ⊢
      exact hreach
    · rw [if_neg ht] at hreach ⊢
      refine hreach.mono fun s hs => ?_
      by_contra hne
      obtain ⟨man, hsome⟩ := Option.ne_none_iff_exists'.mp hne
      rw [placement_settled_of_some hd hm hsome] at hs
      cases hs
  · have hown : c.OwnHalf (queenPrison c).row := hhalf hmod hqueen
    revert hown
    cases c <;> exact fun hown => absurd hown (by decide)

theorem kingsSafe_settled (hd : d.Tidy) (hm : d.Sound m)
    (hsafe : ¬ Checked d.gameType (d.unlockedAfter m) (after d.placement m.view) d.currentPlayer) :
    (d.settled m player status counter).KingsSafe d.currentPlayer := by
  intro king hking htype hcolor
  have htidy := tidy_settled hd hm player status counter
  have hplace := placement_of_mem htidy hking
  rw [← Bool.not_eq_true, isPositionUnderAttack_iff htidy (htidy.valid king hking),
    settled_gameType]
  intro hatt
  have hphase : (d.settled m player status counter).isKingsBattlePhase2Unlocked =
      d.unlockedAfter m := by
    show phase2Loop _ 0 false = _
    rw [settled_moveHistory]
    rfl
  rw [hphase] at hatt
  refine hsafe ⟨king.position, ?_, attacked_settled hd hm hatt⟩
  rw [htype, hcolor] at hplace
  rcases placement_settled_cases hd hm hplace with hsame | ⟨-, hq, -⟩
  · exact hsame
  · cases hq

/-- A move that has been tested leaves the king safe, in terms of the placement. -/
theorem GameInv.unchecked (h : d.GameInv) (hclean : d.Clean m)
    (hmem : m ∈ d.getValidMovesFor m.fromPos)
    (hsucc : d.gameType = .succession → m.isCastling = false)
    (htruce : d.gameType = .truce → d.isTruceActive = false)
    (hheir : d.gameType = .heir → d.shouldApplyCheckRules d.currentPlayer = true)
    (hone : OneKing (after d.placement m.view) d.currentPlayer) :
    ¬ Checked d.gameType (d.unlockedAfter m) (after d.placement m.view) d.currentPlayer := by
  have hm := h.sound hclean hmem hsucc
  obtain ⟨piece, -, -, -, hkeeps⟩ := mem_getValidMovesFor.mp hmem
  intro hchecked
  have htested := unchecked_of_keepsMove htruce hheir hkeeps
  rw [(validation_checked_iff h.tidy hm.toProper hone).mpr hchecked] at htested
  cases htested

/-- An executed move that has been tested leaves the king safe. -/
theorem GameInv.kingsSafe (h : d.GameInv) (hclean : d.Clean m)
    (hsucc : d.gameType = .succession → m.isCastling = false)
    (hexec : d.executeMove m = some d')
    (htruce : d.gameType = .truce → d.isTruceActive = false)
    (hheir : d.gameType = .heir → d.shouldApplyCheckRules d.currentPlayer = true)
    (hone : OneKing (after d.placement m.view) d.currentPlayer) :
    d'.KingsSafe d.currentPlayer := by
  have hmem := mem_of_executeMove hexec
  have hsafe := h.unchecked hclean hmem hsucc htruce hheir hone
  obtain ⟨status, counter, rfl⟩ := h.executeMove_eq hclean hsucc hexec
  exact kingsSafe_settled h.tidy (h.sound hclean hmem hsucc) hsafe

/-! ## Heir -/

/-- Whoever is bound by check rules has no king to promote. -/
theorem heir_promo_ne_king (hmod : d.gameType = .heir) (hm : d.Sound m)
    (hshape : d.Shape m.piece m) (hbound : d.shouldApplyCheckRules d.currentPlayer = true) :
    m.view.promo ≠ some .king := by
  show (if m.isPromotion then some (promotedType m.promotionPiece) else none) ≠ _
  by_cases hpromo : m.isPromotion = true
  · obtain ⟨hp, letter, hletter, heq⟩ := hshape.promotionLetter hpromo
    have hpawn : m.piece ∈ d.pawnsOf d.currentPlayer := List.mem_filter.mpr
      ⟨(mem_of_getPieceAt hm.from_holds).1, decide_eq_true ⟨hp, hm.mover⟩⟩
    have hflag : d.hasPromotedKing m.piece.color = true := by
      rw [shouldApplyCheckRules, Bool.or_eq_true, List.isEmpty_iff] at hbound
      rcases hbound with hflag | hnone
      · rwa [hm.mover]
      · rw [hnone] at hpawn
        cases hpawn
    -- the flag leaves the ordinary promotions only
    have hoptions : d.getPromotionPieces m.piece.color m.toPos = ['Q', 'R', 'B', 'N'] := by
      unfold getPromotionPieces heirPromotionPieces
      rw [hmod]
      simp [hflag]
    rw [hoptions] at hletter
    rw [if_pos hpromo, heq]
    simp only [List.mem_cons, List.not_mem_nil, or_false] at hletter
    rcases hletter with rfl | rfl | rfl | rfl <;> decide
  · rw [if_neg hpromo]
    exact nofun

/-- Nobody else comes under check rules by a move that keeps the regime. -/
theorem GameInv.heir_unbound (h : d.GameInv) (hclean : d.Clean m) (hmod : d.gameType = .heir)
    (hexec : d.executeMove m = some d')
    (hfree : d.shouldApplyCheckRules d.currentPlayer = false)
    (hpromo : m.isPromotion = true →
      m.promotionPiece ≠ some 'K' ∧ (d.pawnsOf d.currentPlayer).length ≠ 1) :
    d'.shouldApplyCheckRules d.currentPlayer = false := by
  have hsucc : d.gameType = .succession → m.isCastling = false := fun hs => by
    rw [hmod] at hs
    cases hs
  have hmem := mem_of_executeMove hexec
  have hm := h.sound hclean hmem hsucc
  rw [shouldApplyCheckRules, Bool.or_eq_false_iff] at hfree ⊢
  obtain ⟨hflag, hpawns⟩ := hfree
  obtain ⟨status, counter, rfl⟩ := h.executeMove_eq hclean hsucc hexec
  refine ⟨?_, ?_⟩
  · rw [hasPromotedKing_settled, makePromotedKing, if_neg, hflag]
    rintro ⟨-, hp, hking, -⟩
    exact (hpromo hp).1 hking
  · have hsome : ∃ k, d.placement k = some (d.currentPlayer, .pawn) :=
      (pawnsOf_ne_nil_iff h.tidy).mp fun hnil => by rw [hnil] at hpawns; cases hpawns
    obtain ⟨k, hk⟩ := hm.exists_pawn h.tidy (h.enemy hclean hmem (by rw [hmod]; decide) hsucc)
      (fun hp => (hpromo hp).2) hsome
    rw [← Bool.not_eq_true, List.isEmpty_iff]
    exact (pawnsOf_ne_nil_iff (tidy_settled h.tidy hm _ status counter)).mpr
      ⟨k, placement_settled_of_some h.tidy hm hk⟩

end Step

/-! ## Whole runs -/

section Runs

variable {d d' : ChessBoard} {m : ChessMove}

/-- In Succession the runs are those of a game that goes on. -/
theorem Reached.playsOn (h : Reached Fair (initial .succession) d) :
    Reached PlaysOn (initial .succession) d ∧ d.gameType = .succession := by
  induction h with
  | start => exact ⟨.start, rfl⟩
  | @step d d' m _ hok hexec ih =>
    obtain ⟨hreached, hmod⟩ := ih
    have hrun := hok.2 hmod
    have hinv := hreached.succInv hrun.ne_checkmate
    obtain ⟨status, counter, heq⟩ := hinv.executed hok.1 hexec
    refine ⟨.step hreached ⟨hrun, hok.1⟩ hexec, ?_⟩
    rw [heq, settled_gameType, hmod]

theorem SuccInv.kingsSafe (h : d.SuccInv) (hclean : d.Clean m)
    (hexec : d.executeMove m = some d') : d'.KingsSafe d.currentPlayer := by
  have hm := h.move hclean (mem_of_executeMove hexec)
  refine h.toGameInv.kingsSafe hclean (fun _ => hm.quietKing) hexec (fun ht => ?_) (fun ht => ?_)
    (oneKing_after_of_kingless (h.kingless _) _)
  · rw [h.mod] at ht
    cases ht
  · rw [h.mod] at ht
    cases ht

theorem GameInv.kingsSafe_of_needsKings (h : d.GameInv) (hneeds : NeedsKings d.gameType)
    (hclean : d.Clean m) (hexec : d.executeMove m = some d')
    (htruce : d.gameType = .truce → d.isTruceActive = false) : d'.KingsSafe d.currentPlayer := by
  have hmem := mem_of_executeMove hexec
  have hsucc : d.gameType = .succession → m.isCastling = false := fun hs => absurd hs hneeds.2
  exact h.kingsSafe hclean hsucc hexec htruce (fun hh => absurd hh hneeds.1)
    (oneKing_view (h.sound hclean hmem hsucc).toProper (h.kings hneeds _).2
      (h.noKing hclean hmem hneeds).2)

theorem GameInv.kingsSafe_of_heir (h : d.GameInv) (hmod : d.gameType = .heir)
    (hclean : d.Clean m) (hexec : d.executeMove m = some d')
    (hbound : d.shouldApplyCheckRules d.currentPlayer = true)
    (hone : (d.kingsOf d.currentPlayer).length ≤ 1) : d'.KingsSafe d.currentPlayer := by
  have hmem := mem_of_executeMove hexec
  have hne : ∀ mod, mod ≠ .heir → d.gameType ≠ mod := by
    rintro mod hno rfl
    exact hno hmod
  have hsucc : d.gameType = .succession → m.isCastling = false :=
    fun hs => absurd hs (hne _ (by decide))
  have hm := h.sound hclean hmem hsucc
  obtain ⟨piece, hat, -, hfilter, -⟩ := mem_getValidMovesFor.mp hmem
  have hshape := shape_of_filtered h.tidy (mem_of_getPieceAt hat).1 hfilter
  rw [← (moveOf_applyRulesetFilter hfilter).piece_eq] at hshape
  exact h.kingsSafe hclean hsucc hexec (fun ht => absurd ht (hne _ (by decide))) (fun _ => hbound)
    (oneKing_view hm.toProper (oneKing_of_kingsOf hone) (heir_promo_ne_king hmod hm hshape hbound))

/-- In every run a move that keeps the check regime leaves no own king attacked where check rules
bind the player afterwards. -/
theorem own_king_safe (mod : Mod) (d : ChessBoard) (h : Reached Fair (initial mod) d)
    (m : ChessMove) (hm : d.Fair m) (hkept : d.RegimeKept m) (d' : ChessBoard)
    (hexec : d.executeMove m = some d') (hbound : d'.CheckBound d.currentPlayer) :
    d'.KingsSafe d.currentPlayer := by
  by_cases hsucc : mod = .succession
  · subst hsucc
    obtain ⟨hreached, hmod⟩ := h.playsOn
    exact (hreached.succInv (hm.2 hmod).ne_checkmate).kingsSafe hm.1 hexec
  · obtain ⟨hinv, hmod⟩ := h.gameInv (fun _ _ hok => hok.1) (gameInv_initial mod)
      (by rwa [initial_gameType])
    rw [initial_gameType] at hmod
    by_cases hheir : d.gameType = .heir
    · cases hrules : d.shouldApplyCheckRules d.currentPlayer with
      | true => exact hinv.kingsSafe_of_heir hheir hm.1 hexec hrules (hkept.oneKing hheir hrules)
      | false =>
        have hstill := hinv.heir_unbound hm.1 hheir hexec hrules (hkept.promotes hheir hrules)
        have hmod' : d'.gameType = .heir := by
          obtain ⟨status, counter, rfl⟩ := hinv.executeMove_eq hm.1
            (fun hs => absurd (hmod.symm.trans hs) hsucc) hexec
          rw [settled_gameType, hheir]
        rw [hbound.2.1 hmod'] at hstill
        cases hstill
    · exact hinv.kingsSafe_of_needsKings ⟨hheir, fun hs => hsucc (hmod.symm.trans hs)⟩ hm.1 hexec
        hkept.truce

end Runs

/-- The first move of a Classic game. -/
theorem own_king_safe_start :
    ((initial .classic).next (ChessMove.simple ⟨1, 4⟩ ⟨3, 4⟩ ⟨.pawn, .white, ⟨1, 4⟩, false⟩
      none)).KingsSafe .white := by
  refine own_king_safe .classic _ .start _ ⟨clean_of_plain rfl rfl, nofun⟩ ⟨nofun, nofun, nofun⟩ _
    (executeMove_of_isValidMove (by decide +kernel)) ?_
  decide +kernel

/-- A white pawn walks to g7, a black queen waits on f6 behind it. -/
def crownLine : List ChessMove :=
  [ChessMove.simple ⟨1, 7⟩ ⟨3, 7⟩ ⟨.pawn, .white, ⟨1, 7⟩, false⟩ none,
    ChessMove.simple ⟨6, 4⟩ ⟨5, 4⟩ ⟨.pawn, .black, ⟨6, 4⟩, false⟩ none,
    ChessMove.simple ⟨3, 7⟩ ⟨4, 7⟩ ⟨.pawn, .white, ⟨3, 7⟩, true⟩ none,
    ChessMove.simple ⟨7, 3⟩ ⟨5, 5⟩ ⟨.queen, .black, ⟨7, 3⟩, false⟩ none,
    ChessMove.simple ⟨4, 7⟩ ⟨5, 7⟩ ⟨.pawn, .white, ⟨4, 7⟩, true⟩ none,
    ChessMove.simple ⟨6, 0⟩ ⟨5, 0⟩ ⟨.pawn, .black, ⟨6, 0⟩, false⟩ none,
    ChessMove.simple ⟨5, 7⟩ ⟨6, 6⟩ ⟨.pawn, .white, ⟨5, 7⟩, true⟩
      (some ⟨.pawn, .black, ⟨6, 6⟩, false⟩),
    ChessMove.simple ⟨5, 0⟩ ⟨4, 0⟩ ⟨.pawn, .black, ⟨5, 0⟩, true⟩ none]

/-- The pawn takes the rook of h8 and becomes a king. -/
def crowned : ChessMove :=
  ChessMove.promotion ⟨6, 6⟩ ⟨7, 7⟩ ⟨.pawn, .white, ⟨6, 6⟩, true⟩
    (some ⟨.rook, .black, ⟨7, 7⟩, false⟩) 'K'

/-- The pawn shielded h8 from the queen; with the promotion check rules bind white, and the new
king is attacked. -/
theorem crowned_king_attacked : ∃ d d' : ChessBoard,
    Reached Fair (initial .heir) d ∧ d.Fair crowned ∧ d.executeMove crowned = some d' ∧
    d'.CheckBound .white ∧ ¬ d'.KingsSafe .white := by
  refine ⟨crownLine.foldl next (initial .heir), _, ?_, ⟨clean_of_plain rfl rfl, ?_⟩,
    executeMove_of_isValidMove (by decide +kernel), by decide +kernel, by decide +kernel⟩
  · exact (Reached.line crownLine _ .start (by decide +kernel)).mono fun _ _ h => ⟨h.2, fun _ => h.1⟩
  · exact fun _ => by decide +kernel

end ChessBoard

end ChessRecast.App
