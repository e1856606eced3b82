import ChessRecast.App.KingSafety
import ChessRecast.App.EnPassant

/-!
# Phases of Kings' Battle

The phase is recomputed from the whole history. Once unlocked it stays so. While it is locked
nobody can castle: the queen and the bishop beside the king have not moved, and the enemy king
cannot take them without standing next to the king.
-/

namespace ChessRecast.App

open Rules

/-! ## The loop over the history -/

/-- The idle king moves at the end of a history, `n` being those before it. -/
def trailingIdle (history : List ChessMove) (n : ℕ) : ℕ :=
  history.foldl (fun n m => if m.isIdleKing then n + 1 else 0) n

/-- The move unlocks Phase 2 at once. -/
def ChessMove.isFirstBlood (m : ChessMove) : Bool :=
  m.isKingsKill || (m.piece.type = .pawn && m.isPromotion)

theorem phase2Loop_cons (m : ChessMove) (history : List ChessMove) (n : ℕ) (unlocked : Bool) :
    phase2Loop (m :: history) n unlocked = (m.isFirstBlood ||
      if m.isIdleKing then phase2Loop history (n + 1) (unlocked || 6 ≤ n + 1)
      else phase2Loop history 0 unlocked) := by
  rw [phase2Loop, ChessMove.isFirstBlood]
  by_cases hkill : m.isKingsKill = true
  · simp [hkill]
  · by_cases hpromo : m.piece.type = .pawn ∧ m.isPromotion = true
    · simp [hkill, hpromo]
    · have hno : (decide (m.piece.type = .pawn) && m.isPromotion) = false := by
        rw [Bool.and_eq_false_iff, decide_eq_false_iff_not, ← Bool.not_eq_true]
        tauto
      rw [if_neg hkill, if_neg hpromo, hno, Bool.or_false, Bool.eq_false_iff.mpr hkill,
        Bool.false_or]
      by_cases hsix : 6 ≤ n + 1 <;> simp [hsix]

theorem phase2Loop_true (history : List ChessMove) : ∀ n, phase2Loop history n true = true := by
  induction history with
  | nil => exact fun _ => rfl
  | cons m history ih =>
    intro n
    rw [phase2Loop_cons]
    split <;> simp [ih]

theorem phase2Loop_append (m : ChessMove) (history : List ChessMove) : ∀ n unlocked,
    phase2Loop (history ++ [m]) n unlocked = (phase2Loop history n unlocked || m.isFirstBlood ||
      (m.isIdleKing && 6 ≤ trailingIdle history n + 1)) := by
  induction history with
  | nil =>
    intro n unlocked
    rw [List.nil_append, phase2Loop_cons]
    simp only [phase2Loop, trailingIdle, List.foldl_nil]
    cases m.isFirstBlood <;> cases m.isIdleKing <;> cases unlocked <;> simp
  | cons first history ih =>
    intro n unlocked
    rw [List.cons_append, phase2Loop_cons, phase2Loop_cons, ih, ih]
    have htrail : trailingIdle (first :: history) n =
        trailingIdle history (if first.isIdleKing then n + 1 else 0) := rfl
    rw [htrail]
    cases first.isFirstBlood <;> cases first.isIdleKing <;> simp

/-- A locked game has at most five idle king moves at its end. -/
theorem trailingIdle_le (history : List ChessMove) : ∀ n, n ≤ 5 →
    phase2Loop history n false = false → trailingIdle history n ≤ 5 := by
  induction history with
  | nil => exact fun n hn _ => hn
  | cons m history ih =>
    intro n hn hlocked
    rw [phase2Loop_cons, Bool.or_eq_false_iff] at hlocked
    have hlocked := hlocked.2
    show trailingIdle history (if m.isIdleKing then n + 1 else 0) ≤ 5
    split at hlocked
    · rename_i hidle
      rw [if_pos hidle]
      by_cases hsix : 6 ≤ n + 1
      · rw [decide_eq_true hsix, Bool.false_or, phase2Loop_true] at hlocked
        cases hlocked
      · rw [decide_eq_false hsix, Bool.false_or] at hlocked
        exact ih _ (by omega) hlocked
    · rename_i hidle
      rw [if_neg hidle]
      exact ih 0 (by omega) hlocked

namespace ChessBoard

/-- The idle king moves at the end of the game so far. -/
def idleKings (d : ChessBoard) : ℕ := trailingIdle d.moveHistory 0

section Phase

variable {d d' : ChessBoard} {m : ChessMove}

theorem unlockedAfter_eq (d : ChessBoard) (m : ChessMove) : d.unlockedAfter m =
    (d.isPhase2Unlocked || m.isFirstBlood || (m.isIdleKing && 6 ≤ d.idleKings + 1)) :=
  phase2Loop_append m d.moveHistory 0 false

theorem idleKings_le (h : d.isPhase2Unlocked = false) : d.idleKings ≤ 5 :=
  trailingIdle_le d.moveHistory 0 (by omega) h

theorem isPhase2Unlocked_settled {player : Color} {status : GameStatus}
    {counter : List (List Char × ℤ)} :
    (d.settled m player status counter).isPhase2Unlocked = d.unlockedAfter m := by
  unfold isPhase2Unlocked
  rw [settled_moveHistory]
  rfl

theorem idleKings_settled {player : Color} {status : GameStatus}
    {counter : List (List Char × ℤ)} : (d.settled m player status counter).idleKings =
      if m.isIdleKing then d.idleKings + 1 else 0 := by
  unfold idleKings
  rw [settled_moveHistory, trailingIdle, List.foldl_append]
  rfl

end Phase

/-! ## Nobody castles in Phase 1 -/

/-- The men between king and rooks that are nearest to the king. -/
def Guarded (p : Placement) (c : Color) : Prop :=
  p ⟨homeRow c, 3⟩ = some (c, .queen) ∧ p ⟨homeRow c, 5⟩ = some (c, .bishop)

/-- What holds along a game of Kings' Battle. -/
structure KbInv (d : ChessBoard) : Prop extends d.GameInv where
  mod : d.gameType = .kingsBattle
  guarded : d.isPhase2Unlocked = false → ∀ c w, d.castleFlag c w = true → Guarded d.placement c

section Step

variable {d d' : ChessBoard} {m : ChessMove} {c : Color}

theorem KbInv.needsKings (h : d.KbInv) : NeedsKings d.gameType := by
  rw [h.mod]
  exact ⟨by decide, by decide⟩

theorem KbInv.notCastles (h : d.KbInv) (hlocked : d.isPhase2Unlocked = false) (w : Wing) :
    ¬ (d.castleFlag c w = true ∧ d.canCastleTo c w = true) := by
  rintro ⟨hflag, hcan⟩
  obtain ⟨hqueen, hbishop⟩ := h.guarded hlocked c w hflag
  obtain ⟨-, -, hempty, -⟩ := (canCastleTo_iff _ _).mp hcan
  cases w with
  | king =>
    rw [placement_eq_none.mpr (hempty 5 (by decide))] at hbishop
    cases hbishop
  | queen =>
    rw [placement_eq_none.mpr (hempty 3 (by decide))] at hqueen
    cases hqueen

/-- The filter of the mod: in Phase 1 only kings and pawns move. -/
theorem KbInv.offered (h : d.KbInv) (hclean : d.Clean m)
    (hmem : m ∈ d.getValidMovesFor m.fromPos) :
    d.Unlocked m.piece ∧ m ∈ d.getPotentialMoves m.piece := by
  obtain ⟨piece, hat, -, hfilter, -⟩ := mem_getValidMovesFor.mp hmem
  have hno := (h.toGameInv.noKing hclean hmem h.needsKings).1
  have hne : ∀ mod, mod ≠ .kingsBattle → d.gameType ≠ mod := by
    rintro mod hmod rfl
    exact hmod h.mod
  obtain ⟨hfree, hpotential, -⟩ := (mem_plainRuleset (hne _ (by decide)) (hne _ (by decide))
    (fun ht => absurd ht (hne _ (by decide))) h.tidy (mem_of_getPieceAt hat).1).mp ⟨hfilter, hno⟩
  rw [(moveOf_applyRulesetFilter hfilter).piece_eq]
  exact ⟨hfree, hpotential⟩

/-- A pawn that takes a man on the last row promotes. -/
theorem KbInv.promotes_of_takes (h : d.KbInv) (hclean : d.Clean m)
    (hmem : m ∈ d.getValidMovesFor m.fromPos) (hm : d.Sound m) (hp : m.piece.type = .pawn)
    (hrow : m.toPos.row = promotionRow d.currentPlayer) (hfull : d.getPieceAt m.toPos ≠ none) :
    m.isPromotion = true := by
  have hpotential := (h.offered hclean hmem).2
  unfold getPotentialMoves at hpotential
  rw [hp] at hpotential
  rw [← hm.mover] at hrow
  rcases rows_of_getPawnMoves (by rw [h.mod]; decide) hp hpotential with
    ⟨-, ⟨hep, -⟩ | ⟨-, hlast⟩⟩ | ⟨htwo, -, hdouble, -⟩
  · exact absurd (hclean.lands hep) hfull
  · exact hlast.mpr hrow
  · -- a double step ends in the middle of the board
    rw [htwo, hdouble] at hrow
    cases hc : m.piece.color <;> rw [hc] at hrow <;> cases hrow

/-- A king that takes the man beside the enemy king is attacked by it. -/
theorem KbInv.not_king_takes_guard (h : d.KbInv) (hclean : d.Clean m)
    (hmem : m ∈ d.getValidMovesFor m.fromPos) (hm : d.Sound m) (hking : m.piece.type = .king)
    {w : Wing} (hflag : d.castleFlag d.currentPlayer.opposite w = true) {col : ℤ}
    (hcol : col = 3 ∨ col = 5) : m.toPos ≠ ⟨homeRow d.currentPlayer.opposite, col⟩ := by
  intro hto
  have hne : ∀ mod, mod ≠ .kingsBattle → d.gameType ≠ mod := by
    rintro mod hmod rfl
    exact hmod h.mod
  have hno := h.toGameInv.noKing hclean hmem h.needsKings
  refine h.toGameInv.unchecked hclean hmem (fun hs => absurd hs (hne _ (by decide)))
    (fun hs => absurd hs (hne _ (by decide))) (fun hs => absurd hs (hne _ (by decide)))
    (oneKing_view hm.toProper (h.kings h.needsKings _).2 hno.2) ⟨m.toPos, ?_, ?_⟩
  · have hpromo : m.isPromotion ≠ true := fun hp => by
      rw [hm.promotes hp] at hking
      cases hking
    rw [hm.after_to, promo_eq_none hpromo, hking]
    rfl
  · have hhome := h.home h.needsKings _ w hflag
    refine ⟨⟨homeRow d.currentPlayer.opposite, 4⟩, .king, isValid_home (by norm_num), ?_,
      fun _ _ => .inr rfl, fun _ hq => (by cases hq), ?_⟩
    · -- the enemy king has not moved, nor has it been taken
      refine hm.after_of_staying hhome ?_ ?_ nofun fun hc heq => ?_
      · intro hfrom
        obtain ⟨q, hq, hman⟩ := placement_eq_some.mp hhome
        rw [hfrom, hm.from_holds] at hq
        obtain rfl := Option.some.inj hq
        exact d.currentPlayer.ne_opposite (hm.mover.symm.trans (congrArg Prod.fst hman))
      · intro heq
        obtain ⟨q, hq, hman⟩ := placement_eq_some.mp hhome
        exact hno.1 q (heq ▸ hq) (congrArg Prod.snd hman)
      · rw [heq, (hm.castles hc).2.2.2.2] at hhome
        cases (Prod.mk.inj (Option.some.inj hhome)).2
    · rw [if_neg nofun, hto]
      refine ⟨?_, ?_, ?_⟩ <;> rcases hcol with rfl | rfl <;> simp

/-- The man beside a king with a right stays while Phase 1 lasts. -/
theorem KbInv.guard_stays (h : d.KbInv) (hclean : d.Clean m)
    (hmem : m ∈ d.getValidMovesFor m.fromPos) (hm : d.Sound m)
    (hlocked : d.unlockedAfter m = false) {w : Wing} (hflag : d.castleFlag c w = true) {col : ℤ}
    (hcol : col = 3 ∨ col = 5) {t : PieceType} (ht : t ≠ .pawn ∧ t ≠ .king)
    (hman : d.placement ⟨homeRow c, col⟩ = some (c, t)) :
    after d.placement m.view ⟨homeRow c, col⟩ = some (c, t) := by
  rw [unlockedAfter_eq, Bool.or_eq_false_iff, Bool.or_eq_false_iff] at hlocked
  obtain ⟨⟨hbefore, hblood⟩, -⟩ := hlocked
  have hmover := (h.offered hclean hmem).1 h.mod hbefore
  obtain ⟨q, hq, hqman⟩ := placement_eq_some.mp hman
  refine hm.after_of_staying hman ?_ ?_ ht.1 fun hc heq => ?_
  · intro hfrom
    rw [hfrom, hm.from_holds] at hq
    obtain rfl := Option.some.inj hq
    have htype : m.piece.type = t := congrArg Prod.snd hqman
    rcases hmover with hk | hp
    · exact ht.2 (htype.symm.trans hk)
    · exact ht.1 (htype.symm.trans hp)
  · intro hto
    rw [hto] at hq
    have henemy : c = d.currentPlayer.opposite := by
      have hep : m.isEnPassant = false := by
        by_contra hep
        rw [hclean.lands (by simpa using hep)] at hq
        cases hq
      have hcap := h.toGameInv.enemy hclean hmem (by rw [h.mod]; decide)
        (fun hs => by rw [h.mod] at hs; cases hs) q ((hm.captured hep).trans hq)
      exact (congrArg Prod.fst hqman).symm.trans hcap
    subst henemy
    rcases hmover with hk | hp
    · exact h.not_king_takes_guard hclean hmem hm hk hflag hcol hto.symm
    · -- the pawn would promote and unlock Phase 2
      have hpromo := h.promotes_of_takes hclean hmem hm hp
        (by rw [← hto]; cases d.currentPlayer <;> rfl) (by rw [hq]; exact nofun)
      rw [ChessMove.isFirstBlood, hp, hpromo, Bool.or_eq_false_iff] at hblood
      cases hblood.2
  · have hcol' : col = m.view.rookSrc.col := congrArg Position.col heq
    unfold MoveView.rookSrc at hcol'
    dsimp only at hcol'
    split at hcol' <;> omega

theorem KbInv.step (h : d.KbInv) (hclean : d.Clean m) (hexec : d.executeMove m = some d') :
    d'.KbInv := by
  have hsucc : d.gameType = .succession → m.isCastling = false := fun hs => by
    rw [h.mod] at hs
    cases hs
  have hmem := mem_of_executeMove hexec
  have hm := h.toGameInv.sound hclean hmem hsucc
  have hinv := h.toGameInv.step hclean hsucc hexec
  obtain ⟨status, counter, rfl⟩ := h.toGameInv.executeMove_eq hclean hsucc hexec
  refine { hinv with mod := by rw [settled_gameType, h.mod], guarded := ?_ }
  intro hlocked c w hflag
  rw [isPhase2Unlocked_settled] at hlocked
  rw [castleFlag_settled] at hflag
  have hflag' := ((castleFlag_makeMove _ _ _ _).mp hflag).1
  have hbefore : d.isPhase2Unlocked = false := by
    rw [unlockedAfter_eq, Bool.or_eq_false_iff, Bool.or_eq_false_iff] at hlocked
    exact hlocked.1.1
  obtain ⟨hqueen, hbishop⟩ := h.guarded hbefore c w hflag'
  exact ⟨placement_settled_of_some h.tidy hm (h.guard_stays hclean hmem hm hlocked hflag' (.inl rfl)
      (by decide) hqueen),
    placement_settled_of_some h.tidy hm (h.guard_stays hclean hmem hm hlocked hflag' (.inr rfl)
      (by decide) hbishop)⟩

theorem kbInv_initial : (initial .kingsBattle).KbInv where
  toGameInv := gameInv_initial .kingsBattle
  mod := rfl
  guarded := by
    intro _ c _ _
    cases c <;> exact ⟨by decide +kernel, by decide +kernel⟩

theorem Reached.kbInv {ok : ChessBoard → ChessMove → Prop} (hok : ∀ d m, ok d m → d.Clean m)
    (h : Reached ok (initial .kingsBattle) d) : d.KbInv := by
  induction h with
  | start => exact kbInv_initial
  | step _ hm hexec ih => exact ih.step (hok _ _ hm) hexec

end Step

end ChessBoard

end ChessRecast.App
