import ChessRecast.Engine.AttackTheorems
import ChessRecast.Engine.MakeTheorems
import ChessRecast.Engine.Movegen
import ChessRecast.Rules.Book

/-!
# Which moves the generators of C produce

Each generator is characterised by a membership lemma: a move is produced exactly when a man
stands on its square, bears on the target and the masks let it land there.
-/

namespace ChessRecast.Engine

open Rules

/-- A move that is neither a promotion, a castling move nor an en-passant capture; what it
captures is read from the board. -/
def plainMove (b : Board) (fromSq toSq : ℤ) (pt : PieceType) : Move :=
  ⟨fromSq, toSq, pt, pieceType (b.mailbox toSq), false, false, false, none⟩

section Plain

variable {b : Board} {sq toSq : ℤ} {pt : PieceType}

theorem moveSimple_eq_plainMove (h : b.mailbox toSq = none) :
    moveSimple sq toSq pt = plainMove b sq toSq pt := by
  simp [moveSimple, plainMove, h, pieceType]

theorem moveCapture_eq_plainMove {man : Man} (h : b.mailbox toSq = some man) :
    moveCapture sq toSq pt (some man.2) = plainMove b sq toSq pt := by
  simp [moveCapture, plainMove, h, pieceType]

end Plain

/-! ## Pieces -/

/-- During a truce the man on the square has moved already. -/
def Frozen (b : Board) (sq : ℤ) : Prop := truceNoCap b = true ∧ bbHas b.truceFrozen sq = true

/-- A capture of an own man: in Friendly Fire, of one that has moved and is no king. -/
def OwnOk (b : Board) (toSq : ℤ) (capt : PieceType) : Prop :=
  b.mod = .friendlyFire ∧ capt ≠ .king ∧ bbHas b.ffMoved toSq = true

/-- A capture of an enemy man by a piece. -/
def EnemyOk (b : Board) (pt : PieceType) (toSq : ℤ) (capt : PieceType) : Prop :=
  truceNoCap b = false ∧ ¬ (capt = .king ∧ (b.mod ≠ .heir ∨ pt = .king)) ∧
    ¬ StqProtected b toSq capt

/-- Heir: a king keeps away from the enemy king that `bb_lsb` finds. -/
def HeirKingOk (b : Board) (pt : PieceType) (toSq : ℤ) : Prop :=
  pt = .king → b.mod = .heir → b.pieces b.side.opposite .king ≠ 0 →
    ¬ KingStep (toPos (bbLsb (b.pieces b.side.opposite .king))) (toPos toSq) ∧
      toSq ≠ bbLsb (b.pieces b.side.opposite .king)

/-- A piece may land on the square. -/
def LandsOk (b : Board) (pt : PieceType) (toSq : ℤ) : Prop :=
  HeirKingOk b pt toSq ∧ ∀ c capt, b.mailbox toSq = some (c, capt) →
    if c = b.side then OwnOk b toSq capt else EnemyOk b pt toSq capt

/-- Save the Queen: the enemy queen that `bb_lsb` finds in the own half sits in its prison on
the target square, next to the queen that takes it. -/
def PrisonTake (b : Board) (sq toSq : ℤ) : Prop :=
  let captives := b.pieces b.side.opposite .queen &&& halfMask b.side
  captives ≠ 0 ∧ toSq = bbLsb captives ∧ StqOnPrison toSq b.side.opposite ∧
    KingStep (toPos sq) (toPos toSq)

/-- Save the Queen: where a queen may go. -/
def StqQueenOk (b : Board) (sq toSq : ℤ) : Prop :=
  if StqIsOwnHalf sq b.side ∧ StqIsOwnHalf toSq b.side then
    (Reach (placement b.toViews) .queen (toPos sq) (toPos toSq) ∧
      ∀ c capt, b.mailbox toSq = some (c, capt) →
        c = b.side.opposite ∧ capt ≠ .queen ∧ capt ≠ .king) ∨ PrisonTake b sq toSq
  else KingStep (toPos sq) (toPos toSq) ∧ b.mailbox toSq = none

section Pieces

variable {b : Board} {sq toSq : ℤ} {pt : PieceType}

theorem bbHas_attackSet (h : RepInv b.toViews) (hsq : SqValid sq) (hto : SqValid toSq) :
    bbHas (attackSet b pt sq) toSq = true ↔
      Reach (placement b.toViews) pt (toPos sq) (toPos toSq) := by
  cases pt with
  | pawn => simp [attackSet, Reach]
  | knight => exact bbHas_knightAttacks hto
  | bishop => exact bbHas_bishopAttacksCalc h hsq hto
  | rook => exact bbHas_rookAttacksCalc h hsq hto
  | queen =>
    simp only [attackSet, bbHas_or, Bool.or_eq_true, bbHas_bishopAttacksCalc h hsq hto,
      bbHas_rookAttacksCalc h hsq hto, Reach]
  | king => exact bbHas_kingAttacks hto

theorem bbHas_maskIf {P : Prop} [Decidable P] {x y : Bitboard} (hto : SqValid toSq) :
    bbHas (if P then x &&& ~~~y else x) toSq = true ↔
      bbHas x toSq = true ∧ (P → bbHas y toSq = false) := by
  split
  · rename_i hP
    simp [bbHas_not hto, hP]
  · rename_i hP
    simp [hP]

theorem bbHas_ownMask (h : RepInv b.toViews) {x : Bitboard} (hto : SqValid toSq) :
    bbHas (if b.mod = .friendlyFire then
        x &&& ~~~((b.occupied b.side &&& ~~~b.ffMoved) ||| b.pieces b.side .king)
      else x &&& ~~~b.occupied b.side) toSq = true ↔
      bbHas x toSq = true ∧ ∀ capt, b.mailbox toSq = some (b.side, capt) → OwnOk b toSq capt := by
  have hking := h.bit_iff b.side .king toSq hto
  have hocc := h.occupied_iff (c := b.side) hto
  unfold OwnOk
  split
  · rename_i hff
    simp only [bbHas_and, bbHas_or, bbHas_not hto, Bool.and_eq_true, Bool.not_eq_true',
      Bool.or_eq_false_iff, Bool.and_eq_false_iff, Bool.not_eq_false']
    refine and_congr_right fun _ => ?_
    constructor
    · rintro ⟨hown, hnk⟩ capt hman
      refine ⟨hff, ?_, ?_⟩
      · rintro rfl
        rw [hking.mpr hman] at hnk
        cases hnk
      · rcases hown with hfree | hmoved
        · rw [hocc.mpr ⟨capt, hman⟩] at hfree
          cases hfree
        · exact hmoved
    · intro hall
      constructor
      · cases hocc' : bbHas (b.occupied b.side) toSq with
        | false => exact .inl rfl
        | true =>
          obtain ⟨t, ht⟩ := hocc.mp hocc'
          exact .inr (hall t ht).2.2
      · cases hking' : bbHas (b.pieces b.side .king) toSq with
        | false => rfl
        | true => exact absurd rfl (hall .king (hking.mp hking')).2.1
  · rename_i hff
    simp only [bbHas_and, bbHas_not hto, Bool.and_eq_true, Bool.not_eq_true', hff, false_and,
      imp_false]
    refine and_congr_right fun _ => ?_
    rw [← Bool.not_eq_true, hocc, not_exists]

theorem bbHas_heirMask {x : Bitboard} (hto : SqValid toSq) :
    bbHas (if pt = .king ∧ b.mod = .heir ∧ b.pieces b.side.opposite .king ≠ 0 then
        x &&& ~~~kingAttacks (bbLsb (b.pieces b.side.opposite .king)) &&&
          ~~~bbSq (bbLsb (b.pieces b.side.opposite .king))
      else x) toSq = true ↔ bbHas x toSq = true ∧ HeirKingOk b pt toSq := by
  unfold HeirKingOk
  split
  · rename_i hcond
    obtain ⟨hk, hm, hne⟩ := hcond
    have hlsb := (bbLsb_spec hne).1
    simp only [bbHas_and, bbHas_not hto, Bool.and_eq_true, Bool.not_eq_true',
      bbHas_bbSq hlsb hto, decide_eq_false_iff_not, and_assoc, hk, hm, hne, ne_eq,
      not_false_eq_true, forall_const]
    rw [← Bool.not_eq_true (bbHas (kingAttacks _) _), bbHas_kingAttacks hto]
  · rename_i hcond
    constructor
    · intro hx
      exact ⟨hx, fun h1 h2 h3 => absurd ⟨h1, h2, h3⟩ hcond⟩
    · exact fun hx => hx.1

theorem bbHas_pieceTargets (h : RepInv b.toViews) (hsq : SqValid sq) (hto : SqValid toSq) :
    bbHas (pieceTargets b pt sq false) toSq = true ↔
      Reach (placement b.toViews) pt (toPos sq) (toPos toSq) ∧
      (∀ capt, b.mailbox toSq = some (b.side, capt) → OwnOk b toSq capt) ∧
      HeirKingOk b pt toSq ∧
      (pt = .king ∧ kbLocked b = true → b.mailbox toSq ≠ some (b.side.opposite, .king)) ∧
      (truceNoCap b = true → ∀ capt, b.mailbox toSq ≠ some (b.side.opposite, capt)) := by
  unfold pieceTargets
  simp only [Bool.false_eq_true, if_false]
  rw [bbHas_maskIf hto, bbHas_maskIf hto, bbHas_heirMask hto, bbHas_ownMask h hto,
    bbHas_attackSet h hsq hto]
  have hking : bbHas (b.pieces b.side.opposite .king) toSq = false ↔
      b.mailbox toSq ≠ some (b.side.opposite, .king) := by
    rw [← Bool.not_eq_true, h.bit_iff _ _ _ hto]
  have hocc : bbHas (b.occupied b.side.opposite) toSq = false ↔
      ∀ capt, b.mailbox toSq ≠ some (b.side.opposite, capt) := by
    rw [← Bool.not_eq_true, h.occupied_iff hto, not_exists]
  rw [hking, hocc]
  simp only [and_assoc]

theorem mem_pieceMovesFrom (h : RepInv b.toViews) (hsq : SqValid sq) {m : Move} :
    m ∈ pieceMovesFrom b pt sq false ↔ ∃ toSq, SqValid toSq ∧
      Reach (placement b.toViews) pt (toPos sq) (toPos toSq) ∧ LandsOk b pt toSq ∧
      m = plainMove b sq toSq pt := by
  unfold pieceMovesFrom
  rw [List.mem_flatMap]
  refine exists_congr fun toSq => ?_
  rw [mem_bbSquares, and_assoc]
  refine and_congr_right fun hto => ?_
  rw [bbHas_pieceTargets h hsq hto]
  unfold LandsOk
  cases hman : b.mailbox toSq with
  | none => simp [moveSimple_eq_plainMove hman, and_assoc]
  | some man =>
    obtain ⟨c, capt⟩ := man
    rw [← @moveCapture_eq_plainMove b sq toSq pt _ hman]
    simp only [Option.some.injEq, Prod.mk.injEq, ne_eq, and_imp]
    rcases eq_or_ne c b.side with rfl | hc
    · -- an own man: only Friendly Fire lets it be taken, and there the later filters pass
      constructor
      · rintro ⟨⟨hreach, hown, hheir, -, -⟩, hmem⟩
        have hok := hown capt rfl rfl
        refine ⟨hreach, ⟨hheir, ?_⟩, ?_⟩
        · rintro _ _ rfl rfl
          simpa using hok
        · simpa [hok.2.1, StqProtected, hok.1] using hmem
      · rintro ⟨hreach, ⟨hheir, hland⟩, rfl⟩
        have hok := hland _ _ rfl rfl
        rw [if_pos rfl] at hok
        refine ⟨⟨hreach, ?_, hheir, by simp, by simp⟩, ?_⟩
        · rintro _ - rfl
          exact hok
        · simp [hok.2.1, StqProtected, hok.1]
    · have hopp : c = b.side.opposite := Color.ne_iff_eq_opposite.mp hc
      subst hopp
      constructor
      · rintro ⟨⟨hreach, -, hheir, -, htruce⟩, hmem⟩
        have hnocap : truceNoCap b = false := by
          cases ht : truceNoCap b with
          | false => rfl
          | true => exact (htruce ht capt (by simp)).elim
        split_ifs at hmem with hk hp
        · simp at hmem
        · simp at hmem
        · refine ⟨hreach, ⟨hheir, ?_⟩, by simpa using hmem⟩
          rintro _ _ rfl rfl
          rw [if_neg hc]
          exact ⟨hnocap, hk, hp⟩
      · rintro ⟨hreach, ⟨hheir, hland⟩, rfl⟩
        have hok := hland _ _ rfl rfl
        rw [if_neg hc] at hok
        obtain ⟨hnocap, hk, hp⟩ := hok
        refine ⟨⟨hreach, fun _ heq => absurd heq hc, hheir, ?_, by simp [hnocap]⟩, by simp [hk, hp]⟩
        rintro hking hlocked ⟨-, rfl⟩
        simp only [kbLocked, Bool.and_eq_true, decide_eq_true_eq] at hlocked
        exact hk ⟨rfl, .inl (by simp [hlocked.1])⟩

/-! ## Queens of Save the Queen -/

theorem bbHas_halfMask {c : Color} (hto : SqValid toSq) :
    bbHas (halfMask c) toSq = true ↔ StqIsOwnHalf toSq c := by
  obtain ⟨h0, h1⟩ := hto
  cases c <;> interval_cases toSq <;> decide

theorem bbHas_kingSteps_empty (h : RepInv b.toViews) (hto : SqValid toSq) :
    bbHas (kingAttacks sq &&& ~~~b.all) toSq = true ↔
      KingStep (toPos sq) (toPos toSq) ∧ b.mailbox toSq = none := by
  rw [bbHas_and, Bool.and_eq_true, bbHas_kingAttacks hto, bbHas_not hto, Bool.not_eq_true',
    ← Bool.not_eq_true, h.all_iff hto, not_not]

/-- The captive queen that `PrisonTake` speaks of stands on the target square. -/
theorem PrisonTake.captive (h : RepInv b.toViews) (hp : PrisonTake b sq toSq) :
    b.mailbox toSq = some (b.side.opposite, .queen) ∧ StqIsOwnHalf toSq b.side := by
  obtain ⟨hne, rfl, -, -⟩ := hp
  obtain ⟨hv, hbit⟩ := bbLsb_spec hne
  rw [bbHas_and, Bool.and_eq_true, h.bit_iff _ _ _ hv, bbHas_halfMask hv] at hbit
  exact hbit

theorem bbHas_stqOwnTargets (h : RepInv b.toViews) (hsq : SqValid sq) (hto : SqValid toSq) :
    bbHas (stqOwnTargets b sq false) toSq = true ↔
      (Reach (placement b.toViews) .queen (toPos sq) (toPos toSq) ∧
        (∀ c capt, b.mailbox toSq = some (c, capt) → c = b.side.opposite ∧ capt ≠ .queen) ∧
        StqIsOwnHalf toSq b.side) ∨ PrisonTake b sq toSq := by
  have hown : bbHas ((((bishopAttacksCalc sq b.all ||| rookAttacksCalc sq b.all) &&&
      ~~~b.occupied b.side) &&& ~~~b.pieces b.side.opposite .queen) &&& halfMask b.side) toSq =
        true ↔ Reach (placement b.toViews) .queen (toPos sq) (toPos toSq) ∧
        (∀ c capt, b.mailbox toSq = some (c, capt) → c = b.side.opposite ∧ capt ≠ .queen) ∧
        StqIsOwnHalf toSq b.side := by
    simp only [bbHas_and, bbHas_or, Bool.and_eq_true, Bool.or_eq_true, bbHas_not hto,
      Bool.not_eq_true', ← Bool.not_eq_true, h.occupied_iff hto, h.bit_iff _ _ _ hto,
      bbHas_bishopAttacksCalc h hsq hto, bbHas_rookAttacksCalc h hsq hto, bbHas_halfMask hto,
      and_assoc, Reach]
    refine and_congr_right fun _ => ?_
    rw [← and_assoc]
    refine and_congr_left fun _ => ?_
    constructor
    · rintro ⟨hnown, hnq⟩ c capt hman
      have hc : c = b.side.opposite := by
        rw [← Color.ne_iff_eq_opposite]
        rintro rfl
        exact hnown ⟨capt, hman⟩
      refine ⟨hc, ?_⟩
      rintro rfl
      exact hnq (hc ▸ hman)
    · intro hall
      refine ⟨?_, fun hman => (hall _ _ hman).2 rfl⟩
      rintro ⟨capt, hman⟩
      exact absurd (hall _ _ hman).1 (by simp)
  unfold stqOwnTargets
  simp only [Bool.false_eq_true, if_false]
  split
  · rename_i hcond
    obtain ⟨hne, hprison, hadj⟩ := hcond
    have hlsb := (bbLsb_spec hne).1
    rw [bbHas_or, Bool.or_eq_true, hown, bbHas_bbSq hlsb hto, decide_eq_true_iff]
    refine or_congr_right ?_
    have hstep : KingStep (toPos sq)
        (toPos (bbLsb (b.pieces b.side.opposite .queen &&& halfMask b.side))) := by
      obtain ⟨t, ht, hk, hp⟩ := and_ne_zero_iff.mp hadj
      rw [bbHas_bbSq hlsb ht, decide_eq_true_iff] at hp
      rw [← hp]
      exact (bbHas_kingAttacks ht).mp hk
    constructor
    · rintro rfl
      exact ⟨hne, rfl, hprison, hstep⟩
    · exact fun hp => hp.2.1
  · rename_i hcond
    rw [hown]
    constructor
    · exact Or.inl
    · rintro (hx | ⟨hne, rfl, hprison, hstep⟩)
      · exact hx
      · refine absurd ⟨hne, hprison, ?_⟩ hcond
        exact and_ne_zero_iff.mpr ⟨_, hto, (bbHas_kingAttacks hto).mpr hstep,
          by simp [bbHas_bbSq hto hto]⟩

theorem mem_stqQueenMoves (h : RepInv b.toViews) (hsq : SqValid sq) {m : Move} :
    m ∈ stqQueenMoves b sq false ↔ ∃ toSq, SqValid toSq ∧ StqQueenOk b sq toSq ∧
      m = plainMove b sq toSq .queen := by
  unfold stqQueenMoves StqQueenOk
  by_cases hhalf : StqIsOwnHalf sq b.side
  · -- an escaped queen: full power at home, king steps across
    simp only [hhalf, not_true_eq_false, if_false, Bool.false_eq_true, List.mem_append,
      List.mem_flatMap, List.mem_map, mem_bbSquares, true_and]
    constructor
    · rintro (⟨toSq, ⟨hto, hbit⟩, hmem⟩ | ⟨toSq, ⟨hto, hbit⟩, rfl⟩)
      · rw [bbHas_stqOwnTargets h hsq hto] at hbit
        have hto' : StqIsOwnHalf toSq b.side := by
          rcases hbit with hbit | hbit
          · exact hbit.2.2
          · exact (hbit.captive h).2
        refine ⟨toSq, hto, ?_, ?_⟩
        · rw [if_pos hto']
          rcases hbit with ⟨hreach, hman, -⟩ | hbit
          · refine .inl ⟨hreach, fun c capt hcapt => ?_⟩
            refine ⟨(hman c capt hcapt).1, (hman c capt hcapt).2, ?_⟩
            rintro rfl
            simp [hcapt] at hmem
          · exact .inr hbit
        · cases hman : b.mailbox toSq with
          | none =>
            rw [← moveSimple_eq_plainMove hman]
            simpa [hman] using hmem
          | some man =>
            rw [← moveCapture_eq_plainMove hman]
            rw [hman] at hmem
            dsimp only at hmem
            split at hmem
            · simp at hmem
            · simpa using hmem
      · rw [bbHas_and, Bool.and_eq_true, bbHas_kingSteps_empty h hto, bbHas_not hto,
          Bool.not_eq_true', ← Bool.not_eq_true, bbHas_halfMask hto] at hbit
        refine ⟨toSq, hto, ?_, moveSimple_eq_plainMove hbit.1.2⟩
        rw [if_neg hbit.2]
        exact hbit.1
    · rintro ⟨toSq, hto, hok, rfl⟩
      by_cases hto' : StqIsOwnHalf toSq b.side
      · rw [if_pos hto'] at hok
        refine .inl ⟨toSq, ⟨hto, (bbHas_stqOwnTargets h hsq hto).mpr ?_⟩, ?_⟩
        · rcases hok with ⟨hreach, hman⟩ | hok
          · exact .inl ⟨hreach, fun c capt hcapt => ⟨(hman c capt hcapt).1,
              (hman c capt hcapt).2.1⟩, hto'⟩
          · exact .inr hok
        · cases hman : b.mailbox toSq with
          | none => simp [moveSimple_eq_plainMove hman]
          | some man =>
            have hnk : man.2 ≠ .king := by
              rcases hok with ⟨-, hm⟩ | hok
              · exact (hm man.1 man.2 hman).2.2
              · rw [(hok.captive h).1] at hman
                rw [← Option.some.inj hman]
                simp
            dsimp only
            rw [if_neg hnk, moveCapture_eq_plainMove hman, List.mem_singleton]
      · rw [if_neg hto'] at hok
        refine .inr ⟨toSq, ⟨hto, ?_⟩, moveSimple_eq_plainMove hok.2⟩
        rw [bbHas_and, Bool.and_eq_true, bbHas_kingSteps_empty h hto, bbHas_not hto,
          Bool.not_eq_true', ← Bool.not_eq_true, bbHas_halfMask hto]
        exact ⟨hok, hto'⟩
  · simp only [hhalf, not_false_eq_true, if_true, Bool.false_eq_true, if_false, List.mem_map,
      mem_bbSquares, false_and]
    refine exists_congr fun toSq => ?_
    rw [and_assoc]
    refine and_congr_right fun hto => ?_
    rw [bbHas_kingSteps_empty h hto]
    constructor
    · rintro ⟨hok, rfl⟩
      exact ⟨hok, moveSimple_eq_plainMove hok.2⟩
    · rintro ⟨hok, rfl⟩
      exact ⟨hok, moveSimple_eq_plainMove hok.2⟩

theorem mem_genPieceMoves (h : RepInv b.toViews) {m : Move} :
    m ∈ genPieceMoves b pt false ↔ (kbLocked b = true → pt = .king) ∧ ∃ sq, SqValid sq ∧
      b.mailbox sq = some (b.side, pt) ∧ ¬ Frozen b sq ∧ ∃ toSq, SqValid toSq ∧
      (if b.mod = .saveQueen ∧ pt = .queen then StqQueenOk b sq toSq
        else Reach (placement b.toViews) pt (toPos sq) (toPos toSq) ∧ LandsOk b pt toSq) ∧
      m = plainMove b sq toSq pt := by
  unfold genPieceMoves
  split
  · rename_i hlock
    simp only [List.not_mem_nil, false_iff, not_and]
    intro himp
    exact absurd (himp hlock.1) hlock.2
  · rename_i hlock
    have himp : kbLocked b = true → pt = .king := fun h1 => by
      by_contra h2
      exact hlock ⟨h1, h2⟩
    rw [List.mem_flatMap]
    simp only [mem_bbSquares]
    constructor
    · rintro ⟨sq, ⟨hsq, hbit⟩, hmem⟩
      rw [bbHas_maskIf hsq, h.bit_iff _ _ _ hsq] at hbit
      refine ⟨himp, sq, hsq, hbit.1, fun hf => ?_, ?_⟩
      · exact absurd hf.2 (by simp [hbit.2 hf.1])
      · split at hmem
        · rename_i hq
          obtain ⟨hm, rfl⟩ := hq
          simpa [hm] using (mem_stqQueenMoves h hsq).mp hmem
        · rename_i hq
          simpa only [hq, if_false, and_assoc] using (mem_pieceMovesFrom h hsq).mp hmem
    · rintro ⟨-, sq, hsq, hman, hfr, hto⟩
      refine ⟨sq, ⟨hsq, ?_⟩, ?_⟩
      · rw [bbHas_maskIf hsq, h.bit_iff _ _ _ hsq]
        refine ⟨hman, fun ht => ?_⟩
        rw [← Bool.not_eq_true]
        exact fun hb => hfr ⟨ht, hb⟩
      · split
        · rename_i hq
          obtain ⟨hm, rfl⟩ := hq
          simp only [hm, and_self, if_true] at hto
          exact (mem_stqQueenMoves h hsq).mpr hto
        · rename_i hq
          simp only [hq, if_false, and_assoc] at hto
          exact (mem_pieceMovesFrom h hsq).mpr hto

end Pieces

/-! ## Pawns -/

/-- The pieces a pawn may become on the square, in the order of generation. -/
def promoTypes (b : Board) (toSq : ℤ) : List PieceType :=
  match b.mod with
  | .heir =>
    if b.pieces b.side .king = 0 ∧ b.heirPromoted b.side = false then [.king]
    else [.queen, .rook, .bishop, .knight] ++
      (if b.heirPromoted b.side = false then [.king] else [])
  | .succession =>
    if bbPopcount (b.pieces b.side .pawn) ≤ 1 ∧ b.pieces b.side .king = 0 then
      if boardSquareAttacked b toSq b.side.opposite = false then [.king] else []
    else [.rook, .bishop, .knight] ++
      (if b.pieces b.side .king = 0 ∧ boardSquareAttacked b toSq b.side.opposite = false then
        [.king] else [])
  | .saveQueen => [.rook, .bishop, .knight]
  | _ => [.queen, .rook, .bishop, .knight]

section Pawns

variable {b : Board} {sq toSq : ℤ} {m : Move}

theorem pawnPromos_eq (b : Board) (sq toSq : ℤ) (capt : Option PieceType) :
    pawnPromos b sq toSq capt = (promoTypes b toSq).map (movePromo sq toSq capt) := by
  unfold pawnPromos promoTypes heirPromos succAddPromos
  cases b.mod <;> simp only [reduceCtorEq, if_false, if_true] <;>
    (try simp only [ne_eq, not_not]) <;> split_ifs <;> simp_all

theorem mem_pawnPushes : m ∈ pawnPushes b sq false ↔
    SqValid (SQ (sqRow sq + b.side.forward) (sqCol sq)) ∧
    b.mailbox (SQ (sqRow sq + b.side.forward) (sqCol sq)) = none ∧
    if sqRow sq = rank7 b.side then
      ∃ pt ∈ promoTypes b (SQ (sqRow sq + b.side.forward) (sqCol sq)),
        m = movePromo sq (SQ (sqRow sq + b.side.forward) (sqCol sq)) none pt
    else m = plainMove b sq (SQ (sqRow sq + b.side.forward) (sqCol sq)) .pawn ∨
      (sqRow sq = rank2 b.side ∧
        b.mailbox (SQ (sqRow sq + 2 * b.side.forward) (sqCol sq)) = none ∧
        m = plainMove b sq (SQ (sqRow sq + 2 * b.side.forward) (sqCol sq)) .pawn) := by
  unfold pawnPushes
  dsimp only
  split
  · rename_i hcond
    obtain ⟨-, hvalid, hone⟩ := hcond
    simp only [hvalid, hone, true_and]
    split
    · rw [pawnPromos_eq, List.mem_map]
      simp only [eq_comm]
    · rw [moveSimple_eq_plainMove hone, List.mem_cons]
      refine or_congr_right ?_
      split
      · rename_i htwo
        rw [moveSimple_eq_plainMove htwo.2, List.mem_singleton]
        exact ⟨fun hm => ⟨htwo.1, htwo.2, hm⟩, fun hm => hm.2.2⟩
      · rename_i htwo
        simp only [List.not_mem_nil, false_iff]
        rintro ⟨h1, h2, -⟩
        exact htwo ⟨h1, h2⟩
  · rename_i hcond
    simp only [List.not_mem_nil, false_iff]
    rintro ⟨h1, h2, -⟩
    exact hcond ⟨rfl, h1, h2⟩

theorem mem_pawnCaptures (hsq : SqValid sq) :
    m ∈ pawnCaptures b sq (-1) ++ pawnCaptures b sq 1 ↔ ∃ toSq, SqValid toSq ∧
      PawnStep b.side (toPos sq) (toPos toSq) ∧ ¬ PawnSkips b toSq ∧
      (m ∈ pawnTakesEnemy b sq toSq ∨ m ∈ pawnTakesOwn b sq toSq ∨
        m ∈ pawnTakesEp b sq toSq) := by
  have hone : ∀ dc, dc = -1 ∨ dc = 1 → (m ∈ pawnCaptures b sq dc ↔ ∃ toSq, SqValid toSq ∧
      (sqRow toSq = sqRow sq + b.side.forward ∧ sqCol toSq = sqCol sq + dc) ∧
      ¬ PawnSkips b toSq ∧ (m ∈ pawnTakesEnemy b sq toSq ∨ m ∈ pawnTakesOwn b sq toSq ∨
        m ∈ pawnTakesEp b sq toSq)) := by
    intro dc hdc
    have hin := hsq.inside
    have hfwd : b.side.forward = 1 ∨ b.side.forward = -1 := by
      cases b.side
      · exact .inl rfl
      · exact .inr rfl
    have hbox : ∀ toSq, SqValid toSq →
        (sqRow toSq = sqRow sq + b.side.forward ∧ sqCol toSq = sqCol sq + dc) →
        toSq = SQ (sqRow sq + b.side.forward) (sqCol sq + dc) ∧
          0 ≤ sqCol sq + dc ∧ sqCol sq + dc ≤ 7 := by
      rintro toSq hto ⟨hr, hc⟩
      have hin' := hto.inside
      refine ⟨?_, by rw [← hc]; exact hin'.2.2.1, by rw [← hc]; have := hin'.2.2.2; omega⟩
      rw [← hr, ← hc, SQ_sqRow_sqCol hto]
    unfold pawnCaptures
    dsimp only
    split
    · rename_i hoff
      simp only [List.not_mem_nil, false_iff]
      rintro ⟨toSq, hto, hpos, -⟩
      have := (hbox toSq hto hpos).2
      omega
    · rename_i hoff
      split
      · rename_i hinv
        simp only [List.not_mem_nil, false_iff]
        rintro ⟨toSq, hto, hpos, -⟩
        rw [(hbox toSq hto hpos).1] at hto
        exact hinv hto
      · rename_i hval
        rw [not_not] at hval
        have hins : Grid.Inside 8 (sqRow sq + b.side.forward) (sqCol sq + dc) := by
          have hv := hval
          unfold SqValid SQ at hv
          unfold Grid.Inside at hin ⊢
          omega
        have hpos : sqRow (SQ (sqRow sq + b.side.forward) (sqCol sq + dc)) =
            sqRow sq + b.side.forward ∧
            sqCol (SQ (sqRow sq + b.side.forward) (sqCol sq + dc)) = sqCol sq + dc :=
          ⟨sqRow_SQ hins, sqCol_SQ hins⟩
        split
        · rename_i hskip
          simp only [List.not_mem_nil, false_iff]
          rintro ⟨toSq, hto, hp, hns, -⟩
          rw [(hbox toSq hto hp).1] at hns
          exact hns hskip
        · rename_i hskip
          rw [List.mem_append, List.mem_append, or_assoc]
          constructor
          · intro hmem
            exact ⟨_, hval, hpos, hskip, hmem⟩
          · rintro ⟨toSq, hto, hp, -, hmem⟩
            rwa [(hbox toSq hto hp).1] at hmem
  rw [List.mem_append, hone (-1) (.inl rfl), hone 1 (.inr rfl)]
  constructor
  · rintro (⟨toSq, hto, hp, hrest⟩ | ⟨toSq, hto, hp, hrest⟩)
    · exact ⟨toSq, hto, ⟨hp.1, .inl hp.2⟩, hrest⟩
    · exact ⟨toSq, hto, ⟨hp.1, .inr hp.2⟩, hrest⟩
  · rintro ⟨toSq, hto, ⟨hr, hc | hc⟩, hrest⟩
    · exact .inl ⟨toSq, hto, ⟨hr, hc⟩, hrest⟩
    · exact .inr ⟨toSq, hto, ⟨hr, hc⟩, hrest⟩

theorem mem_pawnTakesEnemy : m ∈ pawnTakesEnemy b sq toSq ↔
    ∃ capt, b.mailbox toSq = some (b.side.opposite, capt) ∧
      if sqRow sq = rank7 b.side then
        ∃ pt ∈ promoTypes b toSq, m = movePromo sq toSq (some capt) pt
      else m = plainMove b sq toSq .pawn := by
  unfold pawnTakesEnemy
  cases hman : b.mailbox toSq with
  | none => simp
  | some man =>
    obtain ⟨c, capt⟩ := man
    by_cases hc : c = b.side.opposite
    · subst hc
      simp only [if_true, pawnPromos_eq, ← moveCapture_eq_plainMove hman, Option.some.injEq,
        Prod.mk.injEq, true_and, exists_eq_left']
      split
      · simp only [List.mem_map, eq_comm]
      · rw [List.mem_singleton]
    · simp [hc]

theorem mem_pawnTakesOwn : m ∈ pawnTakesOwn b sq toSq ↔
    ∃ capt, b.mailbox toSq = some (b.side, capt) ∧ OwnOk b toSq capt ∧
      if sqRow sq = rank7 b.side then
        ∃ pt ∈ [PieceType.queen, .rook, .bishop, .knight], m = movePromo sq toSq (some capt) pt
      else m = plainMove b sq toSq .pawn := by
  unfold pawnTakesOwn OwnOk
  cases hman : b.mailbox toSq with
  | none => simp
  | some man =>
    obtain ⟨c, capt⟩ := man
    by_cases hc : c = b.side
    · subst hc
      simp only [true_and, ← moveCapture_eq_plainMove hman, Option.some.injEq, Prod.mk.injEq,
        exists_eq_left']
      split
      · rename_i hok
        simp only [hok, ne_eq, not_false_eq_true, true_and, and_self]
        split
        · simp only [List.mem_map, eq_comm]
        · rw [List.mem_singleton]
      · rename_i hok
        simp only [List.not_mem_nil, false_iff]
        exact fun hx => hok hx.1
    · simp [hc]

/-- The en-passant capture of a man of type `t`. -/
def epMove (fromSq toSq : ℤ) (t : PieceType) : Move :=
  ⟨fromSq, toSq, .pawn, some t, false, true, false, none⟩

theorem mem_pawnTakesEp : m ∈ pawnTakesEp b sq toSq ↔
    toSq = b.epSquare ∧ b.epSquare ≠ sqNone ∧
      ∃ t, b.mailbox (SQ (sqRow sq) (sqCol toSq)) = some (b.side.opposite, t) ∧
        m = epMove sq toSq t := by
  unfold pawnTakesEp epMove
  split
  · rename_i hep
    simp only [hep, ne_eq, not_false_eq_true, true_and]
    cases hman : b.mailbox (SQ (sqRow sq) (sqCol b.epSquare)) with
    | none => simp
    | some man =>
      obtain ⟨c, t⟩ := man
      by_cases hc : c = b.side.opposite
      · simp [hc]
      · simp [hc]
  · rename_i hep
    simp only [List.not_mem_nil, false_iff]
    exact fun hx => hep ⟨hx.1, hx.2.1⟩

theorem mem_mercenaryPawnMoves (h : RepInv b.toViews) (hmod : b.mod = .mercenary) :
    m ∈ mercenaryPawnMoves b sq false ↔ ∃ toSq, SqValid toSq ∧
      KingStep (toPos sq) (toPos toSq) ∧
      (∀ c capt, b.mailbox toSq = some (c, capt) → c = b.side.opposite ∧ capt ≠ .king) ∧
      m = plainMove b sq toSq .pawn := by
  have hno : truceNoCap b = false := by simp [truceNoCap, hmod]
  unfold mercenaryPawnMoves
  simp only [Bool.false_eq_true, if_false, hno, List.mem_append, List.mem_map, List.mem_flatMap,
    mem_bbSquares]
  constructor
  · rintro (⟨toSq, ⟨hto, hbit⟩, rfl⟩ | ⟨toSq, ⟨hto, hbit⟩, hmem⟩)
    · rw [bbHas_kingSteps_empty h hto] at hbit
      exact ⟨toSq, hto, hbit.1, by simp [hbit.2], moveSimple_eq_plainMove hbit.2⟩
    · rw [bbHas_and, Bool.and_eq_true, bbHas_kingAttacks hto, h.occupied_iff hto] at hbit
      obtain ⟨hstep, capt, hman⟩ := hbit
      have hk : capt ≠ .king := by
        rintro rfl
        simp [hman, pieceType] at hmem
      refine ⟨toSq, hto, hstep, ?_, ?_⟩
      · intro c t ht
        rw [hman] at ht
        simp only [Option.some.injEq, Prod.mk.injEq] at ht
        exact ⟨ht.1.symm, ht.2 ▸ hk⟩
      · rw [← moveCapture_eq_plainMove hman]
        simpa [hman, pieceType, hk] using hmem
  · rintro ⟨toSq, hto, hstep, hman, rfl⟩
    cases hbox : b.mailbox toSq with
    | none =>
      left
      exact ⟨toSq, ⟨hto, (bbHas_kingSteps_empty h hto).mpr ⟨hstep, hbox⟩⟩,
        moveSimple_eq_plainMove hbox⟩
    | some man =>
      right
      obtain ⟨hc, hk⟩ := hman man.1 man.2 hbox
      refine ⟨toSq, ⟨hto, ?_⟩, ?_⟩
      · rw [bbHas_and, Bool.and_eq_true, bbHas_kingAttacks hto, h.occupied_iff hto]
        exact ⟨hstep, man.2, by rw [hbox, ← hc]⟩
      · rw [← moveCapture_eq_plainMove hbox]
        simp [hbox, pieceType, hk]

theorem mem_genPawnMoves (h : RepInv b.toViews) :
    m ∈ genPawnMoves b false ↔ ∃ sq, SqValid sq ∧ b.mailbox sq = some (b.side, .pawn) ∧
      ¬ Frozen b sq ∧ (if b.mod = .mercenary then m ∈ mercenaryPawnMoves b sq false
        else m ∈ pawnPushes b sq false ∨
          (truceNoCap b = false ∧ m ∈ pawnCaptures b sq (-1) ++ pawnCaptures b sq 1)) := by
  unfold genPawnMoves
  rw [List.mem_flatMap]
  refine exists_congr fun sq => ?_
  rw [mem_bbSquares, and_assoc]
  refine and_congr_right fun hsq => ?_
  rw [bbHas_maskIf hsq, h.bit_iff _ _ _ hsq, and_assoc]
  refine and_congr_right fun _ => and_congr ?_ ?_
  · unfold Frozen
    rw [not_and, Bool.not_eq_true]
  · split
    · rfl
    · rw [List.mem_append]
      refine or_congr_right ?_
      cases truceNoCap b <;> simp

theorem kind_of_mem_genPawnMoves (h : RepInv b.toViews) (hm : m ∈ genPawnMoves b false) :
    m.piece = .pawn ∧ (m.promo = false → m.promoType = none) := by
  obtain ⟨sq, hsq, -, -, hkind⟩ := (mem_genPawnMoves h).mp hm
  split at hkind
  · rename_i hmod
    obtain ⟨toSq, -, -, -, rfl⟩ := (mem_mercenaryPawnMoves h hmod).mp hkind
    exact ⟨rfl, fun _ => rfl⟩
  · rcases hkind with hm | ⟨-, hm⟩
    · obtain ⟨-, -, hrest⟩ := mem_pawnPushes.mp hm
      split at hrest
      · obtain ⟨pt, -, rfl⟩ := hrest
        exact ⟨rfl, fun hno => by cases hno⟩
      · rcases hrest with rfl | ⟨-, -, rfl⟩ <;> exact ⟨rfl, fun _ => rfl⟩
    · obtain ⟨toSq, -, -, -, hm | hm | hm⟩ := (mem_pawnCaptures hsq).mp hm
      · obtain ⟨capt, -, hrest⟩ := mem_pawnTakesEnemy.mp hm
        split at hrest
        · obtain ⟨pt, -, rfl⟩ := hrest
          exact ⟨rfl, fun hno => by cases hno⟩
        · exact hrest ▸ ⟨rfl, fun _ => rfl⟩
      · obtain ⟨capt, -, -, hrest⟩ := mem_pawnTakesOwn.mp hm
        split at hrest
        · obtain ⟨pt, -, rfl⟩ := hrest
          exact ⟨rfl, fun hno => by cases hno⟩
        · exact hrest ▸ ⟨rfl, fun _ => rfl⟩
      · obtain ⟨-, -, t, -, rfl⟩ := mem_pawnTakesEp.mp hm
        exact ⟨rfl, fun _ => rfl⟩

end Pawns

/-! ## Castling -/

/-- The right of a colour to castle to a wing. -/
def castleRight : Color → Wing → BitVec 8
  | .white, .king => castleWK
  | .white, .queen => castleWQ
  | .black, .king => castleBK
  | .black, .queen => castleBQ

/-- The castling move of a colour to a wing. -/
def castleMove (c : Color) (w : Wing) : Move :=
  ⟨SQ (homeRow c) 4, SQ (homeRow c) w.kingTo, .king, none, true, false, false, none⟩

/-- The right is there, the squares between are empty and, where check rules apply, safe. -/
def CastleOpen (b : Board) (w : Wing) : Prop :=
  b.castling &&& castleRight b.side w ≠ 0 ∧
  (∀ col ∈ w.empties, b.mailbox (SQ (homeRow b.side) col) = none) ∧
  (needCheckSafe b = true → ∀ col ∈ w.safes,
    boardSquareAttacked b (SQ (homeRow b.side) col) b.side.opposite = false)

/-- The tests of `gen_castling` before it looks at a wing. -/
def CastlesNow (b : Board) : Prop :=
  kbLocked b = false ∧
  ¬ (truceNoCap b = true ∧ b.truceFrozen &&& bbSq (bbLsb (b.pieces b.side .king)) ≠ 0) ∧
  ¬ (needCheckSafe b = true ∧ boardInCheck b b.side = true)

theorem mem_tryCastle {b : Board} {w : Wing} {m : Move} :
    m ∈ tryCastle b (castleRight b.side w) (w.empties.map (SQ (homeRow b.side)))
      (w.safes.map (SQ (homeRow b.side))) (SQ (homeRow b.side) 4)
      (SQ (homeRow b.side) w.kingTo) ↔ CastleOpen b w ∧ m = castleMove b.side w := by
  unfold tryCastle CastleOpen castleMove
  simp only [List.forall_mem_map]
  split
  · rename_i hopen
    rw [List.mem_singleton]
    exact ⟨fun hm => ⟨hopen, hm⟩, fun hm => hm.2⟩
  · rename_i hopen
    simp only [List.not_mem_nil, false_iff]
    exact fun hm => hopen hm.1

theorem castlesOf_eq (b : Board) (c : Color) : castlesOf b c =
    tryCastle b (castleRight c .king) (Wing.king.empties.map (SQ (homeRow c)))
      (Wing.king.safes.map (SQ (homeRow c))) (SQ (homeRow c) 4)
      (SQ (homeRow c) Wing.king.kingTo) ++
    tryCastle b (castleRight c .queen) (Wing.queen.empties.map (SQ (homeRow c)))
      (Wing.queen.safes.map (SQ (homeRow c))) (SQ (homeRow c) 4)
      (SQ (homeRow c) Wing.queen.kingTo) := by
  cases c <;> rfl

theorem mem_genCastling {b : Board} {m : Move} :
    m ∈ genCastling b ↔ CastlesNow b ∧ ∃ w, CastleOpen b w ∧ m = castleMove b.side w := by
  unfold genCastling CastlesNow
  rw [castlesOf_eq]
  split_ifs with h1 h2 h3
  · simp [h1]
  · simp only [List.not_mem_nil, false_iff]
    exact fun hm => hm.1.2.1 h2
  · simp only [List.not_mem_nil, false_iff]
    exact fun hm => hm.1.2.2 h3
  · rw [List.mem_append, mem_tryCastle, mem_tryCastle]
    have hnow : kbLocked b = false := by simpa using h1
    constructor
    · rintro (hm | hm)
      · exact ⟨⟨hnow, h2, h3⟩, .king, hm⟩
      · exact ⟨⟨hnow, h2, h3⟩, .queen, hm⟩
    · rintro ⟨-, w, hm⟩
      cases w
      · exact .inl hm
      · exact .inr hm

/-! ## All pseudo-legal moves -/

theorem mem_pseudoMoves {b : Board} {m : Move} :
    m ∈ pseudoMoves b ↔ m ∈ genPawnMoves b false ∨
      (∃ pt, pt ≠ .pawn ∧ m ∈ genPieceMoves b pt false) ∨ m ∈ genCastling b := by
  unfold pseudoMoves
  simp only [List.mem_append]
  constructor
  · rintro ((((((hm | hm) | hm) | hm) | hm) | hm) | hm)
    · exact .inl hm
    · exact .inr (.inl ⟨.knight, by decide, hm⟩)
    · exact .inr (.inl ⟨.bishop, by decide, hm⟩)
    · exact .inr (.inl ⟨.rook, by decide, hm⟩)
    · exact .inr (.inl ⟨.queen, by decide, hm⟩)
    · exact .inr (.inl ⟨.king, by decide, hm⟩)
    · exact .inr (.inr hm)
  · rintro (hm | ⟨pt, hpt, hm⟩ | hm)
    · simp [hm]
    · cases pt with
      | pawn => exact absurd rfl hpt
      | _ => simp [hm]
    · simp [hm]

end ChessRecast.Engine
