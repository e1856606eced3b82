import ChessRecast.Engine.Attacks
import ChessRecast.Engine.BoardTheorems
import ChessRecast.Rules.Attack

/-!
# `board_square_attacked` computes `Rules.Attacked`

The attack tables and the sliding loops are read off as relations between squares. C looks
from the target square outwards; the relations are symmetric, so that is the same as looking
from the attackers.
-/

namespace ChessRecast.Engine

open Rules

/-! ## Placement of the views -/

def toPos (sq : ℤ) : Position := ⟨sqRow sq, sqCol sq⟩

/-- The placement that the mailbox shows. -/
def placement (v : Views) : Placement := fun p =>
  if p.IsValid then v.mailbox (SQ p.row p.col) else none

theorem SqValid.toPos {sq : ℤ} (h : SqValid sq) : (toPos sq).IsValid := h.inside

@[simp] theorem toPos_SQ {p : Position} (h : p.IsValid) : toPos (SQ p.row p.col) = p := by
  rw [Position.eq_iff]
  exact ⟨sqRow_SQ h, sqCol_SQ h⟩

theorem toPos_inj {s t : ℤ} (hs : SqValid s) (ht : SqValid t) : toPos s = toPos t ↔ s = t := by
  constructor
  · intro h
    rw [Position.eq_iff] at h
    rw [← SQ_sqRow_sqCol hs, ← SQ_sqRow_sqCol ht]
    exact congrArg₂ SQ h.1 h.2
  · rintro rfl
    rfl

@[simp] theorem placement_toPos {v : Views} {sq : ℤ} (h : SqValid sq) :
    placement v (toPos sq) = v.mailbox sq := by
  unfold placement
  rw [if_pos h.toPos]
  exact congrArg v.mailbox (SQ_sqRow_sqCol h)

theorem exists_toPos {p : Position} (h : p.IsValid) : ∃ sq, SqValid sq ∧ toPos sq = p :=
  ⟨SQ p.row p.col, sqValid_SQ h, toPos_SQ h⟩

theorem placement_eq_some_valid {v : Views} {p : Position} {man : Man}
    (h : placement v p = some man) : p.IsValid := by
  unfold placement at h
  split at h
  · assumption
  · cases h

/-! ## Tables -/

section Tables

variable {s t : ℤ}

theorem bbHas_stepTable (offsets : List (ℤ × ℤ)) (ht : SqValid t) :
    bbHas (stepTable offsets s) t = true ↔
      ∃ d ∈ offsets, sqRow t = sqRow s + d.1 ∧ sqCol t = sqCol s + d.2 := by
  -- the loop adds to what it has already collected
  suffices haux : ∀ bb, bbHas (offsets.foldl (fun bb d =>
      if Grid.Inside 8 (sqRow s + d.1) (sqCol s + d.2) then
        bbSet bb (SQ (sqRow s + d.1) (sqCol s + d.2)) else bb) bb) t = true ↔
      bbHas bb t = true ∨
        ∃ d ∈ offsets, sqRow t = sqRow s + d.1 ∧ sqCol t = sqCol s + d.2 by
    exact (haux 0).trans (by simp)
  induction offsets with
  | nil => intro bb; simp
  | cons d offsets ih =>
    intro bb
    rw [List.foldl_cons, ih]
    have hstep : bbHas (if Grid.Inside 8 (sqRow s + d.1) (sqCol s + d.2) then
        bbSet bb (SQ (sqRow s + d.1) (sqCol s + d.2)) else bb) t = true ↔
        bbHas bb t = true ∨ (sqRow t = sqRow s + d.1 ∧ sqCol t = sqCol s + d.2) := by
      split
      · rename_i hin
        rw [bbHas_bbSet (sqValid_SQ hin) ht, Bool.or_eq_true, decide_eq_true_iff]
        nth_rewrite 2 [← SQ_sqRow_sqCol ht]
        rw [SQ_inj ht.inside hin]
      · rename_i hin
        constructor
        · exact Or.inl
        · rintro (h | ⟨hr, hc⟩)
          · exact h
          · rw [← hr, ← hc] at hin
            exact absurd ht.inside hin
    rw [hstep, List.exists_mem_cons_iff, or_assoc]

theorem bbHas_knightAttacks (ht : SqValid t) :
    bbHas (knightAttacks s) t = true ↔ KnightStep (toPos s) (toPos t) := by
  unfold knightAttacks
  rw [bbHas_stepTable _ ht]
  simp only [List.mem_cons, List.not_mem_nil, or_false, exists_eq_or_imp, exists_eq_left,
    KnightStep, toPos, abs_eq (show (0 : ℤ) ≤ 2 by norm_num),
    abs_eq (show (0 : ℤ) ≤ 1 by norm_num)]
  omega

theorem bbHas_kingAttacks (ht : SqValid t) :
    bbHas (kingAttacks s) t = true ↔ KingStep (toPos s) (toPos t) := by
  unfold kingAttacks
  rw [bbHas_stepTable _ ht]
  simp only [List.mem_cons, List.not_mem_nil, or_false, exists_eq_or_imp, exists_eq_left,
    KingStep, toPos, abs_le, ne_eq, Position.eq_iff]
  omega

theorem bbHas_pawnAttacks {c : Color} (hs : SqValid s) (ht : SqValid t) :
    bbHas (pawnAttacks c s) t = true ↔ PawnStep c (toPos s) (toPos t) := by
  have hs' := hs.inside
  have ht' := ht.inside
  have hset : ∀ (bb : Bitboard) (P : Prop) [Decidable P] (r k : ℤ),
      (P → Grid.Inside 8 r k) → (bbHas (if P then bbSet bb (SQ r k) else bb) t = true ↔
        bbHas bb t = true ∨ (P ∧ sqRow t = r ∧ sqCol t = k)) := by
    intro bb P _ r k hin
    split
    · rename_i hP
      rw [bbHas_bbSet (sqValid_SQ (hin hP)) ht, Bool.or_eq_true, decide_eq_true_iff]
      nth_rewrite 2 [← SQ_sqRow_sqCol ht]
      rw [SQ_inj ht' (hin hP)]
      simp [hP]
    · rename_i hP
      simp [hP]
  unfold Grid.Inside at hset hs' ht'
  cases c with
  | white =>
    simp only [pawnAttacks]
    rw [hset _ _ _ _ (by omega), hset _ _ _ _ (by omega)]
    simp only [BitVec.ofNat_eq_ofNat, bbHas_zero, PawnStep, toPos, Color.forward,
      Bool.false_eq_true, false_or]
    omega
  | black =>
    simp only [pawnAttacks]
    rw [hset _ _ _ _ (by omega), hset _ _ _ _ (by omega)]
    simp only [BitVec.ofNat_eq_ofNat, bbHas_zero, PawnStep, toPos, Color.forward,
      Bool.false_eq_true, false_or]
    omega

end Tables

/-! ## Sliding -/

section Sliding

variable {s t : ℤ} {occ : Bitboard}

/-- The loop collects the squares of a walk. -/
theorem bbHas_slideRay {dr dc : ℤ} (ht : SqValid t) (fuel : ℕ) : ∀ (r c : ℤ) (attacks : Bitboard),
    bbHas (slideRay occ dr dc fuel r c attacks) t = true ↔ bbHas attacks t = true ∨
      (sqRow t, sqCol t) ∈ Grid.walk 8 (fun r c => bbHas occ (SQ r c)) dr dc fuel r c := by
  induction fuel with
  | zero => intro r c attacks; simp [slideRay, Grid.walk]
  | succ fuel ih =>
    intro r c attacks
    unfold slideRay Grid.walk
    by_cases hin : Grid.Inside 8 r c
    · have hset : bbHas (bbSet attacks (SQ r c)) t = true ↔
          bbHas attacks t = true ∨ (sqRow t, sqCol t) = (r, c) := by
        rw [bbHas_bbSet (sqValid_SQ hin) ht, Bool.or_eq_true, decide_eq_true_iff]
        nth_rewrite 2 [← SQ_sqRow_sqCol ht]
        rw [SQ_inj ht.inside hin, Prod.mk.injEq]
      rw [if_pos hin, if_pos hin, List.mem_cons]
      simp only
      by_cases hocc : bbHas occ (SQ r c) = true
      · rw [if_pos hocc, if_pos hocc, hset]
        simp
      · rw [if_neg hocc, if_neg hocc, ih, hset, or_assoc]
    · rw [if_neg hin, if_neg hin]
      simp

theorem bbHas_slideAttacks (dirs : List (ℤ × ℤ)) (hs : SqValid s) (ht : SqValid t)
    (hunit : ∀ d ∈ dirs, Grid.UnitDir d.1 d.2) :
    bbHas (slideAttacks dirs s occ) t = true ↔ ∃ d ∈ dirs,
      Grid.Sees 8 (fun r c => bbHas occ (SQ r c)) d.1 d.2 (sqRow s) (sqCol s) (sqRow t)
        (sqCol t) := by
  suffices haux : ∀ bb, bbHas (dirs.foldl (fun attacks d =>
      slideRay occ d.1 d.2 8 (sqRow s + d.1) (sqCol s + d.2) attacks) bb) t = true ↔
      bbHas bb t = true ∨ ∃ d ∈ dirs,
        Grid.Sees 8 (fun r c => bbHas occ (SQ r c)) d.1 d.2 (sqRow s) (sqCol s) (sqRow t)
          (sqCol t) by
    exact (haux 0).trans (by simp)
  induction dirs with
  | nil => intro bb; simp
  | cons d dirs ih =>
    intro bb
    have hd := hunit d List.mem_cons_self
    rw [List.foldl_cons, ih fun d' hd' => hunit d' (List.mem_cons_of_mem _ hd'),
      bbHas_slideRay ht, Grid.mem_walk hd hs.inside (by norm_num), List.exists_mem_cons_iff,
      or_assoc]

variable {v : Views}

/-- Sight over the occupied squares of consistent views. -/
theorem sees_all_iff (h : RepInv v) (hs : SqValid s) {dr dc : ℤ} (hd : Grid.UnitDir dr dc) :
    Grid.Sees 8 (fun r c => bbHas v.all (SQ r c)) dr dc (sqRow s) (sqCol s) (sqRow t) (sqCol t) ↔
      Grid.Sees 8 (blocked (placement v)) dr dc (sqRow s) (sqCol s) (sqRow t) (sqCol t) := by
  apply Grid.Sees.congr hd hs.inside
  intro r c hin
  unfold blocked placement
  rw [if_pos (show (⟨r, c⟩ : Position).IsValid from hin), Bool.eq_iff_iff,
    h.all_iff (sqValid_SQ hin), Option.isSome_iff_ne_none]

/-- From `s` a line in one of the directions leads to `t`, with nothing in between. -/
def OpenLine (occ : Bitboard) (dir : ℤ → ℤ → Prop) (s t : ℤ) : Prop :=
  ∃ dr dc, dir dr dc ∧ Grid.Sees 8 (fun r c => bbHas occ (SQ r c)) dr dc (sqRow s) (sqCol s)
    (sqRow t) (sqCol t)

theorem OpenLine.symm {dir : ℤ → ℤ → Prop} (hneg : ∀ dr dc, dir dr dc → dir (-dr) (-dc))
    (hs : SqValid s) (h : OpenLine occ dir s t) : OpenLine occ dir t s := by
  obtain ⟨dr, dc, hdir, hsees⟩ := h
  exact ⟨-dr, -dc, hneg dr dc hdir, hsees.symm hs.inside⟩

theorem slideAttacks_iff {dirs : List (ℤ × ℤ)} {dir : ℤ → ℤ → Prop}
    (hdirs : ∀ dr dc, (dr, dc) ∈ dirs ↔ dir dr dc) (hunit : ∀ dr dc, dir dr dc → Grid.UnitDir dr dc)
    (hs : SqValid s) (ht : SqValid t) :
    bbHas (slideAttacks dirs s occ) t = true ↔ OpenLine occ dir s t := by
  rw [bbHas_slideAttacks dirs hs ht fun d hd => hunit _ _ ((hdirs d.1 d.2).mp hd)]
  constructor
  · rintro ⟨d, hd, hsees⟩
    exact ⟨d.1, d.2, (hdirs d.1 d.2).mp hd, hsees⟩
  · rintro ⟨dr, dc, hdir, hsees⟩
    exact ⟨(dr, dc), (hdirs dr dc).mpr hdir, hsees⟩

theorem bishopAttacksCalc_iff (hs : SqValid s) (ht : SqValid t) :
    bbHas (bishopAttacksCalc s occ) t = true ↔ OpenLine occ Diagonal s t := by
  apply slideAttacks_iff _ (fun _ _ h => h.1) hs ht
  intro dr dc
  simp only [diagonal_iff, List.mem_cons, List.not_mem_nil, or_false, Prod.mk.injEq]
  omega

theorem rookAttacksCalc_iff (hs : SqValid s) (ht : SqValid t) :
    bbHas (rookAttacksCalc s occ) t = true ↔ OpenLine occ Straight s t := by
  apply slideAttacks_iff _ (fun _ _ h => h.1) hs ht
  intro dr dc
  simp only [straight_iff, List.mem_cons, List.not_mem_nil, or_false, Prod.mk.injEq]
  omega

theorem openLine_all_iff {dir : ℤ → ℤ → Prop} (h : RepInv v) (hs : SqValid s)
    (hunit : ∀ dr dc, dir dr dc → Grid.UnitDir dr dc) :
    OpenLine v.all dir s t ↔ SeesAlong (placement v) dir (toPos s) (toPos t) :=
  exists_congr fun dr => exists_congr fun dc =>
    and_congr_right fun hdir => sees_all_iff h hs (hunit dr dc hdir)

theorem bbHas_bishopAttacksCalc (h : RepInv v) (hs : SqValid s) (ht : SqValid t) :
    bbHas (bishopAttacksCalc s v.all) t = true ↔
      SeesAlong (placement v) Diagonal (toPos s) (toPos t) := by
  rw [bishopAttacksCalc_iff hs ht]
  exact openLine_all_iff h hs fun _ _ hdir => hdir.1

theorem bbHas_rookAttacksCalc (h : RepInv v) (hs : SqValid s) (ht : SqValid t) :
    bbHas (rookAttacksCalc s v.all) t = true ↔
      SeesAlong (placement v) Straight (toPos s) (toPos t) := by
  rw [rookAttacksCalc_iff hs ht]
  exact openLine_all_iff h hs fun _ _ hdir => hdir.1

end Sliding

/-! ## Attacked squares -/

section Attacked

variable {b : Board} {s t : ℤ} {att : Color}

theorem and_ne_zero_iff {x y : Bitboard} :
    x &&& y ≠ 0 ↔ ∃ sq, SqValid sq ∧ bbHas x sq = true ∧ bbHas y sq = true := by
  rw [bb_ne_zero_iff]
  simp only [bbHas_and, Bool.and_eq_true]

/-- The loop takes out the queens outside their own half. -/
theorem bbHas_effectiveQueens (ht : SqValid t) :
    bbHas (effectiveQueens b att) t = true ↔ bbHas (b.pieces att .queen) t = true ∧
      (b.mod = .saveQueen → StqIsOwnHalf t att) := by
  have hloop : ∀ (qs : List ℤ) (eff : Bitboard), (∀ q ∈ qs, SqValid q) →
      (bbHas (qs.foldl (fun eff q => if ¬ StqIsOwnHalf q att then eff &&& ~~~bbSq q else eff) eff)
        t = true ↔ bbHas eff t = true ∧ (t ∈ qs → StqIsOwnHalf t att)) := by
    intro qs
    induction qs with
    | nil => intro eff _; simp
    | cons q qs ih =>
      intro eff hq
      rw [List.foldl_cons, ih _ fun q' hq' => hq q' (List.mem_cons_of_mem _ hq'), List.mem_cons]
      have hqv := hq q List.mem_cons_self
      by_cases hown : StqIsOwnHalf q att
      · rw [if_neg (not_not.mpr hown)]
        constructor
        · rintro ⟨hbit, himp⟩
          exact ⟨hbit, fun hmem => hmem.elim (fun heq => heq ▸ hown) himp⟩
        · rintro ⟨hbit, himp⟩
          exact ⟨hbit, fun hmem => himp (.inr hmem)⟩
      · rw [if_pos hown]
        have hclr := bbHas_bbClr (x := eff) hqv ht
        unfold bbClr at hclr
        rw [hclr, Bool.and_eq_true, Bool.not_eq_true', decide_eq_false_iff_not]
        constructor
        · rintro ⟨⟨hbit, hne⟩, himp⟩
          exact ⟨hbit, fun hmem => hmem.elim (fun heq => absurd heq hne) himp⟩
        · rintro ⟨hbit, himp⟩
          exact ⟨⟨hbit, fun heq => hown (heq ▸ himp (.inl heq))⟩, fun hmem => himp (.inr hmem)⟩
  unfold effectiveQueens
  by_cases hmod : b.mod = .saveQueen
  · simp only [hmod, if_true]
    rw [hloop _ _ fun q hq => (mem_bbSquares.mp hq).1]
    simp only [mem_bbSquares, ht, true_and, forall_const]
    exact and_congr_right fun hbit => by simp [hbit]
  · simp [hmod]

/-- Men of one type that bear on the square, found by a table of squares. -/
theorem table_and_pieces_iff (h : RepInv b.toViews) {table : Bitboard} {pt : PieceType} :
    table &&& b.pieces att pt ≠ 0 ↔ ∃ t, SqValid t ∧ bbHas table t = true ∧
      placement b.toViews (toPos t) = some (att, pt) := by
  rw [and_ne_zero_iff]
  refine exists_congr fun t => and_congr_right fun ht => and_congr_right fun _ => ?_
  rw [h.bit_iff att pt t ht, placement_toPos ht]

/-- Sliders of one kind that bear on the square; queens have to be effective. -/
theorem table_and_sliders_iff (h : RepInv b.toViews) {table : Bitboard} {pt : PieceType} :
    table &&& (b.pieces att pt ||| effectiveQueens b att) ≠ 0 ↔ ∃ t, SqValid t ∧
      bbHas table t = true ∧ (placement b.toViews (toPos t) = some (att, pt) ∨
        placement b.toViews (toPos t) = some (att, .queen) ∧
          (b.mod = .saveQueen → StqIsOwnHalf t att)) := by
  rw [and_ne_zero_iff]
  refine exists_congr fun t => and_congr_right fun ht => and_congr_right fun _ => ?_
  rw [bbHas_or, Bool.or_eq_true, bbHas_effectiveQueens ht, h.bit_iff att pt t ht,
    h.bit_iff att .queen t ht, placement_toPos ht]

theorem boardSquareAttacked_iff (h : RepInv b.toViews) (hs : SqValid s) :
    boardSquareAttacked b s att = true ↔
      Attacked b.mod b.kbUnlocked (placement b.toViews) att (toPos s) := by
  unfold boardSquareAttacked
  dsimp only
  constructor
  · -- each test that succeeds names an attacker
    intro hattacked
    split_ifs at hattacked with hkn hki hme hpa hkb hbi hro
    · obtain ⟨t, ht, hbit, hman⟩ := (table_and_pieces_iff h).mp hkn.2
      refine ⟨toPos t, .knight, ht.toPos, hman, ?_, by simp, ?_⟩
      · intro h1 h2
        exact absurd ⟨h1, h2⟩ hkn.1
      · exact ((bbHas_knightAttacks ht).mp hbit).symm
    · obtain ⟨t, ht, hbit, hman⟩ := (table_and_pieces_iff h).mp hki
      refine ⟨toPos t, .king, ht.toPos, hman, by simp, by simp, ?_⟩
      exact ((bbHas_kingAttacks ht).mp hbit).symm
    · obtain ⟨t, ht, hbit, hman⟩ := (table_and_pieces_iff h).mp hme.2
      refine ⟨toPos t, .pawn, ht.toPos, hman, by simp, by simp, ?_⟩
      rw [if_pos rfl, if_pos hme.1]
      exact ((bbHas_kingAttacks ht).mp hbit).symm
    · obtain ⟨t, ht, hbit, hman⟩ := (table_and_pieces_iff h).mp hpa.2
      refine ⟨toPos t, .pawn, ht.toPos, hman, by simp, by simp, ?_⟩
      rw [if_pos rfl, if_neg hpa.1]
      exact pawnStep_opposite.mp ((bbHas_pawnAttacks hs ht).mp hbit)
    · obtain ⟨t, ht, hbit, hman⟩ := (table_and_sliders_iff h).mp hbi
      have hsee := ((bbHas_bishopAttacksCalc h hs ht).mp hbit).symm
        (fun _ _ hd => hd.neg) hs.toPos
      have hph : b.mod = .kingsBattle → b.kbUnlocked = false → False := fun h1 h2 => hkb ⟨h1, h2⟩
      rcases hman with hman | ⟨hman, hown⟩
      · exact ⟨toPos t, .bishop, ht.toPos, hman, fun h1 h2 => (hph h1 h2).elim, by simp, hsee⟩
      · exact ⟨toPos t, .queen, ht.toPos, hman, fun h1 h2 => (hph h1 h2).elim,
          fun hmod _ => hown hmod, Or.inl hsee⟩
    · obtain ⟨t, ht, hbit, hman⟩ := (table_and_sliders_iff h).mp hro
      have hsee := ((bbHas_rookAttacksCalc h hs ht).mp hbit).symm
        (fun _ _ hd => hd.neg) hs.toPos
      have hph : b.mod = .kingsBattle → b.kbUnlocked = false → False := fun h1 h2 => hkb ⟨h1, h2⟩
      rcases hman with hman | ⟨hman, hown⟩
      · exact ⟨toPos t, .rook, ht.toPos, hman, fun h1 h2 => (hph h1 h2).elim, by simp, hsee⟩
      · exact ⟨toPos t, .queen, ht.toPos, hman, fun h1 h2 => (hph h1 h2).elim,
          fun hmod _ => hown hmod, Or.inr hsee⟩
  · -- an attacker makes its own test succeed, whichever tests come before
    rintro ⟨a, pt, ha, hman, hph, hown, hbears⟩
    obtain ⟨t, ht, rfl⟩ := exists_toPos ha
    have hsy : ∀ {dir : ℤ → ℤ → Prop}, (∀ dr dc, dir dr dc → dir (-dr) (-dc)) →
        SeesAlong (placement b.toViews) dir (toPos t) (toPos s) →
        SeesAlong (placement b.toViews) dir (toPos s) (toPos t) := fun hneg hsee =>
      hsee.symm hneg ht.toPos
    split_ifs with hkn hki hme hpa hkb hbi hro <;> try rfl
    all_goals exfalso
    · -- Phase 1: the attacker is a pawn or a king
      rcases hph hkb.1 hkb.2 with hpt | hpt <;> simp only at hpt <;> subst hpt
      · rw [if_pos rfl, if_neg (by simp [hkb.1])] at hbears
        exact hpa ⟨by simp [hkb.1], (table_and_pieces_iff h).mpr ⟨t, ht,
          (bbHas_pawnAttacks hs ht).mpr (pawnStep_opposite.mpr hbears), hman⟩⟩
      · exact hki ((table_and_pieces_iff h).mpr
          ⟨t, ht, (bbHas_kingAttacks ht).mpr (KingStep.symm hbears), hman⟩)
    · have hslider := fun {table : Bitboard} {pt' : PieceType} =>
        (@table_and_sliders_iff b att h table pt').mpr
      cases pt with
      | pawn =>
        by_cases hmod : b.mod = .mercenary
        · rw [if_pos rfl, if_pos hmod] at hbears
          exact hme ⟨hmod, (table_and_pieces_iff h).mpr
            ⟨t, ht, (bbHas_kingAttacks ht).mpr hbears.symm, hman⟩⟩
        · rw [if_pos rfl, if_neg hmod] at hbears
          exact hpa ⟨hmod, (table_and_pieces_iff h).mpr ⟨t, ht,
            (bbHas_pawnAttacks hs ht).mpr (pawnStep_opposite.mpr hbears), hman⟩⟩
      | knight =>
        exact hkn ⟨hkb, (table_and_pieces_iff h).mpr
          ⟨t, ht, (bbHas_knightAttacks ht).mpr (KnightStep.symm hbears), hman⟩⟩
      | bishop =>
        exact hbi (hslider ⟨t, ht, (bbHas_bishopAttacksCalc h hs ht).mpr
          (hsy (fun _ _ hd => Diagonal.neg hd) hbears), .inl hman⟩)
      | rook =>
        exact hro (hslider ⟨t, ht, (bbHas_rookAttacksCalc h hs ht).mpr
          (hsy (fun _ _ hd => Straight.neg hd) hbears), .inl hman⟩)
      | queen =>
        have hqueen := fun hmod => hown hmod rfl
        rcases hbears with hsee | hsee
        · exact hbi (hslider ⟨t, ht, (bbHas_bishopAttacksCalc h hs ht).mpr
            (hsy (fun _ _ hd => Diagonal.neg hd) hsee), .inr ⟨hman, hqueen⟩⟩)
        · exact hro (hslider ⟨t, ht, (bbHas_rookAttacksCalc h hs ht).mpr
            (hsy (fun _ _ hd => Straight.neg hd) hsee), .inr ⟨hman, hqueen⟩⟩)
      | king =>
        exact hki ((table_and_pieces_iff h).mpr
          ⟨t, ht, (bbHas_kingAttacks ht).mpr (KingStep.symm hbears), hman⟩)

end Attacked

end ChessRecast.Engine
