import ChessRecast.Engine.Kingless

/-!
# Attacks and captures

The attack test looks from the attacked square outwards, the generators look from the attacker. In
Classic and Mercenary a square with an enemy man that is no king is attacked exactly if a capture of
that man is generated (`attacks_are_captures`). Only a full move list can lose it.
-/

namespace ChessRecast.Engine

open Rules

/-- The move takes the man of type `pt` on `sq`, and not en passant. -/
def TakesOn (sq : ℤ) (pt : PieceType) (m : Move) : Prop :=
  m.toSq = sq ∧ m.captured = some pt ∧ m.ep = false

instance (sq : ℤ) (pt : PieceType) (m : Move) : Decidable (TakesOn sq pt m) :=
  inferInstanceAs (Decidable (_ ∧ _ ∧ _))

theorem mem_menMoves {b : Board} {m : Move} : m ∈ menMoves b ↔
    m ∈ genPawnMoves b false ∨ ∃ pt, pt ≠ .pawn ∧ m ∈ genPieceMoves b pt false := by
  simp only [menMoves, List.mem_append]
  constructor
  · rintro (((((hm | hm) | hm) | hm) | hm) | hm)
    · exact Or.inl hm
    all_goals exact Or.inr ⟨_, by decide, hm⟩
  · rintro (hm | ⟨pt, hpt, hm⟩)
    · simp [hm]
    · cases pt <;> first | exact absurd rfl hpt | simp [hm]

/-- Classic or Mercenary, with an enemy man other than a king on the square. -/
structure Target (b : Board) (sq : ℤ) (pt : PieceType) : Prop where
  rep : RepInv b.toViews
  mod : b.mod = .classic ∨ b.mod = .mercenary
  valid : SqValid sq
  enemy : b.mailbox sq = some (b.side.opposite, pt)
  not_king : pt ≠ .king

section

variable {b : Board} {s sq : ℤ} {pt t : PieceType} {m : Move}

theorem Target.mod_ne (h : Target b sq pt) (mod : Mod)
    (hother : ¬ (mod = .classic ∨ mod = .mercenary)) : b.mod ≠ mod := by
  rintro rfl
  exact hother h.mod

theorem Target.truceNoCap (h : Target b sq pt) : truceNoCap b = false := by
  simp [Engine.truceNoCap, h.mod_ne .truce (by decide)]

theorem Target.not_frozen (h : Target b sq pt) (s : ℤ) : ¬ Frozen b s := by
  simp [Frozen, h.truceNoCap]

theorem Target.kbLocked (h : Target b sq pt) : kbLocked b = false := by
  simp [Engine.kbLocked, h.mod_ne .kingsBattle (by decide)]

theorem Target.captured (h : Target b sq pt) : pieceType (b.mailbox sq) = some pt := by
  rw [h.enemy]
  rfl

theorem Target.takesOn_plainMove (h : Target b sq pt) : TakesOn sq pt (plainMove b s sq t) :=
  ⟨rfl, h.captured, rfl⟩

/-! ## Pieces -/

theorem Target.landsOk (h : Target b sq pt) : LandsOk b t sq := by
  have hheir := h.mod_ne .heir (by decide)
  refine ⟨fun _ hmod => absurd hmod hheir, fun c capt hman => ?_⟩
  rw [h.enemy, Option.some.injEq, Prod.mk.injEq] at hman
  obtain ⟨rfl, rfl⟩ := hman
  rw [if_neg (Color.opposite_ne b.side)]
  exact ⟨h.truceNoCap, fun hking => h.not_king hking.1,
    fun hstq => h.mod_ne _ (by decide) hstq.1⟩

theorem Target.exists_piece_capture (h : Target b sq pt) (hs : SqValid s)
    (hman : b.mailbox s = some (b.side, t))
    (hreach : Reach (placement b.toViews) t (toPos s) (toPos sq)) :
    ∃ m ∈ genPieceMoves b t false, TakesOn sq pt m := by
  have hstq := h.mod_ne .saveQueen (by decide)
  refine ⟨plainMove b s sq t, (mem_genPieceMoves h.rep).mpr ⟨?_, s, hs, hman, h.not_frozen s, sq,
    h.valid, ?_, rfl⟩, h.takesOn_plainMove⟩
  · simp [h.kbLocked]
  · rw [if_neg fun hand => hstq hand.1]
    exact ⟨hreach, h.landsOk⟩

theorem Target.reach_of_capture (h : Target b sq pt) (hm : m ∈ genPieceMoves b t false)
    (htakes : TakesOn sq pt m) : ∃ s, SqValid s ∧ b.mailbox s = some (b.side, t) ∧
      Reach (placement b.toViews) t (toPos s) (toPos sq) := by
  obtain ⟨-, s, hs, hman, -, toSq, -, hgoes, rfl⟩ := (mem_genPieceMoves h.rep).mp hm
  obtain rfl := htakes.1
  rw [if_neg fun hand => h.mod_ne _ (by decide) hand.1] at hgoes
  exact ⟨s, hs, hman, hgoes.1⟩

/-! ## Pawns -/

def PawnBears (b : Board) (s sq : ℤ) : Prop :=
  if b.mod = .mercenary then KingStep (toPos s) (toPos sq)
  else PawnStep b.side (toPos s) (toPos sq)

theorem Target.exists_pawn_capture (h : Target b sq pt) (hs : SqValid s)
    (hman : b.mailbox s = some (b.side, .pawn)) (hbears : PawnBears b s sq) :
    ∃ m ∈ genPawnMoves b false, TakesOn sq pt m := by
  suffices hmove : ∃ m, TakesOn sq pt m ∧ (if b.mod = .mercenary then
      m ∈ mercenaryPawnMoves b s false else m ∈ pawnPushes b s false ∨
        (Engine.truceNoCap b = false ∧ m ∈ pawnCaptures b s (-1) ++ pawnCaptures b s 1)) by
    obtain ⟨m, htakes, hm⟩ := hmove
    exact ⟨m, (mem_genPawnMoves h.rep).mpr ⟨s, hs, hman, h.not_frozen s, hm⟩, htakes⟩
  unfold PawnBears at hbears
  split at hbears
  · next hmod =>
    refine ⟨plainMove b s sq .pawn, h.takesOn_plainMove, ?_⟩
    rw [if_pos hmod]
    refine (mem_mercenaryPawnMoves h.rep hmod).mpr ⟨sq, h.valid, hbears, fun c capt hc => ?_, rfl⟩
    rw [h.enemy, Option.some.injEq, Prod.mk.injEq] at hc
    exact ⟨hc.1.symm, hc.2 ▸ h.not_king⟩
  · next hmod =>
    have hskips : ¬ PawnSkips b sq := by
      unfold PawnSkips
      rw [h.enemy]
      rintro ⟨-, hking | hstq⟩
      · exact h.not_king hking.1
      · exact h.mod_ne _ (by decide) hstq.1
    suffices htake : ∃ m, TakesOn sq pt m ∧ m ∈ pawnTakesEnemy b s sq by
      obtain ⟨m, htakes, hm⟩ := htake
      refine ⟨m, htakes, ?_⟩
      rw [if_neg hmod, mem_pawnCaptures hs]
      exact Or.inr ⟨h.truceNoCap, sq, h.valid, hbears, hskips, Or.inl hm⟩
    simp only [mem_pawnTakesEnemy]
    -- on the last rank the capture promotes
    by_cases hrank : sqRow s = rank7 b.side
    · refine ⟨movePromo s sq (some pt) .queen, ⟨rfl, rfl, rfl⟩, pt, h.enemy, ?_⟩
      rw [if_pos hrank]
      exact ⟨.queen, by rcases h.mod with h | h <;> simp [promoTypes, h], rfl⟩
    · refine ⟨plainMove b s sq .pawn, h.takesOn_plainMove, pt, h.enemy, ?_⟩
      rw [if_neg hrank]

theorem Target.pawnBears_of_capture (h : Target b sq pt) (hm : m ∈ genPawnMoves b false)
    (htakes : TakesOn sq pt m) :
    ∃ s, SqValid s ∧ b.mailbox s = some (b.side, .pawn) ∧ PawnBears b s sq := by
  obtain ⟨s, hs, hman, -, hm⟩ := (mem_genPawnMoves h.rep).mp hm
  refine ⟨s, hs, hman, ?_⟩
  unfold PawnBears
  split at hm
  · next hmod =>
    obtain ⟨toSq, -, hstep, -, rfl⟩ := (mem_mercenaryPawnMoves h.rep hmod).mp hm
    obtain rfl := htakes.1
    rwa [if_pos hmod]
  · next hmod =>
    rw [if_neg hmod]
    rcases hm with hm | ⟨-, hm⟩
    · -- a push takes nothing
      obtain ⟨-, hone, hpush⟩ := mem_pawnPushes.mp hm
      split at hpush
      · obtain ⟨q, -, rfl⟩ := hpush
        cases htakes.2.1
      · rcases hpush with rfl | ⟨-, htwo, rfl⟩
        · simpa [plainMove, hone, pieceType] using htakes.2.1
        · simpa [plainMove, htwo, pieceType] using htakes.2.1
    · obtain ⟨toSq, -, hstep, -, hkind⟩ := (mem_pawnCaptures hs).mp hm
      rcases hkind with hkind | hkind | hkind
      · obtain ⟨capt, -, hmove⟩ := mem_pawnTakesEnemy.mp hkind
        split at hmove
        · obtain ⟨q, -, rfl⟩ := hmove
          obtain rfl := htakes.1
          exact hstep
        · obtain rfl := hmove
          obtain rfl := htakes.1
          exact hstep
      · obtain ⟨capt, -, hown, -⟩ := mem_pawnTakesOwn.mp hkind
        exact absurd hown.1 (h.mod_ne _ (by decide))
      · obtain ⟨-, -, q, -, rfl⟩ := mem_pawnTakesEp.mp hkind
        cases htakes.2.2

/-! ## The two together -/

theorem Target.attacked_iff (h : Target b sq pt) :
    boardSquareAttacked b sq b.side = true ↔ ∃ m ∈ menMoves b, TakesOn sq pt m := by
  rw [boardSquareAttacked_iff h.rep h.valid]
  have hbears : ∀ s t, Bears b.mod b.kbUnlocked (placement b.toViews) (b.side, t) (toPos s)
      (toPos sq) ↔ if t = .pawn then PawnBears b s sq
        else Reach (placement b.toViews) t (toPos s) (toPos sq) := by
    intro s t
    refine (and_iff_right fun hmod => ?_).trans (and_iff_right fun hmod => ?_)
    · exact absurd hmod (h.mod_ne _ (by decide))
    · exact absurd hmod (h.mod_ne _ (by decide))
  constructor
  · rintro ⟨a, t, ha, hfrom, hbear⟩
    obtain ⟨s, hs, rfl⟩ := exists_toPos ha
    rw [placement_toPos hs] at hfrom
    rw [hbears] at hbear
    split at hbear
    · next hpawn =>
      obtain ⟨m, hm, htakes⟩ := h.exists_pawn_capture hs (hpawn ▸ hfrom) hbear
      exact ⟨m, mem_menMoves.mpr (Or.inl hm), htakes⟩
    · next hpawn =>
      obtain ⟨m, hm, htakes⟩ := h.exists_piece_capture hs hfrom hbear
      exact ⟨m, mem_menMoves.mpr (Or.inr ⟨t, hpawn, hm⟩), htakes⟩
  · rintro ⟨m, hm, htakes⟩
    rcases mem_menMoves.mp hm with hm | ⟨t, ht, hm⟩
    · obtain ⟨s, hs, hman, hbear⟩ := h.pawnBears_of_capture hm htakes
      refine ⟨toPos s, .pawn, hs.toPos, by rwa [placement_toPos hs], ?_⟩
      rw [hbears, if_pos rfl]
      exact hbear
    · obtain ⟨s, hs, hman, hreach⟩ := h.reach_of_capture hm htakes
      refine ⟨toPos s, t, hs.toPos, by rwa [placement_toPos hs], ?_⟩
      rw [hbears, if_neg ht]
      exact hreach

end

/-- The sliding attacks are the open lines, which lead both ways. In Classic and Mercenary a colour
attacks a square with an enemy man other than a king exactly if its generators have a capture of
that man, and up to `MAX_MOVES` moves the move list holds them all. -/
theorem attacks_are_captures :
    (∀ occ s t, SqValid s → SqValid t →
      (bbHas (bishopAttacksCalc s occ) t = true ↔ OpenLine occ Diagonal s t) ∧
      (bbHas (rookAttacksCalc s occ) t = true ↔ OpenLine occ Straight s t) ∧
      bbHas (bishopAttacksCalc s occ) t = bbHas (bishopAttacksCalc t occ) s ∧
      bbHas (rookAttacksCalc s occ) t = bbHas (rookAttacksCalc t occ) s) ∧
    ∀ (b : Board) (c : Color) (sq : ℤ) (pt : PieceType), RepInv b.toViews →
      b.mod = .classic ∨ b.mod = .mercenary → SqValid sq →
      b.mailbox sq = some (c.opposite, pt) → pt ≠ .king →
      (boardSquareAttacked b sq c = true ↔
        ∃ m ∈ menMoves { b with side := c }, TakesOn sq pt m) ∧
      ((menMoves { b with side := c }).length ≤ maxMoves →
        fillMovelist (menMoves { b with side := c }) = menMoves { b with side := c }) := by
  refine ⟨fun occ s t hs ht => ⟨bishopAttacksCalc_iff hs ht, rookAttacksCalc_iff hs ht, ?_, ?_⟩,
    fun b c sq pt hrep hmod hsq henemy hking => ⟨?_, fun hroom => ?_⟩⟩
  · rw [Bool.eq_iff_iff, bishopAttacksCalc_iff hs ht, bishopAttacksCalc_iff ht hs]
    exact ⟨.symm (fun _ _ => Diagonal.neg) hs, .symm (fun _ _ => Diagonal.neg) ht⟩
  · rw [Bool.eq_iff_iff, rookAttacksCalc_iff hs ht, rookAttacksCalc_iff ht hs]
    exact ⟨.symm (fun _ _ => Straight.neg) hs, .symm (fun _ _ => Straight.neg) ht⟩
  · have htarget : Target { b with side := c } sq pt := ⟨hrep, hmod, hsq, henemy, hking⟩
    exact htarget.attacked_iff
  · rw [fillMovelist_eq, List.take_of_length_le hroom]

/-- White queens around the board, with 255 moves, and two knights: the black knight on a1 can be
taken by the king only. -/
def coveredBoard : Board :=
  boardSetFen "QQQQQQQQ/Q6Q/Q6Q/Q6Q/Q6Q/Q6Q/NK5Q/nNQQQQQQ w - - 0 1".toList

/-- The king's capture is generated and finds the list full. -/
theorem coveredBoard_capture_lost :
    RepInv coveredBoard.toViews ∧ coveredBoard.mod = .classic ∧
      coveredBoard.mailbox 0 = some (Color.white.opposite, .knight) ∧
      boardSquareAttacked coveredBoard 0 .white = true ∧
      ¬ ∃ m ∈ fillMovelist (menMoves { coveredBoard with side := .white }),
        TakesOn 0 .knight m := by
  exact ⟨repInv_boardSetFen _, by decide +kernel, by decide +kernel, by decide +kernel,
    by decide +kernel⟩

/-- A white pawn on e4 and a black one on d5. -/
def exchangeBoard : Board := boardSetFen "4k3/8/8/3p4/4P3/8/8/4K3 w - - 0 1".toList

theorem attacks_are_captures_exchangeBoard :
    boardSquareAttacked exchangeBoard 35 .white = true ∧
      ∃ m ∈ menMoves { exchangeBoard with side := .white }, TakesOn 35 .pawn m := by
  have hattacked : boardSquareAttacked exchangeBoard 35 .white = true := by decide +kernel
  have hmod : exchangeBoard.mod = .classic := by decide +kernel
  have hcapture := (attacks_are_captures.2 exchangeBoard .white 35 .pawn (repInv_boardSetFen _)
    (Or.inl hmod) (by decide) (by decide +kernel) (by decide)).1
  exact ⟨hattacked, hcapture.mp hattacked⟩

end ChessRecast.Engine
