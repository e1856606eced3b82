import ChessRecast.Rules.Basic

/-!
# Placements, attacks and moves, in their own terms

What both move generators compute, stated without bitboards or piece lists: a placement says
which man stands where, `Reach` where a man may go along its lines, `Attacked` when a colour
bears on a square under the rules of a mod, and `after` what stands where once a move is made.
-/

namespace ChessRecast.Rules

abbrev Placement := Position → Option Man

/-- Is the square occupied? Lines of sight stop there. -/
def blocked (p : Placement) (r c : ℤ) : Bool := (p ⟨r, c⟩).isSome

/-! ## Reach -/

def KingStep (a z : Position) : Prop :=
  |z.row - a.row| ≤ 1 ∧ |z.col - a.col| ≤ 1 ∧ a ≠ z

def KnightStep (a z : Position) : Prop :=
  (|z.row - a.row| = 2 ∧ |z.col - a.col| = 1) ∨ (|z.row - a.row| = 1 ∧ |z.col - a.col| = 2)

/-- The two squares on which a pawn captures. -/
def PawnStep (c : Color) (a z : Position) : Prop :=
  z.row = a.row + c.forward ∧ (z.col = a.col - 1 ∨ z.col = a.col + 1)

/-- The direction is that of a rook. -/
def Straight (dr dc : ℤ) : Prop := Grid.UnitDir dr dc ∧ (dr = 0 ∨ dc = 0)

/-- The direction is that of a bishop. -/
def Diagonal (dr dc : ℤ) : Prop := Grid.UnitDir dr dc ∧ dr ≠ 0 ∧ dc ≠ 0

/-- A line of sight in one of the directions. -/
def SeesAlong (p : Placement) (dir : ℤ → ℤ → Prop) (a z : Position) : Prop :=
  ∃ dr dc, dir dr dc ∧ Grid.Sees 8 (blocked p) dr dc a.row a.col z.row z.col

/-- Where a man other than a pawn bears from `a`. -/
def Reach (p : Placement) : PieceType → Position → Position → Prop
  | .pawn, _, _ => False
  | .knight, a, z => KnightStep a z
  | .bishop, a, z => SeesAlong p Diagonal a z
  | .rook, a, z => SeesAlong p Straight a z
  | .queen, a, z => SeesAlong p Diagonal a z ∨ SeesAlong p Straight a z
  | .king, a, z => KingStep a z

/-! ## Attack -/

/-- A man on `a` bears on `z`. In Phase 1 of Kings' Battle only pawns and kings do, in Save the
Queen only queens in their own half, and Mercenary pawns bear like kings. -/
def Bears (mod : Mod) (unlocked : Bool) (p : Placement) (man : Man) (a z : Position) : Prop :=
  (mod = .kingsBattle → unlocked = false → man.2 = .pawn ∨ man.2 = .king) ∧
  (mod = .saveQueen → man.2 = .queen → man.1.OwnHalf a.row) ∧
  (if man.2 = .pawn then if mod = .mercenary then KingStep a z else PawnStep man.1 a z
    else Reach p man.2 a z)

/-- Some man of the colour bears on the square. -/
def Attacked (mod : Mod) (unlocked : Bool) (p : Placement) (c : Color) (z : Position) : Prop :=
  ∃ a t, a.IsValid ∧ p a = some (c, t) ∧ Bears mod unlocked p (c, t) a z

/-! ## Moves -/

/-- A move as both engines show it: squares, promotion, castling and en-passant marks. -/
structure MoveView where
  src : Position
  dst : Position
  promo : Option PieceType
  castle : Bool
  ep : Bool
deriving DecidableEq, Repr

namespace MoveView

/-- Where the castling rook stands. -/
def rookSrc (v : MoveView) : Position := ⟨v.src.row, if v.dst.col = 6 then 7 else 0⟩

/-- Where the castling rook goes. -/
def rookDst (v : MoveView) : Position := ⟨v.src.row, if v.dst.col = 6 then 5 else 3⟩

/-- Where a pawn taken en passant stands. -/
def epSquare (v : MoveView) : Position := ⟨v.src.row, v.dst.col⟩

end MoveView

def after (p : Placement) (v : MoveView) : Placement := fun q =>
  if v.castle = true ∧ q = v.rookDst then (p v.rookSrc)
  else if v.castle = true ∧ q = v.rookSrc then none
  else if q = v.dst then (p v.src).map fun man => (man.1, v.promo.getD man.2)
  else if q = v.src then none
  else if v.ep = true ∧ q = v.epSquare then none
  else p q

/-! ## Lemmas -/

variable {p q : Placement} {dir : ℤ → ℤ → Prop} {a z : Position} {c : Color} {dr dc : ℤ}

theorem KingStep.symm (h : KingStep a z) : KingStep z a := by
  obtain ⟨h1, h2, h3⟩ := h
  exact ⟨by rw [abs_sub_comm]; exact h1, by rw [abs_sub_comm]; exact h2, h3.symm⟩

theorem KnightStep.symm (h : KnightStep a z) : KnightStep z a := by
  unfold KnightStep at *
  rwa [abs_sub_comm a.row, abs_sub_comm a.col]

theorem PawnStep.ne (h : PawnStep c a z) : a ≠ z := by
  rintro rfl
  have := h.2
  omega

/-- Pawns of opposite colours look at each other's squares. -/
theorem pawnStep_opposite : PawnStep c.opposite a z ↔ PawnStep c z a := by
  unfold PawnStep
  cases c <;> simp only [Color.opposite, Color.forward] <;> constructor <;> intro h <;> omega

theorem Straight.neg (h : Straight dr dc) : Straight (-dr) (-dc) :=
  ⟨h.1.neg, by simpa using h.2⟩

theorem Diagonal.neg (h : Diagonal dr dc) : Diagonal (-dr) (-dc) :=
  ⟨h.1.neg, by simpa using h.2⟩

theorem straight_iff : Straight dr dc ↔
    (dr = -1 ∧ dc = 0) ∨ (dr = 1 ∧ dc = 0) ∨ (dr = 0 ∧ dc = -1) ∨ (dr = 0 ∧ dc = 1) := by
  unfold Straight Grid.UnitDir
  omega

theorem diagonal_iff : Diagonal dr dc ↔
    (dr = -1 ∧ dc = -1) ∨ (dr = -1 ∧ dc = 1) ∨ (dr = 1 ∧ dc = -1) ∨ (dr = 1 ∧ dc = 1) := by
  unfold Diagonal Grid.UnitDir
  omega

theorem exists_mem_sees_iff {dirs : List (ℤ × ℤ)}
    (hdirs : ∀ dr dc, (dr, dc) ∈ dirs ↔ dir dr dc) :
    (∃ e ∈ dirs, Grid.Sees 8 (blocked p) e.1 e.2 a.row a.col z.row z.col) ↔
      SeesAlong p dir a z := by
  constructor
  · rintro ⟨⟨dr, dc⟩, he, hsees⟩
    exact ⟨dr, dc, (hdirs dr dc).mp he, hsees⟩
  · rintro ⟨dr, dc, hdir, hsees⟩
    exact ⟨(dr, dc), (hdirs dr dc).mpr hdir, hsees⟩

theorem SeesAlong.symm (hneg : ∀ dr dc, dir dr dc → dir (-dr) (-dc)) (ha : a.IsValid)
    (h : SeesAlong p dir a z) : SeesAlong p dir z a := by
  obtain ⟨dr, dc, hdir, hsees⟩ := h
  exact ⟨-dr, -dc, hneg dr dc hdir, hsees.symm ha⟩

theorem SeesAlong.valid (h : SeesAlong p dir a z) : z.IsValid := by
  obtain ⟨dr, dc, -, k, -, -, -, hin, -⟩ := h
  exact hin

/-- The sight lines of two placements with the same occupied squares. -/
theorem SeesAlong.congr (hunit : ∀ dr dc, dir dr dc → Grid.UnitDir dr dc) (ha : a.IsValid)
    (hpq : ∀ s : Position, s.IsValid → ((p s).isSome = (q s).isSome)) :
    SeesAlong p dir a z ↔ SeesAlong q dir a z := by
  unfold SeesAlong
  refine exists_congr fun dr => exists_congr fun dc => and_congr_right fun hdir => ?_
  exact Grid.Sees.congr (hunit dr dc hdir) ha fun r c hin => hpq ⟨r, c⟩ hin

/-- Nothing stands between two aligned squares. -/
def ClearTo (p : Placement) (a z : Position) : Prop :=
  Grid.Clear (blocked p) (z.row - a.row).sign (z.col - a.col).sign a.row a.col
    (Grid.steps a.row a.col z.row z.col)

private theorem sign_cases (n : ℤ) : (n.sign = -1 ∧ n < 0) ∨ (n.sign = 0 ∧ n = 0) ∨
    (n.sign = 1 ∧ 0 < n) := by
  rcases lt_trichotomy n 0 with h | h | h
  · exact .inl ⟨Int.sign_eq_neg_one_of_neg h, h⟩
  · exact .inr (.inl ⟨by simp [h], h⟩)
  · exact .inr (.inr ⟨Int.sign_eq_one_of_pos h, h⟩)

/-- Sight is found from the signs of the two differences. -/
theorem seesAlong_iff_sign (hunit : ∀ dr dc, dir dr dc → Grid.UnitDir dr dc) :
    SeesAlong p dir a z ↔ z.IsValid ∧ (dir (z.row - a.row).sign (z.col - a.col).sign ∧
      Grid.Aligned a.row a.col z.row z.col) ∧ ClearTo p a z := by
  constructor
  · rintro ⟨dr, dc, hdir, hsees⟩
    obtain ⟨⟨rfl, rfl, hal⟩, hin, hclear⟩ := (Grid.sees_iff_sign (hunit dr dc hdir)).mp hsees
    exact ⟨hin, ⟨hdir, hal⟩, hclear⟩
  · rintro ⟨hin, ⟨hdir, hal⟩, hclear⟩
    exact ⟨_, _, hdir, (Grid.sees_iff_sign (hunit _ _ hdir)).mpr ⟨⟨rfl, rfl, hal⟩, hin, hclear⟩⟩

theorem seesAlong_straight_iff :
    SeesAlong p Straight a z ↔ z.IsValid ∧
      ((a.row = z.row ∧ a.col ≠ z.col) ∨ (a.col = z.col ∧ a.row ≠ z.row)) ∧ ClearTo p a z := by
  rw [seesAlong_iff_sign fun _ _ h => h.1]
  refine and_congr_right fun _ => and_congr_left fun _ => ?_
  unfold Straight Grid.UnitDir Grid.Aligned
  rcases sign_cases (z.row - a.row) with ⟨hr, hr'⟩ | ⟨hr, hr'⟩ | ⟨hr, hr'⟩ <;>
    rcases sign_cases (z.col - a.col) with ⟨hc, hc'⟩ | ⟨hc, hc'⟩ | ⟨hc, hc'⟩ <;>
    rw [hr, hc] <;> omega

theorem seesAlong_diagonal_iff :
    SeesAlong p Diagonal a z ↔ z.IsValid ∧
      (|z.row - a.row| = |z.col - a.col| ∧ a.row ≠ z.row) ∧ ClearTo p a z := by
  rw [seesAlong_iff_sign fun _ _ h => h.1]
  refine and_congr_right fun _ => and_congr_left fun _ => ?_
  unfold Diagonal Grid.UnitDir Grid.Aligned
  simp only [Int.abs_eq_natAbs]
  rcases sign_cases (z.row - a.row) with ⟨hr, hr'⟩ | ⟨hr, hr'⟩ | ⟨hr, hr'⟩ <;>
    rcases sign_cases (z.col - a.col) with ⟨hc, hc'⟩ | ⟨hc, hc'⟩ | ⟨hc, hc'⟩ <;>
    rw [hr, hc] <;> omega

/-- Reach depends on the occupied squares only. -/
theorem Reach.congr (hpq : ∀ s : Position, (p s).isSome = (q s).isSome)
    {t : PieceType} (ha : a.IsValid) : Reach p t a z ↔ Reach q t a z := by
  have hdiag : SeesAlong p Diagonal a z ↔ SeesAlong q Diagonal a z :=
    SeesAlong.congr (fun _ _ hd => hd.1) ha fun s _ => hpq s
  have hline : SeesAlong p Straight a z ↔ SeesAlong q Straight a z :=
    SeesAlong.congr (fun _ _ hd => hd.1) ha fun s _ => hpq s
  cases t with
  | bishop => exact hdiag
  | rook => exact hline
  | queen => exact or_congr hdiag hline
  | _ => exact Iff.rfl

theorem Reach.mono (hpq : ∀ s : Position, p s = none → q s = none)
    {t : PieceType} (h : Reach p t a z) : Reach q t a z := by
  have hsees : ∀ {dir : ℤ → ℤ → Prop}, SeesAlong p dir a z → SeesAlong q dir a z := by
    rintro dir ⟨dr, dc, hdir, k, hk, hx, hy, hin, hclear⟩
    refine ⟨dr, dc, hdir, k, hk, hx, hy, hin, fun i hi hik => ?_⟩
    have hfree : (p ⟨a.row + i * dr, a.col + i * dc⟩).isSome = false := hclear i hi hik
    rw [Option.isSome_eq_false_iff, Option.isNone_iff_eq_none] at hfree
    show (q ⟨a.row + i * dr, a.col + i * dc⟩).isSome = false
    rw [hpq _ hfree]
    rfl
  cases t with
  | bishop => exact hsees h
  | rook => exact hsees h
  | queen => exact h.imp hsees hsees
  | _ => exact h

/-- A queen reaches every neighbouring square. -/
theorem KingStep.reach_queen (hz : z.IsValid) (h : KingStep a z) : Reach p .queen a z := by
  obtain ⟨hr, hc, hne⟩ := h
  rw [ne_eq, Position.eq_iff] at hne
  rw [Int.abs_eq_natAbs] at hr hc
  have hclear : ClearTo p a z := by
    intro i hi hik
    unfold Grid.steps at hik
    omega
  by_cases hline : a.row = z.row ∨ a.col = z.col
  · exact .inr (seesAlong_straight_iff.mpr ⟨hz, by omega, hclear⟩)
  · refine .inl (seesAlong_diagonal_iff.mpr ⟨hz, ⟨?_, by omega⟩, hclear⟩)
    rw [Int.abs_eq_natAbs, Int.abs_eq_natAbs]
    omega

theorem Reach.ne {t : PieceType} (h : Reach p t a z) : a ≠ z := by
  have hsees : ∀ {dir : ℤ → ℤ → Prop}, (∀ dr dc, dir dr dc → Grid.UnitDir dr dc) →
      SeesAlong p dir a z → a ≠ z := by
    rintro dir hunit ⟨dr, dc, hdir, k, hk, hx, hy, -, -⟩ rfl
    obtain ⟨hr, hc, hne⟩ := hunit dr dc hdir
    rcases hr with rfl | rfl | rfl <;> rcases hc with rfl | rfl | rfl <;> omega
  cases t with
  | pawn => exact h.elim
  | knight =>
    rintro rfl
    simp [Reach, KnightStep] at h
  | bishop => exact hsees (fun _ _ hd => hd.1) h
  | rook => exact hsees (fun _ _ hd => hd.1) h
  | queen =>
    rcases h with h | h
    · exact hsees (fun _ _ hd => hd.1) h
    · exact hsees (fun _ _ hd => hd.1) h
  | king => exact h.2.2

end ChessRecast.Rules
