import ChessRecast.Rules.Attack

/-!
# Rulebooks

A `Book` says, for one position, which steps the rules of a mod allow the side to move before
the safety of its king is asked: where pieces go, how pawns push, take and promote, and which
castling moves are open. `Book.Allows` is the set of moves that follows. Each engine has a book
of its own; two books that agree allow the same moves (`Book.allows_congr`).
-/

namespace ChessRecast.Rules

/-! ## The board as the rules see it -/

/-- Row of a colour's king and rooks at the start. -/
def homeRow : Color → ℤ
  | .white => 0
  | .black => 7

/-- Row on which a colour's pawns promote. -/
def promotionRow : Color → ℤ
  | .white => 7
  | .black => 0

/-- Row from which a colour's pawns may step twice. -/
def doubleRow : Color → ℤ
  | .white => 1
  | .black => 6

inductive Wing where
  | king
  | queen
deriving DecidableEq, Repr

namespace Wing

def rookCol : Wing → ℤ
  | .king => 7
  | .queen => 0

/-- Column to which the rook goes. -/
def rookTo : Wing → ℤ
  | .king => 5
  | .queen => 3

/-- Column to which the king goes. -/
def kingTo : Wing → ℤ
  | .king => 6
  | .queen => 2

/-- Columns that have to be empty. -/
def empties : Wing → List ℤ
  | .king => [5, 6]
  | .queen => [1, 2, 3]

/-- Columns that must not be attacked. -/
def safes : Wing → List ℤ
  | .king => [5, 6]
  | .queen => [2, 3]

end Wing

theorem isValid_home {c : Color} {col : ℤ} (h : 0 ≤ col ∧ col < 8) :
    (⟨homeRow c, col⟩ : Position).IsValid := by
  have hrow : 0 ≤ homeRow c ∧ homeRow c < 8 := by cases c <;> decide
  exact ⟨hrow.1, hrow.2, h.1, h.2⟩

theorem rookCol_bounds (w : Wing) : 0 ≤ w.rookCol ∧ w.rookCol < 8 := by cases w <;> decide

theorem empties_bounds {w : Wing} {col : ℤ} (h : col ∈ w.empties) : 0 ≤ col ∧ col < 8 := by
  revert col
  cases w <;> decide

theorem safes_bounds {w : Wing} {col : ℤ} (h : col ∈ w.safes) : 0 ≤ col ∧ col < 8 := by
  revert col
  cases w <;> decide

theorem kingTo_mem_empties (w : Wing) : w.kingTo ∈ w.empties := by cases w <;> decide

theorem rookTo_mem_empties (w : Wing) : w.rookTo ∈ w.empties := by cases w <;> decide

theorem kingTo_mem_safes (w : Wing) : w.kingTo ∈ w.safes := by cases w <;> decide

namespace MoveView

/-- A move without promotion, castling or en passant. -/
def plain (src dst : Position) : MoveView := ⟨src, dst, none, false, false⟩

def promotion (src dst : Position) (t : PieceType) : MoveView := ⟨src, dst, some t, false, false⟩

def enPassant (src dst : Position) : MoveView := ⟨src, dst, none, false, true⟩

def castling (c : Color) (w : Wing) : MoveView :=
  ⟨⟨homeRow c, 4⟩, ⟨homeRow c, w.kingTo⟩, none, true, false⟩

theorem castling_inj {c : Color} {w w' : Wing} (h : castling c w = castling c w') : w = w' := by
  have hcol := congrArg (fun v => v.dst.col) h
  revert hcol
  cases w <;> cases w' <;> simp [castling, Wing.kingTo]

end MoveView

/-! ## Books -/

/-- What the rules allow the side to move in one position. -/
structure Book where
  place : Placement
  mover : Color
  /-- A piece of the type may go from one square to another. -/
  goes : PieceType → Position → Position → Prop
  /-- A pawn may go from one square to another without promoting. -/
  pawnGoes : Position → Position → Prop
  /-- The pawn on the square may push. -/
  pushes : Position → Prop
  /-- A pawn may take on a square diagonally ahead. -/
  takes : Position → Position → Prop
  /-- What a pawn may become on the square. -/
  becomes : Position → PieceType → Prop
  /-- A pawn may take en passant, ending on the square diagonally ahead. -/
  passant : Position → Position → Prop
  castles : Wing → Prop

namespace Book

variable (B : Book)

/-- A pawn arrives on its target: on the last row it promotes. -/
def Arrives (v : MoveView) : Prop :=
  if v.dst.row = promotionRow B.mover then
    ∃ t, B.becomes v.dst t ∧ v = .promotion v.src v.dst t
  else v = .plain v.src v.dst

/-- A pawn pushes by one row or, from its starting row, by two. -/
def Pushes (v : MoveView) : Prop :=
  B.pushes v.src ∧ B.place (v.src.offset B.mover.forward 0) = none ∧
    ((v.dst = v.src.offset B.mover.forward 0 ∧ B.Arrives v) ∨
      (v.src.row = doubleRow B.mover ∧ v.dst = v.src.offset (B.mover.forward * 2) 0 ∧
        B.place v.dst = none ∧ v = .plain v.src v.dst))

/-- The moves of a pawn. -/
def PawnAllows (v : MoveView) : Prop :=
  (B.pawnGoes v.src v.dst ∧ v = .plain v.src v.dst) ∨ B.Pushes v ∨
    (PawnStep B.mover v.src v.dst ∧
      ((B.takes v.src v.dst ∧ B.Arrives v) ∨
        (B.passant v.src v.dst ∧ v = .enPassant v.src v.dst)))

/-- The moves that the book allows. -/
def Allows (v : MoveView) : Prop :=
  (v.src.IsValid ∧ v.dst.IsValid ∧
    ((∃ t, t ≠ .pawn ∧ B.place v.src = some (B.mover, t) ∧ B.goes t v.src v.dst ∧
      v = .plain v.src v.dst) ∨
    (B.place v.src = some (B.mover, .pawn) ∧ B.PawnAllows v))) ∨
  ∃ w, B.castles w ∧ v = .castling B.mover w

/-- Two books agree on the men of the side to move, en passant aside. -/
structure Agree (B B' : Book) : Prop where
  place : B.place = B'.place
  mover : B.mover = B'.mover
  goes : ∀ t a z, t ≠ .pawn → B.place a = some (B.mover, t) → z.IsValid →
    (B.goes t a z ↔ B'.goes t a z)
  pawnGoes : ∀ a z, B.place a = some (B.mover, .pawn) → z.IsValid →
    (B.pawnGoes a z ↔ B'.pawnGoes a z)
  pushes : ∀ a, B.place a = some (B.mover, .pawn) → (B.pushes a ↔ B'.pushes a)
  takes : ∀ a z, B.place a = some (B.mover, .pawn) → z.IsValid → PawnStep B.mover a z →
    (B.takes a z ↔ B'.takes a z)
  becomes : ∀ a z t, B.pushes a ∨ B.takes a z → z.IsValid → z.row = promotionRow B.mover →
    (B.becomes z t ↔ B'.becomes z t)
  castles : ∀ w, B.castles w ↔ B'.castles w

/-- Books that agree allow the same moves, as far as they agree on en passant. -/
theorem allows_congr {B B' : Book} (h : Agree B B') {v : MoveView}
    (hpassant : v.ep = true → B.place v.src = some (B.mover, .pawn) → v.dst.IsValid →
      PawnStep B.mover v.src v.dst → (B.passant v.src v.dst ↔ B'.passant v.src v.dst)) :
    B.Allows v ↔ B'.Allows v := by
  have harr : B.pushes v.src ∨ B.takes v.src v.dst → v.dst.IsValid →
      (B.Arrives v ↔ B'.Arrives v) := by
    intro hgo hv
    unfold Arrives
    rw [← h.mover]
    split
    · rename_i hrow
      simp only [h.becomes v.src v.dst _ hgo hv hrow]
    · rfl
  unfold Allows
  rw [← h.place, ← h.mover]
  refine or_congr (and_congr_right fun _ => and_congr_right fun hv => or_congr ?_ ?_) ?_
  · refine exists_congr fun t => and_congr_right fun ht => and_congr_right fun hman => ?_
    rw [h.goes t _ _ ht hman hv]
  · refine and_congr_right fun hman => ?_
    unfold PawnAllows Pushes
    rw [← h.place, ← h.mover, h.pawnGoes _ _ hman hv, ← h.pushes _ hman]
    refine or_congr_right (or_congr (and_congr_right fun hgo => ?_)
      (and_congr_right fun hstep => ?_))
    · rw [harr (.inl hgo) hv]
    · rw [← h.takes _ _ hman hv hstep]
      refine or_congr (and_congr_right fun hgo => harr (.inr hgo) hv) (and_congr_left fun hep => ?_)
      exact hpassant (by rw [hep]; rfl) hman hv hstep
  · refine exists_congr fun w => ?_
    rw [h.castles w]

/-! ### Captures of own men -/

/-- The book in which the own men on the squares of `own` may be taken as well. -/
def withTakes (own : Position → Prop) : Book :=
  { B with
    goes := fun t a z => B.goes t a z ∨ (own z ∧ Reach B.place t a z)
    takes := fun a z => B.takes a z ∨ own z }

/-- A man takes an own man. -/
def TakesOwn (own : Position → Prop) (v : MoveView) : Prop :=
  v.src.IsValid ∧ v.dst.IsValid ∧ own v.dst ∧
    ((∃ t, t ≠ .pawn ∧ B.place v.src = some (B.mover, t) ∧ Reach B.place t v.src v.dst ∧
      v = .plain v.src v.dst) ∨
    (B.place v.src = some (B.mover, .pawn) ∧ PawnStep B.mover v.src v.dst ∧ B.Arrives v))

theorem allows_withTakes {B : Book} {own : Position → Prop} {v : MoveView} :
    (B.withTakes own).Allows v ↔ B.Allows v ∨ B.TakesOwn own v := by
  have harr : (B.withTakes own).Arrives v ↔ B.Arrives v := Iff.rfl
  constructor
  · rintro (⟨hsrc, hdst, ⟨t, ht, hman, hgo | ⟨hown, hreach⟩, hv⟩ | ⟨hman, hgo⟩⟩ | hcastle)
    · exact .inl (.inl ⟨hsrc, hdst, .inl ⟨t, ht, hman, hgo, hv⟩⟩)
    · exact .inr ⟨hsrc, hdst, hown, .inl ⟨t, ht, hman, hreach, hv⟩⟩
    · rcases hgo with hgo | hgo | ⟨hstep, ⟨hgo | hown, hv⟩ | hgo⟩
      · exact .inl (.inl ⟨hsrc, hdst, .inr ⟨hman, .inl hgo⟩⟩)
      · exact .inl (.inl ⟨hsrc, hdst, .inr ⟨hman, .inr (.inl hgo)⟩⟩)
      · exact .inl (.inl ⟨hsrc, hdst, .inr ⟨hman, .inr (.inr ⟨hstep, .inl ⟨hgo, harr.mp hv⟩⟩)⟩⟩)
      · exact .inr ⟨hsrc, hdst, hown, .inr ⟨hman, hstep, harr.mp hv⟩⟩
      · exact .inl (.inl ⟨hsrc, hdst, .inr ⟨hman, .inr (.inr ⟨hstep, .inr hgo⟩)⟩⟩)
    · exact .inl (.inr hcastle)
  · rintro ((⟨hsrc, hdst, ⟨t, ht, hman, hgo, hv⟩ | ⟨hman, hgo⟩⟩ | hcastle) |
      ⟨hsrc, hdst, hown, ⟨t, ht, hman, hreach, hv⟩ | ⟨hman, hstep, hv⟩⟩)
    · exact .inl ⟨hsrc, hdst, .inl ⟨t, ht, hman, .inl hgo, hv⟩⟩
    · refine .inl ⟨hsrc, hdst, .inr ⟨hman, ?_⟩⟩
      rcases hgo with hgo | hgo | ⟨hstep, ⟨hgo, hv⟩ | hgo⟩
      · exact .inl hgo
      · exact .inr (.inl hgo)
      · exact .inr (.inr ⟨hstep, .inl ⟨.inl hgo, harr.mpr hv⟩⟩)
      · exact .inr (.inr ⟨hstep, .inr hgo⟩)
    · exact .inr hcastle
    · exact .inl ⟨hsrc, hdst, .inl ⟨t, ht, hman, .inr ⟨hown, hreach⟩, hv⟩⟩
    · exact .inl ⟨hsrc, hdst, .inr ⟨hman, .inr (.inr ⟨hstep, .inl ⟨.inr hown, harr.mpr hv⟩⟩)⟩⟩

/-- The book of a side that never castles. -/
def withoutCastling : Book := { B with castles := fun _ => False }

theorem allows_withoutCastling {B : Book} {v : MoveView} (hv : v.castle = false) :
    B.withoutCastling.Allows v ↔ B.Allows v := by
  refine or_congr_right (iff_of_false (fun ⟨_, hno, _⟩ => hno) ?_)
  rintro ⟨w, -, rfl⟩
  cases hv

theorem Arrives.castle_eq {B : Book} {v : MoveView} (h : B.Arrives v) : v.castle = false := by
  unfold Arrives at h
  split at h
  · obtain ⟨t, -, hv⟩ := h
    rw [hv]
    rfl
  · rw [h]
    rfl

/-- Only the castling rule allows castling. -/
theorem allows_of_castle {B : Book} {v : MoveView} (hv : v.castle = true) :
    B.Allows v ↔ ∃ w, B.castles w ∧ v = .castling B.mover w := by
  refine or_iff_right ?_
  rintro ⟨-, -, ⟨t, -, -, -, heq⟩ | ⟨-, hpawn⟩⟩
  · rw [heq] at hv
    cases hv
  · rcases hpawn with ⟨-, heq⟩ | ⟨-, -, ⟨-, ha⟩ | ⟨-, -, -, heq⟩⟩ | ⟨-, ⟨-, ha⟩ | ⟨-, heq⟩⟩
    · rw [heq] at hv
      cases hv
    · rw [ha.castle_eq] at hv
      cases hv
    · rw [heq] at hv
      cases hv
    · rw [ha.castle_eq] at hv
      cases hv
    · rw [heq] at hv
      cases hv

end Book

/-! ## Kings -/

/-- The king of the colour is attacked. -/
def Checked (mod : Mod) (unlocked : Bool) (p : Placement) (c : Color) : Prop :=
  ∃ k, p k = some (c, .king) ∧ Attacked mod unlocked p c.opposite k

variable {mod : Mod} {unlocked : Bool} {p q : Placement} {c : Color} {v : MoveView} {k : Position}

theorem attacked_phase (hmod : mod ≠ .kingsBattle) (unlocked unlocked' : Bool)
    (p : Placement) (c : Color) (z : Position) :
    Attacked mod unlocked p c z ↔ Attacked mod unlocked' p c z := by
  unfold Attacked Bears
  simp only [hmod, false_implies, true_and]

theorem checked_phase (hmod : mod ≠ .kingsBattle) (unlocked unlocked' : Bool)
    (p : Placement) (c : Color) : Checked mod unlocked p c ↔ Checked mod unlocked' p c :=
  exists_congr fun k => and_congr_right fun _ => attacked_phase hmod unlocked unlocked' p _ k

/-- For the safety of a king only its square, the occupied squares and the enemy men matter. -/
theorem checked_congr (hocc : ∀ s, (p s).isSome = (q s).isSome)
    (hking : ∀ s, p s = some (c, .king) ↔ q s = some (c, .king))
    (henemy : ∀ s t, p s = some (c.opposite, t) ↔ q s = some (c.opposite, t)) :
    Checked mod unlocked p c ↔ Checked mod unlocked q c := by
  unfold Checked Attacked Bears
  refine exists_congr fun k => and_congr (hking k) (exists_congr fun a => exists_congr fun t =>
    and_congr_right fun ha => and_congr (henemy a t) (and_congr_right fun _ =>
      and_congr_right fun _ => ?_))
  simp only [Reach.congr hocc ha]

/-- What a pawn becomes does not matter for the own king. -/
theorem checked_promotion {a z : Position} {t : PieceType} (ht : t ≠ .king)
    (ha : p a = some (c, .pawn)) :
    Checked mod unlocked (after p (.promotion a z t)) c ↔
      Checked mod unlocked (after p (.plain a z)) c := by
  have hother : ∀ s, s ≠ z → after p (.promotion a z t) s = after p (.plain a z) s := by
    intro s hs
    simp [after, MoveView.promotion, MoveView.plain, hs]
  have hto : after p (.promotion a z t) z = some (c, t) := by
    simp [after, MoveView.promotion, ha]
  have hto' : after p (.plain a z) z = some (c, .pawn) := by
    simp [after, MoveView.plain, ha]
  apply checked_congr
  · intro s
    by_cases hs : s = z
    · rw [hs, hto, hto']
      rfl
    · rw [hother s hs]
  · intro s
    by_cases hs : s = z
    · rw [hs, hto, hto']
      simp [ht]
    · rw [hother s hs]
  · intro s t'
    by_cases hs : s = z
    · rw [hs, hto, hto']
      simp
    · rw [hother s hs]

/-- The colour has at most one king. -/
def OneKing (p : Placement) (c : Color) : Prop :=
  ∀ k k', p k = some (c, .king) → p k' = some (c, .king) → k = k'

/-- The king of the colour that comes first, counting the squares row by row. -/
def LowestKing (p : Placement) (c : Color) (k : Position) : Prop :=
  p k = some (c, .king) ∧
    ∀ k', p k' = some (c, .king) → k.row < k'.row ∨ (k.row = k'.row ∧ k.col ≤ k'.col)

theorem OneKing.lowestKing_iff (h : OneKing p c) : LowestKing p c k ↔ p k = some (c, .king) := by
  refine and_iff_left_of_imp fun hk k' hk' => .inr ?_
  rw [h k k' hk hk']
  exact ⟨rfl, le_rfl⟩

/-- Where a man after the move comes from: the castling rook's corner, the square that the move
leaves, or the square itself. -/
theorem after_cases {man : Man}
    (h : after p v k = some man) :
    (v.castle = true ∧ k = v.rookDst ∧ p v.rookSrc = some man) ∨
    (¬ (v.castle = true ∧ (k = v.rookDst ∨ k = v.rookSrc)) ∧
      ((k = v.dst ∧ ∃ t, p v.src = some (man.1, t) ∧ man.2 = v.promo.getD t) ∨
        (k ≠ v.dst ∧ k ≠ v.src ∧ p k = some man))) := by
  unfold after at h
  split_ifs at h with h1 h2 h3 h4 h5
  · exact .inl ⟨h1.1, h1.2, h⟩
  · obtain ⟨man', hman, rfl⟩ := Option.map_eq_some_iff.mp h
    exact .inr ⟨by tauto, .inl ⟨h3, man'.2, hman, rfl⟩⟩
  · exact .inr ⟨by tauto, .inr ⟨h3, h4, h⟩⟩

/-- A move that does not promote to king adds none. -/
theorem OneKing.after (h : OneKing p c) (hpromo : v.promo ≠ some .king)
    (hrook : v.castle = true → v.src ≠ v.rookSrc) : OneKing (after p v) c := by
  -- every king stands where a king came from, and no two come from one square
  have horigin : ∀ k, Rules.after p v k = some (c, .king) → ∃ o, p o = some (c, .king) ∧
      (v.castle = true ∧ k = v.rookDst ∧ o = v.rookSrc ∨
        ¬ (v.castle = true ∧ (k = v.rookDst ∨ k = v.rookSrc)) ∧
          (k = v.dst ∧ o = v.src ∨ k ≠ v.dst ∧ k ≠ v.src ∧ o = k)) := by
    intro k hk
    rcases after_cases hk with ⟨hc, hdst, hsrc⟩ | ⟨hn, ⟨hdst, t, hsrc, ht⟩ | ⟨hd, hs, hsame⟩⟩
    · exact ⟨v.rookSrc, hsrc, .inl ⟨hc, hdst, rfl⟩⟩
    · refine ⟨v.src, ?_, .inr ⟨hn, .inl ⟨hdst, rfl⟩⟩⟩
      cases hp : v.promo with
      | none =>
        rw [hp] at ht
        rw [hsrc, ← show PieceType.king = t from ht]
      | some t' =>
        rw [hp] at ht hpromo
        exact absurd (congrArg some ht.symm) hpromo
    · exact ⟨k, hsame, .inr ⟨hn, .inr ⟨hd, hs, rfl⟩⟩⟩
  intro k k' hk hk'
  obtain ⟨o, ho, hfrom⟩ := horigin k hk
  obtain ⟨o', ho', hfrom'⟩ := horigin k' hk'
  obtain rfl := h o o' ho ho'
  rcases hfrom with ⟨hc, rfl, rfl⟩ | ⟨hn, ⟨rfl, rfl⟩ | ⟨hd, hs, rfl⟩⟩ <;>
    rcases hfrom' with ⟨hc', rfl, hrs⟩ | ⟨hn', ⟨rfl, hrs⟩ | ⟨hd', hs', hrs⟩⟩
  · rfl
  · exact absurd hrs.symm (hrook hc)
  · exact absurd ⟨hc, .inr hrs.symm⟩ hn'
  · exact absurd hrs (hrook hc')
  · rfl
  · exact absurd hrs.symm hs'
  · exact absurd ⟨hc', .inr hrs⟩ hn
  · exact absurd hrs hs
  · exact hrs

/-- Without a king only the man that the move places can be one. -/
theorem oneKing_after_of_kingless (h : ∀ k, p k ≠ some (c, .king))
    (v : MoveView) : OneKing (after p v) c := by
  have hdst : ∀ k, after p v k = some (c, .king) → k = v.dst := by
    intro k hk
    rcases after_cases hk with ⟨-, -, hsrc⟩ | ⟨-, ⟨hdst, -⟩ | ⟨-, -, hsame⟩⟩
    · exact absurd hsrc (h _)
    · exact hdst
    · exact absurd hsame (h _)
  intro k k' hk hk'
  rw [hdst k hk, hdst k' hk']

end ChessRecast.Rules
