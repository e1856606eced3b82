import ChessRecast.Engine.SafetyTheorems

/-!
# Castling without a king

`gen_castling` does not look at the king's home square. On a board without a king it generates a
castling move as soon as a right is left and the squares between are free: the move puts a new
king on the board, and `is_legal` lets it pass.
-/

namespace ChessRecast.Engine

open Rules

section Castle

variable {b : Board} {w : Wing}

/-- The mailbox after a castling move, whatever stands on the king's home square. -/
def castleMailbox (b : Board) (w : Wing) : ℤ → Piece :=
  let mb := Function.update b.mailbox (SQ (homeRow b.side) 4) none
  let mb := Function.update mb (SQ (homeRow b.side) w.kingTo) (some (b.side, .king))
  let mb := Function.update mb (SQ (homeRow b.side) w.rookCol) none
  Function.update mb (SQ (homeRow b.side) w.rookTo) (some (b.side, .rook))

theorem sqValid_home (c : Color) {col : ℤ} (h : 0 ≤ col ∧ col < 8) :
    SqValid (SQ (homeRow c) col) := sqValid_SQ (isValid_home h)

theorem home_ne (c : Color) {col col' : ℤ} (h : 0 ≤ col ∧ col < 8) (h' : 0 ≤ col' ∧ col' < 8)
    (hne : col ≠ col') : SQ (homeRow c) col ≠ SQ (homeRow c) col' := by
  rw [ne_eq, SQ_inj (isValid_home (c := c) h) (isValid_home (c := c) h')]
  exact fun heq => hne heq.2

theorem shows_castleMove (h : RepInv b.toViews) (hopen : CastleOpen b w) :
    Shows (makeViews b (castleMove b.side w)) (castleMailbox b w) := by
  have hto := hopen.2.1 w.kingTo (kingTo_mem_empties w)
  have hrook := hopen.2.1 w.rookTo (rookTo_mem_empties w)
  have hk := empties_bounds (kingTo_mem_empties w)
  have ht := empties_bounds (rookTo_mem_empties w)
  have hc := rookCol_bounds w
  have h4 : (0 : ℤ) ≤ 4 ∧ (4 : ℤ) < 8 := by decide
  have hviews : makeViews b (castleMove b.side w) =
      boardPlace (boardRemove (boardPlace (boardRemove b.toViews (SQ (homeRow b.side) 4))
        (SQ (homeRow b.side) w.kingTo) b.side .king) (SQ (homeRow b.side) w.rookCol))
        (SQ (homeRow b.side) w.rookTo) b.side .rook := by
    have hmatch := castleRook_homeRow b.side w
    unfold makeViews castleMove
    dsimp only
    rw [if_pos rfl, hmatch]
    rfl
  have hbase : Shows b.toViews b.mailbox := ⟨h, rfl⟩
  rw [hviews]
  refine (((hbase.remove (sqValid_home _ h4)).place (sqValid_home _ hk) ?_ _ _).remove
    (sqValid_home _ hc)).place (sqValid_home _ ht) ?_ _ _
  · rw [Function.update_of_ne (home_ne _ hk h4 (by cases w <;> decide)), hto]
  · rw [Function.update_of_ne (home_ne _ ht hc (by cases w <;> decide)),
      Function.update_of_ne (home_ne _ ht hk (by cases w <;> decide)),
      Function.update_of_ne (home_ne _ ht h4 (by cases w <;> decide)), hrook]

theorem placement_castleMove (h : RepInv b.toViews) (hopen : CastleOpen b w) {z : Position}
    (hz : z.IsValid) : placement (boardMakeMove b (castleMove b.side w)).toViews z =
      if z = ⟨homeRow b.side, w.rookTo⟩ then some (b.side, .rook)
      else if z = ⟨homeRow b.side, w.rookCol⟩ then none
      else if z = ⟨homeRow b.side, w.kingTo⟩ then some (b.side, .king)
      else if z = ⟨homeRow b.side, 4⟩ then none
      else placement b.toViews z := by
  have hmailbox : (boardMakeMove b (castleMove b.side w)).mailbox = castleMailbox b w :=
    (shows_castleMove h hopen).mailbox_eq
  have hiff : ∀ col : ℤ, 0 ≤ col ∧ col < 8 →
      (ofPos z = SQ (homeRow b.side) col ↔ z = ⟨homeRow b.side, col⟩) := by
    intro col hcol
    rw [ofPos, SQ_inj hz (isValid_home (c := b.side) hcol), Position.eq_iff]
  rw [placement_eq_mailbox _ hz, placement_eq_mailbox _ hz, hmailbox]
  unfold castleMailbox
  simp only [Function.update_apply, hiff 4 (by decide),
    hiff _ (empties_bounds (kingTo_mem_empties w)), hiff _ (empties_bounds (rookTo_mem_empties w)),
    hiff _ (rookCol_bounds w)]

/-- A line that ends on the king's new square has been open before: towards the old squares it
is closed by the rook or leaves the board. -/
theorem seesAlong_of_castled {p q : Placement} {c : Color} {dir : ℤ → ℤ → Prop} {a : Position}
    (hunit : ∀ dr dc, dir dr dc → Grid.UnitDir dr dc)
    (hneg : ∀ dr dc, dir dr dc → dir (-dr) (-dc)) (ha : a.IsValid)
    (hrook : (q ⟨homeRow c, w.rookTo⟩).isSome = true)
    (hsame : ∀ s : Position, s.IsValid → s ≠ ⟨homeRow c, 4⟩ → s ≠ ⟨homeRow c, w.rookCol⟩ →
      q s = none → p s = none)
    (h : SeesAlong q dir a ⟨homeRow c, w.kingTo⟩) : SeesAlong p dir a ⟨homeRow c, w.kingTo⟩ := by
  have hv := h.valid
  obtain ⟨dr, dc, hdir, k, hk, hx, hy, hin, hclear⟩ := h.symm hneg ha
  have hline : SeesAlong p dir ⟨homeRow c, w.kingTo⟩ a := by
    refine ⟨dr, dc, hdir, k, hk, hx, hy, hin, fun i hi hik => ?_⟩
    have hstop := hclear i hi hik
    have hbetween : Grid.Inside 8 (homeRow c + i * dr) (w.kingTo + i * dc) :=
      Grid.Inside.between (hunit _ _ hdir) hik.le hv (by rw [← hx, ← hy]; exact hin)
    rw [blocked, Option.isSome_eq_false_iff, Option.isNone_iff_eq_none] at hstop ⊢
    -- a square of the home row is reached only along the row
    have hrow : homeRow c + i * dr = homeRow c → dr = 0 := by
      intro heq
      have : (i : ℤ) * dr = 0 := by omega
      rcases Int.mul_eq_zero.mp this with h0 | h0 <;> omega
    obtain ⟨hr, hc, hne⟩ := hunit _ _ hdir
    refine hsame _ hbetween ?_ ?_ hstop
    · intro heq
      obtain ⟨h1, h2⟩ := Position.eq_iff.mp heq
      have hdr := hrow h1
      have hblock := hclear 1 (by decide) (by omega)
      have hat : (⟨homeRow c + (1 : ℕ) * dr, w.kingTo + (1 : ℕ) * dc⟩ : Position) =
          ⟨homeRow c, w.rookTo⟩ := by
        rw [Position.eq_iff, hdr]
        refine ⟨by simp, ?_⟩
        dsimp only at h2 ⊢
        rcases hc with rfl | rfl | rfl <;> cases w <;> simp only [Wing.kingTo, Wing.rookTo] at * <;>
          omega
      rw [blocked, hat, hrook] at hblock
      cases hblock
    · intro heq
      obtain ⟨h1, h2⟩ := Position.eq_iff.mp heq
      have hdr := hrow h1
      obtain ⟨-, -, hlow, hhigh⟩ := hin
      rw [hy] at hlow hhigh
      dsimp only at h2
      rcases hc with rfl | rfl | rfl <;> cases w <;> simp only [Wing.kingTo, Wing.rookCol] at * <;>
        omega
  exact hline.symm hneg hv

/-- The new king stands where castling wanted an unattacked square, so the move is legal. -/
theorem legal_castleMove (h : RepInv b.toViews) (hmod : b.mod = .succession)
    (hkingless : ∀ k, placement b.toViews k ≠ some (b.side, .king)) (hopen : CastleOpen b w) :
    legal b (castleMove b.side w) = true := by
  have hcap : truceNoCap b = false := by simp [truceNoCap, hmod]
  have hneed : needCheckSafe b = true := by simp [needCheckSafe, hcap, hmod]
  have hk := empties_bounds (kingTo_mem_empties w)
  have hplace : ∀ {z : Position}, z.IsValid → _ := fun hz => placement_castleMove h hopen hz
  generalize hp : placement (boardMakeMove b (castleMove b.side w)).toViews = p' at hplace
  have hrook : p' ⟨homeRow b.side, w.rookTo⟩ = some (b.side, .rook) := by
    rw [hplace (isValid_home (empties_bounds (rookTo_mem_empties w))), if_pos rfl]
  have hking : ∀ k, p' k = some (b.side, .king) → k = ⟨homeRow b.side, w.kingTo⟩ := by
    intro k hk'
    have hkv : k.IsValid := placement_eq_some_valid (by rw [hp]; exact hk')
    rw [hplace hkv] at hk'
    split_ifs at hk' with h1 h2 h3 h4
    · cases hk'
    · exact h3
    · exact absurd hk' (hkingless k)
  rw [legal_iff hcap, ← Bool.not_eq_true, boardInCheck_iff (shows_castleMove h hopen).rep (by
    rw [hp]
    intro k k' hk hk'
    rw [hking k hk, hking k' hk']), hp]
  rintro ⟨-, -, k, hkk, a, t, ha, hman, hbears⟩
  obtain rfl := hking k hkk
  -- the attacker stood there before and saw the square then
  have hother : ∀ s : Position, s.IsValid → (∀ m, p' s = some m → m.1 = b.side.opposite) →
      s ≠ ⟨homeRow b.side, 4⟩ → s ≠ ⟨homeRow b.side, w.rookCol⟩ →
      p' s = placement b.toViews s := by
    intro s hs henemy h4 hcorner
    have hs' := hplace hs
    rw [if_neg hcorner] at hs'
    split_ifs at hs' with h1 h2
    · exact absurd (henemy _ hs') b.side.ne_opposite
    · exact absurd (henemy _ hs') b.side.ne_opposite
    · exact hs'
  have hempty : ∀ s, p' s = none → ∀ m, p' s = some m → m.1 = b.side.opposite := by
    intro s hnone m hm
    rw [hnone] at hm
    cases hm
  have hnot : ∀ col : ℤ, 0 ≤ col ∧ col < 8 → col = 4 ∨ col = w.rookCol →
      a ≠ ⟨homeRow b.side, col⟩ := by
    rintro col hcol hcase rfl
    rw [hplace (isValid_home hcol)] at hman
    rcases hcase with rfl | rfl <;> cases w <;>
      simp [Wing.rookTo, Wing.rookCol, Wing.kingTo] at hman
  have hbefore : placement b.toViews a = some (b.side.opposite, t) := by
    rw [← hother a ha (fun m hm => by rw [hman] at hm; rw [← Option.some.inj hm])
      (hnot 4 (by decide) (.inl rfl)) (hnot _ (rookCol_bounds w) (.inr rfl))]
    exact hman
  have hsees : ∀ dir : ℤ → ℤ → Prop, (∀ dr dc, dir dr dc → Grid.UnitDir dr dc) →
      (∀ dr dc, dir dr dc → dir (-dr) (-dc)) →
      SeesAlong p' dir a ⟨homeRow b.side, w.kingTo⟩ →
      SeesAlong (placement b.toViews) dir a ⟨homeRow b.side, w.kingTo⟩ := by
    intro dir hunit hneg
    refine seesAlong_of_castled hunit hneg ha (by rw [hrook]; rfl) fun s hs h4 hcorner hnone => ?_
    rw [← hother s hs (hempty s hnone) h4 hcorner, hnone]
  have hstraight := hsees Straight (fun _ _ hd => hd.1) fun _ _ => Straight.neg
  have hdiagonal := hsees Diagonal (fun _ _ hd => hd.1) fun _ _ => Diagonal.neg
  have hsafe := hopen.2.2 hneed w.kingTo (kingTo_mem_safes w)
  rw [← Bool.not_eq_true, boardSquareAttacked_iff h (sqValid_home _ hk)] at hsafe
  apply hsafe
  rw [show toPos (SQ (homeRow b.side) w.kingTo) = ⟨homeRow b.side, w.kingTo⟩ from
    toPos_SQ (isValid_home hk)]
  obtain ⟨-, -, hreach⟩ := hbears
  refine ⟨a, t, ha, hbefore, ?_, ?_, ?_⟩
  · intro hkb
    rw [hmod] at hkb
    cases hkb
  · intro hstq
    rw [hmod] at hstq
    cases hstq
  · have hmod' : (boardMakeMove b (castleMove b.side w)).mod = b.mod := rfl
    rw [hmod'] at hreach
    split
    · rename_i hp
      rwa [if_pos hp] at hreach
    · rename_i hp
      rw [if_neg hp] at hreach
      cases t with
      | pawn => exact hreach
      | knight => exact hreach
      | king => exact hreach
      | bishop => exact hdiagonal hreach
      | rook => exact hstraight hreach
      | queen => exact hreach.imp hdiagonal hstraight

/-- The pseudo-legal moves before castling. -/
def menMoves (b : Board) : List Move :=
  genPawnMoves b false ++ genPieceMoves b .knight false ++ genPieceMoves b .bishop false ++
    genPieceMoves b .rook false ++ genPieceMoves b .queen false ++ genPieceMoves b .king false

theorem pseudoMoves_eq (b : Board) : pseudoMoves b = menMoves b ++ genCastling b := rfl

theorem castle_of_mem_menMoves (h : RepInv b.toViews) {m : Move} (hm : m ∈ menMoves b) :
    m.castle = false := by
  -- the same moves are there without any right, and then nobody castles
  have hmem : m ∈ pseudoMoves { b with castling := 0 } := List.mem_append_left _ hm
  cases shape_of_mem_pseudoMoves (b := { b with castling := 0 }) h hmem with
  | plain sq toSq pt hsq hto hne hman heq => subst heq; rfl
  | promotion sq toSq pt hsq hto hne hman heq => subst heq; rfl
  | passant sq t hsq hto hstep hman hsome hcapt heq => subst heq; rfl
  | castle w hnow hopen heq => exact absurd BitVec.zero_and hopen.1

/-- With room for all moves, an open castling is generated: the one tested first, on a scratch
board that is still intact. -/
theorem exists_castle_generated (h : RepInv b.toViews) (hply : b.ply < maxHistory)
    (hwf : ∀ m ∈ menMoves b, WellFormed b m) (hroom : (pseudoMoves b).length ≤ maxMoves)
    (hmod : b.mod = .succession) (hkingless : ∀ k, placement b.toViews k ≠ some (b.side, .king))
    (hnow : CastlesNow b) (hopen : CastleOpen b w) :
    ∃ w', castleMove b.side w' ∈ generateMoves b := by
  have hmem : castleMove b.side w ∈ genCastling b := mem_genCastling.mpr ⟨hnow, w, hopen, rfl⟩
  rw [pseudoMoves_eq] at hroom
  unfold generateMoves
  rw [fillMovelist_eq, pseudoMoves_eq, List.take_of_length_le hroom]
  cases hcastle : genCastling b with
  | nil =>
    rw [hcastle] at hmem
    cases hmem
  | cons c rest =>
    obtain ⟨-, w', hopen', rfl⟩ := mem_genCastling.mp (hcastle ▸ List.mem_cons_self)
    refine ⟨w', ?_⟩
    rw [hcastle, List.length_append, List.length_cons] at hroom
    obtain ⟨tmp, htmp, heq⟩ := filterLegal_append h hply (menMoves b)
      (castleMove b.side w' :: rest) b [] rfl hwf (by rw [List.length_nil]; omega)
    rw [heq, List.nil_append, filterLegal_cons, isLegal_of_restored htmp,
      legal_castleMove h hmod hkingless hopen', if_pos rfl]
    apply mem_filterLegal_of_mem
    have hlen := List.length_filter_le (legal b) (menMoves b)
    unfold movelistAdd
    rw [if_pos (by omega)]
    exact List.mem_append_right _ (List.mem_singleton_self _)

end Castle

end ChessRecast.Engine
