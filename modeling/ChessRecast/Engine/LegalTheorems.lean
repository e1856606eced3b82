import ChessRecast.Engine.MovegenTheorems

/-!
# What `generate_moves` returns

The generator trusts the castling rights and the en-passant square. `GenSafe` collects what it
trusts; on such a board every pseudo-legal move is well formed, so each `is_legal` restores the
scratch board and the legality loop is a plain filter (`generateMoves_eq`).
-/

namespace ChessRecast.Engine

open Rules

/-! ## What the generator trusts -/

/-- The en-passant square is empty, and the enemy pawn that skipped it stands just beyond. -/
def EpInv (b : Board) : Prop :=
  b.epSquare = sqNone ∨
    (SqValid b.epSquare ∧ b.mailbox b.epSquare = none ∧
      b.mailbox (SQ (sqRow b.epSquare - b.side.forward) (sqCol b.epSquare)) =
        some (b.side.opposite, .pawn))

/-- The king of the side to move stands on its home square. -/
def KingHome (b : Board) : Prop := b.mailbox (SQ (homeRow b.side) 4) = some (b.side, .king)

/-- What the generators take for granted about a board. -/
structure GenSafe (b : Board) : Prop where
  rep : RepInv b.toViews
  ep : EpInv b
  rook : ∀ w, b.castling &&& castleRight b.side w ≠ 0 →
    b.mailbox (SQ (homeRow b.side) w.rookCol) = some (b.side, .rook)
  king : ∀ w, CastlesNow b → CastleOpen b w → KingHome b

/-! ## Pseudo-legal moves are well formed -/

section WellFormed

variable {b : Board} {sq toSq : ℤ} {m : Move}

theorem wellFormed_plainMove {pt : PieceType} (hsq : SqValid sq) (hto : SqValid toSq)
    (hne : toPos sq ≠ toPos toSq) (hman : b.mailbox sq = some (b.side, pt)) :
    WellFormed b (plainMove b sq toSq pt) where
  from_valid := hsq
  to_valid := hto
  from_ne_to := fun heq => hne (congrArg toPos heq)
  from_holds := hman
  captured_eq := fun _ => rfl
  ep_ok := fun h => by cases h
  castle_ok := fun h => by cases h
  promo_ok := fun h => by cases h

theorem wellFormed_movePromo {pt : PieceType} {capt : Option PieceType} (hsq : SqValid sq)
    (hto : SqValid toSq) (hne : toPos sq ≠ toPos toSq)
    (hman : b.mailbox sq = some (b.side, .pawn)) (hcapt : capt = pieceType (b.mailbox toSq)) :
    WellFormed b (movePromo sq toSq capt pt) where
  from_valid := hsq
  to_valid := hto
  from_ne_to := fun heq => hne (congrArg toPos heq)
  from_holds := hman
  captured_eq := fun _ => hcapt
  ep_ok := fun h => by cases h
  castle_ok := fun h => by cases h
  promo_ok := fun _ => ⟨rfl, by simp [movePromo]⟩

theorem castleRook_homeRow (c : Color) (w : Wing) :
    castleRook (SQ (homeRow c) w.kingTo) =
      some (SQ (homeRow c) w.rookCol, SQ (homeRow c) w.rookTo, c) := by
  cases c <;> cases w <;> decide

theorem wellFormed_castleMove {w : Wing} (hking : KingHome b)
    (hrook : b.mailbox (SQ (homeRow b.side) w.rookCol) = some (b.side, .rook))
    (hopen : CastleOpen b w) : WellFormed b (castleMove b.side w) where
  from_valid := by
    show SqValid (SQ (homeRow b.side) 4)
    cases b.side <;> decide
  to_valid := by
    show SqValid (SQ (homeRow b.side) w.kingTo)
    cases b.side <;> cases w <;> decide
  from_ne_to := by
    show SQ (homeRow b.side) 4 ≠ SQ (homeRow b.side) w.kingTo
    cases b.side <;> cases w <;> decide
  from_holds := hking
  captured_eq := fun _ => by
    have hempty := hopen.2.1 w.kingTo (by cases w <;> decide)
    show none = pieceType (b.mailbox (SQ (homeRow b.side) w.kingTo))
    rw [hempty]
    rfl
  ep_ok := fun h => by cases h
  castle_ok := fun _ => by
    refine ⟨rfl, rfl, _, _, castleRook_homeRow b.side w, ?_, hrook, ?_⟩
    · show SQ (homeRow b.side) 4 = SQ (sqRow (SQ (homeRow b.side) w.kingTo)) 4
      cases b.side <;> cases w <;> decide
    · exact hopen.2.1 w.rookTo (by cases w <;> decide)
  promo_ok := fun h => by cases h

/-- The shapes of a pseudo-legal move. -/
inductive PseudoShape (b : Board) (m : Move) : Prop
  | plain (sq toSq : ℤ) (pt : PieceType) (hsq : SqValid sq) (hto : SqValid toSq)
      (hne : toPos sq ≠ toPos toSq) (hman : b.mailbox sq = some (b.side, pt))
      (heq : m = plainMove b sq toSq pt)
  | promotion (sq toSq : ℤ) (pt : PieceType) (hsq : SqValid sq) (hto : SqValid toSq)
      (hne : toPos sq ≠ toPos toSq) (hman : b.mailbox sq = some (b.side, .pawn))
      (heq : m = movePromo sq toSq (pieceType (b.mailbox toSq)) pt)
  | passant (sq : ℤ) (t : PieceType) (hsq : SqValid sq) (hto : SqValid b.epSquare)
      (hstep : PawnStep b.side (toPos sq) (toPos b.epSquare))
      (hman : b.mailbox sq = some (b.side, .pawn)) (hsome : b.epSquare ≠ sqNone)
      (hcapt : b.mailbox (SQ (sqRow sq) (sqCol b.epSquare)) = some (b.side.opposite, t))
      (heq : m = epMove sq b.epSquare t)
  | castle (w : Wing) (hnow : CastlesNow b) (hopen : CastleOpen b w)
      (heq : m = castleMove b.side w)

theorem shape_of_mem_pawnPushes (hsq : SqValid sq) (hman : b.mailbox sq = some (b.side, .pawn))
    (hm : m ∈ pawnPushes b sq false) : PseudoShape b m := by
  obtain ⟨hv1, he1, hrest⟩ := mem_pawnPushes.mp hm
  have hin := hsq.inside
  have hfwd : b.side.forward = 1 ∨ b.side.forward = -1 := by
    cases b.side
    · exact .inl rfl
    · exact .inr rfl
  have hins : Grid.Inside 8 (sqRow sq + b.side.forward) (sqCol sq) := by
    have hv := hv1
    unfold SqValid SQ at hv
    unfold Grid.Inside at hin ⊢
    omega
  have hne : toPos sq ≠ toPos (SQ (sqRow sq + b.side.forward) (sqCol sq)) := by
    rw [ne_eq, Position.eq_iff]
    show ¬ (sqRow sq = sqRow (SQ _ _) ∧ _)
    rw [sqRow_SQ hins]
    omega
  split at hrest
  · obtain ⟨pt, -, rfl⟩ := hrest
    exact .promotion sq _ pt hsq hv1 hne hman (by rw [he1]; rfl)
  · rcases hrest with rfl | ⟨hr2, -, rfl⟩
    · exact .plain sq _ .pawn hsq hv1 hne hman rfl
    · have hins2 : Grid.Inside 8 (sqRow sq + 2 * b.side.forward) (sqCol sq) := by
        unfold rank2 at hr2
        unfold Grid.Inside at hin ⊢
        cases hs : b.side <;> rw [hs] at hr2 <;> simp only [Color.forward] <;> simp only at hr2 <;>
          omega
      refine .plain sq _ .pawn hsq (sqValid_SQ hins2) ?_ hman rfl
      rw [ne_eq, Position.eq_iff]
      show ¬ (sqRow sq = sqRow (SQ _ _) ∧ _)
      rw [sqRow_SQ hins2]
      omega

theorem shape_of_mem_pawnCaptures (hsq : SqValid sq)
    (hman : b.mailbox sq = some (b.side, .pawn))
    (hm : m ∈ pawnCaptures b sq (-1) ++ pawnCaptures b sq 1) : PseudoShape b m := by
  obtain ⟨toSq, hto, hstep, -, hkind⟩ := (mem_pawnCaptures hsq).mp hm
  -- a capture of either colour, promoting on the last row
  have htakes : ∀ c capt (types : List PieceType), b.mailbox toSq = some (c, capt) →
      (if sqRow sq = rank7 b.side then ∃ pt ∈ types, m = movePromo sq toSq (some capt) pt
        else m = plainMove b sq toSq .pawn) → PseudoShape b m := by
    intro c capt types hcapt hrest
    split at hrest
    · obtain ⟨pt, -, rfl⟩ := hrest
      exact .promotion sq toSq pt hsq hto hstep.ne hman (by rw [hcapt]; rfl)
    · exact .plain sq toSq .pawn hsq hto hstep.ne hman hrest
  rcases hkind with hm | hm | hm
  · obtain ⟨capt, hcapt, hrest⟩ := mem_pawnTakesEnemy.mp hm
    exact htakes _ capt _ hcapt hrest
  · obtain ⟨capt, hcapt, -, hrest⟩ := mem_pawnTakesOwn.mp hm
    exact htakes _ capt _ hcapt hrest
  · obtain ⟨rfl, hsome, t, hcapt, heq⟩ := mem_pawnTakesEp.mp hm
    exact .passant sq t hsq hto hstep hman hsome hcapt heq

theorem shape_of_mem_pseudoMoves (h : RepInv b.toViews) (hm : m ∈ pseudoMoves b) :
    PseudoShape b m := by
  rcases mem_pseudoMoves.mp hm with hm | ⟨pt, -, hm⟩ | hm
  · obtain ⟨sq, hsq, hman, -, hkind⟩ := (mem_genPawnMoves h).mp hm
    split at hkind
    · rename_i hmod
      obtain ⟨toSq, hto, hstep, -, heq⟩ := (mem_mercenaryPawnMoves h hmod).mp hkind
      exact .plain sq toSq .pawn hsq hto hstep.2.2 hman heq
    · rcases hkind with hm | ⟨-, hm⟩
      · exact shape_of_mem_pawnPushes hsq hman hm
      · exact shape_of_mem_pawnCaptures hsq hman hm
  · obtain ⟨-, sq, hsq, hman, -, toSq, hto, hkind, heq⟩ := (mem_genPieceMoves h).mp hm
    refine .plain sq toSq pt hsq hto ?_ hman heq
    split at hkind
    · unfold StqQueenOk at hkind
      split at hkind
      · rcases hkind with hkind | hkind
        · exact hkind.1.ne
        · exact hkind.2.2.2.2.2
      · exact hkind.1.2.2
    · exact hkind.1.ne
  · obtain ⟨hnow, w, hopen, heq⟩ := mem_genCastling.mp hm
    exact .castle w hnow hopen heq

/-- An en-passant capture ends on an empty square and takes an enemy pawn. -/
def PassantOk (b : Board) (m : Move) : Prop :=
  m.ep = true → b.mailbox m.toSq = none ∧ b.mailbox (epCapSq m) = some (b.side.opposite, .pawn)

instance (b : Board) (m : Move) : Decidable (PassantOk b m) := inferInstanceAs (Decidable (_ → _))

theorem wellFormed_epMove {t : PieceType} (hsq : SqValid sq) (hto : SqValid toSq)
    (hne : toPos sq ≠ toPos toSq) (hman : b.mailbox sq = some (b.side, .pawn))
    (hcapt : b.mailbox (SQ (sqRow sq) (sqCol toSq)) = some (b.side.opposite, t))
    (hep : PassantOk b (epMove sq toSq t)) : WellFormed b (epMove sq toSq t) := by
  obtain ⟨hempty, hpawn⟩ := hep rfl
  obtain rfl : PieceType.pawn = t :=
    (Prod.mk.inj (Option.some.inj (hpawn.symm.trans hcapt))).2
  exact
    { from_valid := hsq
      to_valid := hto
      from_ne_to := fun heq => hne (congrArg toPos heq)
      from_holds := hman
      captured_eq := fun h => by cases h
      ep_ok := fun _ => ⟨rfl, rfl, hempty, hpawn, rfl⟩
      castle_ok := fun h => by cases h
      promo_ok := fun h => by cases h }

/-- Only castling and an en-passant capture can be malformed. -/
theorem PseudoShape.wellFormed (h : PseudoShape b m)
    (hhome : ∀ w, CastlesNow b → CastleOpen b w → m = castleMove b.side w → KingHome b ∧
      b.mailbox (SQ (homeRow b.side) w.rookCol) = some (b.side, .rook))
    (hep : PassantOk b m) : WellFormed b m := by
  cases h with
  | plain sq toSq pt hsq hto hne hman heq => exact heq ▸ wellFormed_plainMove hsq hto hne hman
  | promotion sq toSq pt hsq hto hne hman heq =>
    exact heq ▸ wellFormed_movePromo hsq hto hne hman rfl
  | passant sq t hsq hto hstep hman hsome hcapt heq =>
    subst heq
    exact wellFormed_epMove hsq hto hstep.ne hman hcapt hep
  | castle w hnow hopen heq =>
    obtain ⟨hking, hrook⟩ := hhome w hnow hopen heq
    exact heq ▸ wellFormed_castleMove hking hrook hopen

/-- With a sound en-passant square the captures are sound. -/
theorem EpInv.passantOk (hinv : EpInv b) (h : PseudoShape b m) : PassantOk b m := by
  intro hep
  cases h with
  | plain sq toSq pt hsq hto hne hman heq => subst heq; cases hep
  | promotion sq toSq pt hsq hto hne hman heq => subst heq; cases hep
  | castle w hnow hopen heq => subst heq; cases hep
  | passant sq t hsq hto hstep hman hsome hcapt heq =>
    subst heq
    obtain ⟨-, hempty, hpawn⟩ := hinv.resolve_left hsome
    -- the pawn that skipped the square stands beside the one that takes it
    have hrow : sqRow sq = sqRow b.epSquare - b.side.forward := by
      have := hstep.1
      simp only [toPos] at this
      omega
    refine ⟨hempty, ?_⟩
    show b.mailbox (SQ (sqRow sq) (sqCol b.epSquare)) = _
    rw [hrow, hpawn]

/-- On a board that meets what the generator trusts, every pseudo-legal move is well formed. -/
theorem wellFormed_of_mem_pseudoMoves (h : GenSafe b) (hm : m ∈ pseudoMoves b) :
    WellFormed b m := by
  have hshape := shape_of_mem_pseudoMoves h.rep hm
  exact hshape.wellFormed (fun w hnow hopen _ => ⟨h.king w hnow hopen, h.rook w hopen.1⟩)
    (h.ep.passantOk hshape)

/-- The representation is coherent and every pseudo-legal move is well formed. -/
structure SoundMoves (b : Board) : Prop where
  rep : RepInv b.toViews
  wellFormed : ∀ m ∈ pseudoMoves b, WellFormed b m

theorem GenSafe.soundMoves (h : GenSafe b) : SoundMoves b :=
  ⟨h.rep, fun _ => wellFormed_of_mem_pseudoMoves h⟩

end WellFormed

/-! ## The legality loop is a filter -/

/-- The verdict on a move, from the board itself. -/
def legal (b : Board) (m : Move) : Bool := legalAfter (boardMakeMove b m) b.side

theorem foldl_movelistAdd (ms : List Move) : ∀ ml : List Move, ml.length ≤ maxMoves →
    ms.foldl movelistAdd ml = (ml ++ ms).take maxMoves := by
  induction ms with
  | nil => intro ml h; simp [List.take_of_length_le h]
  | cons m ms ih =>
    intro ml h
    rw [List.foldl_cons]
    by_cases hlt : ml.length < maxMoves
    · have hadd : movelistAdd ml m = ml ++ [m] := if_pos hlt
      rw [hadd, ih _ (by simp; omega), List.append_assoc, List.singleton_append]
    · have hadd : movelistAdd ml m = ml := if_neg hlt
      have hfull : ml.length = maxMoves := by omega
      rw [hadd, ih ml h, List.take_left' hfull, List.take_left' hfull]

theorem fillMovelist_eq (ms : List Move) : fillMovelist ms = ms.take maxMoves := by
  unfold fillMovelist
  rw [foldl_movelistAdd ms [] (Nat.zero_le _), List.nil_append]

/-- The verdict does not depend on the undo stack. -/
theorem isLegal_of_restored {b tmp : Board} {m : Move} (h : Restored b tmp) :
    (isLegal tmp m).1 = legal b m := by
  rw [h]
  rfl

theorem filterLegal_cons (tmp : Board) (m : Move) (ms ml : List Move) :
    filterLegal tmp (m :: ms) ml = filterLegal (isLegal tmp m).2 ms
      (if (isLegal tmp m).1 then movelistAdd ml m else ml) := rfl

/-- Well-formed moves leave the scratch board as it was, so the loop filters them and goes on. -/
theorem filterLegal_append {b : Board} (hrep : RepInv b.toViews) (hply : b.ply < maxHistory)
    (ms rest : List Move) : ∀ (tmp : Board) (ml : List Move), Restored b tmp →
      (∀ m ∈ ms, WellFormed b m) → ml.length + ms.length ≤ maxMoves →
      ∃ tmp', Restored b tmp' ∧
        filterLegal tmp (ms ++ rest) ml = filterLegal tmp' rest (ml ++ ms.filter (legal b)) := by
  induction ms with
  | nil => exact fun tmp ml htmp _ _ => ⟨tmp, htmp, by simp⟩
  | cons m ms ih =>
    intro tmp ml htmp hwf hlen
    simp only [List.length_cons] at hlen
    have hback : Restored b (isLegal tmp m).2 :=
      htmp.trans (boardUnmakeMove_boardMakeMove (htmp.repInv hrep)
        (htmp.wellFormed (hwf m List.mem_cons_self)) (by rw [htmp]; exact hply))
    rw [List.cons_append, filterLegal_cons, isLegal_of_restored htmp]
    have hwf' : ∀ m' ∈ ms, WellFormed b m' := fun m' hm' => hwf m' (List.mem_cons_of_mem _ hm')
    cases hl : legal b m with
    | true =>
      have hadd : movelistAdd ml m = ml ++ [m] := if_pos (by omega)
      rw [if_pos rfl, hadd, List.filter_cons_of_pos hl,
        List.append_cons ml m (ms.filter _)]
      exact ih _ (ml ++ [m]) hback hwf' (by simp; omega)
    | false =>
      rw [if_neg (by simp), List.filter_cons_of_neg (by simp [hl])]
      exact ih _ ml hback hwf' (by omega)

theorem filterLegal_eq {b : Board} (hrep : RepInv b.toViews) (hply : b.ply < maxHistory)
    (ms : List Move) (hwf : ∀ m ∈ ms, WellFormed b m) (hlen : ms.length ≤ maxMoves) :
    filterLegal b ms [] = ms.filter (legal b) := by
  obtain ⟨tmp, -, heq⟩ := filterLegal_append hrep hply ms [] b [] rfl hwf (by simpa using hlen)
  rw [List.append_nil] at heq
  exact heq

theorem mem_filterLegal_of_mem {m : Move} (ms : List Move) : ∀ (tmp : Board) (ml : List Move),
    m ∈ ml → m ∈ filterLegal tmp ms ml := by
  induction ms with
  | nil => exact fun _ _ hm => hm
  | cons m' ms ih =>
    intro tmp ml hm
    rw [filterLegal_cons]
    apply ih
    split
    · unfold movelistAdd
      split
      · exact List.mem_append_left _ hm
      · exact hm
    · exact hm

/-- The legality loop adds no move of its own, whatever the scratch board has become. -/
theorem mem_of_mem_filterLegal {m : Move} (ms : List Move) : ∀ (tmp : Board) (ml : List Move),
    m ∈ filterLegal tmp ms ml → m ∈ ml ∨ m ∈ ms := by
  induction ms with
  | nil => intro tmp ml hm; exact .inl hm
  | cons m' ms ih =>
    intro tmp ml hm
    rcases ih _ _ hm with hm | hm
    · split at hm
      · unfold movelistAdd at hm
        split at hm
        · rcases List.mem_append.mp hm with hm | hm
          · exact .inl hm
          · exact .inr (List.mem_singleton.mp hm ▸ List.mem_cons_self)
        · exact .inl hm
      · exact .inl hm
    · exact .inr (List.mem_cons_of_mem _ hm)

theorem mem_pseudoMoves_of_generated {b : Board} {m : Move} (hm : m ∈ generateMoves b) :
    m ∈ pseudoMoves b := by
  rcases mem_of_mem_filterLegal _ _ _ hm with hm | hm
  · cases hm
  · rw [fillMovelist_eq] at hm
    exact List.mem_of_mem_take hm

theorem generateMoves_eq_of_wellFormed {b : Board} (hrep : RepInv b.toViews)
    (hply : b.ply < maxHistory) (hwf : ∀ m ∈ (pseudoMoves b).take maxMoves, WellFormed b m) :
    generateMoves b = ((pseudoMoves b).take maxMoves).filter (legal b) := by
  unfold generateMoves
  rw [fillMovelist_eq, filterLegal_eq hrep hply _ hwf (by simp [List.length_take])]

/-- `generate_moves` filters the first `MAX_MOVES` pseudo-legal moves. -/
theorem generateMoves_eq {b : Board} (h : SoundMoves b) (hply : b.ply < maxHistory) :
    generateMoves b = ((pseudoMoves b).take maxMoves).filter (legal b) :=
  generateMoves_eq_of_wellFormed h.rep hply fun m hm => h.wellFormed m (List.mem_of_mem_take hm)

end ChessRecast.Engine
