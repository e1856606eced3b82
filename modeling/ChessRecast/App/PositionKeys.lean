import ChessRecast.App.ExecutionTheorems
import ChessRecast.Lib.Records

/-!
# What a position key says

`getPositionKey` writes one record of five letters for every occupied square, then the side to
move, the castling letters and the en-passant target. It can be read back up to the letter of the
piece type, and that letter is the same for kings and knights.
-/

namespace ChessRecast.App

open Rules

/-! ## Squares and their names -/

/-- The square with an index of the key's mailbox. -/
def squareAt (i : ℕ) : Position := ⟨(i / 8 : ℕ), (i % 8 : ℕ)⟩

theorem isValid_squareAt {i : ℕ} (hi : i < 64) : (squareAt i).IsValid := by
  rw [Position.isValid_iff]
  unfold squareAt
  dsimp only
  omega

theorem index_eq_iff {p : Position} (hp : p.IsValid) {i : ℕ} :
    p.row * 8 + p.col = (i : ℤ) ↔ p = squareAt i := by
  rw [Position.isValid_iff] at hp
  rw [Position.eq_iff]
  unfold squareAt
  dsimp only
  omega

theorem exists_squareAt {p : Position} (hp : p.IsValid) : ∃ i < 64, p = squareAt i := by
  rw [Position.isValid_iff] at hp
  refine ⟨(p.row * 8 + p.col).toNat, by omega, ?_⟩
  rw [Position.eq_iff]
  unfold squareAt
  dsimp only
  omega

theorem algebraic_eq {p : Position} (hp : p.IsValid) : ∃ file rank : Char,
    algebraic p = [file, rank] ∧ file.toNat = 97 + p.col.toNat ∧ rank.toNat = 49 + p.row.toNat := by
  obtain ⟨row, col⟩ := p
  obtain ⟨hr, hr8, hc, hc8⟩ := hp
  dsimp only at hr hr8 hc hc8
  unfold algebraic
  dsimp only
  have hfile : ∃ file : Char, Char.ofNat ('a'.toNat + col).toNat = file ∧
      file.toNat = 97 + col.toNat := by
    interval_cases col <;> exact ⟨_, rfl, by decide⟩
  have hrank : ∃ rank : Char, intText (row + 1) = [rank] ∧ rank.toNat = 49 + row.toNat := by
    interval_cases row
    · exact ⟨'1', by decide⟩
    · exact ⟨'2', by decide⟩
    · exact ⟨'3', by decide⟩
    · exact ⟨'4', by decide⟩
    · exact ⟨'5', by decide⟩
    · exact ⟨'6', by decide⟩
    · exact ⟨'7', by decide⟩
    · exact ⟨'8', by decide⟩
  obtain ⟨file, hfile, hcol⟩ := hfile
  obtain ⟨rank, hrank, hrow⟩ := hrank
  exact ⟨file, rank, by rw [hfile, hrank], hcol, hrow⟩

theorem algebraic_inj {p q : Position} (hp : p.IsValid) (hq : q.IsValid)
    (h : algebraic p = algebraic q) : p = q := by
  obtain ⟨file, rank, hpt, hpc, hpr⟩ := algebraic_eq hp
  obtain ⟨file', rank', hqt, hqc, hqr⟩ := algebraic_eq hq
  rw [hpt, hqt] at h
  obtain ⟨rfl, rfl⟩ : file = file' ∧ rank = rank' := by simpa using h
  rw [Position.isValid_iff] at hp hq
  rw [Position.eq_iff]
  omega

/-- A name of a square has neither a colon nor a bar nor a dash. -/
theorem not_mem_algebraic {p : Position} (hp : p.IsValid) {ch : Char}
    (hch : ch.toNat < 49 ∨ (57 ≤ ch.toNat ∧ ch.toNat < 97)) : ch ∉ algebraic p := by
  obtain ⟨file, rank, heq, hfile, hrank⟩ := algebraic_eq hp
  rw [Position.isValid_iff] at hp
  rw [heq]
  intro hmem
  rcases List.mem_cons.mp hmem with rfl | hmem
  · omega
  · obtain rfl := List.mem_singleton.mp hmem
    omega

/-! ## The parts of a key -/

/-- Colour and letter of a man, all that a key keeps of it. -/
def look (man : Man) : Color × Char := (man.1, nameInitial man.2)

/-- The record of an occupied square. -/
def cellText (p : Position) (man : Color × Char) : List Char :=
  (if man.1 = .white then 'W' else 'B') :: man.2 :: (algebraic p ++ ['|'])

theorem nameInitial_ne (t : PieceType) : nameInitial t ≠ ':' := by cases t <;> decide

theorem nameInitial_eq_iff {t t' : PieceType} : nameInitial t = nameInitial t' ↔
    t = t' ∨ (t = .king ∧ t' = .knight) ∨ (t = .knight ∧ t' = .king) := by
  cases t <;> cases t' <;> decide

theorem isRecord_cellText {p : Position} (hp : p.IsValid) (man : Option (Color × Char)) :
    Records.IsRecord 5 2 (algebraic p ++ ['|']) (man.elim [] (cellText p)) := by
  cases man with
  | none => exact .inl rfl
  | some man =>
    obtain ⟨file, rank, heq, -⟩ := algebraic_eq hp
    refine .inr ⟨?_, rfl⟩
    show (cellText p man).length = 5
    unfold cellText
    rw [heq]
    rfl

theorem cellText_inj {p : Position} {man man' : Color × Char}
    (h : cellText p man = cellText p man') : man = man' := by
  unfold cellText at h
  rw [List.cons.injEq, List.cons.injEq] at h
  refine Prod.ext ?_ h.2.1
  have hcolor := h.1
  cases hc : man.1 <;> cases hc' : man'.1 <;> rw [hc, hc'] at hcolor <;> first | rfl | cases hcolor

namespace ChessBoard

variable {d e : ChessBoard}

/-- The man that a key shows on a square: the last one of the list. -/
def top (d : ChessBoard) (z : Position) : Option Man :=
  (Keyed.lookup ChessPiece.position d.pieces.reverse z).map ChessPiece.man

/-- No two pieces share a square, so the last piece of a square is the first. -/
theorem Tidy.top_eq (hd : d.Tidy) (z : Position) : d.top z = d.placement z :=
  congrArg (Option.map ChessPiece.man)
    (hd.distinct.lookup_perm (List.reverse_perm _).symm z).symm

def squaresText (d : ChessBoard) : List Char :=
  (List.range 64).flatMap fun i => ((d.top (squareAt i)).map look).elim [] (cellText (squareAt i))

theorem getPositionKey_eq (hd : ∀ p ∈ d.pieces, p.position.IsValid) :
    d.getPositionKey = d.squaresText ++
      ':' :: (if d.currentPlayer = .white then 'W' else 'B') :: ':' ::
        (d.castlingLetters ++ ':' :: d.epText) := by
  unfold getPositionKey squaresText
  dsimp only
  congr 1
  apply List.flatMap_congr
  intro i hi
  have hcell : (d.pieces.reverse.find? fun p => p.position.row * 8 + p.position.col = (i : ℤ)) =
      Keyed.lookup ChessPiece.position d.pieces.reverse (squareAt i) := by
    apply List.find?_congr
    intro p hp
    rw [decide_eq_decide]
    exact index_eq_iff (hd p (List.mem_reverse.mp hp))
  rw [hcell]
  unfold top
  cases hp : Keyed.lookup ChessPiece.position d.pieces.reverse (squareAt i) with
  | none => rfl
  | some p =>
    rw [← (Keyed.mem_of_lookup hp).2]
    rfl

/-! ## Reading a key back -/

theorem look_of_squaresText (hd : ∀ p ∈ d.pieces, p.position.IsValid)
    (he : ∀ p ∈ e.pieces, p.position.IsValid) (h : d.squaresText = e.squaresText)
    (z : Position) : (d.top z).map look = (e.top z).map look := by
  have htags : (List.range 64).Pairwise fun i j =>
      algebraic (squareAt i) ++ ['|'] ≠ algebraic (squareAt j) ++ ['|'] := by
    refine (List.nodup_range (n := 64)).imp_of_mem ?_
    intro i j hi hj hne htag
    have hsq := algebraic_inj (isValid_squareAt (List.mem_range.mp hi))
      (isValid_squareAt (List.mem_range.mp hj)) (List.append_cancel_right htag)
    rw [Position.eq_iff] at hsq
    unfold squareAt at hsq
    dsimp only at hsq
    omega
  by_cases hz : z.IsValid
  · obtain ⟨i, hi, rfl⟩ := exists_squareAt hz
    have hcell := Records.flatMap_inj (by decide) (List.range 64) htags
      (fun i hi => isRecord_cellText (isValid_squareAt (List.mem_range.mp hi)) _)
      (fun i hi => isRecord_cellText (isValid_squareAt (List.mem_range.mp hi)) _) h i
      (List.mem_range.mpr hi)
    revert hcell
    cases (d.top (squareAt i)).map look with
    | none =>
      cases (e.top (squareAt i)).map look with
      | none => exact fun _ => rfl
      | some man => exact fun hcell => by cases hcell
    | some man =>
      cases (e.top (squareAt i)).map look with
      | none => exact fun hcell => by cases hcell
      | some man' => exact fun hcell => congrArg some (cellText_inj hcell)
  · -- no piece stands off the board
    have hnone : ∀ u : ChessBoard, (∀ p ∈ u.pieces, p.position.IsValid) → u.top z = none := by
      intro u hu
      unfold top
      cases hp : Keyed.lookup ChessPiece.position u.pieces.reverse z with
      | none => rfl
      | some q =>
        obtain ⟨hmem, hpos⟩ := Keyed.mem_of_lookup hp
        exact absurd (hpos ▸ hu q (List.mem_reverse.mp hmem)) hz
    rw [hnone d hd, hnone e he]

theorem colon_not_mem_squaresText : ':' ∉ d.squaresText := by
  intro hmem
  obtain ⟨i, hi, hcell⟩ := List.mem_flatMap.mp hmem
  have hname : ':' ∉ algebraic (squareAt i) :=
    not_mem_algebraic (isValid_squareAt (List.mem_range.mp hi)) (.inr (by decide))
  cases hman : d.top (squareAt i) with
  | none =>
    rw [hman] at hcell
    cases hcell
  | some man =>
    rw [hman] at hcell
    change ':' ∈ cellText (squareAt i) (look man) at hcell
    unfold cellText at hcell
    rcases List.mem_cons.mp hcell with hcolor | hcell
    · split at hcolor <;> cases hcolor
    · rcases List.mem_cons.mp hcell with hletter | hcell
      · exact nameInitial_ne man.2 hletter.symm
      · rcases List.mem_append.mp hcell with hcell | hcell
        · exact hname hcell
        · simp at hcell

theorem colon_not_mem_castlingLetters : ':' ∉ d.castlingLetters := by
  unfold castlingLetters
  split_ifs <;> decide

theorem castlingRights_of_castlingLetters (h : d.castlingLetters = e.castlingLetters) :
    d.castlingRights = e.castlingRights := by
  have hflags : ∀ u : ChessBoard,
      ('K' ∈ u.castlingLetters ↔ u.whiteCanCastleKingside = true) ∧
      ('Q' ∈ u.castlingLetters ↔ u.whiteCanCastleQueenside = true) ∧
      ('k' ∈ u.castlingLetters ↔ u.blackCanCastleKingside = true) ∧
      ('q' ∈ u.castlingLetters ↔ u.blackCanCastleQueenside = true) := by
    intro u
    unfold castlingLetters
    cases u.whiteCanCastleKingside <;> cases u.whiteCanCastleQueenside <;>
      cases u.blackCanCastleKingside <;> cases u.blackCanCastleQueenside <;> decide
  obtain ⟨hK, hQ, hk, hq⟩ := hflags d
  obtain ⟨hK', hQ', hk', hq'⟩ := hflags e
  rw [h] at hK hQ hk hq
  unfold castlingRights
  rw [Bool.eq_iff_iff.mpr (hK.symm.trans hK'), Bool.eq_iff_iff.mpr (hQ.symm.trans hQ'),
    Bool.eq_iff_iff.mpr (hk.symm.trans hk'), Bool.eq_iff_iff.mpr (hq.symm.trans hq')]

theorem enPassantTarget_of_epText (hd : ∀ t, d.enPassantTarget = some t → t.IsValid)
    (he : ∀ t, e.enPassantTarget = some t → t.IsValid) (h : d.epText = e.epText) :
    d.enPassantTarget = e.enPassantTarget := by
  unfold epText at h
  -- a dash is no square
  have hdash : ∀ t : Position, t.IsValid → algebraic t ≠ ['-'] := by
    intro t ht heq
    have hno : '-' ∉ algebraic t := not_mem_algebraic ht (.inl (by decide))
    rw [heq] at hno
    exact hno List.mem_cons_self
  cases ht : d.enPassantTarget with
  | none =>
    cases ht' : e.enPassantTarget with
    | none => rfl
    | some t' =>
      rw [ht, ht'] at h
      exact absurd h.symm (hdash t' (he t' ht'))
  | some t =>
    cases ht' : e.enPassantTarget with
    | none =>
      rw [ht, ht'] at h
      exact absurd h (hdash t (hd t ht))
    | some t' =>
      rw [ht, ht'] at h
      rw [algebraic_inj (hd t ht) (he t' ht') h]

/-- Side to move, castling rights and en-passant target are the same. -/
structure SameState (d e : ChessBoard) : Prop where
  player : d.currentPlayer = e.currentPlayer
  rights : d.castlingRights = e.castlingRights
  target : d.enPassantTarget = e.enPassantTarget

theorem getPositionKey_eq_iff_top (hd : ∀ p ∈ d.pieces, p.position.IsValid)
    (he : ∀ p ∈ e.pieces, p.position.IsValid)
    (hdt : ∀ t, d.enPassantTarget = some t → t.IsValid)
    (het : ∀ t, e.enPassantTarget = some t → t.IsValid) :
    d.getPositionKey = e.getPositionKey ↔
      (∀ z, (d.top z).map look = (e.top z).map look) ∧ d.SameState e := by
  rw [getPositionKey_eq hd, getPositionKey_eq he,
    Records.append_sep_inj colon_not_mem_squaresText colon_not_mem_squaresText]
  constructor
  · rintro ⟨hsquares, hrest⟩
    rw [List.cons.injEq, List.cons.injEq] at hrest
    obtain ⟨hside, -, hrest⟩ := hrest
    obtain ⟨hletters, hep⟩ := (Records.append_sep_inj colon_not_mem_castlingLetters
      colon_not_mem_castlingLetters).mp hrest
    refine ⟨look_of_squaresText hd he hsquares, ?_, castlingRights_of_castlingLetters hletters,
      enPassantTarget_of_epText hdt het hep⟩
    revert hside
    cases d.currentPlayer <;> cases e.currentPlayer <;> first | exact fun _ => rfl | exact nofun
  · rintro ⟨hlook, hstate⟩
    have hletters : d.castlingLetters = e.castlingLetters := by
      have hrights := hstate.rights
      unfold castlingRights at hrights
      injection hrights with hK hQ hk hq
      unfold castlingLetters
      rw [hK, hQ, hk, hq]
    have hep : d.epText = e.epText := by
      unfold epText
      rw [hstate.target]
    refine ⟨?_, by rw [hstate.player, hletters, hep]⟩
    unfold squaresText
    apply List.flatMap_congr
    intro i _
    rw [hlook]

theorem getPositionKey_eq_iff (hd : d.Tidy) (he : e.Tidy)
    (hdt : ∀ t, d.enPassantTarget = some t → t.IsValid)
    (het : ∀ t, e.enPassantTarget = some t → t.IsValid) :
    d.getPositionKey = e.getPositionKey ↔
      (∀ z, (d.placement z).map look = (e.placement z).map look) ∧ d.SameState e := by
  rw [getPositionKey_eq_iff_top hd.valid he.valid hdt het]
  simp only [hd.top_eq, he.top_eq]

/-! ## Main result -/

/-- The same man on every square, and the same state. -/
structure SamePosition (d e : ChessBoard) : Prop extends d.SameState e where
  men : ∀ z, d.placement z = e.placement z

/-- On this square one board has a king where the other has a knight of the same colour. -/
def KingForKnight (d e : ChessBoard) (z : Position) : Prop :=
  ∃ c, (d.placement z = some (c, .king) ∧ e.placement z = some (c, .knight)) ∨
    (d.placement z = some (c, .knight) ∧ e.placement z = some (c, .king))

/-- The boards differ in nothing but kings that stand for knights. -/
structure KingsForKnights (d e : ChessBoard) : Prop extends d.SameState e where
  men : ∀ z, d.placement z = e.placement z ∨ d.KingForKnight e z
  swapped : ∃ z, d.KingForKnight e z

theorem look_eq_iff {z : Position} : (d.placement z).map look = (e.placement z).map look ↔
    d.placement z = e.placement z ∨ d.KingForKnight e z := by
  unfold KingForKnight
  cases hman : d.placement z with
  | none => cases e.placement z <;> simp
  | some man =>
    cases hman' : e.placement z with
    | none => simp
    | some man' =>
      obtain ⟨c, t⟩ := man
      obtain ⟨c', t'⟩ := man'
      simp only [Option.map_some, Option.some.injEq, look, Prod.mk.injEq, nameInitial_eq_iff]
      constructor
      · rintro ⟨rfl, rfl | ⟨rfl, rfl⟩ | ⟨rfl, rfl⟩⟩
        · exact .inl ⟨rfl, rfl⟩
        · exact .inr ⟨c, .inl ⟨⟨rfl, rfl⟩, rfl, rfl⟩⟩
        · exact .inr ⟨c, .inr ⟨⟨rfl, rfl⟩, rfl, rfl⟩⟩
      · rintro (⟨rfl, rfl⟩ | ⟨_, ⟨⟨rfl, rfl⟩, rfl, rfl⟩ | ⟨⟨rfl, rfl⟩, rfl, rfl⟩⟩)
        · exact ⟨rfl, .inl rfl⟩
        · exact ⟨rfl, .inr (.inl ⟨rfl, rfl⟩)⟩
        · exact ⟨rfl, .inr (.inr ⟨rfl, rfl⟩)⟩

theorem KingForKnight.ne {z : Position} (h : d.KingForKnight e z) :
    d.placement z ≠ e.placement z := by
  obtain ⟨c, ⟨hd, he⟩ | ⟨hd, he⟩⟩ := h
  all_goals
    rw [hd, he]
    exact fun heq => by cases heq

/-- Equal keys mean the same position, unless kings stand for knights. -/
theorem samePosition_iff_of_not_swapped (hd : d.Tidy) (he : e.Tidy)
    (hdt : ∀ t, d.enPassantTarget = some t → t.IsValid)
    (het : ∀ t, e.enPassantTarget = some t → t.IsValid) (hno : ¬ d.KingsForKnights e) :
    d.getPositionKey = e.getPositionKey ↔ d.SamePosition e := by
  rw [getPositionKey_eq_iff hd he hdt het]
  simp only [look_eq_iff]
  constructor
  · rintro ⟨hmen, hstate⟩
    refine ⟨hstate, fun z => (hmen z).resolve_right fun hz => ?_⟩
    exact hno ⟨hstate, hmen, z, hz⟩
  · intro hsame
    exact ⟨fun z => .inl (hsame.men z), hsame.toSameState⟩

/-- Two keys identify the position, unless the boards differ in kings that stand for knights and
in nothing else. -/
theorem getPositionKey_identifies_iff (d e : ChessBoard) (hd : d.Tidy) (he : e.Tidy)
    (hdt : ∀ t, d.enPassantTarget = some t → t.IsValid)
    (het : ∀ t, e.enPassantTarget = some t → t.IsValid) :
    (d.getPositionKey = e.getPositionKey ↔ d.SamePosition e) ↔ ¬ d.KingsForKnights e := by
  constructor
  · intro hiff hswap
    rw [getPositionKey_eq_iff hd he hdt het] at hiff
    simp only [look_eq_iff] at hiff
    obtain ⟨z, hz⟩ := hswap.swapped
    exact hz.ne ((hiff.mp ⟨hswap.men, hswap.toSameState⟩).men z)
  · exact samePosition_iff_of_not_swapped hd he hdt het

/-- The start of Classic, its pieces in the order of the list and in the reverse order. -/
theorem getPositionKey_identifies_start :
    (initial .classic).getPositionKey =
        { initial .classic with pieces := (initial .classic).pieces.reverse }.getPositionKey ↔
      (initial .classic).SamePosition
        { initial .classic with pieces := (initial .classic).pieces.reverse } := by
  refine (getPositionKey_identifies_iff _ _ ⟨by decide, by decide +kernel⟩
    ⟨by decide, by decide +kernel⟩ (fun t ht => by cases ht) fun t ht => by cases ht).mpr ?_
  rintro ⟨-, -, z, hz⟩
  have htidy : (initial .classic).Tidy := ⟨by decide, by decide +kernel⟩
  refine hz.ne (congrArg (Option.map ChessPiece.man) ?_)
  exact htidy.distinct.lookup_perm (List.reverse_perm _).symm z

/-- White: king and knight, on e1 and b1. Black: king e8. -/
def cornerBoard (e1 b1 : PieceType) : ChessBoard where
  pieces := [⟨e1, .white, ⟨0, 4⟩, true⟩, ⟨b1, .white, ⟨0, 1⟩, true⟩,
    ⟨.king, .black, ⟨7, 4⟩, true⟩]
  whiteCanCastleKingside := false
  whiteCanCastleQueenside := false
  blackCanCastleKingside := false
  blackCanCastleQueenside := false

/-- King and knight change places and the key stays the same. -/
theorem king_and_knight_share_key :
    (cornerBoard .king .knight).Tidy ∧ (cornerBoard .knight .king).Tidy ∧
    (cornerBoard .king .knight).getPositionKey = (cornerBoard .knight .king).getPositionKey ∧
    ¬ (cornerBoard .king .knight).SamePosition (cornerBoard .knight .king) := by
  refine ⟨⟨by decide, by decide⟩, ⟨by decide, by decide⟩, by decide +kernel, fun hsame => ?_⟩
  exact absurd (hsame.men ⟨0, 4⟩) (by decide)

end ChessBoard

end ChessRecast.App
