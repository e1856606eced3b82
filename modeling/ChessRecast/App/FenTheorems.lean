import ChessRecast.Lib.Outcome
import ChessRecast.App.AttackTheorems
import ChessRecast.App.Fen

/-!
# Which strings `ChessBoard.fromFEN` accepts

The rank loop checks the letters and never the number of files, so a rank may run past the board.
`getPositionKey` stops some of these boards with a `RangeError`: those with a piece whose index is
beyond its mailbox. The en passant field of two code units is parsed with `int.parse`, which throws
a `FormatException` where the second one is no digit. The rest of the strings is rejected with an
`ArgumentError` or read as a board with its pieces on distinct squares (`accepts_wellFormed_iff`).
-/

namespace ChessRecast.App

open Outcome

/-! ## Ranks -/

/-- The files that a rank describes: a digit stands for as many, anything else for one. -/
def filesOf (rank : List UInt16) : ℕ :=
  (rank.map fun char => if isFileCount char then char.toNat - '0'.toNat else 1).sum

/-- Every code unit of the rank is a digit from 1 to 8 or a piece. -/
def RankSpelled (rank : List UInt16) : Prop :=
  ∀ char ∈ rank, isFileCount char = true ∨ (pieceTypeOf char).isSome

section Ranks

variable {row file : ℤ} {rank : List UInt16} {char : UInt16} {pieces : List ChessPiece}

@[simp] theorem filesOf_nil : filesOf [] = 0 := rfl

theorem filesOf_cons (char : UInt16) (rank : List UInt16) : filesOf (char :: rank) =
    (if isFileCount char then char.toNat - '0'.toNat else 1) + filesOf rank := rfl

theorem isFileCount_bounds (h : isFileCount char = true) :
    '0'.toNat < char.toNat ∧ char.toNat ≤ '0'.toNat + 8 := by
  simp only [isFileCount, decide_eq_true_eq] at h
  obtain ⟨hlow, hhigh⟩ := h
  rw [UInt16.le_iff_toNat_le] at hlow hhigh
  exact ⟨hlow, hhigh⟩

/-- What the loop over a rank returns: its pieces, from left to right. -/
structure RankRead (row file : ℤ) (rank : List UInt16) (pieces : List ChessPiece) : Prop where
  mem : ∀ p ∈ pieces, ∃ front char back, rank = front ++ char :: back ∧
    isFileCount char = false ∧ p.position = ⟨row, file + filesOf front⟩
  exists_mem : ∀ front char back, rank = front ++ char :: back → isFileCount char = false →
    ∃ p ∈ pieces, p.position = ⟨row, file + filesOf front⟩
  ordered : pieces.Pairwise fun p q => p.position.col < q.position.col

theorem filesOf_append (front back : List UInt16) :
    filesOf (front ++ back) = filesOf front + filesOf back := by
  unfold filesOf
  rw [List.map_append, List.sum_append]

/-- A digit moves the rest of the rank to the right. -/
theorem RankRead.cons_digit (hdigit : isFileCount char = true)
    (h : RankRead row (file + (char.toNat - '0'.toNat)) rank pieces) :
    RankRead row file (char :: rank) pieces := by
  have hshift : ∀ front, file + (char.toNat - '0'.toNat) + (filesOf front : ℤ) =
      file + (filesOf (char :: front) : ℤ) := by
    intro front
    have hbounds := isFileCount_bounds hdigit
    rw [filesOf_cons, if_pos hdigit]
    omega
  refine ⟨fun p hp => ?_, fun front ch back heq hch => ?_, h.ordered⟩
  · obtain ⟨front, ch, back, rfl, hch, hpos⟩ := h.mem p hp
    exact ⟨char :: front, ch, back, rfl, hch, by rw [hpos, hshift]⟩
  · cases front with
    | nil =>
      obtain ⟨rfl, -⟩ := List.cons.inj heq
      rw [hch] at hdigit
      cases hdigit
    | cons x front =>
      obtain ⟨rfl, hrest⟩ := List.cons.inj heq
      obtain ⟨p, hp, hpos⟩ := h.exists_mem front ch back hrest hch
      exact ⟨p, hp, by rw [hpos, hshift]⟩

/-- A piece stands on its file, the rest of the rank on the files behind it. -/
theorem RankRead.cons_piece (hdigit : isFileCount char = false) {p : ChessPiece}
    (hp : p.position = ⟨row, file⟩) (h : RankRead row (file + 1) rank pieces) :
    RankRead row file (char :: rank) (p :: pieces) := by
  have hshift : ∀ front, file + 1 + (filesOf front : ℤ) = file + (filesOf (char :: front) : ℤ) := by
    intro front
    rw [filesOf_cons, if_neg (by rw [hdigit]; exact Bool.false_ne_true)]
    push_cast
    ring
  refine ⟨fun q hq => ?_, fun front ch back heq hch => ?_, ?_⟩
  · rcases List.mem_cons.mp hq with rfl | hq
    · exact ⟨[], char, rank, rfl, hdigit, by rw [hp]; simp⟩
    · obtain ⟨front, ch, back, rfl, hch, hpos⟩ := h.mem q hq
      exact ⟨char :: front, ch, back, rfl, hch, by rw [hpos, hshift]⟩
  · cases front with
    | nil => exact ⟨p, List.mem_cons_self, by rw [hp]; simp⟩
    | cons x front =>
      obtain ⟨rfl, hrest⟩ := List.cons.inj heq
      obtain ⟨q, hq, hpos⟩ := h.exists_mem front ch back hrest hch
      exact ⟨q, List.mem_cons_of_mem _ hq, by rw [hpos, hshift]⟩
  · refine List.pairwise_cons.mpr ⟨fun q hq => ?_, h.ordered⟩
    obtain ⟨front, ch, back, -, -, hpos⟩ := h.mem q hq
    rw [hp, hpos]
    dsimp only
    omega

theorem parseRank_cases (row : ℤ) (rank : List UInt16) : ∀ file : ℤ,
    (RankSpelled rank → ∃ pieces, parseRank row rank file = .ok pieces ∧
      RankRead row file rank pieces) ∧
    (¬ RankSpelled rank → ∃ message, parseRank row rank file = .error (.argument message)) := by
  induction rank with
  | nil =>
    intro file
    refine ⟨fun _ => ⟨[], rfl, fun p hp => (by cases hp), fun front ch back heq => ?_, .nil⟩,
      fun h => absurd (fun char hchar => (by cases hchar)) h⟩
    cases front <;> cases heq
  | cons char rank ih =>
    intro file
    by_cases hdigit : isFileCount char = true
    · obtain ⟨hok, herror⟩ := ih (file + (char.toNat - '0'.toNat))
      rw [parseRank, if_pos hdigit]
      constructor
      · intro h
        obtain ⟨pieces, hread, hrank⟩ := hok fun ch hch => h ch (List.mem_cons_of_mem _ hch)
        exact ⟨pieces, hread, hrank.cons_digit hdigit⟩
      · intro h
        refine herror fun hrank => h fun ch hch => ?_
        rcases List.mem_cons.mp hch with rfl | hch
        · exact .inl hdigit
        · exact hrank ch hch
    · obtain ⟨hok, herror⟩ := ih (file + 1)
      rw [parseRank, if_neg hdigit]
      cases htype : pieceTypeOf char with
      | none =>
        refine ⟨fun h => ?_, fun _ => ⟨_, rfl⟩⟩
        rcases h char List.mem_cons_self with hd | hsome
        · exact absurd hd hdigit
        · rw [htype] at hsome
          cases hsome
      | some type =>
        dsimp only
        constructor
        · intro h
          obtain ⟨pieces, hread, hrank⟩ := hok fun ch hch => h ch (List.mem_cons_of_mem _ hch)
          rw [hread, ok_bind]
          exact ⟨_, rfl, hrank.cons_piece (by simpa using hdigit) rfl⟩
        · intro h
          obtain ⟨message, hread⟩ := herror fun hrank => h fun ch hch => by
            rcases List.mem_cons.mp hch with rfl | hch
            · exact .inr (by rw [htype]; rfl)
            · exact hrank ch hch
          exact ⟨message, bind_eq_error.mpr (.inl hread)⟩

/-- A piece is spelled for this square, in ranks of which the first is row `row`. -/
def Spells (ranks : List (List UInt16)) (row : ℤ) (pos : Position) : Prop :=
  ∃ above front char back below, ranks = above ++ (front ++ char :: back) :: below ∧
    isFileCount char = false ∧ pos = ⟨row - above.length, filesOf front⟩

/-- What the loop over the ranks returns. -/
structure RanksRead (ranks : List (List UInt16)) (row : ℤ) (pieces : List ChessPiece) : Prop where
  mem_iff : ∀ pos, (∃ p ∈ pieces, p.position = pos) ↔ Spells ranks row pos
  distinct : Keyed.Distinct ChessPiece.position pieces

theorem Spells.row_le {ranks : List (List UInt16)} {pos : Position} (h : Spells ranks row pos) :
    pos.row ≤ row ∧ row - ranks.length < pos.row := by
  obtain ⟨above, front, char, back, below, rfl, -, rfl⟩ := h
  rw [List.length_append, List.length_cons]
  push_cast
  constructor <;> omega

theorem spells_cons {rank : List UInt16} {ranks : List (List UInt16)} {pos : Position} :
    Spells (rank :: ranks) row pos ↔
      (∃ front char back, rank = front ++ char :: back ∧ isFileCount char = false ∧
        pos = ⟨row, filesOf front⟩) ∨ Spells ranks (row - 1) pos := by
  constructor
  · rintro ⟨above, front, char, back, below, heq, hchar, rfl⟩
    cases above with
    | nil =>
      obtain ⟨rfl, -⟩ := List.cons.inj heq
      exact .inl ⟨front, char, back, rfl, hchar, by simp⟩
    | cons x above =>
      obtain ⟨-, hrest⟩ := List.cons.inj heq
      refine .inr ⟨above, front, char, back, below, hrest, hchar, ?_⟩
      rw [List.length_cons]
      push_cast
      rw [show row - 1 - (above.length : ℤ) = row - (above.length + 1) by ring]
  · rintro (⟨front, char, back, rfl, hchar, rfl⟩ | ⟨above, front, char, back, below, rfl, hchar, rfl⟩)
    · exact ⟨[], front, char, back, ranks, rfl, hchar, by simp⟩
    · refine ⟨rank :: above, front, char, back, below, rfl, hchar, ?_⟩
      rw [List.length_cons]
      push_cast
      rw [show row - 1 - (above.length : ℤ) = row - (above.length + 1) by ring]

theorem parseRanks_cases (ranks : List (List UInt16)) : ∀ row : ℤ,
    ((∀ rank ∈ ranks, RankSpelled rank) → ∃ pieces, parseRanks ranks row = .ok pieces ∧
      RanksRead ranks row pieces) ∧
    ((¬ ∀ rank ∈ ranks, RankSpelled rank) →
      ∃ message, parseRanks ranks row = .error (.argument message)) := by
  induction ranks with
  | nil =>
    intro row
    refine ⟨fun _ => ⟨[], rfl, fun pos => ⟨fun ⟨p, hp, _⟩ => (by cases hp), ?_⟩, .nil⟩,
      fun h => absurd (fun rank hrank => (by cases hrank)) h⟩
    rintro ⟨above, front, char, back, below, heq, -⟩
    cases above <;> cases heq
  | cons rank ranks ih =>
    intro row
    obtain ⟨hok, herror⟩ := ih (row - 1)
    obtain ⟨hrank, hrank'⟩ := parseRank_cases row rank 0
    rw [parseRanks]
    by_cases hspelled : RankSpelled rank
    · obtain ⟨pieces, hread, hpieces⟩ := hrank hspelled
      rw [hread, ok_bind]
      constructor
      · intro h
        obtain ⟨others, hothers, hranks⟩ := hok fun r hr => h r (List.mem_cons_of_mem _ hr)
        rw [hothers, ok_bind]
        -- the pieces of this rank stand on `row`, the others below it
        have hrow : ∀ p ∈ pieces, p.position.row = row := by
          intro p hp
          obtain ⟨_, _, _, -, -, hpos⟩ := hpieces.mem p hp
          rw [hpos]
        have hbelow : ∀ p ∈ others, p.position.row < row := by
          intro p hp
          have hle := ((hranks.mem_iff _).mp ⟨p, hp, rfl⟩).row_le.1
          omega
        refine ⟨_, rfl, fun pos => ?_, ?_⟩
        · rw [spells_cons, ← hranks.mem_iff]
          constructor
          · rintro ⟨p, hp, rfl⟩
            rcases List.mem_append.mp hp with hp | hp
            · obtain ⟨front, char, back, heq, hchar, hpos⟩ := hpieces.mem p hp
              exact .inl ⟨front, char, back, heq, hchar, by rw [hpos, zero_add]⟩
            · exact .inr ⟨p, hp, rfl⟩
          · rintro (⟨front, char, back, heq, hchar, rfl⟩ | ⟨p, hp, rfl⟩)
            · obtain ⟨p, hp, hpos⟩ := hpieces.exists_mem front char back heq hchar
              exact ⟨p, List.mem_append_left _ hp, by rw [hpos, zero_add]⟩
            · exact ⟨p, List.mem_append_right _ hp, rfl⟩
        · refine List.pairwise_append.mpr ⟨?_, hranks.distinct, ?_⟩
          · refine hpieces.ordered.imp fun {p q} hlt heq => ?_
            rw [heq] at hlt
            exact lt_irrefl _ hlt
          · intro p hp q hq heq
            have hp' := hrow p hp
            have hq' := hbelow q hq
            rw [heq] at hp'
            omega
      · intro h
        obtain ⟨message, hothers⟩ := herror fun hall => h fun r hr => by
          rcases List.mem_cons.mp hr with rfl | hr
          · exact hspelled
          · exact hall r hr
        exact ⟨message, bind_eq_error.mpr (.inl hothers)⟩
    · obtain ⟨message, hread⟩ := hrank' hspelled
      refine ⟨fun h => absurd (h rank List.mem_cons_self) hspelled, fun _ => ⟨message, ?_⟩⟩
      exact bind_eq_error.mpr (.inl hread)

end Ranks

/-! ## The en passant field -/

def IsDigit (u : UInt16) : Prop := unit '0' ≤ u ∧ u ≤ unit '9'

instance (u : UInt16) : Decidable (IsDigit u) := inferInstanceAs (Decidable (_ ∧ _))

theorem isDigit_iff {u : UInt16} : IsDigit u ↔ 48 ≤ u.toNat ∧ u.toNat ≤ 57 := by
  unfold IsDigit
  rw [UInt16.le_iff_toNat_le, UInt16.le_iff_toNat_le]
  rfl

theorem digitValue_ten (u : UInt16) :
    digitValue 10 u = if IsDigit u then some (u.toNat - 48) else none := by
  unfold digitValue
  dsimp only
  by_cases hdigit : unit '0' ≤ u ∧ u ≤ unit '9'
  · have hbounds := isDigit_iff.mp hdigit
    rw [if_pos hdigit, if_pos (show IsDigit u from hdigit), if_pos (by omega)]
  · rw [if_neg hdigit, if_neg (show ¬ IsDigit u from hdigit)]
    simp only [UInt16.le_iff_toNat_le, show (unit 'a').toNat = 97 from rfl,
      show (unit 'z').toNat = 122 from rfl, show (unit 'A').toNat = 65 from rfl,
      show (unit 'Z').toNat = 90 from rfl]
    split_ifs <;> first | rfl | omega

theorem intTryParse_singleton (u : UInt16) :
    intTryParse [u] = if IsDigit u then some ((u.toNat : ℤ) - 48) else none := by
  by_cases hspace : isWhitespace u = true
  · have hdigit : ¬ IsDigit u := by
      intro h
      have hbounds := isDigit_iff.mp h
      simp only [isWhitespace, Bool.or_eq_true, Bool.and_eq_true, decide_eq_true_eq,
        UInt16.le_iff_toNat_le, ← UInt16.toNat_inj, UInt16.reduceToNat] at hspace
      omega
    have htrim : trim [u] = [] := by
      simp [trim, hspace]
    rw [intTryParse, htrim, if_neg hdigit]
  · have htrim : trim [u] = [u] := by
      simp [trim, hspace]
    rw [intTryParse, htrim]
    dsimp only
    by_cases hdigit : IsDigit u
    · have hbounds := isDigit_iff.mp hdigit
      have hsign : ∀ ch, ¬ IsDigit (unit ch) → u ≠ unit ch :=
        fun ch hch h => hch (h ▸ hdigit)
      have hvalue : parseDigits 10 [u] 0 = some (u.toNat - 48) := by
        rw [parseDigits, digitValue_ten, if_pos hdigit, Option.bind_some, parseDigits]
        simp
      rw [if_neg (hsign '-' (by decide)), if_neg (hsign '+' (by decide)), if_pos hdigit]
      show parseDecimal false [u] = _
      rw [parseDecimal, if_neg (by simp), hvalue, Option.bind_some]
      dsimp only
      rw [if_neg Bool.false_ne_true, if_pos (by omega)]
      congr 1
      omega
    · rw [if_neg hdigit]
      split_ifs
      · rfl
      · rfl
      · show parseDecimal false [u] = _
        rw [parseDecimal, if_neg (by simp), parseDigits, digitValue_ten, if_neg hdigit]
        rfl

/-- The en passant field: it names a square, is rejected as no square, or has a second code unit
that is no digit. -/
def EpOdd (field : List UInt16) : Prop := ∃ file rank, field = [file, rank] ∧ ¬ IsDigit rank

def EpSquare (field : List UInt16) (pos : Position) : Prop :=
  ∃ file rank, field = [file, rank] ∧ IsDigit rank ∧ pos.IsValid ∧
    (file.toNat : ℤ) = 97 + pos.col ∧ (rank.toNat : ℤ) = 49 + pos.row

theorem fromAlgebraic_of_length {field : List UInt16} (h : field.length ≠ 2) :
    ∃ message, fromAlgebraic field = .error (.argument message) := by
  match field with
  | [] => exact ⟨_, rfl⟩
  | [_] => exact ⟨_, rfl⟩
  | [_, _] => exact absurd rfl h
  | _ :: _ :: _ :: _ => exact ⟨_, rfl⟩

theorem fromAlgebraic_pair (file rank : UInt16) : fromAlgebraic [file, rank] =
    if IsDigit rank then
      if 97 ≤ file.toNat ∧ file.toNat ≤ 104 ∧ 49 ≤ rank.toNat ∧ rank.toNat ≤ 56 then
        .ok ⟨(rank.toNat : ℤ) - 49, (file.toNat : ℤ) - 97⟩
      else .error (.argument (codeUnits "Invalid algebraic notation: ".toList ++ [file, rank]))
    else .error (.format [rank]) := by
  have hparse : intParse [rank] =
      if IsDigit rank then .ok ((rank.toNat : ℤ) - 48) else .error (.format [rank]) := by
    rw [intParse, intTryParse_singleton]
    split_ifs <;> rfl
  by_cases hdigit : IsDigit rank
  · have hbounds := isDigit_iff.mp hdigit
    rw [if_pos hdigit] at hparse ⊢
    simp only [fromAlgebraic, hparse, ok_bind, Char.reduceToNat]
    by_cases hin : 97 ≤ file.toNat ∧ file.toNat ≤ 104 ∧ 49 ≤ rank.toNat ∧ rank.toNat ≤ 56
    · rw [if_pos hin, if_neg (by push_cast; omega)]
      show Except.ok (Position.mk ((rank.toNat : ℤ) - 48 - 1) _) = _
      rw [sub_sub]
      rfl
    · rw [if_neg hin, if_pos (by push_cast; omega)]
      rfl
  · rw [if_neg hdigit] at hparse ⊢
    simp only [fromAlgebraic, hparse, error_bind]

theorem fromAlgebraic_cases (field : List UInt16) :
    (EpOdd field → ∃ source, fromAlgebraic field = .error (.format source)) ∧
    (∀ pos, EpSquare field pos → fromAlgebraic field = .ok pos) ∧
    (¬ EpOdd field → (¬ ∃ pos, EpSquare field pos) →
      ∃ message, fromAlgebraic field = .error (.argument message)) := by
  refine ⟨?_, ?_, fun hodd hsquare => ?_⟩
  · rintro ⟨file, rank, rfl, hdigit⟩
    exact ⟨_, by rw [fromAlgebraic_pair, if_neg hdigit]⟩
  · rintro ⟨row, col⟩ ⟨file, rank, rfl, hdigit, ⟨h0, h1, h2, h3⟩, hcol, hrow⟩
    dsimp only at h0 h1 h2 h3 hcol hrow
    rw [fromAlgebraic_pair, if_pos hdigit, if_pos (by omega), hcol, hrow, add_sub_cancel_left,
      add_sub_cancel_left]
  · by_cases hlen : field.length = 2
    · obtain ⟨file, rank, rfl⟩ := List.length_eq_two.mp hlen
      by_cases hdigit : IsDigit rank
      · have hout : ¬ (97 ≤ file.toNat ∧ file.toNat ≤ 104 ∧ 49 ≤ rank.toNat ∧ rank.toNat ≤ 56) := by
          intro hin
          refine hsquare ⟨⟨(rank.toNat : ℤ) - 49, (file.toNat : ℤ) - 97⟩, file, rank, rfl, hdigit,
            ?_, by ring, by ring⟩
          rw [Position.isValid_iff]
          dsimp only
          omega
        exact ⟨_, by rw [fromAlgebraic_pair, if_pos hdigit, if_neg hout]⟩
      · exact absurd ⟨file, rank, rfl, hdigit⟩ hodd
    · exact fromAlgebraic_of_length hlen

/-! ## The whole string -/

namespace ChessBoard

def ranksOf (fen : List UInt16) : List (List UInt16) :=
  ((fen.splitOn (unit ' ')).headD []).splitOn (unit '/')

/-- The en passant field of a FEN string. -/
def epFieldOf (fen : List UInt16) : Option (List UInt16) := (fen.splitOn (unit ' '))[3]?

/-- The placement has eight ranks and nothing but digits from 1 to 8 and pieces in them. -/
def PlacementSpelled (fen : List UInt16) : Prop :=
  (ranksOf fen).length = 8 ∧ ∀ rank ∈ ranksOf fen, RankSpelled rank

/-- The en passant field is missing, `-` or a square. -/
def EpFine (fen : List UInt16) : Prop :=
  ∀ field, epFieldOf fen = some field → field = [unit '-'] ∨ ∃ pos, EpSquare field pos

/-- The en passant field has two code units of which the second is no digit. -/
def EpFormat (fen : List UInt16) : Prop := ∃ field, epFieldOf fen = some field ∧ EpOdd field

/-- A piece is spelled whose index `row * 8 + col` is beyond the 64 entries of the mailbox. -/
def BeyondMailbox (fen : List UInt16) : Prop :=
  ∃ pos, Spells (ranksOf fen) 7 pos ∧ 64 ≤ pos.row * 8 + pos.col

section Outcomes

variable {fen : List UInt16} (gameType : Mod)

theorem parseEnPassantTarget_of_format (h : EpFormat fen) :
    ∃ source, parseEnPassantTarget (epFieldOf fen) = .error (.format source) := by
  obtain ⟨field, hfield, hodd⟩ := h
  obtain ⟨source, hsource⟩ := (fromAlgebraic_cases field).1 hodd
  have hne : field ≠ [unit '-'] := by
    obtain ⟨file, rank, rfl, -⟩ := hodd
    intro h
    cases h
  refine ⟨source, ?_⟩
  rw [hfield, parseEnPassantTarget, if_neg hne, hsource, error_bind]

theorem parseEnPassantTarget_of_not_fine (hodd : ¬ EpFormat fen) (h : ¬ EpFine fen) :
    ∃ message, parseEnPassantTarget (epFieldOf fen) = .error (.argument message) := by
  obtain ⟨field, hfield, hne, hsquare⟩ : ∃ field, epFieldOf fen = some field ∧
      field ≠ [unit '-'] ∧ ∀ pos, ¬ EpSquare field pos := by
    simpa [EpFine] using h
  obtain ⟨message, hmessage⟩ := (fromAlgebraic_cases field).2.2
    (fun ho => hodd ⟨field, hfield, ho⟩) (fun ⟨pos, hpos⟩ => hsquare pos hpos)
  refine ⟨message, ?_⟩
  rw [hfield, parseEnPassantTarget, if_neg hne, hmessage, error_bind]

theorem parseEnPassantTarget_of_fine (h : EpFine fen) :
    ∃ target, parseEnPassantTarget (epFieldOf fen) = .ok target := by
  cases hfield : epFieldOf fen with
  | none => exact ⟨none, rfl⟩
  | some field =>
    rw [parseEnPassantTarget]
    split_ifs with hdash
    · exact ⟨none, rfl⟩
    · obtain hd | ⟨pos, hpos⟩ := h field hfield
      · exact absurd hd hdash
      · exact ⟨some pos, by rw [(fromAlgebraic_cases field).2.1 pos hpos, ok_bind]; rfl⟩

/-- `positionKey` throws exactly if a piece has no entry in the mailbox. -/
theorem positionKey_cases {b : ChessBoard}
    (hlow : ∀ p ∈ b.pieces, 0 ≤ mailboxIndex p) :
    ((∃ p ∈ b.pieces, 64 ≤ mailboxIndex p) → ∃ i, b.positionKey = .error (.range i)) ∧
    ((∀ p ∈ b.pieces, mailboxIndex p < 64) → b.positionKey = .ok b.getPositionKey) := by
  unfold positionKey
  constructor
  · rintro ⟨p, hp, hbig⟩
    cases hfind : b.pieces.find? fun p => ¬ (0 ≤ mailboxIndex p ∧ mailboxIndex p < 64) with
    | some q => exact ⟨_, rfl⟩
    | none =>
      have hall := List.find?_eq_none.mp hfind p hp
      simp only [decide_eq_true_eq, not_not] at hall
      omega
  · intro hall
    have hfind : (b.pieces.find? fun p => ¬ (0 ≤ mailboxIndex p ∧ mailboxIndex p < 64)) = none := by
      refine List.find?_eq_none.mpr fun p hp => ?_
      simp only [decide_eq_true_eq, not_not]
      exact ⟨hlow p hp, hall p hp⟩
    rw [hfind]

theorem fromFEN_eq (hlen : (ranksOf fen).length = 8) : fromFEN fen gameType =
    parseRanks (ranksOf fen) 7 >>= fun pieces =>
      parseEnPassantTarget (epFieldOf fen) >>= fun target =>
        (ofFields (fen.splitOn (unit ' ')) pieces target gameType).positionKey >>= fun key =>
          .ok ((ofFields (fen.splitOn (unit ' ')) pieces target gameType).copyWith
            { positionHistory := some [key] }) := by
  unfold fromFEN
  dsimp only
  rw [if_neg (List.splitOn_ne_nil _ _)]
  exact if_neg (not_not.mpr hlen)

theorem fromFEN_of_not_spelled (h : ¬ PlacementSpelled fen) :
    ∃ message, fromFEN fen gameType = .error (.argument message) := by
  by_cases hlen : (ranksOf fen).length = 8
  · obtain ⟨message, hranks⟩ := (parseRanks_cases (ranksOf fen) 7).2 fun hall => h ⟨hlen, hall⟩
    exact ⟨message, by rw [fromFEN_eq gameType hlen, hranks, error_bind]⟩
  · refine ⟨codeUnits "Invalid FEN: must have 8 ranks".toList, ?_⟩
    unfold fromFEN
    dsimp only
    rw [if_neg (List.splitOn_ne_nil _ _)]
    exact if_pos hlen

/-- The ranks of a spelled placement, and the squares of its pieces. -/
theorem PlacementSpelled.read (h : PlacementSpelled fen) : ∃ pieces,
    parseRanks (ranksOf fen) 7 = .ok pieces ∧ RanksRead (ranksOf fen) 7 pieces ∧
      ∀ p ∈ pieces, 0 ≤ p.position.row ∧ p.position.row ≤ 7 ∧ 0 ≤ p.position.col := by
  obtain ⟨pieces, hread, hranks⟩ := (parseRanks_cases (ranksOf fen) 7).1 h.2
  refine ⟨pieces, hread, hranks, fun p hp => ?_⟩
  have hspells := (hranks.mem_iff _).mp ⟨p, hp, rfl⟩
  have hrow := hspells.row_le
  have hlen := h.1
  obtain ⟨above, front, char, back, below, -, -, hpos⟩ := hspells
  have hcol : p.position.col = filesOf front := by rw [hpos]
  omega

theorem fromFEN_of_ep_error (h : PlacementSpelled fen) {e : DartError}
    (he : parseEnPassantTarget (epFieldOf fen) = .error e) :
    fromFEN fen gameType = .error e := by
  obtain ⟨pieces, hread, -⟩ := h.read
  rw [fromFEN_eq gameType h.1, hread, ok_bind, he, error_bind]

theorem fromFEN_of_beyond (h : PlacementSpelled fen) (hep : EpFine fen) (hbeyond : BeyondMailbox fen) :
    ∃ i, fromFEN fen gameType = .error (.range i) := by
  obtain ⟨pieces, hread, hranks, hbounds⟩ := h.read
  obtain ⟨target, htarget⟩ := parseEnPassantTarget_of_fine hep
  obtain ⟨pos, hspells, hbig⟩ := hbeyond
  obtain ⟨p, hp, rfl⟩ := (hranks.mem_iff pos).mpr hspells
  obtain ⟨i, hkey⟩ := (positionKey_cases
    (b := ofFields (fen.splitOn (unit ' ')) pieces target gameType) fun q hq => by
      have hq' := hbounds q hq
      unfold mailboxIndex
      omega).1 ⟨p, hp, hbig⟩
  exact ⟨i, by rw [fromFEN_eq gameType h.1, hread, ok_bind, htarget, ok_bind, hkey, error_bind]⟩

theorem fromFEN_of_not_beyond (h : PlacementSpelled fen) (hep : EpFine fen)
    (hbeyond : ¬ BeyondMailbox fen) :
    ∃ b, fromFEN fen gameType = .ok b ∧ RanksRead (ranksOf fen) 7 b.pieces := by
  obtain ⟨pieces, hread, hranks, hbounds⟩ := h.read
  obtain ⟨target, htarget⟩ := parseEnPassantTarget_of_fine hep
  have hkey := (positionKey_cases
    (b := ofFields (fen.splitOn (unit ' ')) pieces target gameType) fun q hq => by
      have hq' := hbounds q hq
      unfold mailboxIndex
      omega).2 fun q hq => by
        by_contra hbig
        exact hbeyond ⟨q.position, (hranks.mem_iff _).mp ⟨q, hq, rfl⟩, not_lt.mp hbig⟩
  refine ⟨_, by rw [fromFEN_eq gameType h.1, hread, ok_bind, htarget, ok_bind, hkey, ok_bind], ?_⟩
  exact hranks

/-- In ranks of at most eight files every piece is on the board. -/
theorem tidy_of_files {b : ChessBoard} (hlen : (ranksOf fen).length = 8)
    (hranks : RanksRead (ranksOf fen) 7 b.pieces)
    (hfiles : ∀ rank ∈ ranksOf fen, filesOf rank ≤ 8) : b.Tidy := by
  refine ⟨fun p hp => ?_, hranks.distinct⟩
  have hspells := (hranks.mem_iff _).mp ⟨p, hp, rfl⟩
  have hrow := hspells.row_le
  obtain ⟨above, front, char, back, below, heq, hchar, hpos⟩ := hspells
  have hrank := hfiles (front ++ char :: back) (by rw [heq]; simp)
  rw [filesOf_append, filesOf_cons, if_neg (by rw [hchar]; exact Bool.false_ne_true)] at hrank
  have hcol : p.position.col = filesOf front := by rw [hpos]
  rw [Position.isValid_iff]
  omega

end Outcomes

/-- What `fromFEN` is to keep to: an `ArgumentError`, or a board with its pieces on distinct
squares, read from ranks of at most eight files. -/
def AcceptsWellFormed (fen : List UInt16) (gameType : Mod) : Prop :=
  (∃ e, fromFEN fen gameType = .error e ∧ e.isArgumentError = true) ∨
    ∃ b, fromFEN fen gameType = .ok b ∧ b.Tidy ∧ ∀ rank ∈ ranksOf fen, filesOf rank ≤ 8

theorem accepts_wellFormed_iff (fen : List UInt16) (gameType : Mod) :
    AcceptsWellFormed fen gameType ↔ ¬ PlacementSpelled fen ∨ ¬ EpFormat fen ∧
      (¬ EpFine fen ∨ BeyondMailbox fen ∨ ∀ rank ∈ ranksOf fen, filesOf rank ≤ 8) := by
  by_cases hspelled : PlacementSpelled fen
  · by_cases hodd : EpFormat fen
    · -- the field is fed to `int.parse`, whose exception is no `ArgumentError`
      obtain ⟨source, hsource⟩ := parseEnPassantTarget_of_format hodd
      have hfen := fromFEN_of_ep_error gameType hspelled hsource
      constructor
      · rintro (⟨e, herror, harg⟩ | ⟨b, hok, -⟩)
        · rw [← Except.error.inj (hfen.symm.trans herror)] at harg
          cases harg
        · cases hfen.symm.trans hok
      · rintro (h | ⟨h, -⟩)
        · exact absurd hspelled h
        · exact absurd hodd h
    · by_cases hep : EpFine fen
      · by_cases hbeyond : BeyondMailbox fen
        · obtain ⟨i, hfen⟩ := fromFEN_of_beyond gameType hspelled hep hbeyond
          exact ⟨fun _ => .inr ⟨hodd, .inr (.inl hbeyond)⟩, fun _ => .inl ⟨_, hfen, rfl⟩⟩
        · obtain ⟨b, hfen, hranks⟩ :=
            fromFEN_of_not_beyond gameType hspelled hep hbeyond
          constructor
          · rintro (⟨e, herror, -⟩ | ⟨b', -, -, hfiles⟩)
            · cases hfen.symm.trans herror
            · exact .inr ⟨hodd, .inr (.inr hfiles)⟩
          · rintro (h | ⟨-, h | h | hfiles⟩)
            · exact absurd hspelled h
            · exact absurd hep h
            · exact absurd h hbeyond
            · exact .inr ⟨b, hfen, tidy_of_files hspelled.1 hranks hfiles, hfiles⟩
      · obtain ⟨message, hmessage⟩ := parseEnPassantTarget_of_not_fine hodd hep
        have hfen := fromFEN_of_ep_error gameType hspelled hmessage
        exact ⟨fun _ => .inr ⟨hodd, .inl hep⟩, fun _ => .inl ⟨_, hfen, rfl⟩⟩
  · obtain ⟨message, hfen⟩ := fromFEN_of_not_spelled gameType hspelled
    exact ⟨fun _ => .inl hspelled, fun _ => .inl ⟨_, hfen, rfl⟩⟩

/-- The ranks `8/8/8/8/8/8/8/8p`: a pawn behind the eighth file of row 0. -/
def ninthFileFen : List UInt16 :=
  codeUnits ['8', '/', '8', '/', '8', '/', '8', '/', '8', '/', '8', '/', '8', '/', '8', 'p']

/-- An empty board with the en passant field `ex`. -/
def epLettersFen : List UInt16 :=
  codeUnits ['8', '/', '8', '/', '8', '/', '8', '/', '8', '/', '8', '/', '8', '/', '8',
    ' ', 'w', ' ', '-', ' ', 'e', 'x']

/-- The first string is read as a board with a piece off the board, the second one throws a
`FormatException`. -/
theorem fromFEN_accepts_ninth_file :
    ((∃ b, fromFEN ninthFileFen .classic = .ok b ∧ ∃ p ∈ b.pieces, p.position = ⟨0, 8⟩) ∧
      ¬ AcceptsWellFormed ninthFileFen .classic) ∧
    (fromFEN epLettersFen .classic = .error (.format [unit 'x']) ∧
      ¬ AcceptsWellFormed epLettersFen .classic) := by
  have hformat : fromFEN epLettersFen .classic = .error (.format [unit 'x']) := by
    decide +kernel
  obtain ⟨b, hb, hoff⟩ : ∃ b, fromFEN ninthFileFen .classic = .ok b ∧
      ∃ p ∈ b.pieces, p.position = ⟨0, 8⟩ := by
    cases hfen : fromFEN ninthFileFen .classic with
    | error e =>
      have hok : (fromFEN ninthFileFen .classic).isOk = true := by decide +kernel
      rw [hfen] at hok
      cases hok
    | ok b =>
      have hpieces : (fromFEN ninthFileFen .classic).map ChessBoard.pieces =
          .ok [⟨.pawn, .black, ⟨0, 8⟩, false⟩] := by decide +kernel
      rw [hfen] at hpieces
      exact ⟨b, rfl, _, by rw [Except.ok.inj hpieces]; exact List.mem_cons_self, rfl⟩
  refine ⟨⟨⟨b, hb, hoff⟩, ?_⟩, hformat, ?_⟩
  · rintro (⟨e, he, -⟩ | ⟨b', hb', htidy, -⟩)
    · cases hb.symm.trans he
    · obtain rfl := Except.ok.inj (hb.symm.trans hb')
      obtain ⟨p, hp, hpos⟩ := hoff
      have hvalid := htidy.valid p hp
      rw [hpos] at hvalid
      exact absurd hvalid (by decide)
  · rintro (⟨e, he, harg⟩ | ⟨b', hb', -⟩)
    · rw [← Except.error.inj (hformat.symm.trans he)] at harg
      cases harg
    · cases hformat.symm.trans hb'

end ChessBoard

end ChessRecast.App
