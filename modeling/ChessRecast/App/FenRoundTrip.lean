import ChessRecast.App.FenTheorems
import ChessRecast.App.PositionKeys

/-!
# `fromFEN` reads back what `toNativeFEN` writes

The text of a board is six fields without blanks, the first of them eight ranks without slashes.
Split apart, every rank gives the pieces of its row from left to right, and every other field its
value.
-/

namespace ChessRecast.App

open Outcome

/-! ## ASCII -/

theorem unit_toNat {ch : Char} (h : ch.toNat < 128) : (unit ch).toNat = ch.toNat := by
  rw [unit, UInt16.toNat_ofNat']
  exact Nat.mod_eq_of_lt (by omega)

theorem unit_inj {a b : Char} (ha : a.toNat < 128) (hb : b.toNat < 128) :
    unit a = unit b ↔ a = b := by
  rw [← UInt16.toNat_inj, unit_toNat ha, unit_toNat hb, Char.toNat_inj]

theorem codeUnits_eq {s : List Char} (h : ∀ ch ∈ s, ch.toNat < 128) :
    codeUnits s = s.map unit := by
  induction s with
  | nil => rfl
  | cons ch s ih =>
    have hch := h ch List.mem_cons_self
    rw [codeUnits, List.flatMap_cons, if_pos (by omega), List.map_cons]
    exact congrArg _ (ih fun x hx => h x (List.mem_cons_of_mem _ hx))

/-- A blank or a slash is found in the code units exactly if it is in the text. -/
theorem unit_notMem {s : List Char} {sep : Char} (hsep : sep.toNat < 128)
    (h : ∀ ch ∈ s, ch.toNat < 128 ∧ ch ≠ sep) : unit sep ∉ s.map unit := by
  intro hmem
  obtain ⟨ch, hch, heq⟩ := List.mem_map.mp hmem
  obtain ⟨hlt, hne⟩ := h ch hch
  exact hne ((unit_inj hlt hsep).mp heq)

/-! ## Ranks -/

section Ranks

variable {d : ChessBoard} {row col : ℤ} {rest : List UInt16}

/-- The piece of a square as `fromFEN` makes it. -/
def freshPiece (p : ChessPiece) (pos : Position) : ChessPiece :=
  { type := p.type, color := p.color, position := pos }

/-- The pieces on `n` squares of a row, from `col` on. -/
def rowPieces (d : ChessBoard) (row : ℤ) : ℕ → ℤ → List ChessPiece
  | 0, _ => []
  | n + 1, col =>
    ((d.getPieceAt ⟨row, col⟩).map fun p => freshPiece p ⟨row, col⟩).toList ++
      rowPieces d row n (col + 1)

theorem fenSymbol_unit (p : ChessPiece) :
    (fenSymbol p).toNat < 128 ∧ fenSymbol p ≠ ' ' ∧ fenSymbol p ≠ '/' ∧
      isFileCount (unit (fenSymbol p)) = false ∧
      pieceTypeOf (unit (fenSymbol p)) = some p.type ∧
      (if isUpperCase (unit (fenSymbol p)) then Color.white else Color.black) = p.color := by
  unfold fenSymbol
  generalize p.color = c
  generalize p.type = t
  cases c <;> cases t <;> decide

theorem digitChar_unit {e : ℕ} (hpos : 0 < e) (he : e ≤ 8) :
    e.digitChar.toNat < 128 ∧ e.digitChar ≠ ' ' ∧ e.digitChar ≠ '/' ∧
      isFileCount (unit e.digitChar) = true ∧
      ((unit e.digitChar).toNat : ℤ) - '0'.toNat = e := by
  interval_cases e <;> decide

theorem parseRank_emptyCount {e : ℕ} (he : e ≤ 8) :
    parseRank row ((if e > 0 then Nat.toDigits 10 e else []).map unit ++ rest) (col - e) =
      parseRank row rest col := by
  rcases Nat.eq_zero_or_pos e with rfl | hpos
  · simp
  · obtain ⟨-, -, -, hcount, hvalue⟩ := digitChar_unit hpos he
    rw [if_pos hpos, Nat.toDigits_of_lt_base (by omega), List.map_singleton, List.singleton_append,
      parseRank, if_pos hcount, hvalue, sub_add_cancel]

theorem parseRank_fenSymbol (p : ChessPiece) {pieces : List ChessPiece}
    (h : parseRank row rest (col + 1) = .ok pieces) :
    parseRank row (unit (fenSymbol p) :: rest) col = .ok (freshPiece p ⟨row, col⟩ :: pieces) := by
  obtain ⟨-, -, -, hcount, htype, hcolor⟩ := fenSymbol_unit p
  rw [parseRank, hcount, if_neg Bool.false_ne_true, htype]
  dsimp only
  rw [h, ok_bind, hcolor]
  rfl

theorem parseRank_rankText (n : ℕ) : ∀ (col : ℤ) (e : ℕ), e + n ≤ 8 →
    parseRank row ((d.rankText row n col e).map unit) (col - e) = .ok (rowPieces d row n col) := by
  induction n with
  | zero =>
    intro col e he
    have h := @parseRank_emptyCount row col [] e (by omega)
    rw [List.append_nil] at h
    rw [ChessBoard.rankText, h]
    rfl
  | succ n ih =>
    intro col e he
    rw [ChessBoard.rankText, rowPieces]
    cases d.getPieceAt ⟨row, col⟩ with
    | none =>
      have h := ih (col + 1) (e + 1) (by omega)
      push_cast at h
      rw [add_sub_add_right_eq_sub] at h
      exact h
    | some p =>
      dsimp only
      rw [List.map_append, parseRank_emptyCount (by omega), List.map_cons]
      have h := ih (col + 1) 0 (by omega)
      rw [Nat.cast_zero, sub_zero] at h
      exact parseRank_fenSymbol p h

theorem mem_rankText (n : ℕ) : ∀ (col : ℤ) (e : ℕ), e + n ≤ 8 →
    ∀ ch ∈ d.rankText row n col e, ch.toNat < 128 ∧ ch ≠ ' ' ∧ ch ≠ '/' := by
  have hdigits : ∀ e : ℕ, e ≤ 8 → ∀ ch ∈ (if e > 0 then Nat.toDigits 10 e else []),
      ch.toNat < 128 ∧ ch ≠ ' ' ∧ ch ≠ '/' := by
    intro e he ch hch
    split_ifs at hch with hpos
    · rw [Nat.toDigits_of_lt_base (by omega), List.mem_singleton] at hch
      obtain ⟨hlt, hblank, hslash, -⟩ := digitChar_unit hpos he
      rw [hch]
      exact ⟨hlt, hblank, hslash⟩
    · cases hch
  induction n with
  | zero => exact fun col e he => hdigits e (by omega)
  | succ n ih =>
    intro col e he ch hch
    rw [ChessBoard.rankText] at hch
    cases hp : d.getPieceAt ⟨row, col⟩ with
    | none =>
      rw [hp] at hch
      exact ih (col + 1) (e + 1) (by omega) ch hch
    | some p =>
      rw [hp] at hch
      rcases List.mem_append.mp hch with hch | hch
      · exact hdigits e (by omega) ch hch
      · rcases List.mem_cons.mp hch with rfl | hch
        · obtain ⟨hlt, hblank, hslash, -⟩ := fenSymbol_unit p
          exact ⟨hlt, hblank, hslash⟩
        · exact ih (col + 1) 0 (by omega) ch hch

/-- The ranks of a board, from the top down. -/
def rankTexts (d : ChessBoard) : ℕ → List (List UInt16)
  | 0 => [(d.rankText 0 8 0 0).map unit]
  | row + 1 => (d.rankText (row + 1) 8 0 0).map unit :: rankTexts d row

/-- The pieces of a board, from the top down. -/
def ranksPieces (d : ChessBoard) : ℕ → List ChessPiece
  | 0 => rowPieces d 0 8 0
  | row + 1 => rowPieces d (row + 1) 8 0 ++ ranksPieces d row

theorem rankTexts_ne_nil (d : ChessBoard) (row : ℕ) : rankTexts d row ≠ [] := by
  cases row <;> exact List.cons_ne_nil _ _

theorem length_rankTexts (d : ChessBoard) (row : ℕ) : (rankTexts d row).length = row + 1 := by
  induction row with
  | zero => rfl
  | succ row ih => rw [rankTexts, List.length_cons, ih]

theorem map_ranksText (d : ChessBoard) (row : ℕ) :
    (d.ranksText row).map unit = [unit '/'].intercalate (rankTexts d row) := by
  induction row with
  | zero => rw [ChessBoard.ranksText, rankTexts, List.intercalate_singleton]
  | succ row ih =>
    rw [ChessBoard.ranksText, rankTexts, List.map_append, List.map_cons, ih,
      List.intercalate_cons_of_ne_nil (rankTexts_ne_nil d row)]
    simp

theorem slash_notMem_rankTexts (row : ℕ) : ∀ rank ∈ rankTexts d row, unit '/' ∉ rank := by
  have hrank : ∀ r : ℤ, unit '/' ∉ (d.rankText r 8 0 0).map unit := fun r =>
    unit_notMem (by decide) fun ch hch => by
      obtain ⟨hlt, -, hslash⟩ := mem_rankText 8 0 0 le_rfl ch hch
      exact ⟨hlt, hslash⟩
  induction row with
  | zero =>
    intro rank hmem
    rw [List.mem_singleton.mp hmem]
    exact hrank 0
  | succ row ih =>
    intro rank hmem
    rcases List.mem_cons.mp hmem with rfl | hmem
    · exact hrank _
    · exact ih rank hmem

theorem parseRanks_rankTexts (row : ℕ) :
    parseRanks (rankTexts d row) row = .ok (ranksPieces d row) := by
  have hrank : ∀ r : ℤ, parseRank r ((d.rankText r 8 0 0).map unit) 0 = .ok (rowPieces d r 8 0) :=
    fun r => by
      have h := @parseRank_rankText d r 8 0 0 le_rfl
      rwa [Nat.cast_zero, sub_zero] at h
  induction row with
  | zero =>
    rw [rankTexts, parseRanks, Nat.cast_zero, hrank, ok_bind, parseRanks, ok_bind, List.append_nil]
    rfl
  | succ row ih =>
    rw [rankTexts, parseRanks, Nat.cast_succ, hrank, ok_bind, add_sub_cancel_right, ih, ok_bind]
    rfl

theorem mem_rowPieces {p : ChessPiece} (n : ℕ) : ∀ col : ℤ, p ∈ rowPieces d row n col ↔
    ∃ c, (col ≤ c ∧ c < col + n) ∧ ∃ q, d.getPieceAt ⟨row, c⟩ = some q ∧ p = freshPiece q ⟨row, c⟩ := by
  induction n with
  | zero =>
    intro col
    refine ⟨fun h => (by cases h), ?_⟩
    rintro ⟨c, ⟨hlow, hhigh⟩, -⟩
    push_cast at hhigh
    omega
  | succ n ih =>
    intro col
    rw [rowPieces, List.mem_append, ih, Option.mem_toList, Option.map_eq_some_iff]
    constructor
    · rintro (⟨q, hq, rfl⟩ | ⟨c, ⟨hlow, hhigh⟩, hc⟩)
      · exact ⟨col, ⟨le_rfl, by push_cast; omega⟩, q, hq, rfl⟩
      · exact ⟨c, ⟨by omega, by push_cast; omega⟩, hc⟩
    · rintro ⟨c, ⟨hlow, hhigh⟩, q, hq, rfl⟩
      push_cast at hhigh
      by_cases hc : c = col
      · subst hc
        exact .inl ⟨q, hq, rfl⟩
      · exact .inr ⟨c, ⟨by omega, by omega⟩, q, hq, rfl⟩

theorem mem_ranksPieces {p : ChessPiece} (row : ℕ) : p ∈ ranksPieces d row ↔
    ∃ r c : ℤ, (0 ≤ r ∧ r ≤ row) ∧ (0 ≤ c ∧ c < 8) ∧
      ∃ q, d.getPieceAt ⟨r, c⟩ = some q ∧ p = freshPiece q ⟨r, c⟩ := by
  induction row with
  | zero =>
    rw [ranksPieces, mem_rowPieces]
    constructor
    · rintro ⟨c, ⟨hlow, hhigh⟩, hc⟩
      exact ⟨0, c, ⟨le_rfl, le_rfl⟩, ⟨hlow, by push_cast at hhigh; omega⟩, hc⟩
    · rintro ⟨r, c, ⟨hr, hr'⟩, ⟨hlow, hhigh⟩, hc⟩
      obtain rfl : r = 0 := by omega
      exact ⟨c, ⟨hlow, by push_cast; omega⟩, hc⟩
  | succ row ih =>
    rw [ranksPieces, List.mem_append, mem_rowPieces, ih]
    push_cast
    constructor
    · rintro (⟨c, ⟨hlow, hhigh⟩, hc⟩ | ⟨r, c, ⟨hr, hr'⟩, hcol, hc⟩)
      · exact ⟨row + 1, c, ⟨by omega, le_rfl⟩, ⟨hlow, by omega⟩, hc⟩
      · exact ⟨r, c, ⟨hr, by omega⟩, hcol, hc⟩
    · rintro ⟨r, c, ⟨hr, hr'⟩, ⟨hlow, hhigh⟩, hc⟩
      by_cases heq : r = row + 1
      · subst heq
        exact .inl ⟨c, ⟨hlow, by omega⟩, hc⟩
      · exact .inr ⟨r, c, ⟨hr, by omega⟩, ⟨hlow, hhigh⟩, hc⟩

theorem distinct_ranksPieces (row : ℕ) :
    Keyed.Distinct ChessPiece.position (ranksPieces d row) := by
  have hread := @parseRanks_rankTexts d row
  obtain ⟨hok, herror⟩ := parseRanks_cases (rankTexts d row) row
  by_cases hspelled : ∀ rank ∈ rankTexts d row, RankSpelled rank
  · obtain ⟨pieces, hread', hranks⟩ := hok hspelled
    obtain rfl := Except.ok.inj (hread.symm.trans hread')
    exact hranks.distinct
  · obtain ⟨message, hread'⟩ := herror hspelled
    cases hread.symm.trans hread'

end Ranks

/-! ## The other fields -/

section Fields

variable {d : ChessBoard} {n : ℤ}

theorem isDigit_unit {ch : Char} (h : ch.isDigit = true) :
    ch.toNat < 128 ∧ IsDigit (unit ch) ∧ (unit ch).toNat = ch.toNat := by
  have hbounds : 48 ≤ ch.toNat ∧ ch.toNat ≤ 57 := by
    simp only [Char.isDigit, Bool.and_eq_true, decide_eq_true_eq] at h
    exact h
  have hval := @unit_toNat ch (by omega)
  exact ⟨by omega, isDigit_iff.mpr (by omega), hval⟩

theorem parseDigits_digits (ds : List Char) : ∀ n : ℕ, (∀ ch ∈ ds, ch.isDigit = true) →
    parseDigits 10 (ds.map unit) n = some (Nat.ofDigitChars 10 ds n) := by
  induction ds with
  | nil => exact fun n _ => rfl
  | cons ch ds ih =>
    intro n h
    obtain ⟨-, hdigit, hval⟩ := isDigit_unit (h ch List.mem_cons_self)
    rw [List.map_cons, parseDigits, digitValue_ten, if_pos hdigit, Option.bind_some,
      ih _ fun x hx => h x (List.mem_cons_of_mem _ hx), Nat.ofDigitChars_cons, hval, Nat.mul_comm]
    rfl

theorem not_isWhitespace_of_isDigit {u : UInt16} (h : IsDigit u) : isWhitespace u = false := by
  have hbounds := isDigit_iff.mp h
  rw [← Bool.not_eq_true]
  simp only [isWhitespace, Bool.or_eq_true, Bool.and_eq_true, decide_eq_true_eq,
    UInt16.le_iff_toNat_le, ← UInt16.toNat_inj, UInt16.reduceToNat]
  omega

theorem trim_digits {s : List UInt16} (h : ∀ u ∈ s, IsDigit u) : trim s = s := by
  have hdrop : ∀ s : List UInt16, (∀ u ∈ s, IsDigit u) → s.dropWhile isWhitespace = s := by
    intro s hs
    cases s with
    | nil => rfl
    | cons u s =>
      rw [List.dropWhile_cons, not_isWhitespace_of_isDigit (hs u List.mem_cons_self),
        if_neg Bool.false_ne_true]
  rw [trim, hdrop s h, hdrop _ fun u hu => h u (List.mem_reverse.mp hu), List.reverse_reverse]

theorem intTryParse_intText (hn : 0 ≤ n) (hlt : n < 2 ^ 63) :
    intTryParse ((intText n).map unit) = some n := by
  have hdigits : ∀ ch ∈ Nat.toDigits 10 n.toNat, ch.isDigit = true := fun ch hch =>
    Nat.isDigit_of_mem_toDigits (by norm_num) (by norm_num) hch
  have hunits : ∀ u ∈ (Nat.toDigits 10 n.toNat).map unit, IsDigit u := by
    intro u hu
    obtain ⟨ch, hch, rfl⟩ := List.mem_map.mp hu
    exact (isDigit_unit (hdigits ch hch)).2.1
  have hdecimal : parseDecimal false ((Nat.toDigits 10 n.toNat).map unit) = some n := by
    rw [parseDecimal, if_neg (by simp [Nat.toDigits_ne_nil]), parseDigits_digits _ _ hdigits,
      Option.bind_some, Nat.ofDigitChars_toDigits (by norm_num) (by norm_num)]
    dsimp only
    rw [if_neg Bool.false_ne_true, Int.toNat_of_nonneg hn, if_pos ⟨by omega, hlt⟩]
  have hsign : ∀ {u : UInt16} (ch : Char), IsDigit u → ¬ IsDigit (unit ch) → u ≠ unit ch :=
    fun ch hu hch h => hch (h ▸ hu)
  rw [intText, if_neg (by omega), intTryParse, trim_digits hunits]
  generalize (Nat.toDigits 10 n.toNat).map unit = s at hunits hdecimal
  cases s with
  | nil => cases hdecimal
  | cons u s =>
    have hu := hunits u List.mem_cons_self
    cases s with
    | nil =>
      dsimp only
      rw [if_neg (hsign '-' hu (by decide)), if_neg (hsign '+' hu (by decide))]
      exact hdecimal
    | cons x s =>
      have hx := hunits x (List.mem_cons_of_mem _ List.mem_cons_self)
      dsimp only
      rw [if_neg (hsign '-' hu (by decide)), if_neg (hsign '+' hu (by decide)), parseUnsigned,
        if_neg]
      · exact hdecimal
      · rintro ⟨-, hx' | hx'⟩
        · exact hsign 'x' hx (by decide) hx'
        · exact hsign 'X' hx (by decide) hx'

theorem parseEnPassantTarget_epText (hep : ∀ t, d.enPassantTarget = some t → t.IsValid) :
    ChessBoard.parseEnPassantTarget (some (d.epText.map unit)) = .ok d.enPassantTarget := by
  unfold ChessBoard.epText
  cases ht : d.enPassantTarget with
  | none => rfl
  | some t =>
    have hvalid := hep t ht
    obtain ⟨file, rank, htext, hfile, hrank⟩ := algebraic_eq hvalid
    have hbounds := (Position.isValid_iff t).mp hvalid
    have hfile' := @unit_toNat file (by omega)
    have hrank' := @unit_toNat rank (by omega)
    dsimp only
    rw [htext, List.map_cons, List.map_singleton, ChessBoard.parseEnPassantTarget,
      if_neg (by simp)]
    have hsquare : EpSquare [unit file, unit rank] t :=
      ⟨_, _, rfl, isDigit_iff.mpr (by omega), hvalid, by omega, by omega⟩
    rw [(fromAlgebraic_cases _).2.1 t hsquare, ok_bind]
    rfl

def castlingField (d : ChessBoard) : List Char :=
  if d.castlingLetters = [] then ['-'] else d.castlingLetters

theorem castlingRight_letters (d : ChessBoard) :
    ChessBoard.castlingRight (some ((castlingField d).map unit)) 'K' = d.whiteCanCastleKingside ∧
    ChessBoard.castlingRight (some ((castlingField d).map unit)) 'Q' = d.whiteCanCastleQueenside ∧
    ChessBoard.castlingRight (some ((castlingField d).map unit)) 'k' = d.blackCanCastleKingside ∧
    ChessBoard.castlingRight (some ((castlingField d).map unit)) 'q' = d.blackCanCastleQueenside := by
  unfold castlingField ChessBoard.castlingLetters
  generalize d.whiteCanCastleKingside = wk
  generalize d.whiteCanCastleQueenside = wq
  generalize d.blackCanCastleKingside = bk
  generalize d.blackCanCastleQueenside = bq
  cases wk <;> cases wq <;> cases bk <;> cases bq <;> decide

end Fields

/-! ## The whole text -/

section Text

variable {d : ChessBoard}

/-- A field of a FEN string: ASCII without blanks. -/
def IsField (s : List Char) : Prop := ∀ ch ∈ s, ch.toNat < 128 ∧ ch ≠ ' '

theorem isField_intText (n : ℤ) : IsField (intText n) := by
  have hdigits : ∀ m : ℕ, IsField (Nat.toDigits 10 m) := by
    intro m ch hch
    have hdigit := Nat.isDigit_of_mem_toDigits (by norm_num) (by norm_num) hch
    refine ⟨(isDigit_unit hdigit).1, ?_⟩
    rintro rfl
    cases hdigit
  unfold intText
  split_ifs
  · intro ch hch
    rcases List.mem_cons.mp hch with rfl | hch
    · decide
    · exact hdigits _ ch hch
  · exact hdigits _

theorem isField_epText (hep : ∀ t, d.enPassantTarget = some t → t.IsValid) :
    IsField d.epText := by
  unfold ChessBoard.epText
  cases ht : d.enPassantTarget with
  | none => simp [IsField]
  | some t =>
    obtain ⟨file, rank, htext, hfile, hrank⟩ := algebraic_eq (hep t ht)
    have hbounds := (Position.isValid_iff t).mp (hep t ht)
    dsimp only
    rw [htext]
    have hblank : ∀ ch : Char, 49 ≤ ch.toNat → ch ≠ ' ' := by
      rintro ch hch rfl
      exact absurd hch (by decide)
    intro ch hch
    rcases List.mem_cons.mp hch with rfl | hch
    · exact ⟨by omega, hblank _ (by omega)⟩
    · rw [List.mem_singleton.mp hch]
      exact ⟨by omega, hblank _ (by omega)⟩

theorem isField_castlingField (d : ChessBoard) : IsField (castlingField d) := by
  unfold castlingField ChessBoard.castlingLetters IsField
  generalize d.whiteCanCastleKingside = wk
  generalize d.whiteCanCastleQueenside = wq
  generalize d.blackCanCastleKingside = bk
  generalize d.blackCanCastleQueenside = bq
  cases wk <;> cases wq <;> cases bk <;> cases bq <;> simp

theorem isField_ranksText (row : ℕ) : IsField (d.ranksText row) := by
  have hrank : ∀ r : ℤ, IsField (d.rankText r 8 0 0) := fun r ch hch =>
    ⟨(mem_rankText 8 0 0 le_rfl ch hch).1, (mem_rankText 8 0 0 le_rfl ch hch).2.1⟩
  induction row with
  | zero => exact hrank 0
  | succ row ih =>
    intro ch hch
    rcases List.mem_append.mp hch with hch | hch
    · exact hrank _ ch hch
    · rcases List.mem_cons.mp hch with rfl | hch
      · decide
      · exact ih ch hch

/-- The six fields of a board's text. -/
def fenFields (d : ChessBoard) : List (List Char) :=
  [d.ranksText 7, [if d.currentPlayer = .white then 'w' else 'b'], castlingField d, d.epText,
    intText d.halfMoveClock, intText d.fullMoveNumber]

theorem toNativeFEN_eq (d : ChessBoard) : d.toNativeFEN = [' '].intercalate (fenFields d) := by
  unfold ChessBoard.toNativeFEN ChessBoard.toFEN fenFields castlingField
  simp [List.intercalate]

theorem isField_of_mem (hep : ∀ t, d.enPassantTarget = some t → t.IsValid) :
    ∀ field ∈ fenFields d, IsField field := by
  intro field hmem
  simp only [fenFields, List.mem_cons, List.not_mem_nil, or_false] at hmem
  rcases hmem with rfl | rfl | rfl | rfl | rfl | rfl
  · exact isField_ranksText 7
  · unfold IsField
    cases d.currentPlayer <;> simp
  · exact isField_castlingField d
  · exact isField_epText hep
  · exact isField_intText _
  · exact isField_intText _

theorem splitOn_toNativeFEN (hep : ∀ t, d.enPassantTarget = some t → t.IsValid) :
    (codeUnits d.toNativeFEN).splitOn (unit ' ') = (fenFields d).map (List.map unit) := by
  have hfields := isField_of_mem hep
  have hascii : ∀ ch ∈ d.toNativeFEN, ch.toNat < 128 := by
    intro ch hch
    have hmem : ch = ' ' ∨ ∃ field ∈ fenFields d, ch ∈ field := by
      rw [toNativeFEN_eq] at hch
      simp only [fenFields, List.intercalate, List.intersperse, List.flatten_cons, List.flatten_nil,
        List.append_nil, List.mem_append, List.mem_singleton] at hch
      simp only [fenFields, List.mem_cons, List.not_mem_nil, or_false, exists_eq_or_imp,
        exists_eq_left]
      tauto
    rcases hmem with rfl | ⟨field, hfield, hch⟩
    · decide
    · exact (hfields field hfield ch hch).1
  have hunits : d.toNativeFEN.map unit =
      [unit ' '].intercalate ((fenFields d).map (List.map unit)) := by
    rw [toNativeFEN_eq]
    simp [fenFields, List.intercalate]
  rw [codeUnits_eq hascii, hunits]
  refine List.splitOn_intercalate _ (fun field hmem => ?_) (by simp [fenFields])
  obtain ⟨s, hs, rfl⟩ := List.mem_map.mp hmem
  exact unit_notMem (by decide) (hfields s hs)

theorem ranksOf_toNativeFEN (hep : ∀ t, d.enPassantTarget = some t → t.IsValid) :
    ChessBoard.ranksOf (codeUnits d.toNativeFEN) = rankTexts d 7 := by
  rw [ChessBoard.ranksOf, splitOn_toNativeFEN hep]
  show ((d.ranksText 7).map unit).splitOn (unit '/') = _
  rw [map_ranksText]
  exact List.splitOn_intercalate _ (slash_notMem_rankTexts 7) (rankTexts_ne_nil d 7)

/-- What `fromFEN` gives back of a board. -/
structure SameFen (d d' : ChessBoard) : Prop where
  tidy : d'.Tidy
  placement_eq : d'.placement = d.placement
  side_eq : d'.currentPlayer = d.currentPlayer
  rights : d'.whiteCanCastleKingside = d.whiteCanCastleKingside ∧
    d'.whiteCanCastleQueenside = d.whiteCanCastleQueenside ∧
    d'.blackCanCastleKingside = d.blackCanCastleKingside ∧
    d'.blackCanCastleQueenside = d.blackCanCastleQueenside
  ep_eq : d'.enPassantTarget = d.enPassantTarget
  clocks : d'.halfMoveClock = d.halfMoveClock ∧ d'.fullMoveNumber = d.fullMoveNumber

theorem valid_of_mem_ranksPieces {p : ChessPiece} (h : p ∈ ranksPieces d 7) :
    p.position.IsValid := by
  obtain ⟨r, c, hr, hc, q, -, rfl⟩ := (mem_ranksPieces 7).mp h
  rw [Position.isValid_iff]
  show 0 ≤ r ∧ r < 8 ∧ 0 ≤ c ∧ c < 8
  push_cast at hr
  omega

theorem placement_ranksPieces (hd : d.Tidy) {d' : ChessBoard}
    (hpieces : d'.pieces = ranksPieces d 7) : d'.placement = d.placement := by
  have hdistinct : Keyed.Distinct ChessPiece.position d'.pieces := by
    rw [hpieces]
    exact distinct_ranksPieces 7
  have hlookup : ∀ {p q}, d'.getPieceAt p = some q ↔ q ∈ ranksPieces d 7 ∧ q.position = p := by
    intro p q
    rw [← hpieces]
    exact hdistinct.lookup_eq_some_iff
  funext p
  unfold ChessBoard.placement
  cases hp : d.getPieceAt p with
  | some q =>
    have hvalid := hd.valid_of_getPieceAt hp
    have hq : d'.getPieceAt p = some (freshPiece q p) := hlookup.mpr
      ⟨(mem_ranksPieces 7).mpr ⟨p.row, p.col, ⟨hvalid.1, Int.lt_add_one_iff.mp hvalid.2.1⟩,
        hvalid.2.2, q, hp, rfl⟩, rfl⟩
    rw [hq]
    rfl
  | none =>
    cases hq : d'.getPieceAt p with
    | none => rfl
    | some q =>
      obtain ⟨hmem, rfl⟩ := hlookup.mp hq
      obtain ⟨r, c, -, -, q', hq', rfl⟩ := (mem_ranksPieces 7).mp hmem
      exact absurd (hp.symm.trans hq') (by simp)

theorem fromFEN_toNativeFEN (hd : d.Tidy) (hep : ∀ t, d.enPassantTarget = some t → t.IsValid)
    (hhalf : 0 ≤ d.halfMoveClock ∧ d.halfMoveClock < 2 ^ 63)
    (hfull : 0 ≤ d.fullMoveNumber ∧ d.fullMoveNumber < 2 ^ 63) (gameType : Mod) :
    ∃ d', ChessBoard.fromFEN (codeUnits d.toNativeFEN) gameType = .ok d' ∧ SameFen d d' := by
  have hranks := ranksOf_toNativeFEN hep
  have hparts := splitOn_toNativeFEN hep
  have hlen : (ChessBoard.ranksOf (codeUnits d.toNativeFEN)).length = 8 := by
    rw [hranks, length_rankTexts]
  have hep' : ChessBoard.epFieldOf (codeUnits d.toNativeFEN) = some (d.epText.map unit) := by
    rw [ChessBoard.epFieldOf, hparts]
    rfl
  have hread : parseRanks (rankTexts d 7) 7 = .ok (ranksPieces d 7) := parseRanks_rankTexts 7
  -- the board of the fields, and its key
  set board := ChessBoard.ofFields ((fenFields d).map (List.map unit)) (ranksPieces d 7)
    d.enPassantTarget gameType with hboard
  have hindex : ∀ p ∈ board.pieces, 0 ≤ ChessBoard.mailboxIndex p ∧ ChessBoard.mailboxIndex p < 64 := by
    intro p hp
    obtain ⟨h0, h1, h2, h3⟩ := valid_of_mem_ranksPieces hp
    unfold ChessBoard.mailboxIndex
    omega
  have hkey := (ChessBoard.positionKey_cases fun p hp => (hindex p hp).1).2
    fun p hp => (hindex p hp).2
  refine ⟨_, by
    rw [ChessBoard.fromFEN_eq gameType hlen, hranks, hread, ok_bind, hep',
      parseEnPassantTarget_epText hep, ok_bind, hparts, ← hboard, hkey, ok_bind], ?_⟩
  obtain ⟨hwk, hwq, hbk, hbq⟩ := castlingRight_letters d
  refine ⟨⟨fun p hp => valid_of_mem_ranksPieces hp, distinct_ranksPieces 7⟩,
    placement_ranksPieces hd rfl, ?_, ⟨hwk, hwq, hbk, hbq⟩, ?_, ?_, ?_⟩
  · show (if some ([if d.currentPlayer = .white then 'w' else 'b'].map unit) = some [unit 'b'] then
      Color.black else .white) = d.currentPlayer
    cases d.currentPlayer <;> rfl
  · rfl
  · show (intTryParse ((intText d.halfMoveClock).map unit)).getD 0 = d.halfMoveClock
    rw [intTryParse_intText hhalf.1 hhalf.2, Option.getD_some]
  · show (intTryParse ((intText d.fullMoveNumber).map unit)).getD 1 = d.fullMoveNumber
    rw [intTryParse_intText hfull.1 hfull.2, Option.getD_some]

end Text

end ChessRecast.App
