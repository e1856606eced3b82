import ChessRecast.App.BookTheorems
import ChessRecast.Bridge.HandOver
import ChessRecast.Engine.BookTheorems
import ChessRecast.Engine.Invariants

/-!
# `board_set_fen` reads what `toNativeFEN` writes

The scan of C goes over the text of Dart rank by rank; `fillRow` and `fillRanks` are the
placements that it makes on the way.
-/

namespace ChessRecast.Bridge

open App Engine Rules

/-! ## Placement -/

/-- Place the pieces of `n` columns of a row, from `col` on. -/
def fillRow (d : ChessBoard) (row : ℤ) : ℕ → ℤ → Views → Views
  | 0, _, v => v
  | n + 1, col, v => fillRow d row n (col + 1)
      (match d.getPieceAt ⟨row, col⟩ with
        | none => v
        | some p => boardPlace v (SQ row col) p.color p.type)

/-- Place the pieces of the rows from `row` down to 0. -/
def fillRanks (d : ChessBoard) : ℕ → Views → Views
  | 0, v => fillRow d 0 8 0 v
  | row + 1, v => fillRanks d row (fillRow d (row + 1) 8 0 v)

section Scan

variable {d : ChessBoard} {rest : List Char}

/-- What `board_set_fen` makes of a piece letter of Dart. -/
theorem fenSymbol_spec (p : ChessPiece) :
    fieldEnd (fenSymbol p) = false ∧ fenSymbol p ≠ '/' ∧
      ¬ ('1' ≤ fenSymbol p ∧ fenSymbol p ≤ '8') ∧
      (if (fenSymbol p).isUpper then Color.white else Color.black) = p.color ∧
      fenPieceType (fenSymbol p) = some p.type := by
  unfold fenSymbol
  generalize p.color = c
  generalize p.type = t
  cases c <;> cases t <;> decide

theorem parsePlacement_fenSymbol (p : ChessPiece) {row col : ℤ} (hrow : 0 ≤ row) (hcol : col < 8)
    (v : Views) : parsePlacement (fenSymbol p :: rest) row col v =
      parsePlacement rest row (col + 1) (boardPlace v (SQ row col) p.color p.type) := by
  obtain ⟨hend, hslash, hdigit, hcolor, htype⟩ := fenSymbol_spec p
  rw [parsePlacement, hend, if_neg Bool.false_ne_true, if_neg hslash, if_neg hdigit, hcolor, htype]
  simp only [ge_iff_le, hrow, hcol, and_self, if_true]

theorem parsePlacement_digits {e : ℕ} (he : e ≤ 8) {row col : ℤ} (v : Views) :
    parsePlacement ((if e > 0 then Nat.toDigits 10 e else []) ++ rest) row (col - e) v =
      parsePlacement rest row col v := by
  rcases Nat.eq_zero_or_pos e with rfl | hpos
  · simp
  · rw [if_pos hpos]
    have hdigit : ∃ ch, Nat.toDigits 10 e = [ch] ∧ fieldEnd ch = false ∧ ch ≠ '/' ∧
        ('1' ≤ ch ∧ ch ≤ '8') ∧ ((ch.toNat : ℤ) - '0'.toNat) = e := by
      interval_cases e
      · exact ⟨'1', by decide⟩
      · exact ⟨'2', by decide⟩
      · exact ⟨'3', by decide⟩
      · exact ⟨'4', by decide⟩
      · exact ⟨'5', by decide⟩
      · exact ⟨'6', by decide⟩
      · exact ⟨'7', by decide⟩
      · exact ⟨'8', by decide⟩
    obtain ⟨ch, hch, hend, hslash, hrange, hval⟩ := hdigit
    rw [hch, List.singleton_append, parsePlacement, hend, if_neg Bool.false_ne_true,
      if_neg hslash, if_pos hrange, hval, sub_add_cancel]

/-- The scan over one rank; `e` empty squares have been counted but not written yet. -/
theorem parsePlacement_rankText {row : ℤ} (hrow : 0 ≤ row) (n : ℕ) :
    ∀ (col : ℤ) (e : ℕ) (v : Views), col + n = 8 → e + n ≤ 8 →
      parsePlacement (d.rankText row n col e ++ rest) row (col - e) v =
        parsePlacement rest row 8 (fillRow d row n col v) := by
  induction n with
  | zero =>
    intro col e v hcol he
    rw [ChessBoard.rankText, parsePlacement_digits (by omega), fillRow]
    rw [show col = 8 by simpa using hcol]
  | succ n ih =>
    intro col e v hcol he
    push_cast at hcol
    rw [ChessBoard.rankText, fillRow]
    cases d.getPieceAt ⟨row, col⟩ with
    | none =>
      have h := ih (col + 1) (e + 1) v (by omega) (by omega)
      push_cast at h
      rw [add_sub_add_right_eq_sub] at h
      exact h
    | some p =>
      rw [List.append_assoc, parsePlacement_digits (by omega), List.cons_append,
        parsePlacement_fenSymbol p hrow (by omega)]
      simpa using ih (col + 1) 0 (boardPlace v (SQ row col) p.color p.type) (by omega) (by omega)

theorem parsePlacement_ranksText (row : ℕ) : ∀ v : Views,
    parsePlacement (d.ranksText row ++ ' ' :: rest) row 0 v =
      (fillRanks d row v, ' ' :: rest) := by
  have hend : ∀ (r : ℤ) (v : Views), parsePlacement (' ' :: rest) r 8 v = (v, ' ' :: rest) := by
    intro r v
    rw [parsePlacement, if_pos (by decide)]
  induction row with
  | zero =>
    intro v
    have h := @parsePlacement_rankText d (' ' :: rest) 0 (le_refl 0) 8 0 0 v rfl le_rfl
    rw [Nat.cast_zero, sub_zero] at h
    rw [ChessBoard.ranksText, Nat.cast_zero, h, hend, fillRanks]
  | succ row ih =>
    intro v
    have h := @parsePlacement_rankText d ('/' :: (d.ranksText row ++ ' ' :: rest)) (row + 1)
      (by omega) 8 0 0 v rfl le_rfl
    rw [Nat.cast_zero, sub_zero] at h
    rw [ChessBoard.ranksText, Nat.cast_succ, List.append_assoc, List.cons_append, h,
      parsePlacement, if_neg (by decide), if_pos rfl, add_sub_cancel_right, ih, fillRanks]

end Scan

/-! ## What was placed -/

section Fill

variable {d : ChessBoard}

theorem fillRow_mailbox {row : ℤ} (hrow : 0 ≤ row ∧ row < 8) (n : ℕ) :
    ∀ (col : ℤ) (v : Views), 0 ≤ col → col + n ≤ 8 → ∀ r c, Grid.Inside 8 r c →
      (fillRow d row n col v).mailbox (SQ r c) =
        if r = row ∧ col ≤ c ∧ c < col + n then
          ((d.getPieceAt ⟨r, c⟩).map ChessPiece.man).or (v.mailbox (SQ r c))
        else v.mailbox (SQ r c) := by
  induction n with
  | zero =>
    intro col v _ _ r c _
    rw [fillRow, if_neg (by omega)]
  | succ n ih =>
    intro col v hcol hn r c hin
    push_cast at hn
    rw [fillRow, ih (col + 1) _ (by omega) (by omega) r c hin]
    have hhere : Grid.Inside 8 row col := ⟨hrow.1, hrow.2, hcol, by omega⟩
    -- what the first step does to the square
    have hstep : (match d.getPieceAt ⟨row, col⟩ with
        | none => v
        | some p => boardPlace v (SQ row col) p.color p.type).mailbox (SQ r c) =
        if r = row ∧ c = col then
          ((d.getPieceAt ⟨r, c⟩).map ChessPiece.man).or (v.mailbox (SQ r c))
        else v.mailbox (SQ r c) := by
      by_cases heq : r = row ∧ c = col
      · obtain ⟨rfl, rfl⟩ := heq
        rw [if_pos ⟨rfl, rfl⟩]
        cases d.getPieceAt ⟨r, c⟩ with
        | none => rfl
        | some p =>
          simp only [boardPlace_mailbox, if_true]
          rfl
      · rw [if_neg heq]
        cases d.getPieceAt ⟨row, col⟩ with
        | none => rfl
        | some p =>
          rw [boardPlace_mailbox, if_neg (by rw [SQ_inj hin hhere]; exact heq)]
    rw [hstep]
    push_cast
    by_cases hr : r = row
    · by_cases hc : c = col
      · rw [if_neg (by omega), if_pos ⟨hr, hc⟩, if_pos (by omega)]
      · by_cases hlt : col ≤ c ∧ c < col + (n + 1)
        · rw [if_pos (by omega), if_neg (fun h => hc h.2), if_pos (by omega)]
        · rw [if_neg (by omega), if_neg (fun h => hc h.2), if_neg (by omega)]
    · rw [if_neg (fun h => hr h.1), if_neg (fun h => hr h.1), if_neg (fun h => hr h.1)]

theorem fillRanks_mailbox (row : ℕ) : ∀ v : Views, row < 8 → ∀ r c, Grid.Inside 8 r c →
    (fillRanks d row v).mailbox (SQ r c) =
      if r ≤ row then ((d.getPieceAt ⟨r, c⟩).map ChessPiece.man).or (v.mailbox (SQ r c))
      else v.mailbox (SQ r c) := by
  induction row with
  | zero =>
    intro v _ r c hin
    have hin' := hin
    obtain ⟨hr, -, hc, hc8⟩ := hin'
    rw [fillRanks, fillRow_mailbox (by omega) 8 0 v le_rfl (by norm_num) r c hin]
    by_cases h0 : r = 0
    · rw [if_pos (by push_cast; omega), if_pos (by push_cast; omega)]
    · rw [if_neg (by omega), if_neg (by push_cast; omega)]
  | succ row ih =>
    intro v hrow r c hin
    have hin' := hin
    obtain ⟨hr, -, hc, hc8⟩ := hin'
    rw [fillRanks, ih _ (by omega) r c hin,
      fillRow_mailbox (by omega) 8 0 v le_rfl (by norm_num) r c hin]
    push_cast
    by_cases hr1 : r = row + 1
    · rw [if_neg (by omega), if_pos (by omega), if_pos (by omega)]
    · by_cases hle : r ≤ row
      · rw [if_pos hle, if_neg (fun h => hr1 h.1), if_pos (by omega)]
      · rw [if_neg hle, if_neg (fun h => hr1 h.1), if_neg (by omega)]

end Fill

/-! ## The other fields -/

section Fields

variable {d : ChessBoard} {rest : List Char}

/-- The rights byte of the castling flags. -/
def rightsByte (d : ChessBoard) : BitVec 8 :=
  (if d.whiteCanCastleKingside then castleWK else 0) |||
  (if d.whiteCanCastleQueenside then castleWQ else 0) |||
  (if d.blackCanCastleKingside then castleBK else 0) |||
  (if d.blackCanCastleQueenside then castleBQ else 0)

theorem hasRight_rightsByte (c : Color) (w : Wing) :
    HasRight (rightsByte d) c w ↔ d.castleFlag c w = true := by
  rw [hasRight_iff]
  unfold rightsByte
  cases c <;> cases w <;>
  · simp only [ChessBoard.castleFlag, ChessBoard.kingsideFlag, ChessBoard.queensideFlag]
    generalize d.whiteCanCastleKingside = wk
    generalize d.whiteCanCastleQueenside = wq
    generalize d.blackCanCastleKingside = bk
    generalize d.blackCanCastleQueenside = bq
    revert wk wq bk bq
    decide

theorem parseCastling_letters :
    parseCastling ((if d.castlingLetters = [] then ['-'] else d.castlingLetters) ++ ' ' :: rest)
      0 = (rightsByte d, ' ' :: rest) := by
  unfold ChessBoard.castlingLetters rightsByte
  cases d.whiteCanCastleKingside <;> cases d.whiteCanCastleQueenside <;>
    cases d.blackCanCastleKingside <;> cases d.blackCanCastleQueenside <;>
    simp [parseCastling, fieldEnd, castleWK, castleWQ, castleBK, castleBQ]

/-- The en-passant square that C keeps for a target of Dart. -/
def epOf : Option Position → ℤ
  | some t => ofPos t
  | none => sqNone

theorem parseEp_epText (hep : ∀ t, d.enPassantTarget = some t → t.IsValid) :
    parseEp (d.epText ++ ' ' :: rest) = (epOf d.enPassantTarget, ' ' :: rest) := by
  unfold ChessBoard.epText
  cases ht : d.enPassantTarget with
  | none => rfl
  | some t =>
    obtain ⟨row, col⟩ := t
    obtain ⟨hr, hr8, hc, hc8⟩ := hep _ ht
    dsimp only at hr hr8 hc hc8
    -- a letter for the column and a digit for the row
    have hletter : ∃ ch, Char.ofNat ('a'.toNat + col).toNat = ch ∧ ch ≠ '-' ∧
        ('a' ≤ ch ∧ ch ≤ 'h') ∧ charVal ch - charVal 'a' = col := by
      interval_cases col <;> exact ⟨_, rfl, by decide⟩
    have hdigit : ∃ ch, intText (row + 1) = [ch] ∧ charVal ch - charVal '1' = row := by
      interval_cases row
      · exact ⟨'1', by decide⟩
      · exact ⟨'2', by decide⟩
      · exact ⟨'3', by decide⟩
      · exact ⟨'4', by decide⟩
      · exact ⟨'5', by decide⟩
      · exact ⟨'6', by decide⟩
      · exact ⟨'7', by decide⟩
      · exact ⟨'8', by decide⟩
    obtain ⟨file, hfile, hdash, hrange, hcol⟩ := hletter
    obtain ⟨rank, hrank, hrow⟩ := hdigit
    show parseEp ((Char.ofNat ('a'.toNat + col).toNat :: intText (row + 1)) ++ ' ' :: rest) = _
    rw [hfile, hrank]
    unfold parseEp
    show (if file = '-' then _ else if 'a' ≤ file ∧ file ≤ 'h' then
      (SQ (charVal rank - charVal '1') (charVal file - charVal 'a'), ' ' :: rest) else _) = _
    rw [if_neg hdash, if_pos hrange, hcol, hrow]
    rfl

theorem isDigit_bounds {ch : Char} (h : ch.isDigit = true) : '0' ≤ ch ∧ ch ≤ '9' := by
  simp only [Char.isDigit, Bool.and_eq_true, decide_eq_true_eq] at h
  exact h

theorem charVal_of_isDigit {ch : Char} (h : ch.isDigit = true) :
    charVal ch - charVal '0' = ((ch.toNat - '0'.toNat : ℕ) : ℤ) := by
  have hbounds := isDigit_bounds h
  have hlow : '0'.toNat ≤ ch.toNat := hbounds.1
  have hhigh : ch.toNat ≤ '9'.toNat := hbounds.2
  have hzero : '0'.toNat = 48 := rfl
  have hnine : '9'.toNat = 57 := rfl
  have hval : charVal '0' = 48 := rfl
  rw [hval, charVal, if_pos (by omega)]
  omega

theorem fieldEnd_of_isDigit {ch : Char} (h : ch.isDigit = true) : ¬ fieldEnd ch = true := by
  intro hend
  rcases (Bool.or_eq_true _ _).mp hend with heq | heq
  · rw [of_decide_eq_true heq] at h
    exact absurd h (by decide)
  · rw [of_decide_eq_true heq] at h
    exact absurd h (by decide)

/-- The loop over the half-move clock reads a number that Dart has written. -/
theorem parseHalfmove_digits (digits : List Char) : ∀ n : ℕ, (∀ ch ∈ digits, ch.isDigit = true) →
    parseHalfmove (digits ++ ' ' :: rest) n =
      (((Nat.ofDigitChars 10 digits n : ℕ) : ℤ), ' ' :: rest) := by
  induction digits with
  | nil => intro n _; rfl
  | cons ch digits ih =>
    intro n hdigits
    have hch := hdigits ch List.mem_cons_self
    rw [List.cons_append, Nat.ofDigitChars_cons,
      ← ih _ fun c hc => hdigits c (List.mem_cons_of_mem _ hc)]
    show (if fieldEnd ch then _ else parseHalfmove _ ((n : ℤ) * 10 + (charVal ch - charVal '0'))) = _
    rw [if_neg (fieldEnd_of_isDigit hch), charVal_of_isDigit hch]
    push_cast
    ring_nf

/-- The loop over the full-move number, up to the terminator. -/
theorem parseFullmove_digits (digits : List Char) : ∀ n : ℕ, (∀ ch ∈ digits, ch.isDigit = true) →
    parseFullmove (digits ++ ['\x00']) n = (Nat.ofDigitChars 10 digits n : ℕ) := by
  induction digits with
  | nil => intro n _; rfl
  | cons ch digits ih =>
    intro n hdigits
    have hch := hdigits ch List.mem_cons_self
    rw [List.cons_append, Nat.ofDigitChars_cons,
      ← ih _ fun c hc => hdigits c (List.mem_cons_of_mem _ hc)]
    show (if '0' ≤ ch ∧ ch ≤ '9' then parseFullmove _ ((n : ℤ) * 10 + (charVal ch - charVal '0'))
      else _) = _
    rw [if_pos (isDigit_bounds hch), charVal_of_isDigit hch]
    push_cast
    ring_nf

theorem boardSetFen_eq {fen fen1 fen2 fen3 fen4 : List Char} {v : Views} {r : BitVec 8} {e h : ℤ}
    (hp : parsePlacement fen 7 0 boardClear.toViews = (v, fen1))
    (hc : parseCastling (skipSpace (skipField (skipSpace fen1))) 0 = (r, fen2))
    (he : parseEp (skipSpace fen2) = (e, fen3))
    (hh : parseHalfmove (skipSpace fen3) 0 = (h, fen4)) :
    boardSetFen fen = boardRefresh
      { boardClear with
        toViews := v
        side := if peek (skipSpace fen1) = 'b' then .black else .white
        castling := r
        epSquare := e
        halfmove := h
        fullmove := if parseFullmove (skipSpace fen4) 0 < 1 then 1
          else parseFullmove (skipSpace fen4) 0 } := by
  unfold boardSetFen
  dsimp only
  rw [hp]
  dsimp only
  rw [hc]
  dsimp only
  rw [he]
  dsimp only
  rw [hh]

end Fields

/-! ## The board handed over -/

section HandOver

variable {d : ChessBoard}

theorem repInv_engineSetUp {b : Board} (h : RepInv b.toViews) (mod : Mod)
    (heirWp heirBp truceActive : Bool) (truceFrozen : BitVec 64) :
    RepInv (engineSetUp b mod heirWp heirBp truceActive truceFrozen).toViews := h

theorem repInv_handOver (d : ChessBoard) : RepInv (handOver d).toViews :=
  repInv_engineSetUp (repInv_boardSetFen _) _ _ _ _ _

/-- What the C board keeps of the text of a Dart position. -/
structure Reads (d : ChessBoard) (b : Board) : Prop where
  placement_eq : placement b.toViews = d.placement
  side_eq : b.side = d.currentPlayer
  rights : ∀ c w, HasRight b.castling c w ↔ d.castleFlag c w = true
  ep_eq : b.epSquare = epOf d.enPassantTarget
  fresh : b.ply = 0 ∧ b.kbIdleKings = boardClear.kbIdleKings
  clocks : 0 ≤ d.halfMoveClock → 1 ≤ d.fullMoveNumber →
    b.halfmove = d.halfMoveClock ∧ b.fullmove = d.fullMoveNumber

theorem placement_fillRanks (hd : d.Tidy) :
    placement (fillRanks d 7 boardClear.toViews) = d.placement := by
  funext q
  by_cases hq : q.IsValid
  · show (if q.IsValid then _ else none) = _
    rw [if_pos hq, fillRanks_mailbox 7 _ (by norm_num) q.row q.col hq, if_pos (by
      have := hq.2.1
      push_cast
      omega)]
    show ((d.getPieceAt q).map ChessPiece.man).or none = _
    rw [Option.or_none]
    rfl
  · rw [show placement _ q = none from if_neg hq]
    symm
    rw [ChessBoard.placement_eq_none]
    cases hp : d.getPieceAt q with
    | none => rfl
    | some p => exact absurd (hd.valid_of_getPieceAt hp) hq

/-- `intText` writes the digits of a number that is not negative. -/
theorem intText_of_nonneg {n : ℤ} (hn : 0 ≤ n) : intText n = Nat.toDigits 10 n.toNat :=
  if_neg (by omega)

/-- What is left of the text after the en-passant field, both numbers being in range. -/
theorem parse_clocks {half full : ℤ} (hhalf : 0 ≤ half) (hfull : 1 ≤ full) :
    ∃ fen4, parseHalfmove (intText half ++ ' ' :: intText full ++ ['\x00']) 0 = (half, fen4) ∧
      parseFullmove (skipSpace fen4) 0 = full := by
  have hdigits : ∀ n : ℕ, ∀ ch ∈ Nat.toDigits 10 n, ch.isDigit = true := fun n ch hch =>
    Nat.isDigit_of_mem_toDigits (by norm_num) (by norm_num) hch
  have hvalue : ∀ n : ℕ, Nat.ofDigitChars 10 (Nat.toDigits 10 n) 0 = n := fun n =>
    Nat.ofDigitChars_toDigits (by norm_num) (by norm_num)
  refine ⟨' ' :: (intText full ++ ['\x00']), ?_, ?_⟩
  · rw [List.append_assoc, List.cons_append, intText_of_nonneg hhalf]
    refine (parseHalfmove_digits _ 0 (hdigits half.toNat)).trans ?_
    rw [hvalue, Int.toNat_of_nonneg hhalf]
  · show parseFullmove (intText full ++ ['\x00']) 0 = full
    rw [intText_of_nonneg (by omega)]
    refine (parseFullmove_digits _ 0 (hdigits full.toNat)).trans ?_
    rw [hvalue, Int.toNat_of_nonneg (by omega)]

theorem boardSetFen_toNativeFEN (hep : ∀ t, d.enPassantTarget = some t → t.IsValid) :
    ∃ half full, boardSetFen (d.toNativeFEN ++ ['\x00']) = boardRefresh
      { boardClear with
        toViews := fillRanks d 7 boardClear.toViews
        side := d.currentPlayer
        castling := rightsByte d
        epSquare := epOf d.enPassantTarget
        halfmove := half
        fullmove := full } ∧
      (0 ≤ d.halfMoveClock → 1 ≤ d.fullMoveNumber →
        half = d.halfMoveClock ∧ full = d.fullMoveNumber) := by
  set moves : List Char :=
    intText d.halfMoveClock ++ ' ' :: intText d.fullMoveNumber ++ ['\x00'] with hmoves
  set letters := if d.castlingLetters = [] then ['-'] else d.castlingLetters with hletters
  set tail : List Char := letters ++ ' ' :: (d.epText ++ ' ' :: moves)
  set player := if d.currentPlayer = .white then 'w' else 'b' with hplayer
  have htext : d.toNativeFEN ++ ['\x00'] = d.ranksText 7 ++ ' ' :: (player :: ' ' :: tail) := by
    simp only [ChessBoard.toNativeFEN, ChessBoard.toFEN, tail, moves, hletters, hplayer,
      List.append_assoc, List.cons_append, List.nil_append]
  have hskip : skipSpace (skipField (skipSpace (' ' :: player :: ' ' :: tail))) = tail := by
    rw [hplayer]
    cases d.currentPlayer <;> rfl
  have hside : (if peek (skipSpace (' ' :: player :: ' ' :: tail)) = 'b' then Color.black
      else .white) = d.currentPlayer := by
    rw [hplayer]
    cases d.currentPlayer <;> rfl
  have hp : parsePlacement (d.toNativeFEN ++ ['\x00']) 7 0 boardClear.toViews =
      (fillRanks d 7 boardClear.toViews, ' ' :: player :: ' ' :: tail) := by
    rw [htext]
    exact parsePlacement_ranksText 7 boardClear.toViews
  have hc : parseCastling (skipSpace (skipField (skipSpace (' ' :: player :: ' ' :: tail)))) 0 =
      (rightsByte d, ' ' :: (d.epText ++ ' ' :: moves)) := by
    rw [hskip]
    exact parseCastling_letters
  have he : parseEp (skipSpace (' ' :: (d.epText ++ ' ' :: moves))) =
      (epOf d.enPassantTarget, ' ' :: moves) := parseEp_epText hep
  obtain ⟨⟨half, fen4⟩, hh⟩ : ∃ r, parseHalfmove (skipSpace (' ' :: moves)) 0 = r := ⟨_, rfl⟩
  refine ⟨half, _, by rw [boardSetFen_eq hp hc he hh, hside], fun hhalf hfull => ?_⟩
  obtain ⟨rest, hread, hlast⟩ := parse_clocks hhalf hfull
  rw [← hmoves] at hread
  obtain ⟨rfl, rfl⟩ : half = d.halfMoveClock ∧ fen4 = rest := by
    have heq : (half, fen4) = (d.halfMoveClock, rest) := hh.symm.trans hread
    exact Prod.mk.inj heq
  refine ⟨rfl, ?_⟩
  rw [hlast, if_neg (by omega)]

theorem reads_boardSetFen (hd : d.Tidy) (hep : ∀ t, d.enPassantTarget = some t → t.IsValid) :
    Reads d (boardSetFen (d.toNativeFEN ++ ['\x00'])) := by
  obtain ⟨half, full, heq, hclocks⟩ := boardSetFen_toNativeFEN hep
  rw [heq]
  exact ⟨placement_fillRanks hd, rfl, hasRight_rightsByte, rfl, ⟨rfl, rfl⟩, hclocks⟩

theorem Reads.engineSetUp {b : Board} (h : Reads d b) (mod : Mod)
    (heirWp heirBp truceActive : Bool) (truceFrozen : BitVec 64) :
    Reads d (engineSetUp b mod heirWp heirBp truceActive truceFrozen) :=
  ⟨h.placement_eq, h.side_eq, h.rights, h.ep_eq, h.fresh, h.clocks⟩

theorem reads_handOver (hd : d.Tidy) (hep : ∀ t, d.enPassantTarget = some t → t.IsValid) :
    Reads d (handOver d) := (reads_boardSetFen hd hep).engineSetUp _ _ _ _ _

/-! ## The bitboards handed over -/

/-- The bit that Dart sets for a position is the one that C reads. -/
theorem bbHas_shiftLeft {z p : Position} (hz : z.IsValid) (hp : p.IsValid) :
    bbHas (1#64 <<< ChessBoard.squareIndex p) (ofPos z) = decide (p = z) := by
  have hsq : ∀ {q : Position}, q.IsValid → ofPos q = q.row * 8 + q.col := by
    intro q hq
    rw [Position.isValid_iff] at hq
    unfold ofPos SQ
    omega
  have hindex : ofPos p = (ChessBoard.squareIndex p : ℤ) := by
    rw [hsq hp, ChessBoard.squareIndex]
    rw [Position.isValid_iff] at hp
    omega
  have hbit : bbSq (ofPos p) = 1#64 <<< ChessBoard.squareIndex p := by
    rw [hindex]
    rfl
  rw [← hbit, bbHas_bbSq (sqValid_ofPos hp) (sqValid_ofPos hz)]
  refine decide_eq_decide.mpr ⟨fun heq => ?_, fun heq => by rw [heq]⟩
  rw [← toPos_ofPos hp, ← heq, toPos_ofPos hz]

theorem bbHas_markLoop (P : ChessPiece → Bool) {z : Position} (hz : z.IsValid)
    (ps : List ChessPiece) (hps : ∀ p ∈ ps, p.position.IsValid) : ∀ bb : BitVec 64,
    bbHas (ps.foldl (fun bb p =>
      if P p then bb ||| (1#64 <<< ChessBoard.squareIndex p.position) else bb) bb) (ofPos z) = true ↔
      bbHas bb (ofPos z) = true ∨ ∃ p ∈ ps, P p = true ∧ p.position = z := by
  induction ps with
  | nil => simp
  | cons p ps ih =>
    intro bb
    rw [List.foldl_cons, ih fun q hq => hps q (List.mem_cons_of_mem _ hq)]
    have hp := hps p List.mem_cons_self
    by_cases hP : P p = true
    · simp only [hP, if_true, bbHas_or, bbHas_shiftLeft hz hp, Bool.or_eq_true, decide_eq_true_eq,
        List.exists_mem_cons_iff, true_and, or_assoc]
    · simp only [hP, if_false, List.exists_mem_cons_iff, false_and, false_or, Bool.false_eq_true]

theorem bbHas_marks (hd : d.Tidy) (P : ChessPiece → Bool) {z : Position} (hz : z.IsValid) :
    bbHas (d.pieces.foldl (fun bb p =>
      if P p then bb ||| (1#64 <<< ChessBoard.squareIndex p.position) else bb) 0) (ofPos z) = true ↔
      ∃ p, d.getPieceAt z = some p ∧ P p = true := by
  rw [bbHas_markLoop P hz d.pieces hd.valid]
  simp only [hd.getPieceAt_iff]
  rw [show bbHas 0 (ofPos z) = false from bbHas_zero]
  constructor
  · rintro (h | ⟨p, hp, hP, hpos⟩)
    · cases h
    · exact ⟨p, ⟨hp, hpos⟩, hP⟩
  · rintro ⟨p, ⟨hp, hpos⟩, hP⟩
    exact .inr ⟨p, hp, hP, hpos⟩

end HandOver

end ChessRecast.Bridge
