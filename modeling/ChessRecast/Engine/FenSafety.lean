import ChessRecast.Lib.Outcome
import ChessRecast.Engine.Fen

/-!
# `board_set_fen` on arbitrary byte strings

The scanner is run once more with its memory accesses checked: a byte behind the terminator may not
be examined, a piece may not be placed off the board, and the `int` variables `row` and `col` may
not overflow. A checked run that ends gives the board of `boardSetFen` (`boardSetFen_of_checked`).
Only the en passant field goes wrong: behind a file letter one more byte is taken whatever it is,
also the terminator.
-/

namespace ChessRecast.Engine

open Outcome

/-! ## The checked scanner -/

/-- What the scanner must not do. -/
inductive FenFault where
  | pastTerminator
  | offBoard
  | overflow
deriving DecidableEq, Repr

/-- `fen[i]`, which exists up to the terminator. -/
def byteAt : List Char → Except FenFault Char
  | [] => .error .pastTerminator
  | ch :: _ => .ok ch

/-- "1. Piece placement" -/
def placementChecked : List Char → ℤ → ℤ → Views → Except FenFault (Views × List Char)
  | [], _, _, _ => .error .pastTerminator
  | ch :: fen, row, col, v =>
    if ¬ (InInt row ∧ InInt col) then .error .overflow
    else if fieldEnd ch then .ok (v, ch :: fen)
    else if ch = '/' then placementChecked fen (row - 1) 0 v
    else if '1' ≤ ch ∧ ch ≤ '8' then placementChecked fen row (col + (ch.toNat - '0'.toNat)) v
    else
      let c := if ch.isUpper then Color.white else Color.black
      match fenPieceType ch with
      | some t =>
        if row ≥ 0 ∧ col < 8 then
          if SqValid (row * 8 + col) then
            placementChecked fen row (col + 1) (boardPlace v (SQ row col) c t)
          else .error .offBoard
        else placementChecked fen row (col + 1) v
      | none => placementChecked fen row (col + 1) v

/-- `if (fen[i] == ' ') i++;` -/
def skipSpaceChecked (fen : List Char) : Except FenFault (List Char) := do
  let ch ← byteAt fen
  return if ch = ' ' then fen.tail else fen

/-- `while (fen[i] && fen[i] != ' ') i++;` -/
def skipFieldChecked : List Char → Except FenFault (List Char)
  | [] => .error .pastTerminator
  | ch :: fen => if fieldEnd ch then .ok (ch :: fen) else skipFieldChecked fen

/-- "3. Castling" -/
def castlingChecked : List Char → BitVec 8 → Except FenFault (BitVec 8 × List Char)
  | [], _ => .error .pastTerminator
  | ch :: fen, r =>
    if fieldEnd ch then .ok (r, ch :: fen)
    else
      let r := match ch with
        | 'K' => r ||| 1
        | 'Q' => r ||| 2
        | 'k' => r ||| 4
        | 'q' => r ||| 8
        | _ => r
      castlingChecked fen r

/-- "4. En passant" -/
def epChecked (fen : List Char) : Except FenFault (ℤ × List Char) := do
  let ch ← byteAt fen
  if ch = '-' then return (sqNone, fen.tail)
  else if 'a' ≤ ch ∧ ch ≤ 'h' then
    let next ← byteAt fen.tail
    return (SQ (charVal next - charVal '1') (charVal ch - charVal 'a'), fen.tail.tail)
  else return (sqNone, fen)

/-- "5. Halfmove clock" -/
def halfmoveChecked : List Char → ℤ → Except FenFault (ℤ × List Char)
  | [], _ => .error .pastTerminator
  | ch :: fen, n =>
    if fieldEnd ch then .ok (n, ch :: fen)
    else halfmoveChecked fen (n * 10 + (charVal ch - charVal '0'))

/-- "6. Fullmove number" -/
def fullmoveChecked : List Char → ℤ → Except FenFault ℤ
  | [], _ => .error .pastTerminator
  | ch :: fen, n =>
    if '0' ≤ ch ∧ ch ≤ '9' then fullmoveChecked fen (n * 10 + (charVal ch - charVal '0')) else .ok n

/-- `board_set_fen` with every access checked. -/
def boardSetFenChecked (fen : List Char) : Except FenFault Board := do
  let (views, fen) ← placementChecked fen 7 0 boardClear.toViews
  let fen ← skipSpaceChecked fen
  let ch ← byteAt fen
  let fen ← skipFieldChecked fen
  let fen ← skipSpaceChecked fen
  let (castling, fen) ← castlingChecked fen 0
  let fen ← skipSpaceChecked fen
  let (ep, fen) ← epChecked fen
  let fen ← skipSpaceChecked fen
  let (halfmove, fen) ← halfmoveChecked fen 0
  let fen ← skipSpaceChecked fen
  let fullmove ← fullmoveChecked fen 0
  return boardRefresh
    { boardClear with
      toViews := views
      side := if ch = 'b' then Color.black else Color.white
      castling := castling
      epSquare := ep
      halfmove := halfmove
      fullmove := if fullmove < 1 then 1 else fullmove }

/-! ## A checked run is a run -/

section Erasure

variable {fen fen' : List Char} {row col n : ℤ} {v v' : Views} {r r' : BitVec 8}

theorem peek_of_byteAt {ch : Char} (h : byteAt fen = .ok ch) : peek fen = ch := by
  cases fen with
  | nil => cases h
  | cons x fen => exact Except.ok.inj h

theorem parsePlacement_of_checked (fen : List Char) : ∀ {row col : ℤ} {v : Views} {r},
    placementChecked fen row col v = .ok r → parsePlacement fen row col v = r := by
  induction fen with
  | nil => intro row col v r h; cases h
  | cons ch fen ih =>
    intro row col v r h
    rw [placementChecked] at h
    rw [parsePlacement]
    by_cases hint : InInt row ∧ InInt col
    · rw [if_neg (not_not.mpr hint)] at h
      by_cases hend : fieldEnd ch = true
      · rw [if_pos hend] at h ⊢
        exact Except.ok.inj h
      · rw [if_neg hend] at h ⊢
        by_cases hslash : ch = '/'
        · rw [if_pos hslash] at h ⊢
          exact ih h
        · rw [if_neg hslash] at h ⊢
          by_cases hdigit : '1' ≤ ch ∧ ch ≤ '8'
          · rw [if_pos hdigit] at h ⊢
            exact ih h
          · rw [if_neg hdigit] at h ⊢
            cases htype : fenPieceType ch with
            | none =>
              simp only [htype] at h
              exact ih h
            | some t =>
              simp only [htype] at h ⊢
              by_cases hon : row ≥ 0 ∧ col < 8
              · rw [if_pos hon] at h ⊢
                by_cases hsq : SqValid (row * 8 + col)
                · rw [if_pos hsq] at h
                  exact ih h
                · rw [if_neg hsq] at h
                  cases h
              · rw [if_neg hon] at h ⊢
                exact ih h
    · rw [if_pos hint] at h
      cases h

theorem skipSpace_of_checked (h : skipSpaceChecked fen = .ok fen') : skipSpace fen = fen' := by
  obtain ⟨ch, hch, h⟩ := bind_eq_ok.mp h
  rw [skipSpace, peek_of_byteAt hch]
  exact Except.ok.inj h

theorem skipField_of_checked (fen : List Char) : ∀ {fen'},
    skipFieldChecked fen = .ok fen' → skipField fen = fen' := by
  induction fen with
  | nil => intro fen' h; cases h
  | cons ch fen ih =>
    intro fen' h
    rw [skipFieldChecked] at h
    rw [skipField, List.dropWhile_cons]
    split_ifs at h with hend
    · rw [if_neg (by simp [hend])]
      exact Except.ok.inj h
    · rw [if_pos (by simpa using hend)]
      exact ih h

theorem parseCastling_of_checked (fen : List Char) : ∀ {r : BitVec 8} {x},
    castlingChecked fen r = .ok x → parseCastling fen r = x := by
  induction fen with
  | nil => intro r x h; cases h
  | cons ch fen ih =>
    intro r x h
    unfold castlingChecked at h
    unfold parseCastling
    split_ifs at h ⊢ with hend
    · exact Except.ok.inj h
    · exact ih h

theorem parseEp_of_checked {x : ℤ × List Char} (h : epChecked fen = .ok x) : parseEp fen = x := by
  obtain ⟨ch, hch, h⟩ := bind_eq_ok.mp h
  rw [parseEp, peek_of_byteAt hch]
  split_ifs at h ⊢ with hdash hfile
  · exact Except.ok.inj h
  · obtain ⟨next, hnext, h⟩ := bind_eq_ok.mp h
    dsimp only
    rw [peek_of_byteAt hnext]
    exact Except.ok.inj h
  · exact Except.ok.inj h

theorem parseHalfmove_of_checked (fen : List Char) : ∀ {n : ℤ} {x},
    halfmoveChecked fen n = .ok x → parseHalfmove fen n = x := by
  induction fen with
  | nil => intro n x h; cases h
  | cons ch fen ih =>
    intro n x h
    rw [halfmoveChecked] at h
    rw [parseHalfmove]
    split_ifs at h ⊢ with hend
    · exact Except.ok.inj h
    · exact ih h

theorem parseFullmove_of_checked (fen : List Char) : ∀ {n x : ℤ},
    fullmoveChecked fen n = .ok x → parseFullmove fen n = x := by
  induction fen with
  | nil => intro n x h; cases h
  | cons ch fen ih =>
    intro n x h
    rw [fullmoveChecked] at h
    rw [parseFullmove]
    split_ifs at h ⊢ with hdigit
    · exact ih h
    · exact Except.ok.inj h

theorem boardSetFen_of_checked {b : Board} (h : boardSetFenChecked fen = .ok b) :
    boardSetFen fen = b := by
  obtain ⟨⟨views, fen1⟩, h1, h⟩ := bind_eq_ok.mp h
  obtain ⟨fen2, h2, h⟩ := bind_eq_ok.mp h
  obtain ⟨ch, hch, h⟩ := bind_eq_ok.mp h
  obtain ⟨fen3, h3, h⟩ := bind_eq_ok.mp h
  obtain ⟨fen4, h4, h⟩ := bind_eq_ok.mp h
  obtain ⟨⟨castling, fen5⟩, h5, h⟩ := bind_eq_ok.mp h
  obtain ⟨fen6, h6, h⟩ := bind_eq_ok.mp h
  obtain ⟨⟨ep, fen7⟩, h7, h⟩ := bind_eq_ok.mp h
  obtain ⟨fen8, h8, h⟩ := bind_eq_ok.mp h
  obtain ⟨⟨halfmove, fen9⟩, h9, h⟩ := bind_eq_ok.mp h
  obtain ⟨fen10, h10, h⟩ := bind_eq_ok.mp h
  obtain ⟨fullmove, h11, h⟩ := bind_eq_ok.mp h
  unfold boardSetFen
  simp only [parsePlacement_of_checked _ h1, skipSpace_of_checked h2, peek_of_byteAt hch,
    skipField_of_checked _ h3, skipSpace_of_checked h4, parseCastling_of_checked _ h5,
    skipSpace_of_checked h6, parseEp_of_checked h7, skipSpace_of_checked h8,
    parseHalfmove_of_checked _ h9, skipSpace_of_checked h10, parseFullmove_of_checked _ h11]
  exact Except.ok.inj h

end Erasure

/-! ## Terminated buffers -/

/-- A C string that `int` indices reach: no byte but the last one is the terminator. -/
structure CString where
  bytes : List UInt8
  no_nul : 0 ∉ bytes
  length_lt : bytes.length + 1 < 2 ^ 28

/-- The bytes of the string up to its terminator. -/
def CString.buffer (s : CString) : List Char :=
  s.bytes.map (fun b => Char.ofNat b.toNat) ++ ['\x00']

/-- A buffer that ends with its first terminator. -/
def Terminated (fen : List Char) : Prop := ∃ text, fen = text ++ ['\x00'] ∧ '\x00' ∉ text

section Terminated

variable {fen : List Char} {ch : Char}

theorem Terminated.ne_nil (h : Terminated fen) : fen ≠ [] := by
  obtain ⟨text, rfl, -⟩ := h
  exact List.append_ne_nil_of_right_ne_nil _ (List.cons_ne_nil _ _)

/-- Past a byte that is not the terminator the buffer is still terminated. -/
theorem Terminated.tail (h : Terminated (ch :: fen)) (hch : ch ≠ '\x00') : Terminated fen := by
  obtain ⟨text, heq, hnul⟩ := h
  cases text with
  | nil => exact absurd (List.cons.inj heq).1 hch
  | cons x text =>
    exact ⟨text, (List.cons.inj heq).2, fun hmem => hnul (List.mem_cons_of_mem _ hmem)⟩

theorem ne_nul_of_not_fieldEnd (h : ¬ fieldEnd ch = true) : ch ≠ '\x00' := by
  rintro rfl
  exact h rfl

theorem skipField_cons (ch : Char) (fen : List Char) :
    skipField (ch :: fen) = if fieldEnd ch then ch :: fen else skipField fen := by
  rw [skipField, List.dropWhile_cons]
  by_cases hend : fieldEnd ch = true
  · rw [if_pos hend, if_neg (by simp [hend])]
  · rw [if_neg hend, if_pos (by simpa using hend)]
    rfl

theorem Terminated.skipField (h : Terminated fen) : Terminated (skipField fen) := by
  induction fen with
  | nil => exact absurd rfl h.ne_nil
  | cons ch fen ih =>
    rw [skipField_cons]
    split_ifs with hend
    · exact h
    · exact ih (h.tail (ne_nul_of_not_fieldEnd hend))

theorem Terminated.skipSpace (h : Terminated fen) : Terminated (skipSpace fen) := by
  cases fen with
  | nil => exact absurd rfl h.ne_nil
  | cons ch fen =>
    rw [Engine.skipSpace]
    split_ifs with hspace
    · have hch : ch = ' ' := hspace
      exact h.tail (by rw [hch]; decide)
    · exact h

/-! ## The fields of a terminated buffer -/

theorem byteAt_of_ne_nil (h : fen ≠ []) : byteAt fen = .ok (peek fen) := by
  cases fen with
  | nil => exact absurd rfl h
  | cons ch fen => rfl

theorem skipSpaceChecked_eq (h : Terminated fen) : skipSpaceChecked fen = .ok (skipSpace fen) := by
  rw [skipSpaceChecked, byteAt_of_ne_nil h.ne_nil, ok_bind]
  rfl

theorem skipFieldChecked_eq (h : Terminated fen) : skipFieldChecked fen = .ok (skipField fen) := by
  induction fen with
  | nil => exact absurd rfl h.ne_nil
  | cons ch fen ih =>
    rw [skipFieldChecked, skipField_cons]
    split_ifs with hend
    · rfl
    · exact ih (h.tail (ne_nul_of_not_fieldEnd hend))

/-- The placement is scanned to its end, without an overflow while the buffer is short enough. -/
theorem placementChecked_ok (fen : List Char) : ∀ (row col : ℤ) (v : Views), Terminated fen →
    row ≤ 7 → -2 ^ 31 + fen.length ≤ row → 0 ≤ col → col + 8 * fen.length < 2 ^ 31 →
    ∃ v', placementChecked fen row col v = .ok (v', skipField fen) := by
  induction fen with
  | nil => intro row col v h; exact absurd rfl h.ne_nil
  | cons ch fen ih =>
    intro row col v h hrow hlow hcol hhigh
    rw [List.length_cons] at hlow hhigh
    push_cast at hlow hhigh
    rw [placementChecked, skipField_cons, if_neg (not_not.mpr ⟨⟨by omega, by omega⟩, by omega,
      by omega⟩)]
    by_cases hend : fieldEnd ch = true
    · exact ⟨v, by rw [if_pos hend, if_pos hend]⟩
    · have htail := h.tail (ne_nul_of_not_fieldEnd hend)
      rw [if_neg hend, if_neg hend]
      by_cases hslash : ch = '/'
      · rw [if_pos hslash]
        exact ih _ _ v htail (by omega) (by omega) le_rfl (by omega)
      · rw [if_neg hslash]
        by_cases hdigit : '1' ≤ ch ∧ ch ≤ '8'
        · have hbounds : 49 ≤ ch.toNat ∧ ch.toNat ≤ 56 := hdigit
          have hzero : '0'.toNat = 48 := rfl
          rw [if_pos hdigit]
          exact ih _ _ v htail hrow (by omega) (by omega) (by omega)
        · rw [if_neg hdigit]
          dsimp only
          cases fenPieceType ch with
          | none => exact ih _ _ v htail hrow (by omega) (by omega) (by omega)
          | some t =>
            dsimp only
            by_cases hon : row ≥ 0 ∧ col < 8
            · rw [if_pos hon, if_pos ⟨by omega, by omega⟩]
              exact ih _ _ _ htail hrow (by omega) (by omega) (by omega)
            · rw [if_neg hon]
              exact ih _ _ v htail hrow (by omega) (by omega) (by omega)

theorem castlingChecked_ok (fen : List Char) : ∀ r : BitVec 8, Terminated fen →
    ∃ r', castlingChecked fen r = .ok (r', skipField fen) := by
  induction fen with
  | nil => intro r h; exact absurd rfl h.ne_nil
  | cons ch fen ih =>
    intro r h
    unfold castlingChecked
    rw [skipField_cons]
    by_cases hend : fieldEnd ch = true
    · exact ⟨r, by rw [if_pos hend, if_pos hend]⟩
    · rw [if_neg hend, if_neg hend]
      exact ih _ (h.tail (ne_nul_of_not_fieldEnd hend))

theorem halfmoveChecked_ok (fen : List Char) : ∀ n : ℤ, Terminated fen →
    ∃ n', halfmoveChecked fen n = .ok (n', skipField fen) := by
  induction fen with
  | nil => intro n h; exact absurd rfl h.ne_nil
  | cons ch fen ih =>
    intro n h
    rw [halfmoveChecked, skipField_cons]
    by_cases hend : fieldEnd ch = true
    · exact ⟨n, by rw [if_pos hend, if_pos hend]⟩
    · rw [if_neg hend, if_neg hend]
      exact ih _ (h.tail (ne_nul_of_not_fieldEnd hend))

theorem fullmoveChecked_ok (fen : List Char) : ∀ n : ℤ, Terminated fen →
    ∃ n', fullmoveChecked fen n = .ok n' := by
  induction fen with
  | nil => intro n h; exact absurd rfl h.ne_nil
  | cons ch fen ih =>
    intro n h
    rw [fullmoveChecked]
    split_ifs with hdigit
    · refine ih _ (h.tail ?_)
      rintro rfl
      exact absurd hdigit (by decide)
    · exact ⟨n, rfl⟩

end Terminated

/-! ## The en passant field -/

/-- What stands behind the first three fields. -/
def behindThreeFields (fen : List Char) : List Char :=
  skipSpace (skipField (skipSpace (skipField (skipSpace (skipField fen)))))

/-- The scanner keeps to its buffer and to the board, and leaves an en passant square or none. -/
def ScansSafely (s : CString) : Prop :=
  ∃ b, boardSetFenChecked s.buffer = .ok b ∧ (b.epSquare = sqNone ∨ SqValid b.epSquare)

/-- The byte behind a file letter of the en passant field gives a row from 0 to 7 in the five bits
that are left of it in an `int8_t`; behind `h` it may also give `SQ_NONE`. -/
def EpByteFits (s : CString) : Prop :=
  ∀ file next rest, behindThreeFields s.buffer = file :: next :: rest → 'a' ≤ file ∧ file ≤ 'h' →
    (charVal next - charVal '1') % 32 < 8 ∨
      file = 'h' ∧ (charVal next - charVal '1') % 32 = 31

section Safety

variable {fen : List Char}

theorem CString.terminated (s : CString) : Terminated s.buffer := by
  refine ⟨_, rfl, fun hmem => ?_⟩
  obtain ⟨b, hb, hch⟩ := List.mem_map.mp hmem
  have hvalid : b.toNat.isValidChar := .inl (lt_trans b.toNat_lt (by norm_num))
  have hzero : b.toNat = 0 := by
    have hnat := congrArg Char.toNat hch
    rwa [Char.ofNat, dif_pos hvalid] at hnat
  exact s.no_nul (by rwa [← UInt8.toNat_inj.mp (show b.toNat = (0 : UInt8).toNat from hzero)])

theorem sq_of_bytes {file next : Char} (hfile : 'a' ≤ file ∧ file ≤ 'h') :
    (SQ (charVal next - charVal '1') (charVal file - charVal 'a') = sqNone ∨
      SqValid (SQ (charVal next - charVal '1') (charVal file - charVal 'a'))) ↔
    ((charVal next - charVal '1') % 32 < 8 ∨
      file = 'h' ∧ (charVal next - charVal '1') % 32 = 31) := by
  have hbounds : 97 ≤ file.toNat ∧ file.toNat ≤ 104 := hfile
  have hval : charVal file = file.toNat := if_pos (by omega)
  have ha : charVal 'a' = 97 := by decide
  have hh : file = 'h' ↔ file.toNat = 104 :=
    ⟨fun h => by rw [h]; rfl, fun h => Char.toNat_inj.mp (by rw [h]; rfl)⟩
  rw [hh, hval, ha]
  generalize charVal next - charVal '1' = row
  unfold SQ sqNone SqValid
  omega

/-- Up to the en passant field every access is in order. -/
theorem boardSetFenChecked_eq (h : Terminated fen) (hlen : fen.length < 2 ^ 28) :
    ∃ views castling, boardSetFenChecked fen = epChecked (behindThreeFields fen) >>= fun r =>
      skipSpaceChecked r.2 >>= fun fen8 => halfmoveChecked fen8 0 >>= fun r9 =>
        skipSpaceChecked r9.2 >>= fun fen10 => fullmoveChecked fen10 0 >>= fun fullmove =>
          .ok (boardRefresh
            { boardClear with
              toViews := views
              side := if peek (skipSpace (skipField fen)) = 'b' then Color.black else Color.white
              castling := castling
              epSquare := r.1
              halfmove := r9.1
              fullmove := if fullmove < 1 then 1 else fullmove }) := by
  have hrow : -2 ^ 31 + (fen.length : ℤ) ≤ 7 := by omega
  have hcol : 0 + 8 * (fen.length : ℤ) < 2 ^ 31 := by omega
  obtain ⟨views, hviews⟩ := placementChecked_ok fen 7 0 boardClear.toViews h le_rfl hrow
    le_rfl hcol
  have h2 := h.skipField.skipSpace
  have h4 := h2.skipField.skipSpace
  obtain ⟨castling, hcastling⟩ := castlingChecked_ok _ 0 h4
  refine ⟨views, castling, ?_⟩
  unfold boardSetFenChecked
  simp only [hviews, skipSpaceChecked_eq h.skipField, byteAt_of_ne_nil h2.ne_nil,
    skipFieldChecked_eq h2, skipSpaceChecked_eq h2.skipField, hcastling,
    skipSpaceChecked_eq h4.skipField, ok_bind]
  rfl

/-- Behind the en passant field a terminated rest is scanned to its end. -/
theorem clocks_ok (h : Terminated fen) : ∃ fen8 r9 fen10 fullmove,
    skipSpaceChecked fen = .ok fen8 ∧ halfmoveChecked fen8 0 = .ok r9 ∧
      skipSpaceChecked r9.2 = .ok fen10 ∧ fullmoveChecked fen10 0 = .ok fullmove := by
  obtain ⟨n, hn⟩ := halfmoveChecked_ok _ 0 h.skipSpace
  obtain ⟨m, hm⟩ := fullmoveChecked_ok _ 0 h.skipSpace.skipField.skipSpace
  exact ⟨_, _, _, m, skipSpaceChecked_eq h, hn, skipSpaceChecked_eq h.skipSpace.skipField, hm⟩

end Safety

theorem scans_safely_iff (s : CString) : ScansSafely s ↔ EpByteFits s := by
  have hterm := s.terminated
  have hlen : s.buffer.length < 2 ^ 28 := by
    have hlt := s.length_lt
    rw [CString.buffer, List.length_append, List.length_map, List.length_singleton]
    omega
  obtain ⟨views, castling, heq⟩ := boardSetFenChecked_eq hterm hlen
  have hrest : Terminated (behindThreeFields s.buffer) :=
    hterm.skipField.skipSpace.skipField.skipSpace.skipField.skipSpace
  constructor
  · rintro ⟨b, hb, hep⟩ file next rest hbehind hfile
    rw [heq, hbehind] at hb
    obtain ⟨r, hr, hb⟩ := bind_eq_ok.mp hb
    obtain ⟨fen8, -, hb⟩ := bind_eq_ok.mp hb
    obtain ⟨r9, -, hb⟩ := bind_eq_ok.mp hb
    obtain ⟨fen10, -, hb⟩ := bind_eq_ok.mp hb
    obtain ⟨fullmove, -, hb⟩ := bind_eq_ok.mp hb
    obtain rfl := Except.ok.inj hb
    have hne : file ≠ '-' := by
      rintro rfl
      exact absurd hfile (by decide)
    have hr' : epChecked (file :: next :: rest) =
        .ok (SQ (charVal next - charVal '1') (charVal file - charVal 'a'), rest) := by
      show (if file = '-' then _ else if 'a' ≤ file ∧ file ≤ 'h' then _ else _) = _
      rw [if_neg hne, if_pos hfile]
      rfl
    obtain rfl := Except.ok.inj (hr.symm.trans hr')
    exact (sq_of_bytes hfile).mp hep
  · intro hfits
    -- what the field gives, and that the rest is still terminated
    obtain ⟨ep, rest, hread, hep, hterm'⟩ : ∃ ep rest,
        epChecked (behindThreeFields s.buffer) = .ok (ep, rest) ∧
          (ep = sqNone ∨ SqValid ep) ∧ Terminated rest := by
      cases hbehind : behindThreeFields s.buffer with
      | nil => exact absurd hbehind hrest.ne_nil
      | cons file fen =>
        rw [hbehind] at hrest
        by_cases hdash : file = '-'
        · refine ⟨sqNone, fen, ?_, .inl rfl, hrest.tail (by rw [hdash]; decide)⟩
          show (if file = '-' then _ else _) = _
          rw [if_pos hdash]
          rfl
        · by_cases hfile : 'a' ≤ file ∧ file ≤ 'h'
          · have hfen := hrest.tail (by rintro rfl; exact absurd hfile (by decide))
            cases fen with
            | nil => exact absurd rfl hfen.ne_nil
            | cons next rest =>
              have hcond := hfits file next rest hbehind hfile
              refine ⟨_, rest, ?_, (sq_of_bytes hfile).mpr hcond, hfen.tail ?_⟩
              · show (if file = '-' then _ else if 'a' ≤ file ∧ file ≤ 'h' then _ else _) = _
                rw [if_neg hdash, if_pos hfile]
                rfl
              · -- the terminator would give row -49
                rintro rfl
                exact absurd hcond (by
                  rw [show charVal '\x00' - charVal '1' = -49 by decide]
                  omega)
          · refine ⟨sqNone, file :: fen, ?_, .inl rfl, hrest⟩
            show (if file = '-' then _ else if 'a' ≤ file ∧ file ≤ 'h' then _ else _) = _
            rw [if_neg hdash, if_neg hfile]
            rfl
    obtain ⟨fen8, r9, fen10, fullmove, h8, h9, h10, h11⟩ := clocks_ok hterm'
    rw [hread, ok_bind, h8, ok_bind, h9, ok_bind, h10, ok_bind, h11, ok_bind] at heq
    exact ⟨_, heq, hep⟩

/-- `8/8/8/8/8/8/8/8 w - e`, cut off behind the file of the en passant square. -/
def cutFen : CString where
  bytes := [0x38, 0x2f, 0x38, 0x2f, 0x38, 0x2f, 0x38, 0x2f, 0x38, 0x2f, 0x38, 0x2f, 0x38, 0x2f,
    0x38, 0x20, 0x77, 0x20, 0x2d, 0x20, 0x65]
  no_nul := by decide
  length_lt := by decide

/-- `8/8/8/8/8/8/8/8 w - e9 0 1` -/
def rankNineFen : CString where
  bytes := [0x38, 0x2f, 0x38, 0x2f, 0x38, 0x2f, 0x38, 0x2f, 0x38, 0x2f, 0x38, 0x2f, 0x38, 0x2f,
    0x38, 0x20, 0x77, 0x20, 0x2d, 0x20, 0x65, 0x39, 0x20, 0x30, 0x20, 0x31]
  no_nul := by decide
  length_lt := by decide

/-- In the first string the byte behind the terminator is examined, in the second one the square 68
is left behind. -/
theorem ep_field_breaks_out :
    ((boardSetFenChecked cutFen.buffer).map Board.epSquare = .error .pastTerminator ∧
      ¬ ScansSafely cutFen) ∧
    ((boardSetFenChecked rankNineFen.buffer).map Board.epSquare = .ok 68 ∧
      ¬ ScansSafely rankNineFen) := by
  have hcut : (boardSetFenChecked cutFen.buffer).map Board.epSquare = .error .pastTerminator := by
    decide +kernel
  have hnine : (boardSetFenChecked rankNineFen.buffer).map Board.epSquare = .ok 68 := by
    decide +kernel
  refine ⟨⟨hcut, fun ⟨b, hb, _⟩ => ?_⟩, hnine, fun ⟨b, hb, hep⟩ => ?_⟩
  · rw [hb] at hcut
    cases hcut
  · rw [hb] at hnine
    rw [Except.ok.inj hnine] at hep
    exact absurd hep (by decide)

end ChessRecast.Engine
