import ChessRecast.App.FenRoundTrip
import ChessRecast.Bridge.FenTheorems

/-!
# One FEN format for both languages

A `FenPosition` is what a FEN string stands for. The Dart board and the C board each show such a
position, the two encoders write the same text for it, and each parser reads the position back
(`fen_codec`).
-/

namespace ChessRecast.Bridge

open Rules App Engine

/-- A position with its counters: pieces on squares of the board, an en passant target on the third
or sixth rank, and counters that an `int` holds. -/
structure FenPosition where
  placement : Placement
  onBoard : ∀ p, placement p ≠ none → p.IsValid
  side : Color
  rights : Color → Wing → Bool
  ep : Option Position
  epRank : ∀ t, ep = some t → (t.row = 2 ∨ t.row = 5) ∧ 0 ≤ t.col ∧ t.col < 8
  halfmove : ℤ
  halfmove_range : 0 ≤ halfmove ∧ halfmove < 2 ^ 31
  fullmove : ℤ
  fullmove_range : 1 ≤ fullmove ∧ fullmove < 2 ^ 31

namespace FenPosition

variable (P : FenPosition)

/-- The four bits of the castling rights. -/
def castling : BitVec 8 :=
  (if P.rights .white .king then castleWK else 0) |||
  (if P.rights .white .queen then castleWQ else 0) |||
  (if P.rights .black .king then castleBK else 0) |||
  (if P.rights .black .queen then castleBQ else 0)

theorem ep_valid {t : Position} (h : P.ep = some t) : t.IsValid := by
  have hrank := P.epRank t h
  rw [Position.isValid_iff]
  omega

end FenPosition

/-- The Dart board shows the position. -/
structure AppShows (d : ChessBoard) (P : FenPosition) : Prop where
  tidy : d.Tidy
  placement_eq : d.placement = P.placement
  side_eq : d.currentPlayer = P.side
  rights_eq : ∀ c w, d.castleFlag c w = P.rights c w
  ep_eq : d.enPassantTarget = P.ep
  clocks : d.halfMoveClock = P.halfmove ∧ d.fullMoveNumber = P.fullmove

/-- The C board shows the position, with its bitboards in step with the mailbox. -/
structure EngineShows (b : Board) (P : FenPosition) : Prop where
  repInv : RepInv b.toViews
  placement_eq : placement b.toViews = P.placement
  side_eq : b.side = P.side
  castling_eq : b.castling = P.castling
  ep_eq : b.epSquare = epOf P.ep
  clocks : b.halfmove = P.halfmove ∧ b.fullmove = P.fullmove

section Codec

variable {d : ChessBoard} {b : Board} {P : FenPosition}

theorem AppShows.ep_valid (h : AppShows d P) : ∀ t, d.enPassantTarget = some t → t.IsValid :=
  fun _ ht => P.ep_valid (h.ep_eq.symm.trans ht)

theorem AppShows.rightsByte_eq (h : AppShows d P) : rightsByte d = P.castling := by
  unfold rightsByte FenPosition.castling
  rw [← h.rights_eq, ← h.rights_eq, ← h.rights_eq, ← h.rights_eq]
  rfl

theorem AppShows.boardSetFen (h : AppShows d P) :
    EngineShows (boardSetFen (d.toNativeFEN ++ ['\x00'])) P := by
  have hrepr := repInv_boardSetFen (d.toNativeFEN ++ ['\x00'])
  have hreads := reads_boardSetFen h.tidy h.ep_valid
  obtain ⟨half, full, heq, -⟩ := boardSetFen_toNativeFEN h.ep_valid
  have hhalf := P.halfmove_range
  have hfull := P.fullmove_range
  have hclocks := hreads.clocks (by rw [h.clocks.1]; exact hhalf.1) (by rw [h.clocks.2]; exact hfull.1)
  refine ⟨hrepr, hreads.placement_eq.trans h.placement_eq, hreads.side_eq.trans h.side_eq, ?_, ?_,
    ⟨hclocks.1.trans h.clocks.1, hclocks.2.trans h.clocks.2⟩⟩
  · rw [heq, ← h.rightsByte_eq]
    rfl
  · rw [hreads.ep_eq, h.ep_eq]

theorem AppShows.fromFEN (h : AppShows d P) (gameType : Mod) :
    ∃ d', ChessBoard.fromFEN (codeUnits d.toNativeFEN) gameType = .ok d' ∧ AppShows d' P := by
  have hhalf := P.halfmove_range
  have hfull := P.fullmove_range
  obtain ⟨d', hread, hsame⟩ := fromFEN_toNativeFEN h.tidy h.ep_valid
    (by rw [h.clocks.1]; exact ⟨hhalf.1, by omega⟩)
    (by rw [h.clocks.2]; exact ⟨by omega, by omega⟩) gameType
  refine ⟨d', hread, hsame.tidy, hsame.placement_eq.trans h.placement_eq,
    hsame.side_eq.trans h.side_eq, fun c w => ?_, hsame.ep_eq.trans h.ep_eq,
    ⟨hsame.clocks.1.trans h.clocks.1, hsame.clocks.2.trans h.clocks.2⟩⟩
  obtain ⟨hwk, hwq, hbk, hbq⟩ := hsame.rights
  rw [← h.rights_eq]
  cases c <;> cases w
  · exact hwk
  · exact hwq
  · exact hbk
  · exact hbq

/-! ## Both encoders write the same text -/

theorem emptyDigit_eq {e : ℕ} (he : e ≤ 8) :
    emptyDigit e = if e > 0 then Nat.toDigits 10 e else [] := by
  unfold emptyDigit
  split_ifs with hpos
  · rw [Nat.toDigits_of_lt_base (by omega)]
    interval_cases e <;> rfl
  · rfl

theorem pieceSymbol_eq (p : ChessPiece) : pieceSymbol p.man = fenSymbol p := by
  unfold pieceSymbol fenSymbol ChessPiece.man
  cases p.type <;> rfl

theorem rowText_eq {row : ℤ} (hrow : 0 ≤ row ∧ row < 8) (h : placement b.toViews = d.placement)
    (n : ℕ) : ∀ (col : ℤ) (e : ℕ), 0 ≤ col → col + n ≤ 8 → e + n ≤ 8 →
      rowText b.toViews row n col e = d.rankText row n col e := by
  induction n with
  | zero => exact fun col e _ _ he => emptyDigit_eq (by omega)
  | succ n ih =>
    intro col e hcol hle he
    push_cast at hle
    have hsquare : b.mailbox (SQ row col) = (d.getPieceAt ⟨row, col⟩).map ChessPiece.man := by
      have hvalid : Position.IsValid ⟨row, col⟩ := ⟨hrow.1, hrow.2, hcol, by dsimp only; omega⟩
      have hp := congrFun h ⟨row, col⟩
      unfold placement at hp
      rwa [if_pos hvalid] at hp
    rw [rowText, ChessBoard.rankText, hsquare]
    cases d.getPieceAt ⟨row, col⟩ with
    | none => exact ih (col + 1) (e + 1) (by omega) (by omega) (by omega)
    | some p =>
      dsimp only [Option.map]
      rw [pieceSymbol_eq, emptyDigit_eq (by omega),
        ih (col + 1) 0 (by omega) (by omega) (by omega)]

theorem rowsText_eq (h : placement b.toViews = d.placement) (row : ℕ) (hrow : row < 8) :
    rowsText b.toViews row = d.ranksText row := by
  induction row with
  | zero => exact rowText_eq ⟨le_rfl, by norm_num⟩ h 8 0 0 le_rfl le_rfl le_rfl
  | succ row ih =>
    rw [rowsText, ChessBoard.ranksText, ih (by omega),
      rowText_eq ⟨by omega, by omega⟩ h 8 0 0 le_rfl le_rfl le_rfl]

theorem castlingText_eq (h : AppShows d P) : castlingText P.castling = castlingField d := by
  rw [← h.rightsByte_eq]
  unfold rightsByte castlingField ChessBoard.castlingLetters
  generalize d.whiteCanCastleKingside = wk
  generalize d.whiteCanCastleQueenside = wq
  generalize d.blackCanCastleKingside = bk
  generalize d.blackCanCastleQueenside = bq
  cases wk <;> cases wq <;> cases bk <;> cases bq <;> decide

theorem epSquareText_eq (h : AppShows d P) : epSquareText (epOf P.ep) = d.epText := by
  unfold ChessBoard.epText
  rw [h.ep_eq]
  cases ht : P.ep with
  | none => rfl
  | some t =>
    obtain ⟨hrow, hcol⟩ := P.epRank t ht
    obtain ⟨row, col⟩ := t
    dsimp only at hrow hcol
    obtain ⟨hlow, hhigh⟩ := hcol
    rcases hrow with rfl | rfl <;> interval_cases col <;> decide

theorem fenText_eq (hb : EngineShows b P) (hd : AppShows d P) : fenText b = d.toNativeFEN := by
  rw [fenText, rowsText_eq (hb.placement_eq.trans hd.placement_eq.symm) 7 (by norm_num),
    hb.castling_eq, castlingText_eq hd, hb.ep_eq, epSquareText_eq hd, hb.side_eq, ← hd.side_eq,
    hb.clocks.1, hb.clocks.2, ← hd.clocks.1, ← hd.clocks.2]
  unfold ChessBoard.toNativeFEN ChessBoard.toFEN castlingField
  simp only [List.append_assoc, List.cons_append, List.nil_append]
  rfl

/-! ## A Dart board for each position -/

/-- The piece that the placement puts on a square. -/
def pieceAt (P : FenPosition) (p : Position) : Option ChessPiece :=
  (P.placement p).map fun man => { type := man.2, color := man.1, position := p }

/-- A Dart board for the position. -/
def boardOf (P : FenPosition) : ChessBoard :=
  { pieces := (List.range 64).filterMap fun i => pieceAt P (squareAt i)
    currentPlayer := P.side
    enPassantTarget := P.ep
    whiteCanCastleKingside := P.rights .white .king
    whiteCanCastleQueenside := P.rights .white .queen
    blackCanCastleKingside := P.rights .black .king
    blackCanCastleQueenside := P.rights .black .queen
    halfMoveClock := P.halfmove
    fullMoveNumber := P.fullmove }

theorem mem_pieces_boardOf {q : ChessPiece} :
    q ∈ (boardOf P).pieces ↔ pieceAt P q.position = some q := by
  have hposition : ∀ {p}, pieceAt P p = some q → q.position = p := by
    intro p hq
    obtain ⟨man, -, rfl⟩ := Option.map_eq_some_iff.mp hq
    rfl
  unfold boardOf
  rw [List.mem_filterMap]
  constructor
  · rintro ⟨i, -, hq⟩
    rwa [hposition hq]
  · intro hq
    have hvalid : q.position.IsValid := by
      refine P.onBoard _ fun hnone => ?_
      rw [pieceAt, hnone] at hq
      cases hq
    obtain ⟨i, hi, heq⟩ := exists_squareAt hvalid
    exact ⟨i, List.mem_range.mpr hi, heq ▸ hq⟩

theorem tidy_boardOf : (boardOf P).Tidy := by
  constructor
  · intro q hq
    refine P.onBoard _ fun hnone => ?_
    rw [mem_pieces_boardOf, pieceAt, hnone] at hq
    cases hq
  · -- squares of different indices differ
    refine List.Pairwise.filterMap _ (R := fun i j => squareAt i ≠ squareAt j) ?_ ?_
    · intro i j hne q hq q' hq'
      obtain ⟨man, -, rfl⟩ := Option.map_eq_some_iff.mp hq
      obtain ⟨man', -, rfl⟩ := Option.map_eq_some_iff.mp hq'
      exact hne
    · refine (List.nodup_range).imp fun hne heq => hne ?_
      rw [Position.eq_iff] at heq
      unfold squareAt at heq
      dsimp only at heq
      omega

theorem appShows_boardOf (P : FenPosition) : AppShows (boardOf P) P := by
  refine ⟨tidy_boardOf, ?_, rfl, fun c w => by cases c <;> cases w <;> rfl, rfl, rfl, rfl⟩
  funext p
  unfold ChessBoard.placement
  cases hp : P.placement p with
  | some man =>
    have hq : (boardOf P).getPieceAt p
        = some { type := man.2, color := man.1, position := p } := by
      rw [tidy_boardOf.getPieceAt_iff, mem_pieces_boardOf, pieceAt, hp]
      exact ⟨rfl, rfl⟩
    rw [hq]
    rfl
  | none =>
    cases hq : (boardOf P).getPieceAt p with
    | none => rfl
    | some q =>
      rw [tidy_boardOf.getPieceAt_iff, mem_pieces_boardOf] at hq
      obtain ⟨hq, rfl⟩ := hq
      rw [pieceAt, hp] at hq
      cases hq

/-! ## The codec -/

theorem EngineShows.boardSetFen (h : EngineShows b P) {bufsize : ℤ}
    (hsize : (fenText b).length < bufsize) : ∃ text, boardGetFen b bufsize = some text ∧
      EngineShows (boardSetFen (text ++ ['\x00'])) P := by
  refine ⟨fenText b, if_pos hsize, ?_⟩
  rw [fenText_eq h (appShows_boardOf P)]
  exact (appShows_boardOf P).boardSetFen

end Codec

/-- Every position survives the three ways through a FEN string: from Dart to C, from C to C, and
from Dart to Dart. -/
theorem fen_codec (P : FenPosition) :
    (∀ d, AppShows d P → EngineShows (boardSetFen (d.toNativeFEN ++ ['\x00'])) P) ∧
    (∀ b, EngineShows b P → ∀ bufsize : ℤ, (fenText b).length < bufsize →
      ∃ text, boardGetFen b bufsize = some text ∧
        EngineShows (boardSetFen (text ++ ['\x00'])) P) ∧
    (∀ d, AppShows d P → ∀ gameType,
      ∃ d', ChessBoard.fromFEN (codeUnits d.toNativeFEN) gameType = .ok d' ∧ AppShows d' P) :=
  ⟨fun _ hd => hd.boardSetFen, fun _ hb _ hsize => hb.boardSetFen hsize,
    fun _ hd gameType => hd.fromFEN gameType⟩

theorem tidy_initial : (ChessBoard.initial .classic).Tidy := ⟨by decide, by decide +kernel⟩

/-- The position before the first move. -/
def startPosition : FenPosition where
  placement := (ChessBoard.initial .classic).placement
  onBoard := by
    intro p hp
    cases hq : (ChessBoard.initial .classic).getPieceAt p with
    | none => exact absurd (ChessBoard.placement_eq_none.mpr hq) hp
    | some q => exact tidy_initial.valid_of_getPieceAt hq
  side := .white
  rights := fun _ _ => true
  ep := none
  epRank := by simp
  halfmove := 0
  halfmove_range := by norm_num
  fullmove := 1
  fullmove_range := by norm_num

theorem fen_codec_startPosition :
    AppShows (ChessBoard.initial .classic) startPosition ∧
    EngineShows (boardSetFen ((ChessBoard.initial .classic).toNativeFEN ++ ['\x00']))
      startPosition ∧
    ∃ d', ChessBoard.fromFEN (codeUnits (ChessBoard.initial .classic).toNativeFEN) .classic
        = .ok d' ∧
      AppShows d' startPosition := by
  have hd : AppShows (ChessBoard.initial .classic) startPosition :=
    ⟨tidy_initial, rfl, rfl, fun c w => by cases c <;> cases w <;> rfl, rfl, rfl, rfl⟩
  obtain ⟨hengine, -, happ⟩ := fen_codec startPosition
  exact ⟨hd, hengine _ hd, happ _ hd .classic⟩

end ChessRecast.Bridge
