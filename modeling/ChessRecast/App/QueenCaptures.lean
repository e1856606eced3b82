import ChessRecast.App.Queens
import ChessRecast.App.Winner
import ChessRecast.Lib.Records

/-!
# Repeated captures of a prisoner

`SaveTheQueen.handleSpecialMove` counts the captures of a prisoner by colour, type and from-square
of the capturing piece. The count is right, but `makeMove` has tested for the draw before, so the
third capture of a series is drawn one move late.
-/

namespace ChessRecast.App

open Rules

/-! ## Series and their keys -/

/-- Who captures: colour, type and from-square of the piece. -/
structure Series where
  color : Color
  type : PieceType
  square : Position
deriving DecidableEq, Repr

/-- The series that a capture belongs to. -/
def ChessMove.series (m : ChessMove) : Series := ⟨m.piece.color, m.piece.type, m.fromPos⟩

def ChessMove.takesQueen (m : ChessMove) : Bool := m.capturedPiece.any fun q => q.type = .queen

namespace Series

/-- The name of a colour in a key. -/
def colorName : Color → List Char
  | .white => "PieceColor.white".toList
  | .black => "PieceColor.black".toList

/-- The name of a type in a key. -/
def typeName : PieceType → List Char
  | .pawn => "pawn".toList
  | .knight => "knight".toList
  | .bishop => "bishop".toList
  | .rook => "rook".toList
  | .queen => "queen".toList
  | .king => "king".toList

/-- The key of a series, for the queen of the other colour. -/
def key (s : Series) : List Char :=
  colorName s.color ++ '_' :: (typeName s.type ++ '_' :: (intText s.square.row ++
    '_' :: (intText s.square.col ++ '_' :: ("captures_".toList ++ colorName s.color.opposite))))

theorem captureKey_eq (m : ChessMove) :
    ChessBoard.captureKey m m.piece.color.opposite = m.series.key := by
  unfold ChessBoard.captureKey key
  simp only [List.append_assoc, List.cons_append]
  rfl

theorem colorName_inj {c c' : Color} (h : colorName c = colorName c') : c = c' := by
  revert h
  cases c <;> cases c' <;> decide

theorem typeName_inj {t t' : PieceType} (h : typeName t = typeName t') : t = t' := by
  revert h
  cases t <;> cases t' <;> decide

theorem intText_coordinate {n : ℤ} (h : 0 ≤ n ∧ n < 8) : '_' ∉ intText n ∧
    ∀ k : ℤ, 0 ≤ k ∧ k < 8 → intText n = intText k → n = k := by
  have hno : ∀ i : Fin 8, '_' ∉ intText (i.val : ℤ) := by decide
  have hinj : ∀ i j : Fin 8, intText (i.val : ℤ) = intText (j.val : ℤ) → i = j := by decide
  obtain ⟨i, rfl⟩ : ∃ i : Fin 8, n = (i.val : ℤ) := ⟨⟨n.toNat, by omega⟩, by simp; omega⟩
  refine ⟨hno i, fun k hk heq => ?_⟩
  obtain ⟨j, rfl⟩ : ∃ j : Fin 8, k = (j.val : ℤ) := ⟨⟨k.toNat, by omega⟩, by simp; omega⟩
  rw [hinj i j heq]

theorem key_inj {s s' : Series} (hs : s.square.IsValid) (hs' : s'.square.IsValid)
    (h : s.key = s'.key) : s = s' := by
  rw [Position.isValid_iff] at hs hs'
  have hrow := intText_coordinate (n := s.square.row) ⟨hs.1, hs.2.1⟩
  have hrow' := intText_coordinate (n := s'.square.row) ⟨hs'.1, hs'.2.1⟩
  have hcol := intText_coordinate (n := s.square.col) ⟨hs.2.2.1, hs.2.2.2⟩
  have hcol' := intText_coordinate (n := s'.square.col) ⟨hs'.2.2.1, hs'.2.2.2⟩
  have hcolor : ∀ c, '_' ∉ colorName c := by
    intro c
    cases c <;> decide
  have htype : ∀ t, '_' ∉ typeName t := by
    intro t
    cases t <;> decide
  unfold key at h
  rw [Records.append_sep_inj (hcolor _) (hcolor _), Records.append_sep_inj (htype _) (htype _),
    Records.append_sep_inj hrow.1 hrow'.1, Records.append_sep_inj hcol.1 hcol'.1] at h
  obtain ⟨h1, h2, h3, h4, -⟩ := h
  obtain ⟨c, t, ⟨row, col⟩⟩ := s
  obtain ⟨c', t', ⟨row', col'⟩⟩ := s'
  obtain rfl := colorName_inj h1
  obtain rfl := typeName_inj h2
  obtain rfl : row = row' := hrow.2 _ ⟨hs'.1, hs'.2.1⟩ h3
  obtain rfl : col = col' := hcol.2 _ ⟨hs'.2.2.1, hs'.2.2.2⟩ h4
  rfl

end Series

namespace ChessBoard

/-! ## The counter -/

/-- The number of captures of a series in the history. -/
def captures (d : ChessBoard) (s : Series) : ℕ :=
  d.moveHistory.countP fun e => e.takesQueen = true ∧ e.series = s

/-- What the map says for a key, zero where it has no entry. -/
def counted (counter : List (List Char × ℤ)) (key : List Char) : ℤ :=
  ((counter.find? fun e => e.1 = key).map Prod.snd).getD 0

section Counter

variable {counter : List (List Char × ℤ)} {key key' : List Char} {value : ℤ}

theorem counted_setEntry : counted (setEntry counter key value) key' =
    if key' = key then value else counted counter key' := by
  unfold counted setEntry
  split
  · rename_i hany
    have hcomp : ((fun e : List Char × ℤ => decide (e.1 = key')) ∘
        fun e => if e.1 = key then (key, value) else e) = fun e => decide (e.1 = key') := by
      funext e
      by_cases he : e.1 = key
      · simp [he]
      · simp [he]
    rw [List.find?_map, hcomp]
    cases hfind : counter.find? fun e => decide (e.1 = key') with
    | none =>
      have hne : key' ≠ key := by
        rintro rfl
        rw [List.find?_eq_none] at hfind
        obtain ⟨e, he, htest⟩ := List.any_eq_true.mp hany
        exact hfind e he htest
      rw [if_neg hne]
      rfl
    | some e =>
      have hkey : e.1 = key' := by simpa using List.find?_some hfind
      by_cases hk : key' = key
      · simp [hkey, hk]
      · simp [hkey, hk]
  · rename_i hnone
    rw [List.find?_append]
    by_cases hk : key' = key
    · subst hk
      have hfind : (counter.find? fun e => decide (e.1 = key')) = none := by
        rw [List.find?_eq_none]
        intro e he htest
        exact hnone (List.any_eq_true.mpr ⟨e, he, htest⟩)
      simp [hfind]
    · have hlast : ([(key, value)].find? fun e => decide (e.1 = key')) = none := by
        simp [Ne.symm hk]
      rw [hlast, Option.or_none, if_neg hk]

theorem mem_setEntry {e : List Char × ℤ} (h : e ∈ setEntry counter key value) :
    e = (key, value) ∨ (e ∈ counter ∧ e.1 ≠ key) := by
  unfold setEntry at h
  split at h
  · obtain ⟨e', he', heq⟩ := List.mem_map.mp h
    split at heq
    · exact .inl heq.symm
    · rename_i hne
      subst heq
      exact .inr ⟨he', hne⟩
  · rename_i hnone
    rcases List.mem_append.mp h with hmem | hmem
    · refine .inr ⟨hmem, fun heq => hnone ?_⟩
      exact List.any_eq_true.mpr ⟨e, hmem, decide_eq_true heq⟩
    · exact .inl (List.mem_singleton.mp hmem)

end Counter

section Played

variable {d : ChessBoard} {m : ChessMove} {q : ChessPiece}

theorem makeMove_queenCaptureCounter (d : ChessBoard) (m : ChessMove) :
    (d.makeMove m).queenCaptureCounter = d.queenCaptureCounter := by
  rw [makeMove_eq_recorded]
  split <;> rfl

theorem next_queenCaptureCounter (d : ChessBoard) (m : ChessMove) :
    (d.next m).queenCaptureCounter = (d.played m).queenCaptureCounter := by
  unfold next
  rcases updateGameStatus_cases (d.played m) with ⟨-, c, -, hup⟩ | ⟨-, hup⟩
  · rw [hup]
    rfl
  · rw [hup]
    rfl

/-- A captured queen that goes back is counted. -/
theorem counter_of_returns (hcap : m.capturedPiece = some q) (hret : d.Returns m q) :
    (d.next m).queenCaptureCounter = setEntry d.queenCaptureCounter (captureKey m q.color)
      (counted d.queenCaptureCounter (captureKey m q.color) + 1) := by
  obtain ⟨hmod, hesc, hq, hhalf, hfree⟩ := hret
  have hplayed : (d.played m).queenCaptureCounter =
      setEntry d.queenCaptureCounter (captureKey m q.color)
        (counted d.queenCaptureCounter (captureKey m q.color) + 1) := by
    unfold played handleSpecialMove
    rw [hmod]
    dsimp only
    unfold saveTheQueenSpecialMove
    unfold Escapes at hesc
    rw [if_neg hesc, hcap]
    dsimp only
    rw [if_pos hq, if_neg hhalf]
    show (d.reprison m q).queenCaptureCounter = _
    unfold reprison
    dsimp only
    rw [if_neg (by rw [hfree]; decide)]
    rfl
  rw [next_queenCaptureCounter, hplayed]

theorem counter_of_not_takesQueen (hmod : d.gameType = .saveQueen) (h : m.takesQueen = false) :
    (d.next m).queenCaptureCounter = d.queenCaptureCounter := by
  have hplayed : (d.played m).queenCaptureCounter = d.queenCaptureCounter := by
    unfold played handleSpecialMove
    rw [hmod]
    dsimp only
    unfold saveTheQueenSpecialMove
    split
    · exact makeMove_queenCaptureCounter d m
    · unfold ChessMove.takesQueen at h
      cases hcap : m.capturedPiece with
      | none => exact makeMove_queenCaptureCounter d m
      | some q =>
        rw [hcap] at h
        dsimp only
        rw [if_neg (by simpa using h)]
        exact makeMove_queenCaptureCounter d m
  rw [next_queenCaptureCounter, hplayed]

theorem captures_next (s : Series) : (d.next m).captures s =
    d.captures s + if m.takesQueen = true ∧ m.series = s then 1 else 0 := by
  unfold captures
  rw [next_moveHistory, List.countP_append]
  simp [List.countP_cons]

end Played

/-- The map of the board counts the captures of the game. -/
structure Tallied (d : ChessBoard) : Prop where
  squares : ∀ e ∈ d.moveHistory, e.fromPos.IsValid
  value : ∀ s : Series, s.square.IsValid →
    counted d.queenCaptureCounter s.key = d.captures s
  entries : ∀ entry ∈ d.queenCaptureCounter, ∃ s : Series, s.square.IsValid ∧
    entry = (s.key, (d.captures s : ℤ))

section Tally

variable {d d' : ChessBoard} {m : ChessMove}

theorem QueenedStacks.tallied_next (h : d.QueenedStacks) (ht : d.Tallied)
    (hmem : m ∈ d.getValidMovesFor m.fromPos) (hwin : ¬ d.WinsNow m) : (d.next m).Tallied := by
  have hm := moving_of_mem h.valid hmem
  have hfrom : m.fromPos.IsValid := by
    rw [← hm.piece_mem.2]
    exact h.valid _ hm.piece_mem.1
  have hsquares : ∀ e ∈ (d.next m).moveHistory, e.fromPos.IsValid := by
    intro e he
    rw [next_moveHistory] at he
    rcases List.mem_append.mp he with he | he
    · exact ht.squares e he
    · rw [List.mem_singleton.mp he]
      exact hfrom
  by_cases htakes : m.takesQueen = true
  · -- the capture is counted under the key of its series
    obtain ⟨q, hcap, hq⟩ : ∃ q, m.capturedPiece = some q ∧ q.type = .queen := by
      unfold ChessMove.takesQueen at htakes
      cases hcap : m.capturedPiece with
      | none =>
        rw [hcap] at htakes
        cases htakes
      | some q =>
        rw [hcap] at htakes
        exact ⟨q, rfl, of_decide_eq_true htakes⟩
    have hkey : captureKey m q.color = m.series.key := by
      rw [(h.takenQueen h.mod hmem hcap hq).2.2, ← hm.mover]
      exact Series.captureKey_eq m
    have hcounter := counter_of_returns hcap (h.returns h.mod hmem hcap hq hwin)
    rw [hkey, ht.value m.series hfrom] at hcounter
    have hcaptures : ∀ s, (d.next m).captures s =
        d.captures s + if m.series = s then 1 else 0 := by
      intro s
      rw [captures_next]
      simp only [htakes, true_and]
    refine ⟨hsquares, fun s hs => ?_, fun entry hentry => ?_⟩
    · rw [hcounter, counted_setEntry, hcaptures]
      by_cases heq : m.series = s
      · rw [← heq, if_pos rfl, if_pos rfl]
        push_cast
        rfl
      · rw [if_neg fun hkeys => heq (Series.key_inj hfrom hs hkeys.symm), if_neg heq, add_zero]
        exact ht.value s hs
    · rw [hcounter] at hentry
      rcases mem_setEntry hentry with rfl | ⟨hmem', hne⟩
      · refine ⟨m.series, hfrom, ?_⟩
        rw [hcaptures, if_pos rfl]
        push_cast
        rfl
      · obtain ⟨s, hs, rfl⟩ := ht.entries entry hmem'
        refine ⟨s, hs, ?_⟩
        rw [hcaptures, if_neg fun heq => hne (by rw [heq]), add_zero]
  · rw [Bool.not_eq_true] at htakes
    have hcaptures : ∀ s, (d.next m).captures s = d.captures s := by
      intro s
      rw [captures_next, htakes, if_neg fun hboth => absurd hboth.1 (by decide), add_zero]
    have hcounter := counter_of_not_takesQueen h.mod htakes
    refine ⟨hsquares, fun s hs => ?_, fun entry hentry => ?_⟩
    · rw [hcounter, hcaptures]
      exact ht.value s hs
    · rw [hcounter] at hentry
      obtain ⟨s, hs, heq⟩ := ht.entries entry hentry
      exact ⟨s, hs, by rw [hcaptures]; exact heq⟩

theorem Reached.tallied {ok : ChessBoard → ChessMove → Prop}
    (h : Reached ok (initial .saveQueen) d) (hrun : d.Running) : d.Tallied := by
  induction h with
  | start =>
    exact ⟨fun e he => (by cases he), fun s _ => rfl, fun entry hentry => (by cases hentry)⟩
  | @step d d' m hreached _ hexec ih =>
    have hmem := mem_of_executeMove hexec
    obtain rfl := eq_next_of_executeMove hexec
    have hbefore := running_of_next hrun
    exact (hreached.queenedStacks hbefore).tallied_next (ih hbefore) hmem
      (not_winsNow_of_running hrun)

/-- An entry at the threshold is a series of three captures. -/
theorem Tallied.threshold_iff (h : d.Tallied) :
    (∃ entry ∈ d.queenCaptureCounter, queenCaptureRepeatThreshold ≤ entry.2) ↔
      ∃ s, 3 ≤ d.captures s := by
  constructor
  · rintro ⟨entry, hentry, hcount⟩
    obtain ⟨s, -, rfl⟩ := h.entries entry hentry
    have hcount : (3 : ℤ) ≤ (d.captures s : ℤ) := hcount
    exact ⟨s, by exact_mod_cast hcount⟩
  · rintro ⟨s, hs⟩
    -- a series with captures has a square of the board
    have hvalid : s.square.IsValid := by
      have hpos : 0 < d.captures s := by omega
      obtain ⟨e, he, htest⟩ := List.countP_pos_iff.mp hpos
      rw [← (of_decide_eq_true htest).2]
      exact h.squares e he
    have hvalue := h.value s hvalid
    unfold counted at hvalue
    cases hfind : d.queenCaptureCounter.find? fun e => e.1 = s.key with
    | none =>
      rw [hfind] at hvalue
      simp only [Option.map_none, Option.getD_none] at hvalue
      omega
    | some entry =>
      rw [hfind] at hvalue
      simp only [Option.map_some, Option.getD_some] at hvalue
      refine ⟨entry, List.mem_of_find?_eq_some hfind, ?_⟩
      unfold queenCaptureRepeatThreshold
      omega

end Tally

/-! ## Kings and queens are enough material -/

/-- A side with a king and a queen has two men, and if it has no third then no bishop. -/
theorem bishops_of_kingAndQueen {side : List ChessPiece} (hking : ∃ k ∈ side, k.type = .king)
    (hqueen : ∃ q ∈ side, q.type = .queen) :
    2 ≤ side.length ∧ (side.length = 2 → side.filter (fun p => p.type = .bishop) = []) := by
  obtain ⟨k, hk, hkt⟩ := hking
  obtain ⟨q, hq, hqt⟩ := hqueen
  match side, hk, hq with
  | [a], hk, hq =>
    rw [List.mem_singleton] at hk hq
    rw [hq, ← hk, hkt] at hqt
    cases hqt
  | [a, b], hk, hq =>
    refine ⟨le_rfl, fun _ => ?_⟩
    simp only [List.mem_cons, List.not_mem_nil, or_false] at hk hq
    rcases hk with rfl | rfl <;> rcases hq with rfl | rfl
    · rw [hkt] at hqt
      cases hqt
    · simp [hkt, hqt]
    · simp [hkt, hqt]
    · rw [hkt] at hqt
      cases hqt
  | a :: b :: c :: l, _, _ =>
    simp only [List.length_cons]
    exact ⟨by omega, fun hlen => by omega⟩

theorem sufficient_of_kingAndQueen {white black : List ChessPiece}
    (hwk : ∃ k ∈ white, k.type = .king) (hwq : ∃ q ∈ white, q.type = .queen)
    (hbk : ∃ k ∈ black, k.type = .king) (hbq : ∃ q ∈ black, q.type = .queen) :
    isInsufficientMaterialClassic white black = false := by
  obtain ⟨hwhite, hbishops⟩ := bishops_of_kingAndQueen hwk hwq
  obtain ⟨hblack, -⟩ := bishops_of_kingAndQueen hbk hbq
  unfold isInsufficientMaterialClassic
  dsimp only
  rw [if_neg (by omega), if_neg (by omega)]
  by_cases htwo : white.length = 2
  · rw [hbishops htwo]
    simp [sameColorBishops]
  · simp [htwo]

/-! ## When a capture is drawn -/

/-- The move sends a captured queen back to its prison. -/
def SentBack (d : ChessBoard) (m : ChessMove) : Prop :=
  ∃ q, m.capturedPiece = some q ∧ d.Returns m q

/-- The move is drawn for another reason: the position was recorded twice before, or another series
stands at three. -/
def DrawnAnyway (d : ChessBoard) (m : ChessMove) : Prop :=
  2 ≤ d.positionHistory.countP (fun key => key = (d.makeMoveBoard m).getPositionKey) ∨
    ∃ s, s ≠ m.series ∧ 3 ≤ d.captures s

section Draw

variable {d d' : ChessBoard} {m : ChessMove}

theorem SentBack.not_winsNow (h : d.SentBack m) : ¬ d.WinsNow m := by
  obtain ⟨q, hcap, hmod, hesc, -, hhalf, -⟩ := h
  rintro (⟨-, hwin | ⟨q', hcap', -, hhalf'⟩⟩ | ⟨hsucc, -⟩)
  · exact hesc hwin
  · rw [hcap] at hcap'
    exact hhalf (Option.some.inj hcap' ▸ hhalf')
  · cases hmod.symm.trans hsucc

/-- A capture is drawn at once exactly where `makeMove` draws it. -/
theorem QueenedStacks.draw_iff (h : d.QueenedStacks) (hrun : d.Running)
    (hmem : m ∈ d.getValidMovesFor m.fromPos) (hback : d.SentBack m)
    (hwin : (d.next m).gameStatus ≠ .checkmate) :
    (d.next m).gameStatus = .draw ↔ d.AutoDraws m := by
  rcases next_cases d m with ⟨-, c, -, hmate, -⟩ | ⟨hkings, hstatus, -⟩
  · exact absurd hmate hwin
  · have hplayed := gameStatus_played_of_not hback.not_winsNow
    rw [hstatus]
    by_cases hauto : d.AutoDraws m
    · rw [gameStatus_makeMove_of_autoDraws hauto] at hplayed
      rw [verdict_of_over (.inr (.inr hplayed)), hplayed]
      exact iff_of_true rfl hauto
    · -- both sides have king and queen, so no other draw is due
      have hmen : ∀ c t, (∃ k, (d.next m).menOf t c = [k]) →
          ∃ k ∈ d.sideAfter m c, k.type = t := by
        rintro c t ⟨k, hk⟩
        obtain ⟨hin, htype, hcolor⟩ := mem_of_menOf hk
        rw [next_pieces] at hin
        exact ⟨k, List.mem_filter.mpr ⟨hin, decide_eq_true hcolor⟩, htype⟩
      have hking : ∀ c, ∃ k ∈ d.sideAfter m c, k.type = .king := by
        intro c
        refine hmen c .king ?_
        obtain ⟨k, hk⟩ := h.kings c
        refine h.kings_next (moving_of_mem h.valid hmem) hk fun hlost => ?_
        exact hkings h.needs c
          (h.kings_lost (moving_of_mem h.valid hmem) hk hlost.1 hlost.2)
      have hqueen : ∀ c, ∃ q ∈ d.sideAfter m c, q.type = .queen := fun c =>
        hmen c .queen (h.queens_next hmem hback.not_winsNow c)
      have hmaterial : (d.played m).isDrawn = false := by
        rw [isDrawn_played hauto, h.mod]
        exact sufficient_of_kingAndQueen (hking _) (hqueen _) (hking _) (hqueen _)
      rw [gameStatus_makeMove_of_not hauto] at hplayed
      have hgoes : (d.played m).Running := by
        unfold Running
        rw [hplayed]
        exact hrun
      exact iff_of_false (hgoes.verdict_ne_draw hmaterial) hauto

/-- The draws of `makeMove` at a capture: the clock starts again. -/
theorem Tallied.autoDraws_iff (h : d.Tallied) (hback : d.SentBack m) : d.AutoDraws m ↔
    2 ≤ d.positionHistory.countP (fun key => key = (d.makeMoveBoard m).getPositionKey) ∨
      ∃ s, 3 ≤ d.captures s := by
  obtain ⟨q, hcap, hmod, -⟩ := hback
  have hclock : ¬ fiftyMoveThreshold d.gameType (d.sideAfter m .white) (d.sideAfter m .black) ≤
      d.clockAfter m := by
    unfold clockAfter shouldResetHalfMoveClock fiftyMoveThreshold
    rw [hcap, hmod]
    simp
  unfold AutoDraws
  rw [h.threshold_iff]
  constructor
  · rintro (hfifty | hrepeats | ⟨-, hseries⟩)
    · exact absurd hfifty hclock
    · exact .inl hrepeats
    · exact .inr hseries
  · rintro (hrepeats | hseries)
    · exact .inr (.inl hrepeats)
    · exact .inr (.inr ⟨hmod, hseries⟩)

end Draw

/-- The third capture of a series is drawn exactly where another draw is due as well; an earlier
one never because of its own series. -/
theorem third_capture_drawn_iff (d : ChessBoard)
    (h : Reached (fun _ _ => True) (initial .saveQueen) d) (hrun : d.Running) (m : ChessMove)
    (d' : ChessBoard) (hexec : d.executeMove m = some d') (hback : d.SentBack m)
    (hwin : d'.gameStatus ≠ .checkmate) :
    ((d.captures m.series = 2 → d'.gameStatus = .draw) ∧
      (d.captures m.series < 2 → d'.gameStatus = .draw → d.DrawnAnyway m)) ↔
    (d.captures m.series = 2 → d.DrawnAnyway m) := by
  have hmem := mem_of_executeMove hexec
  obtain rfl := eq_next_of_executeMove hexec
  have hdraw := ((h.queenedStacks hrun).draw_iff hrun hmem hback hwin).trans
    ((h.tallied hrun).autoDraws_iff hback)
  -- a series at three is another one
  have hanyway : d.captures m.series < 3 →
      ((d.next m).gameStatus = .draw ↔ d.DrawnAnyway m) := by
    intro hfew
    rw [hdraw]
    unfold DrawnAnyway
    refine or_congr_right (exists_congr fun s => ?_)
    constructor
    · intro hs
      refine ⟨?_, hs⟩
      rintro rfl
      omega
    · exact fun hs => hs.2
  constructor
  · rintro ⟨hthird, -⟩ htwo
    exact (hanyway (by omega)).mp (hthird htwo)
  · intro hother
    refine ⟨fun htwo => (hanyway (by omega)).mpr (hother htwo), fun hfew => ?_⟩
    exact (hanyway (by omega)).mp

/-- The draw comes with the next move, whoever makes it. -/
theorem drawn_after_third_capture (d : ChessBoard)
    (h : Reached (fun _ _ => True) (initial .saveQueen) d) (hrun : d.Running)
    (hthree : ∃ s, 3 ≤ d.captures s) (m : ChessMove) (d' : ChessBoard)
    (hexec : d.executeMove m = some d') (hwin : ¬ d.WinsNow m) :
    d'.gameStatus = .draw ∨ d'.gameStatus = .checkmate := by
  obtain rfl := eq_next_of_executeMove hexec
  have hauto : d.AutoDraws m := by
    refine .inr (.inr ⟨(h.queenedStacks hrun).mod, ?_⟩)
    exact (h.tallied hrun).threshold_iff.mpr hthree
  rcases next_cases d m with ⟨-, c, -, hmate, -⟩ | ⟨-, hstatus, -⟩
  · exact .inr hmate
  · have hplayed := gameStatus_played_of_not hwin
    rw [gameStatus_makeMove_of_autoDraws hauto] at hplayed
    rw [hstatus, verdict_of_over (.inr (.inr hplayed))]
    exact .inl hplayed

/-- 1. a3 c6 2. b3 Na6 3. Qc7 Nxc7 4. c3 Na6 5. Qc7 Nxc7 6. d3 Na6 7. Qc7: the knight can take the
prisoner for the third time. -/
def threeCapturesLine : List ChessMove :=
  let pawn := fun (c : Color) (a z : Position) => ChessMove.simple a z ⟨.pawn, c, a, false⟩ none
  let queen := ChessMove.simple ⟨7, 3⟩ ⟨6, 2⟩ ⟨.queen, .white, ⟨7, 3⟩, false⟩ none
  let takes := ChessMove.simple ⟨5, 0⟩ ⟨6, 2⟩ ⟨.knight, .black, ⟨5, 0⟩, true⟩
    (some ⟨.queen, .white, ⟨6, 2⟩, true⟩)
  let back := ChessMove.simple ⟨6, 2⟩ ⟨5, 0⟩ ⟨.knight, .black, ⟨6, 2⟩, true⟩ none
  [pawn .white ⟨1, 0⟩ ⟨2, 0⟩, pawn .black ⟨6, 2⟩ ⟨5, 2⟩,
    pawn .white ⟨1, 1⟩ ⟨2, 1⟩, ChessMove.simple ⟨7, 1⟩ ⟨5, 0⟩ ⟨.knight, .black, ⟨7, 1⟩, false⟩ none,
    queen, takes, pawn .white ⟨1, 2⟩ ⟨2, 2⟩, back, queen, takes, pawn .white ⟨1, 3⟩ ⟨2, 3⟩, back,
    queen]

/-- The knight of a6 takes the prisoner of c7. -/
def knightTakesPrisoner : ChessMove :=
  ChessMove.simple ⟨5, 0⟩ ⟨6, 2⟩ ⟨.knight, .black, ⟨5, 0⟩, true⟩
    (some ⟨.queen, .white, ⟨6, 2⟩, true⟩)

theorem third_capture_drawn_first : ∃ d d' : ChessBoard,
    d.executeMove knightTakesPrisoner = some d' ∧ d.SentBack knightTakesPrisoner ∧
    d.captures knightTakesPrisoner.series = 0 ∧
    (d'.gameStatus = .draw → d.DrawnAnyway knightTakesPrisoner) := by
  have hfacts : GameLine (initial .saveQueen) (threeCapturesLine.take 5) ∧
      ((threeCapturesLine.take 5).foldl next (initial .saveQueen)).Running ∧
      ((threeCapturesLine.take 5).foldl next (initial .saveQueen)).isValidMove
        knightTakesPrisoner = true ∧
      ((threeCapturesLine.take 5).foldl next (initial .saveQueen)).Returns knightTakesPrisoner
        ⟨.queen, .white, ⟨6, 2⟩, true⟩ ∧
      (((threeCapturesLine.take 5).foldl next (initial .saveQueen)).next
        knightTakesPrisoner).gameStatus ≠ .checkmate ∧
      ((threeCapturesLine.take 5).foldl next (initial .saveQueen)).captures
        knightTakesPrisoner.series = 0 := by
    decide +kernel
  obtain ⟨hline, hrun, hvalid, hret, hwin, hzero⟩ := hfacts
  have hreached := (Reached.gameLine _ _ .start hline).mono fun _ _ _ => trivial
  have hexec := executeMove_of_isValidMove hvalid
  have hback : ((threeCapturesLine.take 5).foldl next (initial .saveQueen)).SentBack
      knightTakesPrisoner := ⟨_, rfl, hret⟩
  have hlaw := (third_capture_drawn_iff _ hreached hrun _ _ hexec hback hwin).mpr
    fun htwo => by rw [hzero] at htwo; cases htwo
  exact ⟨_, _, hexec, hback, hzero, hlaw.2 (by rw [hzero]; decide)⟩

/-- 7... Nxc7 is the third capture of its series, and the game goes on. -/
theorem third_capture_goes_on : ∃ d d' : ChessBoard,
    Reached (fun d _ => d.Running) (initial .saveQueen) d ∧ d.Running ∧
    d.executeMove knightTakesPrisoner = some d' ∧ d.SentBack knightTakesPrisoner ∧
    d.captures knightTakesPrisoner.series = 2 ∧ d'.gameStatus = .ongoing := by
  have hfacts : GameLine (initial .saveQueen) threeCapturesLine ∧
      (threeCapturesLine.foldl next (initial .saveQueen)).Running ∧
      (threeCapturesLine.foldl next (initial .saveQueen)).isValidMove knightTakesPrisoner = true ∧
      (threeCapturesLine.foldl next (initial .saveQueen)).Returns knightTakesPrisoner
        ⟨.queen, .white, ⟨6, 2⟩, true⟩ ∧
      (threeCapturesLine.foldl next (initial .saveQueen)).captures knightTakesPrisoner.series = 2 ∧
      ((threeCapturesLine.foldl next (initial .saveQueen)).next
        knightTakesPrisoner).gameStatus = .ongoing := by
    decide +kernel
  obtain ⟨hline, hrun, hvalid, hret, htwo, hgoes⟩ := hfacts
  exact ⟨_, _, Reached.gameLine _ _ .start hline, hrun, executeMove_of_isValidMove hvalid,
    ⟨_, rfl, hret⟩, htwo, hgoes⟩

end ChessBoard

end ChessRecast.App
