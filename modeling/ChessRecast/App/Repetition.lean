import ChessRecast.App.Placement
import ChessRecast.App.PositionKeys
import ChessRecast.App.QueenCaptures

/-!
# The record of positions

`makeMove` records the key of the board it builds. A handler that puts a queen back or keeps the
turn changes the board afterwards, and so does a missing king; Succession starts without a record.
Where none of this happens the history is the list of the positions of the game, and the third
occurrence of a position is a draw.
-/

namespace ChessRecast.App

open Rules

namespace ChessBoard

/-! ## Moves after which the record is right -/

/-- The pieces that the move leaves have a king of the colour. -/
def LeavesKing (d : ChessBoard) (m : ChessMove) (c : Color) : Prop :=
  ∃ p ∈ d.makePieces m ++ d.returnedQueen m, p.type = .king ∧ p.color = c

instance (d : ChessBoard) (m : ChessMove) (c : Color) : Decidable (d.LeavesKing m c) :=
  inferInstanceAs (Decidable (∃ p ∈ _, _))

/-- The opponent is to move: a side without king would be to move itself, white first, and a bonus
move of Kings' Battle keeps the turn. -/
def PassesTurn (d : ChessBoard) (m : ChessMove) : Prop :=
  if NeedsKings d.gameType ∧ ¬ d.LeavesKing m .white then d.currentPlayer = .black
  else if NeedsKings d.gameType ∧ ¬ d.LeavesKing m .black then d.currentPlayer = .white
  else ¬ d.KeepsTurn m

instance (d : ChessBoard) (m : ChessMove) : Decidable (d.PassesTurn m) :=
  inferInstanceAs (Decidable (ite _ _ _))

/-- The move leaves the board that `makeMove` has recorded. -/
structure KeepsRecord (d : ChessBoard) (m : ChessMove) : Prop where
  turn : d.PassesTurn m
  queen : ¬ d.SentBack m

section Step

variable {d : ChessBoard} {m : ChessMove}

theorem getKing_played_isNone (c : Color) :
    ((d.played m).getKing c).isNone = true ↔ ¬ d.LeavesKing m c := by
  obtain ⟨status, counter, hplayed⟩ := played_eq d m
  have hpieces : (d.played m).pieces = d.makePieces m ++ d.returnedQueen m := by
    rw [hplayed]
    rfl
  rw [Option.isNone_iff_eq_none]
  unfold getKing LeavesKing
  rw [hpieces, List.find?_eq_none]
  simp only [decide_eq_true_eq, not_exists, not_and]

/-- A side without king is to move, white first. -/
theorem updateGameStatus_currentPlayer (d : ChessBoard) : d.updateGameStatus.currentPlayer =
    if NeedsKings d.gameType ∧ (d.getKing .white).isNone = true then .white
    else if NeedsKings d.gameType ∧ (d.getKing .black).isNone = true then .black
    else d.currentPlayer := by
  by_cases hwhite : NeedsKings d.gameType ∧ (d.getKing .white).isNone = true
  · rw [if_pos hwhite]
    unfold updateGameStatus NeedsKings at *
    dsimp only
    rw [if_pos hwhite]
    rfl
  · rw [if_neg hwhite]
    by_cases hblack : NeedsKings d.gameType ∧ (d.getKing .black).isNone = true
    · rw [if_pos hblack]
      unfold updateGameStatus NeedsKings at *
      dsimp only
      rw [if_neg hwhite, if_pos hblack]
      rfl
    · rw [if_neg hblack]
      rcases updateGameStatus_cases d with ⟨hneeds, c, hnone, -⟩ | ⟨-, heq⟩
      · cases c with
        | white => exact absurd ⟨hneeds, Option.isNone_iff_eq_none.mpr hnone⟩ hwhite
        | black => exact absurd ⟨hneeds, Option.isNone_iff_eq_none.mpr hnone⟩ hblack
      · rw [heq]
        rfl

theorem passesTurn_iff : (d.next m).currentPlayer = d.currentPlayer.opposite ↔ d.PassesTurn m := by
  obtain ⟨status, counter, hplayed⟩ := played_eq d m
  have hplayer : (d.played m).currentPlayer =
      if d.KeepsTurn m then d.currentPlayer else d.currentPlayer.opposite := by
    rw [hplayed]
    rfl
  unfold PassesTurn next
  rw [updateGameStatus_currentPlayer, played_gameType, hplayer]
  simp only [getKing_played_isNone]
  split_ifs with hwhite hblack hkeep
  · cases d.currentPlayer <;> decide
  · cases d.currentPlayer <;> decide
  · exact iff_of_false (Color.ne_opposite _) (not_not.mpr hkeep)
  · exact iff_of_true rfl hkeep

/-- What a key shows besides pieces and side is that of the recorded board. -/
theorem next_eq_made (d : ChessBoard) (m : ChessMove) :
    (d.next m).castlingRights = (d.makeMoveBoard m).castlingRights ∧
    (d.next m).enPassantTarget = (d.makeMoveBoard m).enPassantTarget ∧
    (d.next m).positionHistory =
      d.positionHistory ++ [(d.makeMoveBoard m).getPositionKey] := by
  obtain ⟨player, status, counter, heq⟩ := next_eq_settled d m
  rw [heq]
  unfold settled
  rw [makeMove_eq_recorded]
  split <;> exact ⟨rfl, rfl, rfl⟩

theorem next_sameState_iff : (d.makeMoveBoard m).SameState (d.next m) ↔ d.PassesTurn m := by
  obtain ⟨hrights, htarget, -⟩ := next_eq_made d m
  rw [← passesTurn_iff]
  constructor
  · intro hstate
    exact hstate.player.symm
  · intro hplayer
    exact ⟨hplayer.symm, hrights.symm, htarget.symm⟩

end Step

/-- All that a key needs: pieces and target on the board. -/
structure OnBoard (d : ChessBoard) : Prop where
  valid : ∀ p ∈ d.pieces, p.position.IsValid
  target : ∀ t, d.enPassantTarget = some t → t.IsValid

section OnBoard

variable {d : ChessBoard} {m : ChessMove}

theorem onBoard_initial (mod : Mod) : (initial mod).OnBoard :=
  ⟨(gameInv_initial mod).tidy.valid, (gameInv_initial mod).target⟩

theorem OnBoard.next (h : d.OnBoard) (hmem : m ∈ d.getValidMovesFor m.fromPos) :
    (d.next m).OnBoard := by
  have hm := moving_of_mem h.valid hmem
  refine ⟨valid_next h.valid hm, fun t ht => ?_⟩
  obtain ⟨player, status, counter, heq⟩ := next_eq_settled d m
  rw [heq, settled_enPassantTarget, Option.or_eq_some_iff] at ht
  rcases ht with ht | ⟨-, ht⟩
  · have hfrom := h.valid _ hm.piece_mem.1
    rw [hm.piece_mem.2] at hfrom
    exact isValid_epTarget hfrom hm.to_valid ht
  · exact h.target t ht

theorem Reached.onBoard {ok : ChessBoard → ChessMove → Prop} {mod : Mod}
    (h : Reached ok (initial mod) d) : d.OnBoard := by
  induction h with
  | start => exact onBoard_initial mod
  | step _ _ hexec ih =>
    have hmem := mem_of_executeMove hexec
    obtain rfl := eq_next_of_executeMove hexec
    exact ih.next hmem

theorem OnBoard.made (h : d.OnBoard) (hmem : m ∈ d.getValidMovesFor m.fromPos) :
    (d.makeMoveBoard m).OnBoard := by
  have hnext := h.next hmem
  refine ⟨fun p hp => hnext.valid p ?_, fun t ht => hnext.target t ?_⟩
  · rw [next_pieces]
    exact List.mem_append_left _ hp
  · rw [(next_eq_made d m).2.1]
    exact ht

/-- A queen that was put back shows on its square, which the recorded board has free. -/
theorem Moving.top_prison (hm : d.Moving m) {q : ChessPiece} (hcap : m.capturedPiece = some q)
    (hret : d.Returns m q) : (d.makeMoveBoard m).top (queenPrison q.color) = none ∧
      (d.next m).top (queenPrison q.color) = some (q.color, q.type) := by
  have hplain : m.isCastling = false := by
    cases hc : m.isCastling with
    | false => rfl
    | true =>
      rw [(hm.castle hc).2.2.1] at hcap
      cases hcap
  have hpieces : (d.makeMoveBoard m).pieces = d.stayingPieces m ++ [placedPiece m] := by
    have h := next_pieces_of_plain (d := d) hplain
    rw [next_pieces] at h
    exact List.append_cancel_right h
  constructor
  · unfold top
    rw [Option.map_eq_none_iff, Keyed.lookup_eq_none_iff]
    intro p hp
    rw [List.mem_reverse, hpieces] at hp
    exact hm.prison_free hcap hret p hp
  · have hback : d.returnedQueen m =
        [{ q with position := queenPrison q.color, hasMoved := false }] := by
      unfold returnedQueen
      rw [hcap]
      exact if_pos hret
    unfold top
    rw [next_pieces, hback, List.reverse_append, Keyed.lookup_append]
    simp [Keyed.lookup, ChessPiece.man]

theorem returnedQueen_of_not_sentBack (h : ¬ d.SentBack m) : d.returnedQueen m = [] := by
  unfold returnedQueen
  cases hcap : m.capturedPiece with
  | none => rfl
  | some q => exact if_neg fun hret => h ⟨q, hcap, hret⟩

/-- The recorded key is that of the next board exactly if the move keeps the record. -/
theorem OnBoard.recorded_iff (h : d.OnBoard) (hmem : m ∈ d.getValidMovesFor m.fromPos) :
    (d.makeMoveBoard m).getPositionKey = (d.next m).getPositionKey ↔ d.KeepsRecord m := by
  have hm := moving_of_mem h.valid hmem
  have hmade := h.made hmem
  have hnext := h.next hmem
  rw [getPositionKey_eq_iff_top hmade.valid hnext.valid hmade.target hnext.target,
    next_sameState_iff]
  constructor
  · rintro ⟨hlook, hturn⟩
    refine ⟨hturn, ?_⟩
    rintro ⟨q, hcap, hret⟩
    have hz := hlook (queenPrison q.color)
    rw [(hm.top_prison hcap hret).1, (hm.top_prison hcap hret).2] at hz
    cases hz
  · rintro ⟨hturn, hqueen⟩
    refine ⟨fun z => ?_, hturn⟩
    unfold top
    rw [next_pieces, returnedQueen_of_not_sentBack hqueen, List.append_nil]
    rfl

theorem OnBoard.last_recorded_iff (h : d.OnBoard) (hmem : m ∈ d.getValidMovesFor m.fromPos) :
    (d.next m).positionHistory.getLast? = some (d.next m).getPositionKey ↔ d.KeepsRecord m := by
  rw [← h.recorded_iff hmem, (next_eq_made d m).2.2, List.getLast?_concat, Option.some_inj]

end OnBoard

/-! ## Games with a right record -/

/-- A line of play with the boards before the last one, the start first. -/
inductive Game (ok : ChessBoard → ChessMove → Prop) (start : ChessBoard) :
    List ChessBoard → ChessBoard → Prop
  | start : Game ok start [] start
  | step {past : List ChessBoard} {d d' : ChessBoard} {m : ChessMove} (h : Game ok start past d)
      (hok : ok d m) (hexec : d.executeMove m = some d') : Game ok start (past ++ [d]) d'

section Game

variable {d e : ChessBoard} {m : ChessMove} {past : List ChessBoard}
  {ok : ChessBoard → ChessMove → Prop} {start : ChessBoard}

theorem Game.reached (h : Game ok start past d) : Reached ok start d := by
  induction h with
  | start => exact .start
  | step _ hok hexec ih => exact .step ih hok hexec

/-- The boards before each move of a line. -/
def boardsOf : ChessBoard → List ChessMove → List ChessBoard
  | _, [] => []
  | d, m :: ms => d :: boardsOf (d.next m) ms

theorem Game.gameLine (ms : List ChessMove) : ∀ past d,
    Game (fun d _ => d.Running) start past d → GameLine d ms →
      Game (fun d _ => d.Running) start (past ++ boardsOf d ms) (ms.foldl ChessBoard.next d) := by
  induction ms with
  | nil =>
    intro past d h _
    rw [boardsOf, List.append_nil]
    exact h
  | cons m ms ih =>
    rintro past d h ⟨hrun, hvalid, hline⟩
    have hgame := ih _ _ (h.step hrun (executeMove_of_isValidMove hvalid)) hline
    rw [List.append_assoc] at hgame
    exact hgame

theorem Game.reached_past (h : Game ok start past d) (he : e ∈ past) : Reached ok start e := by
  induction h with
  | start => cases he
  | step hgame _ _ ih =>
    rw [List.mem_append, List.mem_singleton] at he
    rcases he with he | rfl
    · exact ih he
    · exact hgame.reached

/-- The boards of a game whose positions are recorded: in Succession the start is not. -/
def recordedBoards (mod : Mod) (boards : List ChessBoard) : List ChessBoard :=
  if mod = .succession then boards.tail else boards

/-- The history lists the recorded positions of a game whose moves keep the record. -/
theorem Game.positionHistory_eq {mod : Mod} (hok : ∀ d m, ok d m → d.KeepsRecord m)
    (h : Game ok (initial mod) past d) :
    d.positionHistory = (recordedBoards mod (past ++ [d])).map getPositionKey := by
  induction h with
  | start => cases mod <;> rfl
  | step hgame hm hexec ih =>
    have hmem := mem_of_executeMove hexec
    obtain rfl := eq_next_of_executeMove hexec
    have hkey := (hgame.reached.onBoard.recorded_iff hmem).mpr (hok _ _ hm)
    rw [(next_eq_made _ _).2.2, ih, hkey]
    unfold recordedBoards
    split
    · rw [List.tail_append_of_ne_nil (List.append_ne_nil_of_right_ne_nil _ (List.cons_ne_nil _ _))]
      simp only [List.map_append, List.map_cons, List.map_nil]
    · simp only [List.map_append, List.map_cons, List.map_nil]

theorem Game.boards_eq (h : Game ok start past d) : ∃ rest, past ++ [d] = start :: rest := by
  induction h with
  | start => exact ⟨[], rfl⟩
  | step hgame hm hexec ih =>
    obtain ⟨rest, hrest⟩ := ih
    exact ⟨rest ++ [_], by rw [hrest, List.cons_append]⟩

/-- Leaving the start out of the record does no harm for another position. -/
theorem Game.countP_positionHistory {mod : Mod} (hok : ∀ d m, ok d m → d.KeepsRecord m)
    (h : Game ok (initial mod) past d) {k : List Char}
    (hstart : mod = .succession → (initial mod).getPositionKey ≠ k) :
    d.positionHistory.countP (fun key => key = k) =
      (past ++ [d]).countP fun e => e.getPositionKey = k := by
  rw [h.positionHistory_eq hok, List.countP_map]
  unfold recordedBoards
  by_cases hmod : mod = .succession
  · obtain ⟨rest, hrest⟩ := h.boards_eq
    rw [if_pos hmod, hrest, List.countP_cons, if_neg, Nat.add_zero]
    · rfl
    · rw [decide_eq_true_eq]
      exact hstart hmod
  · rw [if_neg hmod]
    rfl

end Game

/-! ## The draw by repetition -/

theorem two_le_countP_iff {α : Type*} {p : α → Bool} {l : List α} :
    2 ≤ l.countP p ↔ ∃ a b, [a, b].Sublist l ∧ p a = true ∧ p b = true := by
  rw [List.countP_eq_length_filter]
  constructor
  · intro h
    have hsub : (l.filter p).Sublist l := List.filter_sublist
    have hall : ∀ a ∈ l.filter p, p a = true := fun a ha => (List.mem_filter.mp ha).2
    generalize l.filter p = found at h hsub hall
    match found, h with
    | a :: b :: rest, _ =>
      have hpair : [a, b].Sublist (a :: b :: rest) := ((List.nil_sublist rest).cons_cons b).cons_cons a
      exact ⟨a, b, hpair.trans hsub, hall a (by simp), hall b (by simp)⟩
  · rintro ⟨a, b, hsub, ha, hb⟩
    have h := (hsub.filter p).length_le
    rw [List.filter_cons_of_pos ha, List.filter_cons_of_pos hb] at h
    exact h

/-- A draw for another reason: the clock has run out, a series of queen captures stands at three,
or the material does not suffice. -/
def OtherDraw (d : ChessBoard) (m : ChessMove) : Prop :=
  fiftyMoveThreshold d.gameType (d.sideAfter m .white) (d.sideAfter m .black) ≤ d.clockAfter m ∨
  (d.gameType = .saveQueen ∧
    ∃ entry ∈ d.queenCaptureCounter, queenCaptureRepeatThreshold ≤ entry.2) ∨
  isInsufficientMaterial d.gameType (d.sideAfter m .white) (d.sideAfter m .black) = true

section Draw

variable {d : ChessBoard} {m : ChessMove}

/-- Without another draw or a win, a running game is drawn exactly if the new key was recorded
twice before. -/
theorem Running.next_draw_iff (hrun : d.Running) (hother : ¬ d.OtherDraw m)
    (hwin : (d.next m).gameStatus ≠ .checkmate) : (d.next m).gameStatus = .draw ↔
      2 ≤ d.positionHistory.countP (fun key => key = (d.makeMoveBoard m).getPositionKey) := by
  obtain ⟨hclock, hseries, hmaterial⟩ : _ ∧ _ ∧ _ := by
    unfold OtherDraw at hother
    rw [not_or, not_or] at hother
    exact hother
  have hstatus : (d.next m).gameStatus = (d.played m).verdict := by
    rcases next_cases d m with ⟨-, c, -, hmate, -⟩ | ⟨-, hstatus, -⟩
    · exact absurd hmate hwin
    · exact hstatus
  have hnow : ¬ d.WinsNow m := by
    intro hnow
    rw [hstatus, verdict_of_over (.inl (gameStatus_played_of_winsNow hnow)),
      gameStatus_played_of_winsNow hnow] at hwin
    exact hwin rfl
  have hplayed := gameStatus_played_of_not hnow
  rw [hstatus]
  constructor
  · intro hdraw
    by_contra htwice
    have hauto : ¬ d.AutoDraws m := by
      rintro (h | h | h)
      · exact hclock h
      · exact htwice h
      · exact hseries h
    have hgoes : (d.played m).Running := by
      unfold Running
      rw [hplayed, gameStatus_makeMove_of_not hauto]
      exact hrun
    refine hgoes.verdict_ne_draw ?_ hdraw
    rw [isDrawn_played hauto]
    exact Bool.eq_false_iff.mpr hmaterial
  · intro htwice
    rw [gameStatus_makeMove_of_autoDraws (.inr (.inl htwice))] at hplayed
    rw [verdict_of_over (.inr (.inr hplayed)), hplayed]

end Draw

/-- The last entry of the history is the key of the board, but for the start of Succession and
after moves that do not keep the record; and where every move does, the third occurrence of a
position is a draw. -/
theorem repetition_recorded_iff (mod : Mod) :
    ((initial mod).positionHistory.getLast? = some (initial mod).getPositionKey ↔
      mod ≠ .succession) ∧
    (∀ d m d', Reached (fun _ _ => True) (initial mod) d → d.executeMove m = some d' →
      (d'.positionHistory.getLast? = some d'.getPositionKey ↔ d.KeepsRecord m)) ∧
    (∀ past d m d', Game (fun d m => d.KeepsRecord m ∧ d.Fits m) (initial mod) past d →
      d.executeMove m = some d' → d.KeepsRecord m → d.Fits m →
      (mod = .succession → ¬ (initial mod).SamePosition d') →
      (∀ e ∈ past ++ [d], ¬ e.KingsForKnights d') →
      d.Running → ¬ d.OtherDraw m → d'.gameStatus ≠ .checkmate →
      (d'.gameStatus = .draw ↔ ∃ e f, [e, f].Sublist (past ++ [d]) ∧
        e.SamePosition d' ∧ f.SamePosition d')) := by
  refine ⟨?_, ?_, ?_⟩
  · by_cases hmod : mod = .succession
    · subst hmod
      exact iff_of_false (by simp [initial, successionInitialBoard]) (not_not.mpr rfl)
    · refine iff_of_true ?_ hmod
      unfold initial
      rw [if_neg hmod]
      rfl
  · intro d m d' hreached hexec
    have hmem := mem_of_executeMove hexec
    obtain rfl := eq_next_of_executeMove hexec
    exact hreached.onBoard.last_recorded_iff hmem
  · intro past d m d' hgame hexec hkeeps hfits hstart hswap hrun hother hwin
    have hmem := mem_of_executeMove hexec
    obtain rfl := eq_next_of_executeMove hexec
    have hwell : ∀ e ∈ past ++ [d], e.Tidy ∧ e.OnBoard := by
      intro e he
      have hreached : Reached (fun d m => d.KeepsRecord m ∧ d.Fits m) (initial mod) e := by
        rw [List.mem_append, List.mem_singleton] at he
        rcases he with he | rfl
        · exact hgame.reached_past he
        · exact hgame.reached
      exact ⟨(hreached.mono fun _ _ h => h.2).wellPlaced.tidy, hreached.onBoard⟩
    have hplaced := (hgame.reached.mono fun _ _ h => h.2).wellPlaced
    have htidy := ((hplaced.next_iff hmem).mpr hfits).tidy
    have hnext := hgame.reached.onBoard.next hmem
    have hsame : ∀ e ∈ past ++ [d],
        (e.getPositionKey = (d.next m).getPositionKey ↔ e.SamePosition (d.next m)) :=
      fun e he => samePosition_iff_of_not_swapped (hwell e he).1 htidy (hwell e he).2.target
        hnext.target (hswap e he)
    have hfirst : initial mod ∈ past ++ [d] := by
      obtain ⟨rest, hrest⟩ := hgame.boards_eq
      rw [hrest]
      exact List.mem_cons_self
    rw [hrun.next_draw_iff hother hwin, (hgame.reached.onBoard.recorded_iff hmem).mpr hkeeps,
      hgame.countP_positionHistory (fun _ _ h => h.1)
        fun hmod hkey => hstart hmod ((hsame _ hfirst).mp hkey),
      two_le_countP_iff]
    simp only [decide_eq_true_eq]
    constructor
    · rintro ⟨e, f, hsub, he, hf⟩
      exact ⟨e, f, hsub, (hsame e (hsub.subset (by simp))).mp he,
        (hsame f (hsub.subset (by simp))).mp hf⟩
    · rintro ⟨e, f, hsub, he, hf⟩
      exact ⟨e, f, hsub, (hsame e (hsub.subset (by simp))).mpr he,
        (hsame f (hsub.subset (by simp))).mpr hf⟩

theorem repetition_recorded_e4 :
    ((initial .classic).next
      (ChessMove.simple ⟨1, 4⟩ ⟨3, 4⟩ ⟨.pawn, .white, ⟨1, 4⟩, false⟩ none)).positionHistory.getLast? =
    some ((initial .classic).next
      (ChessMove.simple ⟨1, 4⟩ ⟨3, 4⟩ ⟨.pawn, .white, ⟨1, 4⟩, false⟩ none)).getPositionKey := by
  refine ((repetition_recorded_iff .classic).2.1 _ _ _ .start
    (executeMove_of_isValidMove (by decide +kernel))).mpr ⟨by decide +kernel, ?_⟩
  rintro ⟨q, hcap, -⟩
  cases hcap

/-- On a board it is enough to compare the sixty-four squares. -/
theorem placement_ext {d e : ChessBoard} (hd : d.OnBoard) (he : e.OnBoard)
    (h : ∀ i < 64, d.placement (squareAt i) = e.placement (squareAt i)) (z : Position) :
    d.placement z = e.placement z := by
  by_cases hz : z.IsValid
  · obtain ⟨i, hi, rfl⟩ := exists_squareAt hz
    exact h i hi
  · have hnone : ∀ b : ChessBoard, b.OnBoard → b.placement z = none := by
      intro b hb
      unfold placement getPieceAt
      rw [Option.map_eq_none_iff, Keyed.lookup_eq_none_iff]
      intro p hp hpos
      exact hz (hpos ▸ hb.valid p hp)
    rw [hnone d hd, hnone e he]

/-- Nf3 Nf6 and back; the knights have or have not moved before. -/
def shuffle (moved : Bool) : List ChessMove :=
  let knight := fun (c : Color) (a z : Position) (moved : Bool) =>
    ChessMove.simple a z ⟨.knight, c, a, moved⟩ none
  [knight .white ⟨0, 6⟩ ⟨2, 5⟩ moved, knight .black ⟨7, 6⟩ ⟨5, 5⟩ moved,
    knight .white ⟨2, 5⟩ ⟨0, 6⟩ true, knight .black ⟨5, 5⟩ ⟨7, 6⟩ true]

/-- Succession: after two shuffles the start stands on the board for the third time, and the game
goes on. -/
theorem third_occurrence_goes_on :
    (initial .succession).positionHistory.getLast? ≠ some (initial .succession).getPositionKey ∧
    ∃ past d e f, Game (fun d _ => d.Running) (initial .succession) past d ∧
      [e, f].Sublist past ∧ e.SamePosition d ∧ f.SamePosition d ∧ d.gameStatus = .ongoing := by
  have hfacts : GameLine (initial .succession) (shuffle false) ∧
      GameLine ((shuffle false).foldl next (initial .succession)) (shuffle true) ∧
      ((shuffle true).foldl next
        ((shuffle false).foldl next (initial .succession))).gameStatus = .ongoing ∧
      ∀ e ∈ [initial .succession, (shuffle false).foldl next (initial .succession)],
        e.currentPlayer = ((shuffle true).foldl next
          ((shuffle false).foldl next (initial .succession))).currentPlayer ∧
        e.castlingRights = ((shuffle true).foldl next
          ((shuffle false).foldl next (initial .succession))).castlingRights ∧
        e.enPassantTarget = ((shuffle true).foldl next
          ((shuffle false).foldl next (initial .succession))).enPassantTarget ∧
        ∀ i < 64, e.placement (squareAt i) = ((shuffle true).foldl next
          ((shuffle false).foldl next (initial .succession))).placement (squareAt i) := by
    decide +kernel
  obtain ⟨hfirst, hsecond, hstatus, hsame⟩ := hfacts
  have hhalf := Game.gameLine _ _ _ .start hfirst
  have hgame := Game.gameLine _ _ _ hhalf hsecond
  have hsub : [initial .succession, (shuffle false).foldl next (initial .succession)].Sublist
      ([] ++ boardsOf (initial .succession) (shuffle false) ++
        boardsOf ((shuffle false).foldl next (initial .succession)) (shuffle true)) :=
    List.Sublist.append (List.singleton_sublist.mpr List.mem_cons_self)
      (List.singleton_sublist.mpr List.mem_cons_self)
  have hpos : ∀ e ∈ [initial .succession, (shuffle false).foldl next (initial .succession)],
      e.SamePosition ((shuffle true).foldl next
        ((shuffle false).foldl next (initial .succession))) := by
    intro e he
    obtain ⟨hplayer, hrights, htarget, hmen⟩ := hsame e he
    exact ⟨⟨hplayer, hrights, htarget⟩, placement_ext
      (hgame.reached_past (hsub.subset he)).onBoard hgame.reached.onBoard hmen⟩
  exact ⟨by decide +kernel, _, _, _, _, hgame, hsub, hpos _ (by simp), hpos _ (by simp), hstatus⟩

end ChessBoard

end ChessRecast.App
