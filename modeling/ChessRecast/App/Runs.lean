import ChessRecast.App.OrchestratorTheorems

/-!
# Runs of the Dart game

Positions that `executeMove` reaches, and what holds along a run. A stale en-passant target can
put two men on one square, so the invariant is about runs whose en-passant captures are clean.
-/

namespace ChessRecast.App

open Rules

namespace ChessBoard

def Running (d : ChessBoard) : Prop := d.gameStatus = .ongoing ∨ d.gameStatus = .check

instance (d : ChessBoard) : Decidable d.Running := inferInstanceAs (Decidable (_ ∨ _))

theorem Running.ne_checkmate {d : ChessBoard} (h : d.Running) : d.gameStatus ≠ .checkmate := by
  rcases h with hr | hr <;> rw [hr] <;> decide

/-- The board that `executeMove` returns for a valid move. -/
def next (d : ChessBoard) (m : ChessMove) : ChessBoard := (d.played m).updateGameStatus

theorem executeMove_of_isValidMove {d : ChessBoard} {m : ChessMove} (h : d.isValidMove m = true) :
    d.executeMove m = some (d.next m) := if_pos h

theorem eq_next_of_executeMove {d d' : ChessBoard} {m : ChessMove}
    (h : d.executeMove m = some d') : d' = d.next m := by
  unfold executeMove at h
  split at h
  · exact (Option.some.inj h).symm
  · cases h

/-- `executeMove` leads from `start` to the board, every move being `ok` where it is played. -/
inductive Reached (ok : ChessBoard → ChessMove → Prop) (start : ChessBoard) : ChessBoard → Prop
  | start : Reached ok start start
  | step {d d' : ChessBoard} {m : ChessMove} : Reached ok start d → ok d m →
      d.executeMove m = some d' → Reached ok start d'

theorem Reached.trans {ok : ChessBoard → ChessMove → Prop} {start d d' : ChessBoard}
    (h : Reached ok start d) (h' : Reached ok d d') : Reached ok start d' := by
  induction h' with
  | start => exact h
  | step _ hm hexec ih => exact .step ih hm hexec

theorem Reached.mono {ok ok' : ChessBoard → ChessMove → Prop} {start d : ChessBoard}
    (hok : ∀ d m, ok d m → ok' d m) (h : Reached ok start d) : Reached ok' start d := by
  induction h with
  | start => exact .start
  | step _ hm hexec ih => exact .step ih (hok _ _ hm) hexec

/-- An en-passant capture ends on an empty square and takes an enemy pawn, and in Heir, where a
side may have two kings, castling starts on the king's home square. -/
structure Clean (d : ChessBoard) (m : ChessMove) : Prop where
  lands : m.isEnPassant = true → d.getPieceAt m.toPos = none
  takes : m.isEnPassant = true → ∀ q, m.capturedPiece = some q →
    q.color = d.currentPlayer.opposite
  home : d.gameType = .heir → m.isCastling = true → m.fromPos = ⟨homeRow d.currentPlayer, 4⟩

/-- What holds of the men and rights in every position of a clean run. -/
structure GameInv (d : ChessBoard) : Prop where
  tidy : d.Tidy
  target : ∀ t, d.enPassantTarget = some t → t.IsValid
  rooks : ∀ c w, d.castleFlag c w = true → d.placement ⟨homeRow c, w.rookCol⟩ = some (c, .rook)
  kings : NeedsKings d.gameType → ∀ c,
    (∃ k, d.placement k = some (c, .king)) ∧ OneKing d.placement c
  home : NeedsKings d.gameType → ∀ c w, d.castleFlag c w = true →
    d.placement ⟨homeRow c, 4⟩ = some (c, .king)

section Step

variable {d d' : ChessBoard} {m : ChessMove} {status : GameStatus} {player : Color}
  {counter : List (List Char × ℤ)}

@[simp] theorem settled_gameType : (d.settled m player status counter).gameType = d.gameType :=
  makeMove_gameType d m

@[simp] theorem settled_enPassantTarget : (d.settled m player status counter).enPassantTarget =
    (computeEnPassantTargetForMove m).or d.enPassantTarget :=
  makeMove_enPassantTarget d m

@[simp] theorem settled_moveHistory :
    (d.settled m player status counter).moveHistory = d.moveHistory ++ [m] :=
  makeMove_moveHistory d m

theorem castleFlag_settled (c : Color) (w : Wing) :
    (d.settled m player status counter).castleFlag c w = (d.makeMove m).castleFlag c w := by
  cases c <;> cases w <;> rfl

/-- A man on the board after the move is still there when a queen has gone back to prison. -/
theorem placement_settled_of_some (hd : d.Tidy) (hm : d.Sound m) {k : Position} {man : Man}
    (h : after d.placement m.view k = some man) :
    (d.settled m player status counter).placement k = some man := by
  rw [placement_settled hd hm, h]
  rfl

/-- A queen that goes back to prison is the only man that `after` does not know. -/
theorem placement_settled_cases (hd : d.Tidy) (hm : d.Sound m) {k : Position} {man : Man}
    (h : (d.settled m player status counter).placement k = some man) :
    after d.placement m.view k = some man ∨
      (d.gameType = .saveQueen ∧ man.2 = .queen ∧ k = queenPrison man.1) := by
  rw [placement_settled hd hm] at h
  cases hafter : after d.placement m.view k with
  | some man' =>
    rw [hafter] at h
    exact .inl h
  | none =>
    rw [hafter, Option.none_or, Option.map_eq_some_iff] at h
    obtain ⟨q', hq', rfl⟩ := h
    have hmem := Keyed.mem_of_lookup hq'
    rcases d.returnedQueen_cases (m := m) with hnil | ⟨q, -, hr, heq⟩
    · rw [hnil] at hmem
      cases hmem.1
    · rw [heq, List.mem_singleton] at hmem
      obtain ⟨rfl, rfl⟩ := hmem
      exact .inr ⟨hr.1, hr.2.2.1, rfl⟩

theorem isValid_epTarget {t : Position} (hfrom : m.fromPos.IsValid) (hto : m.toPos.IsValid)
    (h : computeEnPassantTargetForMove m = some t) : t.IsValid := by
  rw [Position.isValid_iff] at hfrom hto
  unfold computeEnPassantTargetForMove at h
  split at h
  · cases h
  · split at h
    · obtain rfl := Option.some.inj h
      rw [Position.isValid_iff, Int.tdiv_eq_ediv_of_nonneg (by omega)]
      dsimp only
      omega
    · cases h

theorem Sound.rook_stays (hm : d.Sound m) {c : Color} {w : Wing}
    (hflag : (d.makeMove m).castleFlag c w = true)
    (hrook : d.placement ⟨homeRow c, w.rookCol⟩ = some (c, .rook)) :
    after d.placement m.view ⟨homeRow c, w.rookCol⟩ = some (c, .rook) := by
  obtain ⟨-, hking, hleft, htaken⟩ := (castleFlag_makeMove _ _ _ _).mp hflag
  obtain ⟨rook, hat, hman⟩ := placement_eq_some.mp hrook
  have htype : rook.type = .rook := congrArg Prod.snd hman
  have hcolor : rook.color = c := congrArg Prod.fst hman
  refine hm.after_of_staying hrook ?_ ?_ nofun ?_
  · intro hfrom
    rw [hfrom, hm.from_holds] at hat
    obtain rfl := Option.some.inj hat
    exact hleft ⟨htype, hcolor, hfrom.symm⟩
  · intro hto
    rw [hto] at hat
    have hpassant : m.isEnPassant = false := by
      by_contra hep
      rw [(hm.ep (by simpa using hep)).2.1] at hat
      cases hat
    refine htaken ⟨?_, hto.symm⟩
    rw [hm.captured hpassant, hat]
    exact decide_eq_true htype
  · intro hc heq
    obtain ⟨hpiece, -, -, hfrom, -⟩ := hm.castles hc
    have hrow : homeRow c = m.fromPos.row := congrArg Position.row heq
    rw [hfrom] at hrow
    have hsame : m.piece.color = c := by
      cases hc : m.piece.color <;> cases c <;> first | rfl | (rw [hc] at hrow; cases hrow)
    exact hking ⟨hpiece, hsame⟩

theorem Sound.king_stays (hm : d.Sound m) (hno : d.NoKing m.toPos) {c : Color} {w : Wing}
    (hflag : (d.makeMove m).castleFlag c w = true) {k : Position}
    (hk : d.placement k = some (c, .king)) : after d.placement m.view k = some (c, .king) := by
  obtain ⟨-, hking, -, -⟩ := (castleFlag_makeMove _ _ _ _).mp hflag
  obtain ⟨king, hat, hman⟩ := placement_eq_some.mp hk
  refine hm.after_of_staying hk ?_ ?_ nofun ?_
  · rintro rfl
    rw [hm.from_holds] at hat
    obtain rfl := Option.some.inj hat
    exact hking ⟨congrArg Prod.snd hman, congrArg Prod.fst hman⟩
  · rintro rfl
    exact hno king hat (congrArg Prod.snd hman)
  · rintro hc rfl
    rw [(hm.castles hc).2.2.2.2] at hk
    cases hk

theorem GameInv.settled (h : d.GameInv) (hm : d.Sound m)
    (hno : NeedsKings d.gameType → d.NoKing m.toPos ∧ m.view.promo ≠ some .king) :
    (d.settled m player status counter).GameInv where
  tidy := tidy_settled h.tidy hm _ _ _
  target := by
    intro t ht
    rw [settled_enPassantTarget, Option.or_eq_some_iff] at ht
    rcases ht with ht | ⟨-, ht⟩
    · exact isValid_epTarget (h.tidy.valid_of_getPieceAt hm.from_holds) hm.to_valid ht
    · exact h.target t ht
  rooks := by
    intro c w hflag
    rw [castleFlag_settled] at hflag
    exact placement_settled_of_some h.tidy hm
      (hm.rook_stays hflag (h.rooks c w ((castleFlag_makeMove _ _ _ _).mp hflag).1))
  kings := by
    intro hneeds c
    rw [settled_gameType] at hneeds
    obtain ⟨hex, hone⟩ := h.kings hneeds c
    obtain ⟨hempty, hpromo⟩ := hno hneeds
    obtain ⟨k, hk⟩ := hm.exists_king hempty hex
    refine ⟨⟨k, placement_settled_of_some h.tidy hm hk⟩, ?_⟩
    intro k₁ k₂ h₁ h₂
    rcases placement_settled_cases h.tidy hm h₁ with h₁ | h₁
    · rcases placement_settled_cases h.tidy hm h₂ with h₂ | h₂
      · exact oneKing_view hm.toProper hone hpromo _ _ h₁ h₂
      · cases h₂.2.1
    · cases h₁.2.1
  home := by
    intro hneeds c w hflag
    rw [settled_gameType] at hneeds
    rw [castleFlag_settled] at hflag
    exact placement_settled_of_some h.tidy hm (hm.king_stays (hno hneeds).1 hflag
      (h.home hneeds c w ((castleFlag_makeMove _ _ _ _).mp hflag).1))

theorem GameInv.sound (h : d.GameInv) (hclean : d.Clean m) (hmem : m ∈ d.getValidMovesFor m.fromPos)
    (hsucc : d.gameType = .succession → m.isCastling = false) : d.Sound m := by
  obtain ⟨piece, hat, hcolor, hfilter, -⟩ := mem_getValidMovesFor.mp hmem
  have hpiece := (mem_of_getPieceAt hat).1
  have hshape := shape_of_filtered h.tidy hpiece hfilter
  refine hshape.sound h.tidy hpiece hcolor (fun hc => ?_) hclean.lands
  by_cases hneeds : NeedsKings d.gameType
  · cases hshape with
    | plain toPos hto hne heq => subst heq; cases hc
    | arrives toPos hp hto hne harr => rw [harr.flags.1] at hc; cases hc
    | enPassant toPos captured hp hto hstep htarget hcap htype heq => subst heq; cases hc
    | castling w hk hflag hcan heq =>
      subst heq
      have hman := placement_of_mem h.tidy hpiece
      rw [hk] at hman
      exact (h.kings hneeds piece.color).2 _ _ hman (h.home hneeds _ w hflag)
  · rw [hcolor]
    unfold NeedsKings at hneeds
    by_cases hheir : d.gameType = .heir
    · exact hclean.home hheir hc
    · rw [hsucc (by tauto)] at hc
      cases hc

/-- Outside Friendly Fire a clean move takes enemy men only. -/
theorem GameInv.enemy (h : d.GameInv) (hclean : d.Clean m)
    (hmem : m ∈ d.getValidMovesFor m.fromPos) (hff : d.gameType ≠ .friendlyFire)
    (hsucc : d.gameType = .succession → m.isCastling = false) :
    ∀ q, m.capturedPiece = some q → q.color = d.currentPlayer.opposite := by
  intro q hq
  by_cases hep : m.isEnPassant = true
  · exact hclean.takes hep q hq
  · obtain ⟨piece, hat, hcolor, hfilter, -⟩ := mem_getValidMovesFor.mp hmem
    rw [(h.sound hclean hmem hsucc).captured (by simpa using hep)] at hq
    have hne := notOwn_of_filtered (h.tidy.valid _ (mem_of_getPieceAt hat).1) hff hclean.lands
      hfilter q hq
    rw [hcolor] at hne
    exact Color.ne_iff_eq_opposite.mp hne

/-- What an executed clean move takes and becomes, outside Heir and Succession. -/
theorem GameInv.noKing (h : d.GameInv) (hclean : d.Clean m)
    (hmem : m ∈ d.getValidMovesFor m.fromPos) (hneeds : NeedsKings d.gameType) :
    d.NoKing m.toPos ∧ m.view.promo ≠ some .king := by
  obtain ⟨piece, hat, -, hfilter, hkeeps⟩ := mem_getValidMovesFor.mp hmem
  have hshape := shape_of_filtered h.tidy (mem_of_getPieceAt hat).1 hfilter
  exact ⟨(hshape.takesKing_iff_of_empty hclean.lands).mp
    (not_takesKing_of_keepsMove hneeds.1 hkeeps), hshape.promo_ne_king hneeds.1 hneeds.2⟩

theorem GameInv.executeMove_eq (h : d.GameInv) (hclean : d.Clean m)
    (hsucc : d.gameType = .succession → m.isCastling = false) (hexec : d.executeMove m = some d') :
    ∃ status counter, d' = d.settled m
      (if d.KeepsTurn m then d.currentPlayer else d.currentPlayer.opposite) status counter :=
  ChessBoard.executeMove_eq h.tidy (h.sound hclean (mem_of_executeMove hexec) hsucc)
    (fun hneeds => ⟨(h.noKing hclean (mem_of_executeMove hexec) hneeds).1,
      fun c => (h.kings hneeds c).1⟩) hexec

theorem GameInv.step (h : d.GameInv) (hclean : d.Clean m)
    (hsucc : d.gameType = .succession → m.isCastling = false)
    (hexec : d.executeMove m = some d') : d'.GameInv := by
  obtain ⟨status, counter, rfl⟩ := h.executeMove_eq hclean hsucc hexec
  exact h.settled (h.sound hclean (mem_of_executeMove hexec) hsucc)
    (h.noKing hclean (mem_of_executeMove hexec))

end Step

/-! ## Whole runs -/

theorem kings_initial {mod : Mod} (hneeds : NeedsKings mod) (c : Color) :
    (initial mod).placement ⟨homeRow c, 4⟩ = some (c, .king) ∧
      ((initial mod).kingsOf c).length ≤ 1 := by
  cases mod with
  | heir => exact absurd rfl hneeds.1
  | succession => exact absurd rfl hneeds.2
  | _ => cases c <;> decide +kernel

theorem initial_gameType (mod : Mod) : (initial mod).gameType = mod := by cases mod <;> rfl

theorem gameInv_initial (mod : Mod) : (initial mod).GameInv where
  tidy := ⟨by cases mod <;> decide +kernel, by cases mod <;> decide +kernel⟩
  target := by
    intro t ht
    cases mod <;> cases ht
  rooks := by
    intro c w _
    cases mod <;> cases c <;> cases w <;> decide +kernel
  kings := by
    intro hneeds c
    rw [initial_gameType] at hneeds
    obtain ⟨hhome, hone⟩ := kings_initial hneeds c
    exact ⟨⟨_, hhome⟩, oneKing_of_kingsOf hone⟩
  home := by
    intro hneeds c w _
    rw [initial_gameType] at hneeds
    exact (kings_initial hneeds c).1

/-- Outside Succession the invariant holds along every clean run. -/
theorem Reached.gameInv {start d : ChessBoard} {ok : ChessBoard → ChessMove → Prop}
    (hok : ∀ d m, ok d m → d.Clean m) (hstart : start.GameInv)
    (hsucc : start.gameType ≠ .succession) (h : Reached ok start d) :
    d.GameInv ∧ d.gameType = start.gameType := by
  induction h with
  | start => exact ⟨hstart, rfl⟩
  | @step d d' m _ hclean hexec ih =>
    obtain ⟨hinv, hmod⟩ := ih
    have hne : d.gameType = .succession → m.isCastling = false :=
      fun hs => absurd (hmod.symm.trans hs) hsucc
    refine ⟨hinv.step (hok _ _ hclean) hne hexec, ?_⟩
    obtain ⟨status, counter, rfl⟩ := hinv.executeMove_eq (hok _ _ hclean) hne hexec
    rw [settled_gameType, hmod]

/-! ## Concrete lines -/

theorem clean_of_plain {d : ChessBoard} {m : ChessMove} (hep : m.isEnPassant = false)
    (hcastle : m.isCastling = false) : d.Clean m where
  lands h := by rw [hep] at h; cases h
  takes h := by rw [hep] at h; cases h
  home _ h := by rw [hcastle] at h; cases h

/-- A line of valid moves, none of them en passant or castling, in a game that goes on. -/
def PlainLine : ChessBoard → List ChessMove → Prop
  | _, [] => True
  | d, m :: ms => d.Running ∧ (m.isEnPassant = false ∧ m.isCastling = false) ∧
      d.isValidMove m = true ∧ PlainLine (d.next m) ms

instance instDecidablePlainLine : (d : ChessBoard) → (ms : List ChessMove) →
    Decidable (PlainLine d ms)
  | _, [] => isTrue trivial
  | d, m :: ms =>
    let _ := instDecidablePlainLine (d.next m) ms
    inferInstanceAs (Decidable (_ ∧ _ ∧ _ ∧ _))

/-- A clean move of a game that goes on. -/
def PlaysOn (d : ChessBoard) (m : ChessMove) : Prop := d.Running ∧ d.Clean m

theorem Reached.line {start : ChessBoard} (ms : List ChessMove) : ∀ d : ChessBoard,
    Reached PlaysOn start d → PlainLine d ms → Reached PlaysOn start (ms.foldl next d) := by
  induction ms with
  | nil => exact fun _ hd _ => hd
  | cons m ms ih =>
    rintro d hd ⟨hrun, ⟨hep, hcastle⟩, hvalid, hrest⟩
    exact ih _ (.step hd ⟨hrun, clean_of_plain hep hcastle⟩ (executeMove_of_isValidMove hvalid)) hrest

end ChessBoard

end ChessRecast.App
