import ChessRecast.App.KingsBattle
import ChessRecast.Bridge.Execution

/-!
# Lines played on both boards

A Dart position is handed over at some ply of the game, and every later move is made on the C
board as well.
-/

namespace ChessRecast.Bridge

open App Engine Rules

/-- The C board has followed the Dart game from some ply on. -/
inductive Follows (ok : ChessBoard → ChessMove → Prop) (start : ChessBoard) :
    ChessBoard → Board → Prop
  | handOver {d : ChessBoard} : ChessBoard.Reached ok start d → Follows ok start d (handOver d)
  | step {d d' : ChessBoard} {b : Board} {m : ChessMove} : Follows ok start d b → ok d m →
      d.executeMove m = some d' → Follows ok start d' (boardMakeMove b (engineMove m))

theorem Follows.reached {ok : ChessBoard → ChessMove → Prop} {start d : ChessBoard} {b : Board}
    (h : Follows ok start d b) : ChessBoard.Reached ok start d := by
  induction h with
  | handOver hd => exact hd
  | step _ hok hexec ih => exact .step ih hok hexec

/-- The C board has followed the Dart game from a position that met `hand`, and both met `fits`
wherever a move was made. -/
inductive Tracks (ok : ChessBoard → ChessMove → Prop) (hand : ChessBoard → Prop)
    (fits : ChessBoard → Board → Prop) (start : ChessBoard) : ChessBoard → Board → Prop
  | handOver {d : ChessBoard} : ChessBoard.Reached ok start d → hand d →
      Tracks ok hand fits start d (handOver d)
  | step {d d' : ChessBoard} {b : Board} {m : ChessMove} : Tracks ok hand fits start d b →
      fits d b → ok d m → d.executeMove m = some d' →
      Tracks ok hand fits start d' (boardMakeMove b (engineMove m))

theorem Tracks.line {hand : ChessBoard → Prop} {start : ChessBoard} (ms : List ChessMove) :
    ∀ (d : ChessBoard) (b : Board), Tracks ChessBoard.Clean hand (fun _ _ => True) start d b →
      d.PlainLine ms → Tracks ChessBoard.Clean hand (fun _ _ => True) start
        (ms.foldl ChessBoard.next d) (ms.foldl (fun b m => boardMakeMove b (engineMove m)) b) := by
  induction ms with
  | nil => exact fun _ _ h _ => h
  | cons m ms ih =>
    rintro d b h ⟨-, ⟨hep, hcastle⟩, hvalid, hrest⟩
    exact ih _ _ (.step h trivial (ChessBoard.clean_of_plain hep hcastle)
      (ChessBoard.executeMove_of_isValidMove hvalid)) hrest

theorem castlingSound_of_gameInv {d : ChessBoard} (h : d.GameInv)
    (hneeds : ChessBoard.NeedsKings d.gameType) : CastlingSound d := fun c w hflag =>
  ⟨h.home hneeds c w hflag, h.rooks c w hflag⟩

/-- One move keeps the two boards together; Friendly Fire is left out, since a promoted piece
counts as moved in C only. -/
theorem Sim.step {d : ChessBoard} {b : Board} {m : ChessMove} (h : Sim d b) (hm : d.Sound m)
    (henemy : TakesEnemyPawn d m)
    (hown : d.gameType = .saveQueen → d.NotOwn m.piece m.toPos)
    (hrooks : ∀ c w, d.castleFlag c w = true →
      d.placement ⟨homeRow c, w.rookCol⟩ = some (c, .rook))
    (hff : d.gameType ≠ .friendlyFire)
    (hphase : d.gameType = .kingsBattle →
      (boardMakeMove b (engineMove m)).kbUnlocked = d.unlockedAfter m)
    (status : GameStatus) (counter : List (List Char × ℤ)) :
    Sim (d.settled m (if d.KeepsTurn m then d.currentPlayer else d.currentPlayer.opposite)
      status counter) (boardMakeMove b (engineMove m)) where
  tidy := ChessBoard.tidy_settled h.tidy hm _ _ _
  rep := repInv_boardMakeMove h.rep (wellFormed_engineMove h hm henemy)
  placement_eq := placement_engineMove h hm henemy hown _ _ _
  side_eq := by
    show (if (makeKb b (engineMove m)).bonus then b.side else b.side.opposite) =
      if d.KeepsTurn m then _ else _
    rw [h.side_eq]
    exact if_congr (bonus_engineMove h hm) rfl rfl
  mod_eq := by
    rw [ChessBoard.settled_gameType, ← h.mod_eq]
    rfl
  rights := by
    intro c w
    rw [ChessBoard.castleFlag_settled]
    exact hasRight_engineMove h hm hrooks c w
  phase := by
    intro hmod
    rw [ChessBoard.settled_gameType] at hmod
    rw [hphase hmod, ChessBoard.isPhase2Unlocked, ChessBoard.settled_moveHistory]
    rfl
  moved := by
    intro hmod
    rw [ChessBoard.settled_gameType] at hmod
    exact absurd hmod hff

/-- After a move the en-passant square of C is that of a pawn that has just skipped it. -/
theorem Sim.epInv_engineMove {d : ChessBoard} {b : Board} {m : ChessMove} (h : Sim d b)
    (hm : d.Sound m) (henemy : TakesEnemyPawn d m) (hmem : m ∈ d.getValidMovesFor m.fromPos) :
    EpInv (boardMakeMove b (engineMove m)) := by
  refine epInv_boardMakeMove h.rep (wellFormed_engineMove h hm henemy) fun _ hp hdiff => ?_
  have hfrom : m.fromPos.IsValid := h.tidy.valid_of_getPieceAt hm.from_holds
  have hfrom' := (Position.isValid_iff _).mp hfrom
  have hto' := (Position.isValid_iff _).mp hm.to_valid
  have htwo : m.IsTwoSquare := by
    refine ⟨hp, ?_⟩
    have hdiff' : ofPos m.toPos - ofPos m.fromPos = 16 ∨ ofPos m.toPos - ofPos m.fromPos = -16 :=
      hdiff
    rw [ofPos, ofPos, SQ_eq hm.to_valid, SQ_eq hfrom] at hdiff'
    have hrows : m.toPos.row - m.fromPos.row = 2 ∨ m.toPos.row - m.fromPos.row = -2 := by omega
    rcases hrows with hr | hr <;> rw [hr] <;> rfl
  obtain ⟨hrow, hskip, hto, hempty, heq⟩ := ChessBoard.offered_doublePush hmem htwo
  rw [hm.mover, ← h.side_eq] at hrow hskip hto
  have hsqRow : sqRow (ofPos m.fromPos) = m.fromPos.row := sqRow_SQ hfrom
  have hsqCol : sqCol (ofPos m.fromPos) = m.fromPos.col := sqCol_SQ hfrom
  have hmid : (m.fromPos.offset b.side.forward 0).IsValid := by
    rw [Position.isValid_iff, Position.offset_row, Position.offset_col, hrow]
    cases b.side <;> simp [doubleRow, Color.forward] <;> omega
  have hnone : b.mailbox (ofPos m.toPos) = none := by
    rw [h.mailbox hm.to_valid, ChessBoard.placement_eq_none.mpr hempty]
  refine ⟨sqValid_ofPos hfrom, ?_, ?_, ?_, hnone, ?_⟩
  · show sqRow (ofPos m.fromPos) = _
    rw [hsqRow, hrow, rank2_eq]
  · show b.mailbox (SQ (sqRow (ofPos m.fromPos) + b.side.forward) (sqCol (ofPos m.fromPos))) = none
    rw [hsqRow, hsqCol]
    have hmail := h.mailbox hmid
    rw [ChessBoard.placement_eq_none.mpr hskip] at hmail
    simpa [ofPos] using hmail
  · show ofPos m.toPos = SQ (sqRow (ofPos m.fromPos) + _) (sqCol (ofPos m.fromPos))
    rw [hsqRow, hsqCol, hto]
    simp [ofPos, mul_comm]
  · have hcap : m.capturedPiece = none := by
      rw [heq]
      exact hempty
    have hflags : m.isCastling = false ∧ m.isEnPassant = false ∧ m.isPromotion = false := by
      rw [heq]
      exact ⟨rfl, rfl, rfl⟩
    show engineMove m = plainMove b (ofPos m.fromPos) (ofPos m.toPos) .pawn
    unfold engineMove plainMove
    rw [hnone, hcap, hflags.1, hflags.2.1, hflags.2.2, show m.piece.type = .pawn from hp]
    rfl

theorem Sim.popcount_eq {d : ChessBoard} {b : Board} (h : Sim d b) (c : Color) (t : PieceType) :
    bbPopcount (b.pieces c t) = (d.pieces.filter fun p => p.type = t ∧ p.color = c).length := by
  have hsub : ∀ p ∈ d.pieces.filter (fun p => p.type = t ∧ p.color = c), p ∈ d.pieces :=
    fun p hp => (List.mem_filter.mp hp).1
  have hnodup : ((d.pieces.filter fun p => p.type = t ∧ p.color = c).map
      fun p => ofPos p.position).Nodup := by
    rw [List.Nodup, List.pairwise_map]
    refine (h.tidy.distinct.filter _).imp_of_mem fun {p q} hp hq hne heq => hne ?_
    rw [← toPos_ofPos (h.tidy.valid p (hsub p hp)), heq, toPos_ofPos (h.tidy.valid q (hsub q hq))]
  have hperm : (bbSquares (b.pieces c t)).Perm ((d.pieces.filter fun p =>
      p.type = t ∧ p.color = c).map fun p => ofPos p.position) := by
    rw [List.perm_ext_iff_of_nodup nodup_bbSquares hnodup]
    intro s
    rw [mem_bbSquares, List.mem_map]
    constructor
    · rintro ⟨hs, hbit⟩
      rw [h.rep.bit_iff c t s hs] at hbit
      have hplace : d.placement (toPos s) = some (c, t) := by
        have hv : (toPos s).IsValid := hs.inside
        rw [← h.mailbox hv, ofPos_toPos hs, hbit]
      obtain ⟨q, hat, hman⟩ := ChessBoard.placement_eq_some.mp hplace
      obtain ⟨hmem, hpos⟩ := ChessBoard.mem_of_getPieceAt hat
      refine ⟨q, List.mem_filter.mpr ⟨hmem, decide_eq_true ?_⟩, by rw [hpos, ofPos_toPos hs]⟩
      exact ⟨congrArg Prod.snd hman, congrArg Prod.fst hman⟩
    · rintro ⟨q, hq, rfl⟩
      obtain ⟨hmem, htest⟩ := List.mem_filter.mp hq
      obtain ⟨rfl, rfl⟩ := of_decide_eq_true htest
      have hv := h.tidy.valid q hmem
      refine ⟨sqValid_ofPos hv, ?_⟩
      rw [h.rep.bit_iff _ _ _ (sqValid_ofPos hv), h.mailbox hv,
        ChessBoard.placement_of_mem h.tidy hmem]
  have hlength := hperm.length_eq
  rw [List.length_map] at hlength
  rw [← hlength, bbPopcount, bbSquares, List.length_map]

/-- In these mods the two boards stay together on every line from the starting position, wherever
on it the C board was set up. -/
theorem lines_in_step (mod : Mod) (hmod : mod ∈ [.classic, .mercenary, .truce, .heir])
    (d : ChessBoard) (b : Board) (h : Follows ChessBoard.Clean (ChessBoard.initial mod) d b) :
    Sim d b := by
  have hno : ∀ {p : Prop} other, other ∉ [Mod.classic, .mercenary, .truce, .heir] →
      (ChessBoard.initial mod).gameType = other → p := by
    rintro p other hnot rfl
    rw [ChessBoard.initial_gameType] at hnot
    exact absurd hmod hnot
  have hgame := fun d (hd : ChessBoard.Reached ChessBoard.Clean (ChessBoard.initial mod) d) =>
    hd.gameInv (fun _ _ hm => hm) (ChessBoard.gameInv_initial mod) (hno _ (by decide))
  induction h with
  | handOver hd => exact sim_handOver (hgame _ hd).1.tidy (hgame _ hd).1.target
  | step hline hclean hexec ih =>
    obtain ⟨hinv, htype⟩ := hgame _ hline.reached
    rw [← htype] at hno
    have hm := hinv.sound hclean (ChessBoard.mem_of_executeMove hexec) (hno _ (by decide))
    obtain ⟨status, counter, rfl⟩ := hinv.executeMove_eq hclean (hno _ (by decide)) hexec
    exact ih.step hm hclean.takes (hno _ (by decide)) hinv.rooks (hno _ (by decide))
      (hno _ (by decide)) status counter

/-- The starting position of Heir. -/
theorem lines_in_step_start : Sim (ChessBoard.initial .heir) (startBoard .heir) :=
  lines_in_step .heir (by decide) _ _ (.handOver .start)

end ChessRecast.Bridge
