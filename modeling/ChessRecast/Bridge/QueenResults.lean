import ChessRecast.Bridge.Execution
import ChessRecast.Engine.Queens

/-!
# Results of Save the Queen

Dart decides an immediate win from the move before it is played, C from the queens and the undo
entry after it. The two verdicts are the same.
-/

namespace ChessRecast.Bridge

open Rules Engine App

/-! ## The verdict of Dart -/

section Verdicts

variable {d : ChessBoard} {b : Board} {m : ChessMove}

/-- `handleSpecialMove` declares the game won by the player who moves. -/
def WinsAtOnce (d : ChessBoard) (m : ChessMove) : Prop :=
  ∃ u, d.handleSpecialMove m = some u ∧ u.gameStatus = .checkmate ∧
    u.currentPlayer = d.currentPlayer.opposite

/-- The move captures a queen in the queen's own half. -/
def TakesEscaped (m : ChessMove) (c : Color) : Prop :=
  ∃ q, m.capturedPiece = some q ∧ q.type = .queen ∧ q.color = c ∧ c.OwnHalf m.toPos.row

theorem winsAtOnce_iff (hmod : d.gameType = .saveQueen) (hrun : d.gameStatus ≠ .checkmate) :
    WinsAtOnce d m ↔ ChessBoard.Escapes m ∨ ∃ c, TakesEscaped m c := by
  have hturn := ChessBoard.makeMove_currentPlayer d m
  -- a move that is only made does not end the game by checkmate
  have hmade : (d.makeMove m).gameStatus ≠ .checkmate := by
    rcases d.makeMove_gameStatus m with h | h
    · rw [h]; decide
    · rw [h]; exact hrun
  unfold WinsAtOnce ChessBoard.handleSpecialMove
  rw [hmod]
  dsimp only
  unfold ChessBoard.saveTheQueenSpecialMove
  by_cases hesc : m.piece.type = .queen ∧ m.piece.color.OwnHalf m.toPos.row ∧
      m.toPos = ChessBoard.queenPrison m.piece.color.opposite
  · rw [if_pos hesc]
    exact ⟨fun _ => .inl hesc, fun _ => ⟨_, rfl, rfl, hturn⟩⟩
  · rw [if_neg hesc]
    cases hcap : m.capturedPiece with
    | none =>
      refine ⟨fun ⟨u, hu, _⟩ => (by cases hu), ?_⟩
      rintro (h | ⟨c, q, hq, -⟩)
      · exact absurd h hesc
      · rw [hcap] at hq
        cases hq
    | some q =>
      dsimp only
      by_cases hqueen : q.type = .queen
      · rw [if_pos hqueen]
        by_cases hhalf : q.color.OwnHalf m.toPos.row
        · rw [if_pos hhalf]
          exact ⟨fun _ => .inr ⟨q.color, q, hcap, hqueen, rfl, hhalf⟩,
            fun _ => ⟨_, rfl, rfl, hturn⟩⟩
        · rw [if_neg hhalf]
          constructor
          · rintro ⟨u, hu, hstatus, -⟩
            obtain rfl := Option.some.inj hu
            exfalso
            unfold ChessBoard.reprison at hstatus
            dsimp only at hstatus
            split at hstatus
            · exact hmade hstatus
            · exact hmade hstatus
          · rintro (h | ⟨c, q', hq', -, rfl, hhalf'⟩)
            · exact absurd h hesc
            · rw [hcap] at hq'
              obtain rfl := Option.some.inj hq'
              exact absurd hhalf' hhalf
      · rw [if_neg hqueen]
        refine ⟨fun ⟨u, hu, _⟩ => (by cases hu), ?_⟩
        rintro (h | ⟨c, q', hq', hqueen', -⟩)
        · exact absurd h hesc
        · rw [hcap] at hq'
          obtain rfl := Option.some.inj hq'
          exact absurd hqueen' hqueen

/-! ## The verdict of C -/

theorem taken_of_shape {piece : ChessPiece} (hd : d.Tidy) (h : d.Shape piece m)
    (hpiece : piece ∈ d.pieces) : m.fromPos.IsValid ∧ m.toPos.IsValid ∧
      (m.isEnPassant = false → ∀ q, m.capturedPiece = some q → d.getPieceAt m.toPos = some q) ∧
      (m.isEnPassant = true → ∃ q, m.capturedPiece = some q ∧ q.type = .pawn ∧
        d.getPieceAt m.view.epSquare = some q) := by
  have hvalid := hd.valid piece hpiece
  cases h with
  | plain toPos hto hne heq =>
    subst heq
    exact ⟨hvalid, hto, fun _ q hq => hq, fun hep => (by cases hep)⟩
  | arrives toPos hp hto hne harr =>
    unfold ChessBoard.Arrives at harr
    split at harr
    · obtain ⟨letter, -, rfl⟩ := harr
      exact ⟨hvalid, hto, fun _ q hq => hq, fun hep => (by cases hep)⟩
    · subst harr
      exact ⟨hvalid, hto, fun _ q hq => hq, fun hep => (by cases hep)⟩
  | enPassant toPos captured hp hto hstep htarget hcap htype heq =>
    subst heq
    exact ⟨hvalid, hto, fun hep => (by cases hep), fun _ => ⟨captured, rfl, htype, hcap⟩⟩
  | castling w hk hflag hcan heq =>
    subst heq
    have hrow : (⟨homeRow piece.color, w.kingTo⟩ : Position).IsValid :=
      isValid_home (by cases w <;> decide)
    exact ⟨hvalid, hrow, fun _ q hq => (by cases hq), fun hep => (by cases hep)⟩

/-- The escaped queen that an entry of the history records as taken. -/
def takenQueen (u : Undo) : Option Color :=
  match u.captured with
  | some (c, .queen) => if u.capturedSq ≠ sqNone ∧ StqIsOwnHalf u.capturedSq c then some c else none
  | _ => none

/-- The undo entry of the move shows a captured queen in its own half. -/
theorem stqCapturedQueen_iff {piece : ChessPiece} (h : Sim d b) (hply : b.ply = 0)
    (hpiece : piece ∈ d.pieces) (hshape : d.Shape piece m) (c : Color) :
    stqCapturedQueen (boardMakeMove b (engineMove m)) = some c ↔ TakesEscaped m c := by
  obtain ⟨hfrom, hto, hplain, hpassant⟩ := taken_of_shape h.tidy hshape hpiece
  -- the entry is the one the move has just written
  have hentry : stqCapturedQueen (boardMakeMove b (engineMove m)) =
      takenQueen (captureUndo b (engineMove m)) := by
    have hhist : (boardMakeMove b (engineMove m)).history b.ply = makeUndo b (engineMove m) :=
      if_pos ⟨rfl, by rw [hply]; decide⟩
    unfold stqCapturedQueen
    rw [if_pos (show (boardMakeMove b (engineMove m)).ply > 0 from Nat.succ_pos _),
      show (boardMakeMove b (engineMove m)).ply - 1 = b.ply from rfl]
    dsimp only
    rw [hhist]
    rfl
  rw [hentry]
  unfold takenQueen
  cases hep : m.isEnPassant with
  | true =>
    -- a pawn is taken
    obtain ⟨q, hq, htype, hat⟩ := hpassant hep
    have hvalid := h.tidy.valid_of_getPieceAt hat
    have hsq : epCapSq (engineMove m) = ofPos m.view.epSquare := by
      show SQ (sqRow (ofPos m.fromPos)) (sqCol (ofPos m.toPos)) = SQ m.fromPos.row m.toPos.col
      rw [ofPos, ofPos, sqRow_SQ hfrom, sqCol_SQ hto]
    have hundo : (captureUndo b (engineMove m)).captured = some (q.color, .pawn) := by
      have hmail : b.mailbox (epCapSq (engineMove m)) = some (q.color, .pawn) := by
        rw [hsq, h.mailbox hvalid, ← htype]
        exact ChessBoard.placement_eq_some.mpr ⟨q, hat, rfl⟩
      unfold captureUndo
      dsimp only
      rw [show (engineMove m).ep = true from hep, hmail]
      rfl
    rw [hundo]
    refine ⟨fun hno => (by cases hno), ?_⟩
    rintro ⟨q', hq', hqueen, -⟩
    rw [hq] at hq'
    rw [← Option.some.inj hq', htype] at hqueen
    cases hqueen
  | false =>
    cases hcap : m.capturedPiece with
    | none =>
      have hundo : (captureUndo b (engineMove m)).captured = none := by
        have hno : (engineMove m).isCapture = false := by
          show (m.capturedPiece.map ChessPiece.type).isSome = false
          rw [hcap]
          rfl
        unfold captureUndo
        dsimp only
        rw [show (engineMove m).ep = false from hep, hno]
        rfl
      rw [hundo]
      refine ⟨fun hno => (by cases hno), ?_⟩
      rintro ⟨q', hq', -⟩
      rw [hcap] at hq'
      cases hq'
    | some q =>
      have hmail : b.mailbox (engineMove m).toSq = some q.man := by
        show b.mailbox (ofPos m.toPos) = _
        rw [h.mailbox hto]
        exact ChessBoard.placement_eq_some.mpr ⟨q, hplain hep q hcap, rfl⟩
      have hundo : (captureUndo b (engineMove m)).captured = some q.man ∧
          (captureUndo b (engineMove m)).capturedSq = ofPos m.toPos := by
        have hyes : (engineMove m).isCapture = true := by
          show (m.capturedPiece.map ChessPiece.type).isSome = true
          rw [hcap]
          rfl
        unfold captureUndo
        dsimp only
        rw [show (engineMove m).ep = false from hep, hyes, hmail]
        by_cases hre : StqReprisons b (engineMove m)
        · rw [if_neg Bool.false_ne_true, if_pos rfl, if_pos hre]
          exact ⟨rfl, rfl⟩
        · rw [if_neg Bool.false_ne_true, if_pos rfl, if_neg hre]
          exact ⟨rfl, rfl⟩
      rw [hundo.1, hundo.2]
      have hsome : ofPos m.toPos ≠ sqNone := by
        have := (sqValid_ofPos hto).1
        unfold sqNone
        omega
      unfold TakesEscaped ChessPiece.man
      rw [hcap]
      by_cases hqueen : q.type = .queen
      · rw [hqueen]
        dsimp only
        by_cases hhalf : q.color.OwnHalf m.toPos.row
        · rw [if_pos ⟨hsome, (stqIsOwnHalf_iff hto _).mpr hhalf⟩]
          constructor
          · intro heq
            exact ⟨q, rfl, hqueen, Option.some.inj heq, Option.some.inj heq ▸ hhalf⟩
          · rintro ⟨q', hq', -, rfl, -⟩
            rw [Option.some.inj hq']
        · rw [if_neg fun h => hhalf ((stqIsOwnHalf_iff hto _).mp h.2)]
          refine ⟨fun hno => (by cases hno), ?_⟩
          rintro ⟨q', hq', -, rfl, hhalf'⟩
          rw [← Option.some.inj hq'] at hhalf'
          exact absurd hhalf' hhalf
      · constructor
        · intro hno
          cases htype : q.type with
          | queen => exact absurd htype hqueen
          | pawn | knight | bishop | rook | king => rw [htype] at hno; cases hno
        · rintro ⟨q', hq', hqueen', -⟩
          rw [← Option.some.inj hq'] at hqueen'
          exact absurd hqueen' hqueen

/-- An ongoing position of Save the Queen with one queen on each side, neither of them on the
enemy's prison square. The kings play no part. -/
structure QueensAtPlay (d : ChessBoard) : Prop where
  tidy : d.Tidy
  mod : d.gameType = .saveQueen
  running : d.gameStatus = .ongoing ∨ d.gameStatus = .check
  queens : ∀ c, (d.pieces.filter fun p => p.type = .queen ∧ p.color = c).length = 1
  captive : ∀ c, d.placement (ChessBoard.queenPrison c.opposite) ≠ some (c, .queen)
  target : ∀ t, d.enPassantTarget = some t → t.IsValid

theorem QueensAtPlay.oneQueen (hd : QueensAtPlay d) (c : Color) : OneQueen d.placement c :=
  fun _ _ hk hk' => ChessBoard.unique_of_filter (hd.queens c).le hk hk'

/-- The queen that reaches the enemy's prison square has escaped in C. -/
theorem stqEscaped_of_escapes {piece : ChessPiece} (h : Sim d b) (hd : QueensAtPlay d)
    (hpiece : piece ∈ d.pieces) (hcolor : piece.color = d.currentPlayer)
    (hfilter : m ∈ d.applyRulesetFilter (d.getPotentialMoves piece) piece)
    (hesc : ChessBoard.Escapes m) : StqEscaped (boardMakeMove b (engineMove m)) b.side := by
  have hshape := ChessBoard.shape_of_filtered hd.tidy hpiece hfilter
  have hof := ChessBoard.moveOf_applyRulesetFilter hfilter
  obtain ⟨hqueen, -, hto⟩ := hesc
  rw [hof.piece_eq] at hqueen
  -- a queen's move is plain
  have hplain : m.isEnPassant = false ∧ m.isPromotion = false :=
    hof.plain (by rw [hqueen]; decide)
  have hcastle : m.isCastling ≠ true := fun hc => by
    have hking := hshape.king_of_castling hc
    rw [hqueen] at hking
    cases hking
  have hep : ∀ {P : Prop}, m.isEnPassant = true → P := fun hep => by
    rw [hplain.1] at hep
    cases hep
  have hm : d.Sound m := hshape.sound hd.tidy hpiece hcolor (fun hc => absurd hc hcastle) hep
  have wf : WellFormed b (engineMove m) := wellFormed_engineMove h hm hep
  have hnot : ¬ Reprisons b (engineMove m) := by
    intro hre
    obtain ⟨q, -, hr, -⟩ := (reprisons_engineMove h hm fun hmod => by
      rw [hof.piece_eq]
      exact ChessBoard.notOwn_of_filtered (hd.tidy.valid _ hpiece) (by rw [hmod]; decide) hep
        hfilter).mp hre
    exact hr.2.1 ⟨by rw [hof.piece_eq, hqueen], by rw [hto]; cases m.piece.color <;> decide, hto⟩
  have hview := view_engineMove (hd.tidy.valid_of_getPieceAt hm.from_holds) hm.to_valid
  have hafter : placement (boardMakeMove b (engineMove m)).toViews =
      after d.placement m.view := by
    rw [placement_boardMakeMove_eq h.rep wf hnot, hview, h.placement_eq]
  have hpromo : m.view.promo = none := if_neg (by rw [hplain.2]; decide)
  have hman : d.placement m.fromPos = some (d.currentPlayer, .queen) := by
    rw [← hm.mover, ← hqueen, ← hof.piece_eq]
    exact ChessBoard.placement_eq_some.mpr ⟨_, hm.from_holds, rfl⟩
  have hprison : stqPrison b.side.opposite = ofPos m.toPos := by
    rw [hto, ofPos_queenPrison, hm.mover, h.side_eq]
  refine stqEscaped_of_unique (repInv_boardMakeMove h.rep wf) fun s hs => ?_
  rw [← placement_toPos hs, hafter, hprison, h.side_eq]
  constructor
  · intro hat
    by_contra hne
    have hne' : toPos s ≠ m.toPos := fun heq => hne (by rw [← heq, ofPos_toPos hs])
    unfold after at hat
    rw [if_neg fun h => hcastle h.1, if_neg fun h => hcastle h.1,
      if_neg (show toPos s ≠ m.view.dst from hne')] at hat
    split at hat
    · cases hat
    · rename_i hsrc
      split at hat
      · cases hat
      · exact hsrc (hd.oneQueen d.currentPlayer _ _ hat hman)
  · rintro rfl
    rw [toPos_ofPos hm.to_valid, hm.after_to, hpromo, hof.piece_eq, hqueen]
    rfl

/-- Outside Kings' Battle the turn always passes. -/
theorem side_boardMakeMove {cm : Move} (hmod : b.mod ≠ .kingsBattle) :
    (boardMakeMove b cm).side = b.side.opposite := by
  have hkb : makeKb b cm = ⟨b.kbUnlocked, b.kbIdleKings, false⟩ := if_neg fun h => hmod h.1
  show (if (makeKb b cm).bonus then b.side else b.side.opposite) = _
  rw [hkb]
  rfl

/-- In Save the Queen no pawn becomes a queen. -/
theorem placedType_engineMove {piece : ChessPiece} (hmod : d.gameType = .saveQueen)
    (hshape : d.Shape piece m) (h : placedType (engineMove m) = .queen) :
    m.piece.type = .queen := by
  cases hp : m.isPromotion with
  | false =>
    rw [placedType, if_neg (by rw [show (engineMove m).promo = m.isPromotion from rfl, hp]; decide)]
      at h
    exact h
  | true =>
    exfalso
    cases hshape with
    | plain toPos hto hne heq => subst heq; cases hp
    | enPassant toPos captured hpn hto hstep htarget hcap htype heq => subst heq; cases hp
    | castling w hk hflag hcan heq => subst heq; cases hp
    | arrives toPos hpn hto hne harr =>
      unfold ChessBoard.Arrives at harr
      split at harr
      · obtain ⟨letter, hletter, rfl⟩ := harr
        rw [ChessBoard.getPromotionPieces, hmod] at hletter
        fin_cases hletter <;> cases h
      · subst harr
        cases hp

/-- The verdict of C after a move, from the two ways to win. -/
theorem stqTerminalScore_eq {piece : ChessPiece} (h : Sim d b) (hd : QueensAtPlay d)
    (hpiece : piece ∈ d.pieces) (hcolor : piece.color = d.currentPlayer)
    (hfilter : m ∈ d.applyRulesetFilter (d.getPotentialMoves piece) piece) (ply : ℤ) :
    stqTerminalScore (boardMakeMove b (engineMove m)) ply =
      if ChessBoard.Escapes m then some (-(mateScore - ply))
      else (stqCapturedQueen (boardMakeMove b (engineMove m))).map fun c =>
        if c = d.currentPlayer.opposite then -(mateScore - ply) else mateScore - ply := by
  have hshape := ChessBoard.shape_of_filtered hd.tidy hpiece hfilter
  have hof := ChessBoard.moveOf_applyRulesetFilter hfilter
  obtain ⟨-, hto, -⟩ := taken_of_shape hd.tidy hshape hpiece
  have hbmod : b.mod = .saveQueen := h.mod_eq.trans hd.mod
  have hside : (boardMakeMove b (engineMove m)).side = b.side.opposite :=
    side_boardMakeMove (by rw [hbmod]; decide)
  have hbefore : ∀ c, bbHas (b.pieces c .queen) (stqPrison c.opposite) = false := by
    intro c
    rw [← Bool.not_eq_true, h.rep.bit_iff c .queen _ (stqPrison_valid _), ← ofPos_queenPrison,
      h.mailbox (isValid_queenPrison _)]
    exact hd.captive c
  have hmover : m.piece.color = b.side := by rw [hof.piece_eq, hcolor, h.side_eq]
  -- the side to move has not escaped, its opponent only by this move
  have hus : ¬ StqEscaped (boardMakeMove b (engineMove m)) b.side.opposite :=
    not_stqEscaped_make (sqValid_ofPos hto) (hbefore _) fun hc => Color.opposite_ne _ hc.1
  have hthem : StqEscaped (boardMakeMove b (engineMove m)) b.side ↔ ChessBoard.Escapes m := by
    constructor
    · intro hesc
      by_contra hno
      refine not_stqEscaped_make (sqValid_ofPos hto) (hbefore _) (fun hc => hno ?_) hesc
      have htoPos : m.toPos = ChessBoard.queenPrison m.piece.color.opposite := by
        rw [← toPos_ofPos hto, ← show stqPrison b.side.opposite = ofPos m.toPos from hc.2.2,
          ← ofPos_queenPrison, toPos_ofPos (isValid_queenPrison _), hmover]
      exact ⟨placedType_engineMove hd.mod hshape hc.2.1,
        by rw [htoPos]; cases m.piece.color <;> decide, htoPos⟩
    · exact stqEscaped_of_escapes h hd hpiece hcolor hfilter
  unfold stqTerminalScore
  rw [if_neg (not_not.mpr (show (boardMakeMove b (engineMove m)).mod = .saveQueen from hbmod)),
    hside, if_neg hus, Color.opposite_opposite, h.side_eq]
  rw [h.side_eq] at hthem
  by_cases hesc : ChessBoard.Escapes m
  · rw [if_pos hesc, if_pos (hthem.mpr hesc)]
  · rw [if_neg hesc, if_neg fun hc => hesc (hthem.mp hc)]
    cases stqCapturedQueen (boardMakeMove b (engineMove m)) with
    | none => rfl
    | some c => rfl

end Verdicts

/-! ## Main result -/

/-- For every move that is legal in one of the engines Dart declares an immediate win exactly
when the test of C finds the board after it terminal, and then as a loss for the side to move; a
captured prisoner that goes back to its prison ends the game in neither. -/
theorem saveQueen_results_agree (d : ChessBoard) (hd : QueensAtPlay d) (m : ChessMove)
    (hm : m ∈ d.getValidMovesFor m.fromPos ∨
      d.Filtered m ∧ engineMove m ∈ generateMoves (handOver d)) (ply : ℤ) :
    (WinsAtOnce d m ↔
      (stqTerminalScore (boardMakeMove (handOver d) (engineMove m)) ply).isSome = true) ∧
    (∀ score, stqTerminalScore (boardMakeMove (handOver d) (engineMove m)) ply = some score →
      score = -(mateScore - ply)) ∧
    (∀ q, m.capturedPiece = some q → d.Returns m q → ¬ WinsAtOnce d m ∧
      stqTerminalScore (boardMakeMove (handOver d) (engineMove m)) ply = none) := by
  have hfiltered : d.Filtered m := by
    rcases hm with hm | hm
    · obtain ⟨piece, hat, hcolor, hfilter, -⟩ := ChessBoard.mem_getValidMovesFor.mp hm
      exact ⟨piece, (ChessBoard.mem_of_getPieceAt hat).1, hcolor, hfilter⟩
    · exact hm.1
  obtain ⟨piece, hpiece, hcolor, hfilter⟩ := hfiltered
  have hsim := sim_handOver hd.tidy hd.target
  have hply := (reads_handOver hd.tidy hd.target).fresh.1
  generalize handOver d = b at hsim hply ⊢
  have hshape := ChessBoard.shape_of_filtered hd.tidy hpiece hfilter
  have hscore := stqTerminalScore_eq hsim hd hpiece hcolor hfilter ply
  have hcaptured := stqCapturedQueen_iff hsim hply hpiece hshape
  have hwins := winsAtOnce_iff (m := m) hd.mod (by
    rcases hd.running with h | h <;> rw [h] <;> decide)
  -- a captured queen is one of the enemy
  have henemy : ∀ c, TakesEscaped m c → c = d.currentPlayer.opposite := by
    rintro c ⟨q, hq, hqueen, rfl, -⟩
    obtain ⟨-, -, hplain, hpassant⟩ := taken_of_shape hd.tidy hshape hpiece
    cases hep : m.isEnPassant with
    | true =>
      obtain ⟨q', hq', hpawn, -⟩ := hpassant hep
      rw [hq] at hq'
      rw [← Option.some.inj hq', hqueen] at hpawn
      cases hpawn
    | false =>
      have hown := ChessBoard.notOwn_of_filtered (hd.tidy.valid _ hpiece) (by rw [hd.mod]; decide)
        (fun h => by rw [hep] at h; cases h) hfilter q (hplain hep q hq)
      rw [hcolor] at hown
      exact Color.ne_iff_eq_opposite.mp hown
  by_cases hesc : ChessBoard.Escapes m
  · rw [if_pos hesc] at hscore
    rw [hscore, hwins]
    refine ⟨⟨fun _ => rfl, fun _ => .inl hesc⟩, fun score hs => (Option.some.inj hs).symm, ?_⟩
    intro q _ hr
    exact absurd hesc hr.2.1
  · rw [if_neg hesc] at hscore
    cases hq : stqCapturedQueen (boardMakeMove b (engineMove m)) with
    | none =>
      rw [hq] at hscore
      have hno : ¬ ∃ c, TakesEscaped m c := by
        rintro ⟨c, hc⟩
        rw [← hcaptured c, hq] at hc
        cases hc
      have hlose : ¬ WinsAtOnce d m := by
        rw [hwins]
        exact fun h => h.elim hesc hno
      rw [hscore]
      exact ⟨⟨fun h => absurd h hlose, fun h => (by cases h)⟩, fun score hs => (by cases hs),
        fun _ _ _ => ⟨hlose, rfl⟩⟩
    | some c =>
      have htake := (hcaptured c).mp hq
      rw [hq, Option.map_some, if_pos (henemy c htake)] at hscore
      rw [hscore, hwins]
      refine ⟨⟨fun _ => rfl, fun _ => .inr ⟨c, htake⟩⟩, fun score hs => (Option.some.inj hs).symm, ?_⟩
      intro q hcap hr
      obtain ⟨q', hq', -, rfl, hhalf⟩ := htake
      rw [hcap] at hq'
      rw [← Option.some.inj hq'] at hhalf
      exact absurd hhalf hr.2.2.2.1

/-- The white queen stands in its own half, next to the prison of the black one. -/
def escapeBoard : ChessBoard where
  pieces := [⟨.king, .white, ⟨0, 0⟩, true⟩, ⟨.queen, .white, ⟨1, 4⟩, true⟩,
    ⟨.king, .black, ⟨7, 7⟩, true⟩, ⟨.queen, .black, ⟨4, 7⟩, true⟩]
  whiteCanCastleKingside := false
  whiteCanCastleQueenside := false
  blackCanCastleKingside := false
  blackCanCastleQueenside := false
  gameType := .saveQueen

theorem queensAtPlay_escapeBoard : QueensAtPlay escapeBoard where
  tidy := ⟨by decide, by decide⟩
  mod := rfl
  running := .inl rfl
  queens := by
    intro c
    cases c <;> decide
  captive := by
    intro c
    cases c <;> decide
  target := by
    intro t ht
    cases ht

/-- The queen's move to d1 wins at once. -/
theorem saveQueen_results_agree_escape : WinsAtOnce escapeBoard
    (ChessMove.simple ⟨1, 4⟩ ⟨0, 3⟩ ⟨.queen, .white, ⟨1, 4⟩, true⟩ none) :=
  (saveQueen_results_agree escapeBoard queensAtPlay_escapeBoard _ (.inl (by decide +kernel))
    0).1.mpr (by decide +kernel)

end ChessRecast.Bridge
