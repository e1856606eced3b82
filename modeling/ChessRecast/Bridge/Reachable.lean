import ChessRecast.Bridge.FenTheorems

/-!
# Games of `generate_moves` moves from the starting positions

What the generated moves say about the board is true in every game, as long as nobody can
castle without a king. Heir (the king may be captured at home) and Succession (there is none
at the start, yet the castling flags are set) allow that.
-/

namespace ChessRecast.Bridge

open Engine Rules

/-- Boards reached from `start` by generated moves, all played on boards that satisfy `ok`. -/
inductive Played (ok : Board → Prop) (start : Board) : Board → Prop
  | start : Played ok start start
  | step {b : Board} {m : Move} : Played ok start b → ok b → m ∈ generateMoves b →
      Played ok start (boardMakeMove b m)

/-- The undo stack has room, and castling is open only with the king at home. -/
def Sane (b : Board) : Prop := b.ply < maxHistory ∧ CastleSane b

/-- What a generated move says about the board is true, and making it conserves the men. -/
structure Truthful (b : Board) (m : Move) : Prop where
  from_holds : b.mailbox m.fromSq = some (b.side, m.piece)
  castle_home : m.castle = true → ∃ w : Wing, m.fromSq = kingHome b.side ∧
    b.mailbox (kingHome b.side) = some (b.side, .king) ∧
    m.toSq = SQ (homeRow b.side) w.kingTo ∧ b.mailbox (corner b.side w) = some (b.side, .rook)
  capture_there : m.ep = false → m.isCapture = true →
    ∃ c t, b.mailbox m.toSq = some (c, t) ∧ m.captured = some t
  otherwise_empty : m.ep = true ∨ m.isCapture = false → b.mailbox m.toSq = none
  conserved : ∀ man, menOn (boardMakeMove b m).mailbox man +
      isMan (some (b.side, m.piece)) man + isMan (capturedMan b m) man =
    menOn b.mailbox man + isMan (some (b.side, placedType m)) man + isMan (returnedMan b m) man

/-! ## The starting positions -/

theorem boardInv_startBoard (mod : Mod) : BoardInv (startBoard mod) where
  rep := repInv_handOver _
  ep := .inl (by cases mod <;> decide +kernel)
  rook := by
    intro c w _
    cases mod <;> cases c <;> cases w <;> decide +kernel
  king := by
    intro hheir hsucc c w _
    cases mod with
    | heir => exact absurd (by decide +kernel) hheir
    | succession => exact absurd (by decide +kernel) hsucc
    | _ => cases c <;> decide +kernel

/-! ## Runs -/

theorem Played.boardInv {start b : Board} (h : Played Sane start b) (hs : BoardInv start) :
    BoardInv b := by
  induction h with
  | start => exact hs
  | step _ hok hm ih =>
    exact ih.step hok.2 (mem_pseudoMoves_of_generated hm)

theorem truthful_of_wellFormed {b : Board} {m : Move} (h : GenSafe b) (hm : m ∈ pseudoMoves b) :
    Truthful b m := by
  have wf := wellFormed_of_mem_pseudoMoves h hm
  refine ⟨wf.from_holds, ?_, ?_, ?_, ?_⟩
  · intro hc
    -- only `gen_castling` marks a move as castling
    rcases mem_pseudoMoves.mp hm with hm' | ⟨pt, -, hm'⟩ | hm'
    · exfalso
      obtain ⟨sq, hsq, hman, -, -⟩ := (mem_genPawnMoves h.rep).mp hm'
      have hking := (wf.castle_ok hc).1
      have hpawn : m.piece = .pawn := (kind_of_mem_genPawnMoves h.rep hm').1
      rw [hpawn] at hking
      cases hking
    · obtain ⟨-, sq, -, -, -, toSq, -, -, rfl⟩ := (mem_genPieceMoves h.rep).mp hm'
      cases hc
    · obtain ⟨hnow, w, hopen, rfl⟩ := mem_genCastling.mp hm'
      exact ⟨w, rfl, h.king w hnow hopen, rfl, h.rook w hopen.1⟩
  · intro hep hcap
    have hcapt := wf.captured_eq hep
    obtain ⟨⟨c, t⟩, hman⟩ := Option.ne_none_iff_exists'.mp (wf.to_occupied hep hcap)
    exact ⟨c, t, hman, by rw [hcapt, hman]; rfl⟩
  · rintro (hep | hcap)
    · exact (wf.ep_ok hep).2.2.1
    · exact wf.to_empty (by simpa [Move.isCapture] using hcap)
  · intro man
    rw [boardMakeMove_mailbox h.rep wf]
    exact menOn_make wf man

/-- In every game from a starting position in which castling is open only with the king at
home, every generated move is truthful. -/
theorem generated_moves_truthful (mod : Mod) (b : Board) (h : Played Sane (startBoard mod) b)
    (hb : Sane b) (m : Move) (hm : m ∈ generateMoves b) : Truthful b m := by
  have hsafe := (h.boardInv (boardInv_startBoard mod)).genSafe hb.2
  exact truthful_of_wellFormed hsafe (mem_pseudoMoves_of_generated hm)

/-- The move e2-e4 of the classic starting position. -/
theorem generated_moves_truthful_e4 :
    Truthful (startBoard .classic) (moveSimple (SQ 1 4) (SQ 3 4) .pawn) := by
  apply generated_moves_truthful .classic _ .start
  · refine ⟨by decide +kernel, ?_⟩
    rintro (hmod | hmod)
    · exact absurd hmod (by decide +kernel)
    · exact absurd hmod (by decide +kernel)
  · decide +kernel

/-! ## Castling with a queen -/

/-- Succession: after 1. Nf3 a6 2. g3 a5 3. Bg2 a4 the queen on e1 may castle. -/
def queenCastleLine : List Move :=
  [moveSimple (SQ 0 6) (SQ 2 5) .knight, moveSimple (SQ 6 0) (SQ 5 0) .pawn,
    moveSimple (SQ 1 6) (SQ 2 6) .pawn, moveSimple (SQ 5 0) (SQ 4 0) .pawn,
    moveSimple (SQ 0 5) (SQ 1 6) .bishop, moveSimple (SQ 4 0) (SQ 3 0) .pawn]

/-- Every move of the line is generated where it is played. -/
def Generated (b : Board) : List Move → Prop
  | [] => True
  | m :: ms => m ∈ generateMoves b ∧ Generated (boardMakeMove b m) ms

instance (b : Board) (ms : List Move) : Decidable (Generated b ms) :=
  match ms with
  | [] => isTrue trivial
  | m :: ms =>
    have : Decidable (Generated (boardMakeMove b m) ms) :=
      instDecidableGenerated (boardMakeMove b m) ms
    inferInstanceAs (Decidable (_ ∧ _))

theorem Generated.played {start : Board} (ms : List Move) : ∀ b : Board,
    Played (fun _ => True) start b → Generated b ms →
      Played (fun _ => True) start (ms.foldl boardMakeMove b) := by
  induction ms with
  | nil => intro b h _; exact h
  | cons m ms ih =>
    intro b h hg
    exact ih _ (.step h trivial hg.1) hg.2

/-- A reachable Succession board generates a castling move whose from-square holds a queen. -/
theorem queen_castles : ∃ b m, Played (fun _ => True) (startBoard .succession) b ∧
    m ∈ generateMoves b ∧ m.castle = true ∧ b.mailbox m.fromSq = some (.white, .queen) ∧
    ¬ Truthful b m := by
  refine ⟨queenCastleLine.foldl boardMakeMove (startBoard .succession), castleMove .white .king,
    Generated.played queenCastleLine _ .start (by decide +kernel), by decide +kernel, rfl,
    by decide +kernel, ?_⟩
  intro h
  exact absurd h.from_holds (by decide +kernel)

end ChessRecast.Bridge
