import ChessRecast.App.Queens
import ChessRecast.Engine.Queens
import ChessRecast.Bridge.Reachable

/-!
# Queens are conserved

In Save the Queen each side has one queen for as long as no queen has decided the game, on the
boards of Dart and on those of C.
-/

namespace ChessRecast.Bridge

open Rules Engine App

/-- The history of C has room for another move, and `stq_terminal_score` reports no end. -/
def GoesOn (b : Board) : Prop := b.ply < maxHistory ∧ stqTerminalScore b 0 = none

theorem queenInv_startBoard : QueenInv (startBoard .saveQueen) where
  toBoardInv := boardInv_startBoard .saveQueen
  mod := rfl
  queens := by
    intro c
    cases c <;> decide +kernel

theorem Played.queenInv {b : Board} (h : Played GoesOn (startBoard .saveQueen) b)
    (hend : stqTerminalScore b 0 = none) : QueenInv b := by
  induction h with
  | start => exact queenInv_startBoard
  | step _ hok hm ih => exact (ih hok.2).step hok.1 (mem_pseudoMoves_of_generated hm) hend

/-- After every move that no queen wins by, each side has one queen. -/
theorem queens_conserved (c : Color) :
    (∀ d d' : ChessBoard, ∀ m : ChessMove,
      ChessBoard.Reached (fun d _ => d.Running) (ChessBoard.initial .saveQueen) d → d.Running →
      d.executeMove m = some d' → ¬ d.WinsNow m → (d'.menOf .queen c).length = 1) ∧
    ∀ b : Board, Played GoesOn (startBoard .saveQueen) b → stqTerminalScore b 0 = none →
      bbPopcount (b.pieces c .queen) = 1 := by
  constructor
  · intro d d' m hreached hrun hexec hwin
    have hmem := ChessBoard.mem_of_executeMove hexec
    obtain rfl := ChessBoard.eq_next_of_executeMove hexec
    obtain ⟨q, hq⟩ := (hreached.queenedStacks hrun).queens_next hmem hwin c
    rw [hq]
    rfl
  · intro b hplayed hend
    have hinv := hplayed.queenInv hend
    rw [bbPopcount_eq_menOn hinv.rep]
    exact hinv.queens c

theorem queens_conserved_start :
    (((ChessBoard.initial .saveQueen).next
      (ChessMove.simple ⟨1, 4⟩ ⟨3, 4⟩ ⟨.pawn, .white, ⟨1, 4⟩, false⟩ none)).menOf .queen
        .white).length = 1 ∧
    bbPopcount ((startBoard .saveQueen).pieces .white .queen) = 1 := by
  obtain ⟨hdart, hc⟩ := queens_conserved .white
  constructor
  · refine hdart _ _ _ .start (by decide)
      (ChessBoard.executeMove_of_isValidMove (by decide +kernel)) ?_
    rintro (⟨-, ⟨hqueen, -⟩ | ⟨q, hq, -⟩⟩ | ⟨hmod, -⟩)
    · cases hqueen
    · cases hq
    · cases hmod
  · exact hc _ .start (by decide +kernel)

/-- 1. a3 e6 2. Qe7 Nh6 3. Qf6 Nf5 4. Qg5 a6 5. Qh4: the white queen is back in its own half. -/
def freedQueenLine : List ChessMove :=
  let pawn := fun (c : Color) (a z : Position) => ChessMove.simple a z ⟨.pawn, c, a, false⟩ none
  let queen := fun (a z : Position) (moved : Bool) =>
    ChessMove.simple a z ⟨.queen, .white, a, moved⟩ none
  let knight := fun (a z : Position) (moved : Bool) =>
    ChessMove.simple a z ⟨.knight, .black, a, moved⟩ none
  [pawn .white ⟨1, 0⟩ ⟨2, 0⟩, pawn .black ⟨6, 4⟩ ⟨5, 4⟩,
    queen ⟨7, 3⟩ ⟨6, 4⟩ false, knight ⟨7, 6⟩ ⟨5, 7⟩ false,
    queen ⟨6, 4⟩ ⟨5, 5⟩ true, knight ⟨5, 7⟩ ⟨4, 5⟩ true,
    queen ⟨5, 5⟩ ⟨4, 6⟩ true, pawn .black ⟨6, 0⟩ ⟨5, 0⟩,
    queen ⟨4, 6⟩ ⟨3, 7⟩ true]

/-- 5... Nxh4 wins, and the white queen is off the board. -/
theorem freed_queen_lost : ∃ d d' : ChessBoard, ∃ m : ChessMove,
    ChessBoard.Reached (fun d _ => d.Running) (ChessBoard.initial .saveQueen) d ∧ d.Running ∧
    d.executeMove m = some d' ∧ d'.gameStatus = .checkmate ∧ d'.menOf .queen .white = [] := by
  have hfacts : ChessBoard.GameLine (ChessBoard.initial .saveQueen) freedQueenLine ∧
      (freedQueenLine.foldl ChessBoard.next (ChessBoard.initial .saveQueen)).Running ∧
      (freedQueenLine.foldl ChessBoard.next (ChessBoard.initial .saveQueen)).isValidMove
        (ChessMove.simple ⟨4, 5⟩ ⟨3, 7⟩ ⟨.knight, .black, ⟨4, 5⟩, true⟩
          (some ⟨.queen, .white, ⟨3, 7⟩, true⟩)) = true ∧
      ((freedQueenLine.foldl ChessBoard.next (ChessBoard.initial .saveQueen)).next
        (ChessMove.simple ⟨4, 5⟩ ⟨3, 7⟩ ⟨.knight, .black, ⟨4, 5⟩, true⟩
          (some ⟨.queen, .white, ⟨3, 7⟩, true⟩))).gameStatus = .checkmate ∧
      ((freedQueenLine.foldl ChessBoard.next (ChessBoard.initial .saveQueen)).next
        (ChessMove.simple ⟨4, 5⟩ ⟨3, 7⟩ ⟨.knight, .black, ⟨4, 5⟩, true⟩
          (some ⟨.queen, .white, ⟨3, 7⟩, true⟩))).menOf .queen .white = [] := by
    decide +kernel
  obtain ⟨hline, hrun, hvalid, hmate, hgone⟩ := hfacts
  exact ⟨_, _, _, ChessBoard.Reached.gameLine freedQueenLine _ .start hline, hrun,
    ChessBoard.executeMove_of_isValidMove hvalid, hmate, hgone⟩

end ChessRecast.Bridge
