import ChessRecast.Lib.Selection
import ChessRecast.Engine.Types

/-!
# Candidates of the refine stages

`king_discipline_refine_result`, `ff_refine_result` and `succ_refine_result` collect the moves they
search again in an array: the raw best move first, then moves of the root by their priority. The
priorities, which the stages compute from the board and the move, are any function here.
-/

namespace ChessRecast.Engine

open Selection

/-- `candidates[0]` and `candidate_scores[0]` -/
def rawSlot (raw : Move) : Move × ℤ := (raw, 2000000000)

/-! ## King discipline -/

/-- The body of the loop; the raw move is passed over by name before the array is looked at. -/
def kingDisciplineOffer (raw : Move) (priority : Move → ℤ) (s : Slots Move) (move : Move) :
    Slots Move :=
  if move = raw then s
  else if priority move < 900 then s
  else if move ∈ s.list.map Prod.fst then s
  else s.insert 20 move (priority move)

def kingDisciplineCandidates (raw : Move) (priority : Move → ℤ) (moves : List Move) : Slots Move :=
  moves.foldl (kingDisciplineOffer raw priority) ⟨fun _ => rawSlot raw, 1⟩

/-- The moves that can become candidates, with their priorities. -/
def kingDisciplineScore (raw : Move) (priority : Move → ℤ) (move : Move) : Option ℤ :=
  if move = raw ∨ priority move < 900 then none else some (priority move)

/-! ## Friendly Fire -/

/-- A move with its priority, unless it is passed over: a quiet pawn move while the raw move is one
of the king that has the enemy queen close (`queenClose`). -/
def ffScore (queenClose : Bool) (priority : Move → ℤ) (move : Move) : Option ℤ :=
  if queenClose ∧ move.piece = .pawn ∧ ¬ move.isCapture ∧ ¬ move.ep ∧ ¬ move.promo then none
  else if priority move ≤ 0 then none
  else some (priority move)

def ffCandidates (raw : Move) (queenClose : Bool) (priority : Move → ℤ) (moves : List Move) :
    Slots Move :=
  run 16 (rawSlot raw) (ffScore queenClose priority) moves

/-! ## Succession -/

/-- `candidate_limit`, which one of the triggers raises. -/
def succCandidateLimit (trigger : Bool) : ℕ := if trigger then 12 else 8

/-- `min_priority` -/
def succMinPriority (trigger : Bool) : ℤ := if trigger then -160 else 1

def succScore (trigger : Bool) (priority : Move → ℤ) (move : Move) : Option ℤ :=
  if priority move < succMinPriority trigger then none else some (priority move)

def succCandidates (raw : Move) (trigger : Bool) (priority : Move → ℤ) (moves : List Move) :
    Slots Move :=
  run (succCandidateLimit trigger) (rawSlot raw) (succScore trigger priority) moves

/-! ## The arrays -/

/-- The order of the tests does not matter. -/
theorem kingDisciplineOffer_eq (raw : Move) (priority : Move → ℤ) :
    kingDisciplineOffer raw priority =
      Slots.offer 20 (kingDisciplineScore raw priority) := by
  funext s move
  unfold kingDisciplineOffer Slots.offer kingDisciplineScore
  by_cases hseen : move ∈ s.list.map Prod.fst
  · simp [hseen]
  · by_cases hskip : move = raw ∨ priority move < 900
    · simp only [hseen, hskip]
      rcases hskip with rfl | hlow
      · simp
      · simp [hlow]
    · rw [not_or] at hskip
      simp [hseen, hskip]

/-- In each stage the array is the raw move and then the moves of highest priority: none twice, no
more than its capacity, by priority and among equals as they were generated. -/
theorem candidates_selected (raw : Move) (moves : List Move) (priority : Move → ℤ)
    (queenClose trigger : Bool) :
    IsSelection 20 (rawSlot raw) (kingDisciplineScore raw priority) moves
        (kingDisciplineCandidates raw priority moves).list ∧
      IsSelection 16 (rawSlot raw) (ffScore queenClose priority) moves
        (ffCandidates raw queenClose priority moves).list ∧
      IsSelection (succCandidateLimit trigger) (rawSlot raw) (succScore trigger priority) moves
        (succCandidates raw trigger priority moves).list := by
  refine ⟨?_, ?_, ?_⟩
  · rw [kingDisciplineCandidates, kingDisciplineOffer_eq]
    apply isSelection_run (by norm_num)
  · apply isSelection_run (by norm_num)
  · apply isSelection_run
    unfold succCandidateLimit
    split <;> norm_num

end ChessRecast.Engine
