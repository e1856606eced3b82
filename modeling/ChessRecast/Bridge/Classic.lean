import ChessRecast.Bridge.Simulation

/-!
# Rules equivalence in Classic and Mercenary

On valid positions both engines have the same legal moves. `generate_moves` returns all of them
unless a legal move stands behind the first `MAX_MOVES` pseudo-legal ones, where `movelist_add`
drops it.
-/

namespace ChessRecast.Bridge

open App Engine Rules

/-- A valid position: one king each, castling rights only with king and rook at home, an
en-passant target only directly behind an enemy pawn. -/
structure ValidPosition (d : ChessBoard) : Prop where
  tidy : d.Tidy
  kings : ∀ c, (d.kingsOf c).length = 1
  castling : CastlingSound d
  enPassant : d.EpSound

namespace ValidPosition

variable {d : ChessBoard}

theorem sim (h : ValidPosition d) : Sim d (handOver d) :=
  sim_handOver h.tidy fun t ht => (h.enPassant t ht).1

theorem genSafe (h : ValidPosition d) : GenSafe (handOver d) :=
  h.sim.genSafe h.enPassant (reads_handOver h.tidy fun t ht => (h.enPassant t ht).1).ep_eq
    h.castling

theorem soundMoves (h : ValidPosition d) : SoundMoves (handOver d) := h.genSafe.soundMoves

theorem oneKing (h : ValidPosition d) (c : Color) : OneKing d.placement c :=
  ChessBoard.oneKing_of_kingsOf (h.kings c).le

theorem ply_lt (h : ValidPosition d) : (handOver d).ply < maxHistory := by
  rw [(reads_handOver h.tidy fun t ht => (h.enPassant t ht).1).fresh.1]
  decide

end ValidPosition

/-- In Classic and Mercenary the moves that Dart offers in a valid position are those that C
generates, exactly when no legal move is lost behind `MAX_MOVES`. -/
theorem classic_mercenary_moves_agree (d : ChessBoard) (hd : ValidPosition d)
    (hmod : d.gameType = .classic ∨ d.gameType = .mercenary) :
    (∀ v, d.Offers v ↔ Generates (handOver d) v) ↔ ¬ Overflows (handOver d) := by
  apply generates_agree_iff hd.soundMoves hd.ply_lt
  intro v
  have hne : ∀ mod, decide (mod = .classic ∨ mod = .mercenary) = false → d.gameType ≠ mod := by
    rintro mod hno rfl
    exact absurd hmod (of_decide_eq_false hno)
  have hcap : truceNoCap (handOver d) = false := by
    simp [truceNoCap, hd.sim.mod_eq, hne .truce rfl]
  have hlock : kbLocked (handOver d) ≠ true := by
    rw [ne_eq, hd.sim.kbLocked_iff]
    exact fun h => hne .kingsBattle rfl h.1
  refine hd.sim.offers_iff_legal (fun m hm _ => hd.soundMoves.wellFormed m hm) (hd.oneKing _) hd.castling (hne .heir rfl)
    (hne .succession rfl) (hne .friendlyFire rfl) (hne .saveQueen rfl)
    (fun h => absurd h (hne .truce rfl)) hcap (fun h => absurd h hlock) (fun _ => ?_) false
    (fun h => absurd h (hne .kingsBattle rfl))
  exact ⟨hd.enPassant, (reads_handOver hd.tidy fun t ht => (hd.enPassant t ht).1).ep_eq⟩

/-- The starting position of Mercenary. -/
theorem classic_mercenary_moves_agree_start : ValidPosition (ChessBoard.initial .mercenary) ∧
    ∀ v, (ChessBoard.initial .mercenary).Offers v ↔ Generates (startBoard .mercenary) v := by
  have hvalid : ValidPosition (ChessBoard.initial .mercenary) := by
    refine ⟨⟨by decide, by decide +kernel⟩, ?_, ?_, ?_⟩
    · intro c
      cases c <;> decide
    · intro c w _
      cases c <;> cases w <;> decide +kernel
    · intro t ht
      cases ht
  refine ⟨hvalid, (classic_mercenary_moves_agree _ hvalid (.inr rfl)).mpr ?_⟩
  decide +kernel

/-! ## A crowded board -/

/-- White queens all around the board: 265 legal moves, the king's only one last. -/
def crowdedBoard : ChessBoard where
  pieces := [⟨.king, .white, ⟨0, 0⟩, true⟩, ⟨.king, .black, ⟨7, 7⟩, true⟩,
      ⟨.bishop, .white, ⟨7, 6⟩, true⟩, ⟨.bishop, .white, ⟨6, 7⟩, true⟩] ++
    ([1, 2, 3, 4, 5, 6, 7].map fun i => ⟨.queen, .white, ⟨0, i⟩, true⟩) ++
    ([1, 2, 3, 4, 5, 6, 7].map fun i => ⟨.queen, .white, ⟨i, 0⟩, true⟩) ++
    ([1, 2, 3, 4, 5].map fun i => ⟨.queen, .white, ⟨i, 7⟩, true⟩) ++
    ([1, 2, 3, 4, 5].map fun i => ⟨.queen, .white, ⟨7, i⟩, true⟩)
  whiteCanCastleKingside := false
  whiteCanCastleQueenside := false
  blackCanCastleKingside := false
  blackCanCastleQueenside := false

theorem validPosition_crowdedBoard : ValidPosition crowdedBoard where
  tidy := ⟨by decide, by decide +kernel⟩
  kings := by
    intro c
    cases c <;> decide
  castling := by
    intro c w h
    cases c <;> cases w <;> cases h
  enPassant := by
    intro t ht
    cases ht

/-- Dart offers the king's move from a1 to b2, C has no room left for it. -/
theorem crowdedBoard_king_move_lost : ValidPosition crowdedBoard ∧
    crowdedBoard.gameType = .classic ∧ crowdedBoard.Offers (.plain ⟨0, 0⟩ ⟨1, 1⟩) ∧
    ¬ Generates (handOver crowdedBoard) (.plain ⟨0, 0⟩ ⟨1, 1⟩) := by
  refine ⟨validPosition_crowdedBoard, rfl, ?_, ?_⟩
  · unfold ChessBoard.Offers
    decide +kernel
  · -- already the pseudo-legal moves that fit do not contain it
    rw [generates_iff validPosition_crowdedBoard.soundMoves validPosition_crowdedBoard.ply_lt]
    rintro ⟨m, hm, -, hv⟩
    have hall : ∀ m ∈ (pseudoMoves (handOver crowdedBoard)).take maxMoves,
        m.view ≠ .plain ⟨0, 0⟩ ⟨1, 1⟩ := by decide +kernel
    exact hall m hm hv

end ChessRecast.Bridge
