import ChessRecast.Bridge.FenTheorems
import ChessRecast.Engine.HashTheorems

/-!
# The hash of the board handed to the search (`bridge.c`)

`board_set_fen` stores the hash of a board without variant flags; `engine_find_move` sets the
flags afterwards and leaves the hash as it is. From a root without flags on, every board of the
search has its own key.
-/

namespace ChessRecast.Bridge

open Engine

/-- No two sets of flags of a hand-over have the same keys. -/
private theorem flag_keys : ∀ kb wp bp ta : Bool,
    zobristFlags (fun c => match c with | .white => wp | .black => bp)
      (if kb then false else ta) (if kb then ta else false) = 0#64 →
    wp = false ∧ bp = false ∧ ta = false := by
  decide +kernel

theorem boardSetFen_flags (fen : List Char) : (boardSetFen fen).heirPromoted = (fun _ => false) ∧
    (boardSetFen fen).truceActive = false ∧ (boardSetFen fen).kbUnlocked = false := by
  unfold boardSetFen boardRefresh
  exact ⟨rfl, rfl, rfl⟩

/-- The root keeps the hash of the flagless board. -/
theorem hashCoherent_engineSetUp_iff (fen : List Char) (mod : Mod)
    (heirWp heirBp truceActive : Bool) (truceFrozen : BitVec 64) :
    HashCoherent (engineSetUp (boardSetFen fen) mod heirWp heirBp truceActive truceFrozen) ↔
      heirWp = false ∧ heirBp = false ∧ truceActive = false := by
  obtain ⟨hheir, htruce, hkb⟩ := boardSetFen_flags fen
  have hhash := hashCoherent_boardSetFen fen
  generalize boardSetFen fen = b at hheir htruce hkb hhash
  have hcancel : ∀ x y : BitVec 64, x = x ^^^ y ↔ y = 0#64 := by
    refine fun x y => ⟨fun h => ?_, fun h => by rw [h, BitVec.xor_zero]⟩
    have hxor := congrArg (x ^^^ ·) h
    rw [← BitVec.xor_assoc, BitVec.xor_self, BitVec.zero_xor] at hxor
    exact hxor.symm
  have hzero : zobristFlags (fun _ => false) false false = 0#64 := rfl
  unfold HashCoherent at hhash ⊢
  rw [zobristCompute_eq]
  show b.hash = zobristBase b ^^^ zobristFlags
    (fun c => match c with | .white => heirWp | .black => heirBp)
    (if mod = .kingsBattle then false else truceActive)
    (if mod = .kingsBattle then truceActive else false) ↔ _
  rw [hhash, zobristCompute_eq, hheir, htruce, hkb, hzero, BitVec.xor_zero, hcancel]
  constructor
  · intro hkeys
    apply flag_keys (decide (mod = .kingsBattle)) heirWp heirBp truceActive
    by_cases hmod : mod = .kingsBattle
    · simpa [hmod] using hkeys
    · simpa [hmod] using hkeys
  · rintro ⟨rfl, rfl, rfl⟩
    rw [ite_self]
    rfl

/-! ## Main result -/

/-- The root of the search has its own key exactly when no flag is handed over, and from such a
root on every board of the search has, as long as the moves it makes can be undone: after a move,
after taking it back, and inside and after a null move. -/
theorem hash_coherent_in_search (fen : List Char) (mod : Mod) (truceFrozen : BitVec 64) :
    (∀ heirWp heirBp truceActive : Bool,
      HashCoherent (engineSetUp (boardSetFen fen) mod heirWp heirBp truceActive truceFrozen) ↔
        heirWp = false ∧ heirBp = false ∧ truceActive = false) ∧
    (∀ (stack : List SearchFrame) (b : Board), SearchRun Undoable
        (engineSetUp (boardSetFen fen) mod false false false truceFrozen) stack b →
      HashCoherent b) := by
  refine ⟨fun _ _ _ => hashCoherent_engineSetUp_iff fen mod _ _ _ truceFrozen,
    fun stack b hrun => ?_⟩
  have hrep := repInv_engineSetUp (repInv_boardSetFen fen) mod false false false truceFrozen
  have hroot := (hashCoherent_engineSetUp_iff fen mod false false false truceFrozen).mpr
    ⟨rfl, rfl, rfl⟩
  exact SearchNested.hashCoherent hroot stack b (hrun.nested hrep).2

/-- The starting position of Classic. -/
def classicFen : List Char := "rnbqkbnr/pppppppp/8/8/8/8/PPPPPPPP/RNBQKBNR w KQkq - 0 1".toList

/-- From the starting position, the king's pawn goes two squares and comes back. -/
theorem hash_coherent_after_unmake : HashCoherent (boardUnmakeMove (boardMakeMove
    (engineSetUp (boardSetFen classicFen) .classic false false false 0)
    (moveSimple (SQ 1 4) (SQ 3 4) .pawn))) := by
  refine (hash_coherent_in_search classicFen .classic 0).2 [] _ (.unmake (.make .root ⟨?_, ?_⟩))
  · rw [moveSimple_eq_plainMove (b := engineSetUp (boardSetFen classicFen) .classic false false
      false 0) (by decide +kernel)]
    exact wellFormed_plainMove (by decide) (by decide) (by decide) (by decide +kernel)
  · decide +kernel

/-- In Heir, with white's promoted-king flag, the root has the hash of another state. -/
theorem heir_root_hash_stale : ¬ HashCoherent
    (engineSetUp (boardSetFen classicFen) .heir true false false 0) := by
  rw [hashCoherent_engineSetUp_iff]
  decide

end ChessRecast.Bridge
