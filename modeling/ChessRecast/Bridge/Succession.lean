import ChessRecast.Bridge.SuccessionResults
import ChessRecast.Engine.Capacity

/-!
# Rules equivalence in Succession

A game of Succession that goes on has no kings, but the castling flags of the starting position
are all set. Dart castles with a king only. C castles with whatever stands on the king's home
square, and this is the only difference between the moves of the two engines.
-/

namespace ChessRecast.Bridge

open App Engine Rules

/-- The squares of a castling are free and safe and its flag is set, whoever stands at home. -/
def QueenCastles (d : ChessBoard) (w : Wing) : Prop :=
  d.castleFlag d.currentPlayer w = true ∧
  (∀ col ∈ w.empties, d.getPieceAt ⟨homeRow d.currentPlayer, col⟩ = none) ∧
  ∀ col ∈ w.safes, d.isPositionUnderAttack ⟨homeRow d.currentPlayer, col⟩
    d.currentPlayer.opposite = false

instance (d : ChessBoard) (w : Wing) : Decidable (QueenCastles d w) :=
  inferInstanceAs (Decidable (_ ∧ _ ∧ _))

section Moves

variable {d : ChessBoard} {b : Board}

theorem Sim.kingless (h : Sim d b) (hinv : d.SuccInv) (k : Position) :
    placement b.toViews k ≠ some (b.side, .king) := by
  rw [h.placement_eq]
  exact hinv.kingless _ k

theorem Sim.kings_eq_zero (h : Sim d b) (hinv : d.SuccInv) : b.pieces b.side .king = 0 := by
  by_contra hne
  obtain ⟨k, hk⟩ := (pieces_ne_zero_iff h.rep).mp hne
  exact h.kingless hinv k hk

theorem truceNoCap_succession (h : Sim d b) (hinv : d.SuccInv) : truceNoCap b = false := by
  simp [truceNoCap, h.mod_eq, hinv.mod]

/-- Nobody is in check, so only the squares of the castling count. -/
theorem Sim.castlesNow (h : Sim d b) (hinv : d.SuccInv) : CastlesNow b := by
  refine ⟨?_, ?_, ?_⟩
  · by_contra hlock
    have hmod := (h.kbLocked_iff.mp (by simpa using hlock)).1
    rw [hinv.mod] at hmod
    cases hmod
  · rw [truceNoCap_succession h hinv]
    exact fun hh => by cases hh.1
  · rintro ⟨-, hcheck⟩
    obtain ⟨-, -, k, hk, -⟩ := (boardInCheck_iff h.rep
      fun k k' hk _ => absurd hk (h.kingless hinv k)).mp hcheck
    exact h.kingless hinv k hk

theorem Sim.queenCastles_iff (h : Sim d b) (hinv : d.SuccInv) (w : Wing) :
    CastleOpen b w ↔ QueenCastles d w :=
  h.castleOpen_iff (h.needCheckSafe_eq (by rw [hinv.mod]; decide) (truceNoCap_succession h hinv)) w

theorem sum_countType (side : List ChessPiece) :
    (pieceTypes.map (countType side)).sum = side.length := by
  induction side with
  | nil => rfl
  | cons p side ih =>
    have hcons : ∀ t, countType (p :: side) t = countType side t + if p.type = t then 1 else 0 := by
      intro t
      unfold countType
      rw [List.filter_cons]
      split_ifs with htest hsame hsame <;> simp_all
    rw [List.length_cons, ← ih]
    simp only [pieceTypes, List.map_cons, List.map_nil, List.sum_cons, List.sum_nil, hcons]
    cases p.type <;> simp <;> omega

theorem Sim.men_le (h : Sim d b) (hinv : d.SuccInv) :
    (pieceTypes.map fun pt => bbPopcount (b.pieces b.side pt)).sum ≤ 16 := by
  simp only [h.popcount_countType]
  rw [sum_countType]
  exact hinv.men _

theorem Sim.room (h : Sim d b) (hinv : d.SuccInv) : (pseudoMoves b).length ≤ maxMoves := by
  refine length_pseudoMoves_le h.rep (h.mod_eq.trans hinv.mod) (h.kings_eq_zero hinv) ?_
    (h.men_le hinv)
  rw [h.popcount_countType]
  exact hinv.queens _

theorem Sim.successionBecomes_iff (h : Sim d b) (hinv : d.SuccInv) {z : Position}
    {t : PieceType} (hz : z.IsValid) :
    (∃ letter ∈ d.getPromotionPieces d.currentPlayer z, promotedType (some letter) = t) ↔
      t ∈ promoTypes b (ofPos z) := by
  have hpawn : bbPopcount (b.pieces b.side .pawn) = (d.pawnsOf d.currentPlayer).length := by
    rw [h.popcount_eq, h.side_eq]
    rfl
  have hsome : 0 < (d.pawnsOf d.currentPlayer).length :=
    List.length_pos_of_ne_nil ((ChessBoard.pawnsOf_ne_nil_iff h.tidy).mpr (hinv.pawns _))
  have hlast : bbPopcount (b.pieces b.side .pawn) ≤ 1 ↔
      (d.pawnsOf d.currentPlayer).length = 1 := by omega
  have hattack : boardSquareAttacked b (ofPos z) b.side.opposite =
      d.isPositionUnderAttack z d.currentPlayer.opposite := by
    rw [Bool.eq_iff_iff, h.attacked_iff hz, h.side_eq]
  unfold ChessBoard.getPromotionPieces promoTypes ChessBoard.successionPromotionPieces
  rw [h.mod_eq, hinv.mod, hattack]
  dsimp only
  simp only [hlast, h.kings_eq_zero hinv, and_true, true_and]
  generalize d.isPositionUnderAttack z d.currentPlayer.opposite = attacked
  by_cases hone : (d.pawnsOf d.currentPlayer).length = 1
  · cases attacked <;> cases t <;> simp [hone, promotedType]
  · cases attacked <;> cases t <;> simp [hone, promotedType]

/-- With the captures in order, all moves but castling are well formed. -/
theorem wellFormed_of_uncastled (hinv : d.SuccInv) (hfits : PassantFits d) {m : Move}
    (hm : m ∈ pseudoMoves (handOver d)) (hcastle : m.castle = false) :
    WellFormed (handOver d) m := by
  have hsim := sim_handOver hinv.tidy hinv.target
  have hshape := shape_of_mem_pseudoMoves hsim.rep hm
  refine hshape.wellFormed (fun w _ _ heq => ?_)
    (hsim.passantOk hinv.target hfits (reads_handOver hinv.tidy hinv.target).ep_eq hshape)
  rw [heq] at hcastle
  cases hcastle

theorem queenCastles_of_mem (hinv : d.SuccInv) {m : Move} (hm : m ∈ pseudoMoves (handOver d))
    (hcastle : m.castle = true) : ∃ w, QueenCastles d w := by
  have hsim := sim_handOver hinv.tidy hinv.target
  rcases castle_or_mem hsim.rep hm with ⟨w, -, hopen, -⟩ | ⟨hquiet, -⟩
  · exact ⟨w, (hsim.queenCastles_iff hinv w).mp hopen⟩
  · rw [hquiet] at hcastle
    cases hcastle

theorem not_offers_castle (hinv : d.SuccInv) {v : MoveView} (hv : v.castle = true) :
    ¬ d.Offers v := by
  intro hoffers
  obtain ⟨m, ⟨piece, hpiece, -, hm⟩, -, rfl⟩ := (ChessBoard.offers_iff hinv.tidy).mp hoffers
  have hking := (ChessBoard.shape_of_filtered hinv.tidy hpiece hm).king_of_castling hv
  exact hinv.kingless piece.color piece.position
    (by rw [ChessBoard.placement_of_mem hinv.tidy hpiece, hking])

theorem Sim.successionAllows_iff (h : Sim d b) (hinv : d.SuccInv) {v : MoveView}
    (hep : v.ep = false) (hcastle : v.castle = false) :
    (d.appBook d.Unlocked fun _ => d.NoKing).Allows v ↔ (book b).Allows v := by
  have hne : ∀ mod, mod ≠ .succession → d.gameType ≠ mod := by
    rintro mod hno rfl
    exact hno hinv.mod
  have hno : ¬ (d.appBook d.Unlocked fun _ => d.NoKing).TakesOwn d.OwnTarget v :=
    fun hown => hne .friendlyFire (by decide) hown.2.2.1.1
  have hagree : Book.Agree
      { (d.appBook d.Unlocked fun _ => d.NoKing).withTakes d.OwnTarget with
        castles := fun _ => False }
      { book b with castles := fun _ => False } :=
    h.agree_of (hne .heir (by decide)) (hne .saveQueen (by decide))
      (truceNoCap_succession h hinv) (fun _ z t hz => h.successionBecomes_iff hinv hz)
      fun _ => Iff.rfl
  have hpassant : v.ep = true → False := fun hv => by rw [hep] at hv; cases hv
  rw [← Book.allows_withoutCastling hcastle (B := book b)]
  refine Iff.trans ?_ (Book.allows_congr hagree fun hv => (hpassant hv).elim)
  rw [← Book.allows_withoutCastling hcastle, ← or_iff_left hno (a := Book.Allows _ v)]
  exact Book.allows_withTakes.symm

/-- The moves of the men are the same, whether castling is open or not. -/
theorem offers_iff_legal_uncastled (hinv : d.SuccInv) (hfits : PassantFits d) {v : MoveView}
    (hep : v.ep = false) (hcastle : v.castle = false) :
    d.Offers v ↔ ∃ m ∈ pseudoMoves (handOver d), legal (handOver d) m = true ∧ m.view = v := by
  have hsim := sim_handOver hinv.tidy hinv.target
  have hne : ∀ mod, mod ≠ .succession → d.gameType ≠ mod := by
    rintro mod hno rfl
    exact hno hinv.mod
  have hking : d.KingFound := fun q hq hman => by
    have hplace := ChessBoard.placement_of_mem hinv.tidy hq
    exact absurd (hplace.trans (congrArg some hman)) (hinv.kingless _ _)
  have hone := oneKing_after_of_kingless (hinv.kingless d.currentPlayer) v
  have hpassant : v.ep = true → d.EpSound := fun hv => by rw [hep] at hv; cases hv
  have hlegal : ∀ m ∈ pseudoMoves (handOver d), m.view = v → (legal (handOver d) m = true ↔
      ¬ Checked d.gameType false (after d.placement v) d.currentPlayer) := by
    intro m hm hv
    have hwf := wellFormed_of_uncastled hinv hfits hm (by rw [← hcastle, ← hv]; rfl)
    rw [legal_iff_unchecked hsim.rep hwf (by rw [hsim.placement_eq, hsim.side_eq, hv]; exact hone)
      (hsim.mod_eq ▸ hne .heir (by decide)) (truceNoCap_succession hsim hinv)
      (fun hre => hne .saveQueen (by decide) (hsim.mod_eq ▸ hre.2.2.1)), hsim.placement_eq,
      hsim.side_eq, hsim.mod_eq, hv, not_iff_not]
    exact checked_phase (hne .kingsBattle (by decide)) _ _ _ _
  rw [hsim.exists_legal_iff hlegal, ← hsim.successionAllows_iff hinv hep hcastle]
  refine ChessBoard.offers_iff_book hinv.tidy hking hpassant (hne .heir (by decide))
    (fun hh => hne .truce (by decide) hh.1) ?_ ?_ ?_
  · intro piece z _ hz q hq
    rw [hz] at hq
    cases hq
  · intro piece hpiece _ m _
    exact ChessBoard.mem_plainRuleset (hne .friendlyFire (by decide))
      (hne .saveQueen (by decide)) (fun hh => absurd hh (hne .truce (by decide))) hinv.tidy hpiece
  · intro m hm hv
    have hproper := hm.proper hinv.tidy hking fun hh => hpassant (hv ▸ hh)
    rw [← Bool.not_eq_true, ChessBoard.validation_checked_iff hinv.tidy hproper (hv ▸ hone), hv,
      not_iff_not]
    exact checked_phase (hne .kingsBattle (by decide)) _ _ _ _

end Moves

/-- Along every line of Succession, the moves other than en-passant captures are the same in both
engines exactly if no castling is open for the side to move. -/
theorem succession_moves_agree_iff (d : ChessBoard)
    (h : ChessBoard.Reached ChessBoard.PlaysOn (ChessBoard.initial .succession) d)
    (hrun : d.Running) (hfits : PassantFits d) :
    (∀ v, v.ep = false → (d.Offers v ↔ Generates (handOver d) v)) ↔ ∀ w, ¬ QueenCastles d w := by
  have hinv := h.succInv (by rcases hrun with hr | hr <;> rw [hr] <;> decide)
  have hsim := sim_handOver hinv.tidy hinv.target
  have hply : (handOver d).ply < maxHistory := by
    rw [(reads_handOver hinv.tidy hinv.target).fresh.1]
    decide
  have hroom := hsim.room hinv
  constructor
  · intro hagree w hcastles
    obtain ⟨w', hgen⟩ := exists_castle_generated hsim.rep hply
      (fun m hm => wellFormed_of_uncastled hinv hfits (List.mem_append_left _ hm)
        (castle_of_mem_menMoves hsim.rep hm)) hroom (hsim.mod_eq.trans hinv.mod)
      (hsim.kingless hinv) (hsim.castlesNow hinv) ((hsim.queenCastles_iff hinv w).mpr hcastles)
    exact not_offers_castle hinv rfl ((hagree _ rfl).mpr ⟨_, hgen, rfl⟩)
  · intro hno v hep
    have hcastle : ∀ m ∈ pseudoMoves (handOver d), m.castle = false := by
      intro m hm
      by_contra hc
      obtain ⟨w, hw⟩ := queenCastles_of_mem hinv hm (by simpa using hc)
      exact hno w hw
    have hsound : SoundMoves (handOver d) :=
      ⟨hsim.rep, fun m hm => wellFormed_of_uncastled hinv hfits hm (hcastle m hm)⟩
    rw [generates_iff hsound hply, List.take_of_length_le hroom]
    by_cases hc : v.castle = true
    · refine iff_of_false (not_offers_castle hinv hc) ?_
      rintro ⟨m, hm, -, rfl⟩
      rw [show m.view.castle = m.castle from rfl, hcastle m hm] at hc
      cases hc
    · exact offers_iff_legal_uncastled hinv hfits hep (by simpa using hc)

/-- The starting position. -/
theorem succession_moves_agree_start : PassantFits (ChessBoard.initial .succession) ∧
    ∀ v, v.ep = false →
      ((ChessBoard.initial .succession).Offers v ↔ Generates (startBoard .succession) v) := by
  have hfits : PassantFits (ChessBoard.initial .succession) := fun t ht => by cases ht
  refine ⟨hfits, (succession_moves_agree_iff _ .start (.inl rfl) hfits).mpr fun w => ?_⟩
  cases w <;> decide +kernel

/-- 1. Nf3 a6 2. g3 a5 3. Bg2 a4 -/
def openedLine : List ChessMove :=
  [ChessMove.simple ⟨0, 6⟩ ⟨2, 5⟩ ⟨.knight, .white, ⟨0, 6⟩, false⟩ none,
    ChessMove.simple ⟨6, 0⟩ ⟨5, 0⟩ ⟨.pawn, .black, ⟨6, 0⟩, false⟩ none,
    ChessMove.simple ⟨1, 6⟩ ⟨2, 6⟩ ⟨.pawn, .white, ⟨1, 6⟩, false⟩ none,
    ChessMove.simple ⟨5, 0⟩ ⟨4, 0⟩ ⟨.pawn, .black, ⟨5, 0⟩, true⟩ none,
    ChessMove.simple ⟨0, 5⟩ ⟨1, 6⟩ ⟨.bishop, .white, ⟨0, 5⟩, false⟩ none,
    ChessMove.simple ⟨4, 0⟩ ⟨3, 0⟩ ⟨.pawn, .black, ⟨4, 0⟩, true⟩ none]

/-- With knight and bishop out of the way, C castles with the queen of e1. -/
theorem queen_castles_in_c_only : ∃ d : ChessBoard,
    ChessBoard.Reached ChessBoard.PlaysOn (ChessBoard.initial .succession) d ∧
    d.gameStatus = .ongoing ∧ d.enPassantTarget = none ∧
    ¬ d.Offers (.castling .white .king) ∧
    Generates (handOver d) (.castling .white .king) := by
  refine ⟨openedLine.foldl ChessBoard.next (ChessBoard.initial .succession),
    ChessBoard.Reached.line openedLine _ .start (by decide +kernel), by decide +kernel,
    by decide +kernel, ?_, ?_⟩
  · unfold ChessBoard.Offers
    decide +kernel
  · unfold Generates
    decide +kernel

end ChessRecast.Bridge
