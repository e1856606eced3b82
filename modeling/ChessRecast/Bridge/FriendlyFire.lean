import ChessRecast.Bridge.Classic

/-!
# Rules equivalence in Friendly Fire

The filter of Dart adds every self-capture as a simple move; C promotes a pawn that takes an own
piece on the last row. Apart from that both engines have the same moves.
-/

namespace ChessRecast.Bridge

open App Engine Rules

/-! ## Self-captures in Dart -/

/-- A self-capture as Dart shows it: always a simple move. -/
def SelfTakes (d : ChessBoard) (v : MoveView) : Prop :=
  v = .plain v.src v.dst ∧ v.dst.IsValid ∧ d.OwnTarget v.dst ∧
    ((∃ t, t ≠ .pawn ∧ d.placement v.src = some (d.currentPlayer, t) ∧
      Reach d.placement t v.src v.dst) ∨
    (d.placement v.src = some (d.currentPlayer, .pawn) ∧ PawnStep d.currentPlayer v.src v.dst))

section Dart

variable {d : ChessBoard} {v : MoveView}

theorem exists_selfCapture_iff (hd : d.Tidy) (hmod : d.gameType = .friendlyFire) :
    (∃ piece ∈ d.pieces, piece.color = d.currentPlayer ∧
      ∃ f m, d.SelfCapture piece f m ∧ m.view = v) ↔ SelfTakes d v := by
  constructor
  · rintro ⟨piece, hpiece, hcolor, f, m, ⟨⟨hf, hfc, hfk, hfm, hne⟩, hreach, rfl⟩, rfl⟩
    have hfv := hd.valid f hf
    rw [ChessBoard.canPieceReach_iff (hd.valid piece hpiece) hfv (Ne.symm hne)] at hreach
    have hman := ChessBoard.placement_of_mem hd hpiece
    rw [hcolor] at hman
    refine ⟨rfl, hfv, ⟨hmod, f, hd.getPieceAt_iff.mpr ⟨hf, rfl⟩, hfc.trans hcolor, hfk, hfm⟩, ?_⟩
    by_cases hp : piece.type = .pawn
    · rw [if_pos hp, hcolor] at hreach
      exact .inr ⟨hp ▸ hman, hreach⟩
    · rw [if_neg hp] at hreach
      exact .inl ⟨piece.type, hp, hman, hreach⟩
  · rintro ⟨hv, hdst, ⟨-, f, hf, hfc, hfk, hfm⟩, hgo⟩
    obtain ⟨hfmem, hfpos⟩ := ChessBoard.mem_of_getPieceAt hf
    have hback : ∀ piece, d.getPieceAt v.src = some piece → piece.color = d.currentPlayer →
        v.src ≠ v.dst → (if piece.type = .pawn then PawnStep piece.color v.src v.dst
          else Reach d.placement piece.type v.src v.dst) →
        ∃ piece ∈ d.pieces, piece.color = d.currentPlayer ∧
          ∃ f m, d.SelfCapture piece f m ∧ m.view = v := by
      intro piece hat hcolor hne hreach
      obtain ⟨hmem, hpos⟩ := ChessBoard.mem_of_getPieceAt hat
      rw [← hpos, ← hfpos] at hreach hne
      refine ⟨piece, hmem, hcolor, f, _, ⟨⟨hfmem, hfc.trans hcolor.symm, hfk, hfm, hne.symm⟩,
        ?_, rfl⟩, ?_⟩
      · rw [ChessBoard.canPieceReach_iff (hd.valid piece hmem) (hd.valid f hfmem) hne]
        exact hreach
      · show MoveView.plain piece.position f.position = v
        rw [hpos, hfpos]
        exact hv.symm
    rcases hgo with ⟨t, ht, hman, hreach⟩ | ⟨hman, hstep⟩
    · obtain ⟨piece, hat, hpm⟩ := ChessBoard.placement_eq_some.mp hman
      obtain ⟨hcolor, rfl⟩ : piece.color = d.currentPlayer ∧ piece.type = t := Prod.mk.inj hpm
      exact hback piece hat hcolor hreach.ne (by rwa [if_neg ht])
    · obtain ⟨piece, hat, hpm⟩ := ChessBoard.placement_eq_some.mp hman
      obtain ⟨hcolor, hp⟩ : piece.color = d.currentPlayer ∧ piece.type = .pawn := Prod.mk.inj hpm
      exact hback piece hat hcolor hstep.ne (by rwa [if_pos hp, hcolor])

theorem offers_iff_friendlyFire (hd : ValidPosition d) (hmod : d.gameType = .friendlyFire) :
    d.Offers v ↔ ((d.appBook d.Unlocked fun _ => d.NoKing).Allows v ∨ SelfTakes d v) ∧
      ¬ Checked d.gameType false (after d.placement v) d.currentPlayer := by
  have hheir : d.gameType ≠ .heir := by rw [hmod]; decide
  have hsucc : d.gameType ≠ .succession := by rw [hmod]; decide
  have htruce : ¬ (d.gameType = .truce ∧ d.isTruceActive = true) := by rw [hmod]; simp
  have hking := ChessBoard.kingFound_of_oneKing hd.tidy (hd.oneKing d.currentPlayer)
  have hunlocked : ∀ piece, d.Unlocked piece := by
    intro piece hkb
    rw [hmod] at hkb
    cases hkb
  have hfilter : ∀ piece ∈ d.pieces, ∀ m,
      m ∈ d.applyRulesetFilter (d.getPotentialMoves piece) piece ↔
        m ∈ d.getPotentialMoves piece ∨ ∃ f, d.SelfCapture piece f m := by
    intro piece hpiece m
    rw [ChessBoard.applyRulesetFilter, hmod]
    refine ChessBoard.mem_friendlyFireFilter hd.tidy fun f hf hfc m hm heq => ?_
    have hshape := ChessBoard.shape_of_getPotentialMoves (hd.tidy.valid piece hpiece) hm
    have hempty := hshape.empty_of_enPassant hd.enPassant
    refine ChessBoard.notOwn_of_getPotentialMoves (hd.tidy.valid _ hpiece) hempty hm f ?_ hfc
    rw [heq]
    exact hd.tidy.getPieceAt_iff.mpr ⟨hf, rfl⟩
  have hsafe : ∀ m, d.Filtered m →
      ((d.makeMoveForValidation m).isKingInCheck d.currentPlayer = false ↔
        ¬ Checked d.gameType false (after d.placement m.view) d.currentPlayer) :=
    fun m hm => ChessBoard.validation_safe_iff hd.tidy (hd.oneKing _) hheir hsucc hm
      (fun _ => hd.enPassant) fun hkb => by rw [hmod] at hkb; cases hkb
  rw [ChessBoard.offers_iff hd.tidy, ← exists_selfCapture_iff hd.tidy hmod,
    ← ChessBoard.exists_potential_iff hd.tidy hking (fun piece z _ hz q hq => by
      rw [hz] at hq
      cases hq) fun _ t ht => ChessBoard.placement_eq_none.mp (hd.enPassant t ht).2.1]
  constructor
  · rintro ⟨m, hm, hkeep, rfl⟩
    obtain ⟨hno, hcheck⟩ := (ChessBoard.keepsMove_iff hheir htruce).mp hkeep
    refine ⟨?_, (hsafe m hm).mp hcheck⟩
    obtain ⟨piece, hpiece, hcolor, hmem⟩ := hm
    rw [(ChessBoard.shape_of_filtered hd.tidy hpiece hmem).takesKing_iff
      fun _ => hd.enPassant] at hno
    rcases (hfilter piece hpiece m).mp hmem with hpot | ⟨f, hself⟩
    · exact .inl ⟨piece, hpiece, hcolor, hunlocked piece, m, hpot, hno, rfl⟩
    · exact .inr ⟨piece, hpiece, hcolor, f, m, hself, rfl⟩
  · rintro ⟨⟨piece, hpiece, hcolor, -, m, hpot, hno, rfl⟩ | ⟨piece, hpiece, hcolor, f, m, hself, rfl⟩,
      hcheck⟩
    · have hm := (hfilter piece hpiece m).mpr (.inl hpot)
      refine ⟨m, ⟨piece, hpiece, hcolor, hm⟩, (ChessBoard.keepsMove_iff hheir htruce).mpr
        ⟨?_, (hsafe m ⟨piece, hpiece, hcolor, hm⟩).mpr hcheck⟩, rfl⟩
      rwa [(ChessBoard.shape_of_filtered hd.tidy hpiece hm).takesKing_iff fun _ => hd.enPassant]
    · have hm := (hfilter piece hpiece m).mpr (.inr ⟨f, hself⟩)
      refine ⟨m, ⟨piece, hpiece, hcolor, hm⟩, (ChessBoard.keepsMove_iff hheir htruce).mpr
        ⟨?_, (hsafe m ⟨piece, hpiece, hcolor, hm⟩).mpr hcheck⟩, rfl⟩
      obtain ⟨⟨-, -, hfk, -⟩, -, rfl⟩ := hself
      rintro ⟨q, hq, hk⟩
      obtain rfl := Option.some.inj hq
      exact hfk hk

end Dart

/-! ## The difference -/

/-- A pawn may safely take an own piece on the last row. -/
def SelfPromotes (d : ChessBoard) : Prop :=
  ∃ a z, d.placement a = some (d.currentPlayer, .pawn) ∧ z.IsValid ∧
    PawnStep d.currentPlayer a z ∧ z.row = promotionRow d.currentPlayer ∧ d.OwnTarget z ∧
    ¬ Checked d.gameType false (after d.placement (.plain a z)) d.currentPlayer

section Difference

variable {d : ChessBoard} {v : MoveView}

theorem selfTakes_iff (hd : ValidPosition d) (hmod : d.gameType = .friendlyFire)
    (hno : ¬ SelfPromotes d) :
    (SelfTakes d v ∧ ¬ Checked d.gameType false (after d.placement v) d.currentPlayer) ↔
      ((d.appBook d.Unlocked fun _ => d.NoKing).TakesOwn d.OwnTarget v ∧
        ¬ Checked d.gameType false (after d.placement v) d.currentPlayer) := by
  have hvalid : ∀ {a : Position} {man : Man}, d.placement a = some man → a.IsValid := by
    intro a man h
    obtain ⟨q, hq, -⟩ := ChessBoard.placement_eq_some.mp h
    exact hd.tidy.valid_of_getPieceAt hq
  refine and_congr_left fun hsafe => ?_
  constructor
  · rintro ⟨hv, hdst, hown, ⟨t, ht, hman, hreach⟩ | ⟨hman, hstep⟩⟩
    · exact ⟨hvalid hman, hdst, hown, .inl ⟨t, ht, hman, hreach, hv⟩⟩
    · refine ⟨hvalid hman, hdst, hown, .inr ⟨hman, hstep, ?_⟩⟩
      by_cases hrow : v.dst.row = promotionRow d.currentPlayer
      · exact absurd ⟨v.src, v.dst, hman, hdst, hstep, hrow, hown, hv ▸ hsafe⟩ hno
      · exact (if_neg hrow).mpr hv
  · rintro ⟨hsrc, hdst, hown, ⟨t, ht, hman, hreach, hv⟩ | ⟨hman, hstep, harr⟩⟩
    · exact ⟨hv, hdst, hown, .inl ⟨t, ht, hman, hreach⟩⟩
    · unfold Book.Arrives at harr
      split at harr
      · rename_i hrow
        obtain ⟨t, ⟨letter, hletter, ht⟩, hv⟩ := harr
        -- a promotion is as safe as the simple move
        have hking : t ≠ .king := ht ▸ ChessBoard.promotedType_ne_king
          (by rw [hmod]; decide) (by rw [hmod]; decide) letter hletter
        have hpawn : d.placement v.src = some (d.currentPlayer, .pawn) := hman
        rw [hv, checked_promotion hking hpawn] at hsafe
        exact absurd ⟨v.src, v.dst, hman, hdst, hstep, hrow, hown, hsafe⟩ hno
      · exact ⟨harr, hdst, hown, .inr ⟨hman, hstep⟩⟩

/-- C never takes an own piece on the last row without promoting. -/
theorem not_allows_selfPromotes {a z : Position} {own : Position → Prop}
    (hmod : d.gameType = .friendlyFire)
    (hman : d.placement a = some (d.currentPlayer, .pawn)) (hstep : PawnStep d.currentPlayer a z)
    (hrow : z.row = promotionRow d.currentPlayer) (hown : d.OwnTarget z) :
    ¬ ((d.appBook d.Unlocked fun _ => d.NoKing).withTakes own).Allows (.plain a z) := by
  have hpawn : ∀ t, t ≠ .pawn → d.placement a ≠ some (d.currentPlayer, t) := by
    intro t ht heq
    rw [hman] at heq
    exact ht (Prod.mk.inj (Option.some.inj heq)).2.symm
  have harr : ¬ (d.appBook d.Unlocked fun _ => d.NoKing).Arrives (.plain a z) := by
    intro harr
    obtain ⟨t, -, hv⟩ := (if_pos hrow).mp harr
    cases hv
  obtain ⟨-, f, hf, -⟩ := hown
  have hfull : d.placement z ≠ none := by
    rw [ne_eq, ChessBoard.placement_eq_none, hf]
    exact fun h => by cases h
  rw [Book.allows_withTakes]
  rintro ((⟨-, -, ⟨t, ht, hman', -⟩ | ⟨-, hgo⟩⟩ | ⟨w, -, hv⟩) |
    ⟨-, -, -, ⟨t, ht, hman', -⟩ | ⟨-, -, hv⟩⟩)
  · exact hpawn t ht hman'
  · rcases hgo with ⟨⟨hmerc, -⟩, -⟩ | ⟨-, -, ⟨-, hv⟩ | ⟨-, -, hempty, -⟩⟩ | ⟨-, ⟨-, hv⟩ | ⟨-, hv⟩⟩
    · rw [hmod] at hmerc
      cases hmerc
    · exact harr hv
    · exact hfull hempty
    · exact harr hv
    · cases hv
  · cases hv
  · exact hpawn t ht hman'
  · exact harr hv

end Difference

/-- In Friendly Fire both engines have the same moves exactly when no pawn may safely take an own
piece on the last row and no legal move is lost behind `MAX_MOVES`. -/
theorem friendlyFire_moves_agree_iff (d : ChessBoard) (hd : ValidPosition d)
    (hmod : d.gameType = .friendlyFire) :
    (∀ v, d.Offers v ↔ Generates (handOver d) v) ↔
      ¬ SelfPromotes d ∧ ¬ Overflows (handOver d) := by
  have hne : ∀ mod, decide (mod = .friendlyFire) = false → d.gameType ≠ mod := by
    rintro mod hno rfl
    exact absurd hmod (of_decide_eq_false hno)
  have hcap : truceNoCap (handOver d) = false := by
    simp [truceNoCap, hd.sim.mod_eq, hne .truce rfl]
  have hlock : kbLocked (handOver d) ≠ true := by
    rw [ne_eq, hd.sim.kbLocked_iff]
    exact fun h => hne .kingsBattle rfl h.1
  have hagree : ∀ v, (book (handOver d)).Allows v ↔
      ((d.appBook d.Unlocked fun _ => d.NoKing).withTakes d.OwnTarget).Allows v := by
    intro v
    refine (Book.allows_congr (hd.sim.agree (hd.oneKing _) hd.castling (hne .heir rfl)
      (hne .succession rfl) (hne .saveQueen rfl) hcap fun h => absurd h hlock) ?_).symm
    intro _ hman hdst hstep
    exact hd.sim.passant_iff hd.enPassant
      (reads_handOver hd.tidy fun t ht => (hd.enPassant t ht).1).ep_eq hcap d.Unlocked
      (fun _ => d.NoKing) (fun piece hp _ _ => .inr hp) hman hdst hstep
  have hequal : ¬ SelfPromotes d → ((∀ v, d.Offers v ↔ Generates (handOver d) v) ↔
      ¬ Overflows (handOver d)) := by
    intro hself
    apply generates_agree_iff hd.soundMoves hd.ply_lt
    intro v
    rw [hd.sim.exists_legal_iff fun m hm hv => hv ▸ hd.sim.legal_iff_safe (hd.soundMoves.wellFormed m hm)
        (hd.oneKing _) (hne .heir rfl) (hne .succession rfl) hcap hm
        (fun hre => hne .saveQueen rfl (hd.sim.mod_eq ▸ hre.2.2.1))
        (fun hkb => absurd hkb (hne .kingsBattle rfl)),
      hagree, Book.allows_withTakes, offers_iff_friendlyFire hd hmod, or_and_right, or_and_right,
      selfTakes_iff hd hmod hself]
  constructor
  · intro hall
    have hself : ¬ SelfPromotes d := by
      rintro ⟨a, z, hman, hz, hstep, hrow, hown, hsafe⟩
      have hoffers : d.Offers (.plain a z) := (offers_iff_friendlyFire hd hmod).mpr
        ⟨.inr ⟨rfl, hz, hown, .inr ⟨hman, hstep⟩⟩, hsafe⟩
      obtain ⟨m, hm, -, hv⟩ := (generates_iff hd.soundMoves hd.ply_lt).mp ((hall _).mp hoffers)
      have hallows := (exists_pseudoMoves_iff hd.sim.rep).mp ⟨m, List.mem_of_mem_take hm, hv⟩
      exact not_allows_selfPromotes hmod hman hstep hrow hown ((hagree _).mp hallows)
    exact ⟨hself, (hequal hself).mp hall⟩
  · rintro ⟨hself, hfits⟩
    exact (hequal hself).mpr hfits

/-- At the start no piece has moved, so nothing can be taken by its own side. -/
theorem friendlyFire_moves_agree_start : ValidPosition (ChessBoard.initial .friendlyFire) ∧
    ∀ v, (ChessBoard.initial .friendlyFire).Offers v ↔
      Generates (startBoard .friendlyFire) v := by
  have hvalid : ValidPosition (ChessBoard.initial .friendlyFire) := by
    refine ⟨⟨by decide, by decide +kernel⟩, ?_, ?_, ?_⟩
    · intro c
      cases c <;> decide
    · intro c w _
      cases c <;> cases w <;> decide +kernel
    · intro t ht
      cases ht
  refine ⟨hvalid, (friendlyFire_moves_agree_iff _ hvalid rfl).mpr ⟨?_, ?_⟩⟩
  · rintro ⟨a, z, -, -, -, -, ⟨-, f, hf, -, -, hmoved⟩, -⟩
    have hall : ∀ p ∈ (ChessBoard.initial .friendlyFire).pieces, p.hasMoved = false := by decide
    rw [hall f (ChessBoard.mem_of_getPieceAt hf).1] at hmoved
    cases hmoved
  · decide +kernel

/-- A white pawn on g7 beside its own rook on h8, which has moved. -/
def selfPromotionBoard : ChessBoard where
  pieces := [⟨.king, .white, ⟨0, 4⟩, true⟩, ⟨.pawn, .white, ⟨6, 6⟩, true⟩,
    ⟨.rook, .white, ⟨7, 7⟩, true⟩, ⟨.king, .black, ⟨4, 0⟩, true⟩]
  whiteCanCastleKingside := false
  whiteCanCastleQueenside := false
  blackCanCastleKingside := false
  blackCanCastleQueenside := false
  gameType := .friendlyFire

theorem validPosition_selfPromotionBoard : ValidPosition selfPromotionBoard where
  tidy := ⟨by decide, by decide +kernel⟩
  kings := by
    intro c
    cases c <;> decide
  castling := by
    intro c w h
    cases c <;> cases w <;> cases h
  enPassant := by
    intro t ht
    cases ht

/-- Dart offers the capture g7xh8 as a simple move, C as promotions. -/
theorem selfPromotionBoard_moves_differ : ValidPosition selfPromotionBoard ∧
    selfPromotionBoard.gameType = .friendlyFire ∧
    selfPromotionBoard.Offers (.plain ⟨6, 6⟩ ⟨7, 7⟩) ∧
    ¬ Generates (handOver selfPromotionBoard) (.plain ⟨6, 6⟩ ⟨7, 7⟩) ∧
    Generates (handOver selfPromotionBoard) (.promotion ⟨6, 6⟩ ⟨7, 7⟩ .queen) ∧
    ¬ selfPromotionBoard.Offers (.promotion ⟨6, 6⟩ ⟨7, 7⟩ .queen) := by
  refine ⟨validPosition_selfPromotionBoard, rfl, ?_⟩
  unfold ChessBoard.Offers Generates
  decide +kernel

end ChessRecast.Bridge
