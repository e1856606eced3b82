import ChessRecast.Engine.Fen

/-!
# The representation invariant of the C board

The placement is stored four times. `RepInv` says that the four copies agree; `boardPlace` on
an empty square and `boardRemove` keep it, and under it the mailbox determines the other three
copies (`RepInv.ext`), so that later proofs only follow the mailbox.
-/

namespace ChessRecast.Engine

/-! ## Squares -/

theorem SQ_eq {r c : ℤ} (h : Grid.Inside 8 r c) : SQ r c = r * 8 + c := by
  unfold Grid.Inside at h
  unfold SQ
  omega

theorem sqValid_SQ {r c : ℤ} (h : Grid.Inside 8 r c) : SqValid (SQ r c) := by
  rw [SQ_eq h]
  unfold Grid.Inside at h
  unfold SqValid
  omega

theorem sqRow_SQ {r c : ℤ} (h : Grid.Inside 8 r c) : sqRow (SQ r c) = r := by
  rw [SQ_eq h]
  unfold Grid.Inside at h
  unfold sqRow
  omega

theorem sqCol_SQ {r c : ℤ} (h : Grid.Inside 8 r c) : sqCol (SQ r c) = c := by
  rw [SQ_eq h]
  unfold Grid.Inside at h
  unfold sqCol
  omega

theorem SqValid.inside {sq : ℤ} (h : SqValid sq) : Grid.Inside 8 (sqRow sq) (sqCol sq) := by
  unfold SqValid at h
  unfold Grid.Inside sqRow sqCol
  omega

@[simp] theorem SQ_sqRow_sqCol {sq : ℤ} (h : SqValid sq) : SQ (sqRow sq) (sqCol sq) = sq := by
  rw [SQ_eq h.inside]
  unfold sqRow sqCol
  omega

theorem SQ_inj {r c r' c' : ℤ} (h : Grid.Inside 8 r c) (h' : Grid.Inside 8 r' c') :
    SQ r c = SQ r' c' ↔ r = r' ∧ c = c' := by
  rw [SQ_eq h, SQ_eq h']
  unfold Grid.Inside at h h'
  omega

/-! ## Bits of a bitboard -/

section Bitboards

variable {x y : Bitboard} {s t : ℤ}

theorem SqValid.toNat_lt (h : SqValid s) : s.toNat < 64 := by
  unfold SqValid at h
  omega

theorem SqValid.toNat_eq_iff (hs : SqValid s) (ht : SqValid t) : s.toNat = t.toNat ↔ s = t := by
  unfold SqValid at hs ht
  omega

@[simp] theorem bbHas_zero : bbHas 0#64 s = false := by simp [bbHas]

@[simp] theorem bbHas_or : bbHas (x ||| y) s = (bbHas x s || bbHas y s) := by simp [bbHas]

@[simp] theorem bbHas_and : bbHas (x &&& y) s = (bbHas x s && bbHas y s) := by simp [bbHas]

theorem bbHas_not (hs : SqValid s) : bbHas (~~~x) s = !bbHas x s := by
  have hlt := hs.toNat_lt
  simp [bbHas, hlt]

theorem bbHas_bbSq (hs : SqValid s) (ht : SqValid t) : bbHas (bbSq s) t = decide (t = s) := by
  unfold bbHas bbSq
  rw [Bits.getLsbD_single _ _ hs.toNat_lt]
  simp only [ht.toNat_eq_iff hs]

theorem bbHas_bbSet (hs : SqValid s) (ht : SqValid t) :
    bbHas (bbSet x s) t = (bbHas x t || decide (t = s)) := by
  unfold bbSet
  rw [bbHas_or, bbHas_bbSq hs ht]

theorem bbHas_bbClr (hs : SqValid s) (ht : SqValid t) :
    bbHas (bbClr x s) t = (bbHas x t && !decide (t = s)) := by
  unfold bbClr
  rw [bbHas_and, bbHas_not ht, bbHas_bbSq hs ht]

theorem bb_ext (h : ∀ sq, SqValid sq → bbHas x sq = bbHas y sq) : x = y := by
  apply Bits.ext_getLsbD
  intro i hi
  have hvalid : SqValid (i : ℤ) := by
    unfold SqValid
    omega
  simpa [bbHas] using h i hvalid

theorem bb_ne_zero_iff : x ≠ 0 ↔ ∃ sq, SqValid sq ∧ bbHas x sq = true := by
  show x ≠ 0#64 ↔ _
  rw [Bits.ne_zero_iff]
  constructor
  · rintro ⟨i, hi, hbit⟩
    refine ⟨(i : ℤ), ?_, by simpa [bbHas] using hbit⟩
    unfold SqValid
    omega
  · rintro ⟨sq, hsq, hbit⟩
    exact ⟨sq.toNat, hsq.toNat_lt, hbit⟩

theorem bb_eq_zero_iff : x = 0 ↔ ∀ sq, SqValid sq → bbHas x sq = false := by
  have h := (bb_ne_zero_iff (x := x)).not
  push Not at h
  simpa using h

@[simp] theorem mem_bbSquares : s ∈ bbSquares x ↔ SqValid s ∧ bbHas x s = true := by
  unfold bbSquares
  simp only [List.mem_map, Bits.mem_toList]
  constructor
  · rintro ⟨i, hi, rfl⟩
    have hlt : i < 64 := by
      by_contra hge
      rw [BitVec.getLsbD_of_ge _ _ (by omega)] at hi
      cases hi
    refine ⟨?_, by simpa [bbHas] using hi⟩
    unfold SqValid
    rw [Int.ofNat_eq_natCast]
    omega
  · rintro ⟨hs, hbit⟩
    refine ⟨s.toNat, hbit, ?_⟩
    unfold SqValid at hs
    rw [Int.ofNat_eq_natCast]
    omega

theorem nodup_bbSquares : (bbSquares x).Nodup :=
  (Bits.nodup_toList x).map Int.ofNat_injective

theorem bbLsb_spec (hx : x ≠ 0) : SqValid (bbLsb x) ∧ bbHas x (bbLsb x) = true := by
  obtain ⟨hlt, hbit, -⟩ := Bits.lowest_spec hx
  refine ⟨?_, by simpa [bbHas, bbLsb] using hbit⟩
  unfold SqValid bbLsb
  omega

theorem bbLsb_le (hs : SqValid s) (hbit : bbHas x s = true) : bbLsb x ≤ s := by
  have hne : x ≠ 0 := bb_ne_zero_iff.mpr ⟨s, hs, hbit⟩
  have hlow := (Bits.lowest_spec hne).2.2 s.toNat
  by_contra hgt
  unfold SqValid at hs
  unfold bbLsb at hgt
  rw [bbHas, hlow (by omega)] at hbit
  cases hbit

theorem bbLsb_eq_of_unique (hs : SqValid s) (hbit : bbHas x s = true)
    (huniq : ∀ t, SqValid t → bbHas x t = true → t = s) : bbLsb x = s := by
  have hne : x ≠ 0 := bb_ne_zero_iff.mpr ⟨s, hs, hbit⟩
  obtain ⟨hv, hlow⟩ := bbLsb_spec hne
  exact huniq _ hv hlow

end Bitboards

/-! ## The invariant -/

/-- Union of the six bitboards of a colour. -/
def Views.pieceUnion (v : Views) (c : Color) : Bitboard :=
  pieceTypes.foldl (fun bb t => bb ||| v.pieces c t) 0

/-- The four copies of the placement agree. -/
structure RepInv (v : Views) : Prop where
  bit_iff : ∀ c t sq, SqValid sq → (bbHas (v.pieces c t) sq = true ↔ v.mailbox sq = some (c, t))
  one_bit : ∀ sq, SqValid sq → bbHas v.all sq = true →
    ∃! man : Man, bbHas (v.pieces man.1 man.2) sq = true
  occupied_eq : ∀ c, v.occupied c = v.pieceUnion c
  all_eq : v.all = v.occupied .white ||| v.occupied .black

theorem bbHas_pieceUnion {v : Views} {c : Color} {sq : ℤ} :
    bbHas (v.pieceUnion c) sq = true ↔ ∃ t, bbHas (v.pieces c t) sq = true := by
  simp only [Views.pieceUnion, pieceTypes, List.foldl_cons, List.foldl_nil, bbHas_or,
    BitVec.ofNat_eq_ofNat, bbHas_zero, Bool.false_or, Bool.or_eq_true]
  constructor
  · intro h
    rcases h with ((((h | h) | h) | h) | h) | h <;> exact ⟨_, h⟩
  · rintro ⟨t, ht⟩
    cases t <;> simp [ht]

namespace RepInv

variable {v : Views}

theorem occupied_iff (h : RepInv v) {c : Color} {sq : ℤ} (hsq : SqValid sq) :
    bbHas (v.occupied c) sq = true ↔ ∃ t, v.mailbox sq = some (c, t) := by
  rw [h.occupied_eq, bbHas_pieceUnion]
  simp only [h.bit_iff c _ sq hsq]

theorem all_iff (h : RepInv v) {sq : ℤ} (hsq : SqValid sq) :
    bbHas v.all sq = true ↔ v.mailbox sq ≠ none := by
  rw [h.all_eq, bbHas_or, Bool.or_eq_true, h.occupied_iff hsq, h.occupied_iff hsq]
  constructor
  · rintro (⟨t, ht⟩ | ⟨t, ht⟩) <;> simp [ht]
  · intro hne
    obtain ⟨⟨c, t⟩, hct⟩ := Option.ne_none_iff_exists'.mp hne
    cases c
    · exact .inl ⟨t, hct⟩
    · exact .inr ⟨t, hct⟩

/-- The invariant from what each copy says about one square. -/
theorem of_squares
    (hbit : ∀ c t sq, SqValid sq →
      (bbHas (v.pieces c t) sq = true ↔ v.mailbox sq = some (c, t)))
    (hocc : ∀ c sq, SqValid sq →
      (bbHas (v.occupied c) sq = true ↔ ∃ t, v.mailbox sq = some (c, t)))
    (hall : ∀ sq, SqValid sq → (bbHas v.all sq = true ↔ v.mailbox sq ≠ none)) : RepInv v where
  bit_iff := hbit
  one_bit := by
    intro sq hsq hset
    obtain ⟨man, hman⟩ := Option.ne_none_iff_exists'.mp ((hall sq hsq).mp hset)
    refine ⟨man, (hbit _ _ sq hsq).mpr hman, ?_⟩
    intro other hother
    have := (hbit _ _ sq hsq).mp hother
    rw [hman] at this
    exact (Option.some.inj this).symm
  occupied_eq := by
    intro c
    apply bb_ext
    intro sq hsq
    rw [Bool.eq_iff_iff, hocc c sq hsq, bbHas_pieceUnion]
    simp only [hbit c _ sq hsq]
  all_eq := by
    apply bb_ext
    intro sq hsq
    rw [Bool.eq_iff_iff, hall sq hsq, bbHas_or, Bool.or_eq_true, hocc _ sq hsq, hocc _ sq hsq]
    constructor
    · intro hne
      obtain ⟨⟨c, t⟩, hct⟩ := Option.ne_none_iff_exists'.mp hne
      cases c
      · exact .inl ⟨t, hct⟩
      · exact .inr ⟨t, hct⟩
    · rintro (⟨t, ht⟩ | ⟨t, ht⟩) <;> simp [ht]

/-- The mailbox determines the other copies. -/
theorem ext {w : Views} (hv : RepInv v) (hw : RepInv w) (h : v.mailbox = w.mailbox) : v = w := by
  have hpieces : v.pieces = w.pieces := by
    funext c t
    apply bb_ext
    intro sq hsq
    rw [Bool.eq_iff_iff, hv.bit_iff c t sq hsq, hw.bit_iff c t sq hsq, h]
  have hocc : v.occupied = w.occupied := by
    funext c
    rw [hv.occupied_eq, hw.occupied_eq]
    unfold Views.pieceUnion
    rw [hpieces]
  have hall : v.all = w.all := by rw [hv.all_eq, hw.all_eq, hocc]
  cases v
  cases w
  simp_all

end RepInv

/-! ## Placing and removing -/

@[simp] theorem boardPlace_mailbox (v : Views) (sq : ℤ) (c : Color) (t : PieceType)
    (s : ℤ) :
    (boardPlace v sq c t).mailbox s = if s = sq then some (c, t) else v.mailbox s := rfl

@[simp] theorem boardRemove_mailbox (v : Views) (sq s : ℤ) :
    (boardRemove v sq).mailbox s = if s = sq then none else v.mailbox s := by
  unfold boardRemove
  split
  · rename_i hnone
    by_cases hs : s = sq
    · rw [if_pos hs, hs, hnone]
    · rw [if_neg hs]
  · rfl

namespace RepInv

variable {v : Views} {sq : ℤ}

theorem place (h : RepInv v) (hsq : SqValid sq) (hempty : v.mailbox sq = none)
    (c : Color) (t : PieceType) : RepInv (boardPlace v sq c t) := by
  have hclear : ∀ c' t', bbHas (v.pieces c' t') sq = true → False := by
    intro c' t' hbit
    have := (h.bit_iff c' t' sq hsq).mp hbit
    simp [hempty] at this
  apply of_squares
  · intro c' t' s hs
    rw [boardPlace_mailbox]
    show bbHas (if c' = c ∧ t' = t then bbSet (v.pieces c' t') sq else v.pieces c' t') s = true ↔ _
    by_cases hss : s = sq
    · subst hss
      rw [if_pos rfl]
      by_cases hct : c' = c ∧ t' = t
      · simp [hct, bbHas_bbSet hs hs]
      · rw [if_neg hct]
        constructor
        · intro hbit
          exact (hclear _ _ hbit).elim
        · intro hman
          simp only [Option.some.injEq, Prod.mk.injEq] at hman
          exact absurd ⟨hman.1.symm, hman.2.symm⟩ hct
    · rw [if_neg hss, ← h.bit_iff c' t' s hs]
      split
      · simp [bbHas_bbSet hsq hs, hss]
      · rfl
  · intro c' s hs
    rw [boardPlace_mailbox]
    show bbHas (if c' = c then bbSet (v.occupied c') sq else v.occupied c') s = true ↔ _
    by_cases hss : s = sq
    · subst hss
      rw [if_pos rfl]
      by_cases hc : c' = c
      · simp [hc, bbHas_bbSet hs hs]
      · rw [if_neg hc, h.occupied_iff hs]
        simp [hempty, Ne.symm hc]
    · rw [if_neg hss, ← h.occupied_iff hs]
      split
      · simp [bbHas_bbSet hsq hs, hss]
      · rfl
  · intro s hs
    rw [boardPlace_mailbox]
    show bbHas (bbSet v.all sq) s = true ↔ _
    rw [bbHas_bbSet hsq hs, Bool.or_eq_true, h.all_iff hs]
    by_cases hss : s = sq <;> simp [hss]

theorem remove (h : RepInv v) (hsq : SqValid sq) : RepInv (boardRemove v sq) := by
  unfold boardRemove
  split
  · exact h
  · rename_i c t hman
    apply of_squares
    · intro c' t' s hs
      show bbHas (if c' = c ∧ t' = t then bbClr (v.pieces c' t') sq else v.pieces c' t') s = true ↔
        (if s = sq then none else v.mailbox s) = some (c', t')
      by_cases hss : s = sq
      · subst hss
        rw [if_pos rfl]
        by_cases hct : c' = c ∧ t' = t
        · simp [hct, bbHas_bbClr hs hs]
        · rw [if_neg hct, h.bit_iff c' t' s hs, hman]
          simp only [Option.some.injEq, Prod.mk.injEq, reduceCtorEq, iff_false]
          intro heq
          exact hct ⟨heq.1.symm, heq.2.symm⟩
      · rw [if_neg hss, ← h.bit_iff c' t' s hs]
        split
        · simp [bbHas_bbClr hsq hs, hss]
        · rfl
    · intro c' s hs
      show bbHas (if c' = c then bbClr (v.occupied c') sq else v.occupied c') s = true ↔
        ∃ t', (if s = sq then none else v.mailbox s) = some (c', t')
      by_cases hss : s = sq
      · subst hss
        rw [if_pos rfl]
        by_cases hc : c' = c
        · simp [hc, bbHas_bbClr hs hs]
        · rw [if_neg hc, h.occupied_iff hs, hman]
          simp [Ne.symm hc]
      · rw [if_neg hss, ← h.occupied_iff hs]
        split
        · simp [bbHas_bbClr hsq hs, hss]
        · rfl
    · intro s hs
      show bbHas (bbClr v.all sq) s = true ↔ (if s = sq then none else v.mailbox s) ≠ none
      rw [bbHas_bbClr hsq hs, Bool.and_eq_true, h.all_iff hs]
      by_cases hss : s = sq <;> simp [hss]

end RepInv

end ChessRecast.Engine
