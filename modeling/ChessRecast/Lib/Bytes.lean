import Mathlib.Tactic

/-!
# Byte strings

The comparison of byte strings by their first difference and then by their length. It is a total
order: antisymmetric, transitive, and zero for equal strings only. Numbers are written in a fixed
number of bytes, the most significant one first.
-/

namespace Bytes

variable {a b c : List UInt8}

/-- The sign says which string comes first. -/
def lexCmp : List UInt8 → List UInt8 → ℤ
  | x :: a, y :: b => if x ≠ y then (x.toNat : ℤ) - y.toNat else lexCmp a b
  | a, b => (a.length : ℤ) - b.length

/-- The strings up to and including their first difference. -/
theorem lexCmp_cons_of_ne {x y : UInt8} (h : x ≠ y) (a b : List UInt8) :
    lexCmp (x :: a) (y :: b) = (x.toNat : ℤ) - y.toNat := by
  rw [lexCmp, if_pos h]

theorem lexCmp_cons_self (x : UInt8) (a b : List UInt8) :
    lexCmp (x :: a) (x :: b) = lexCmp a b := by
  rw [lexCmp, if_neg (fun h => h rfl)]

theorem toNat_ne {x y : UInt8} (h : x ≠ y) : x.toNat ≠ y.toNat :=
  fun heq => h (UInt8.toNat_inj.mp heq)

theorem lexCmp_swap (a : List UInt8) : ∀ b, lexCmp b a = -lexCmp a b := by
  induction a with
  | nil =>
    intro b
    cases b <;> simp [lexCmp]
  | cons x a ih =>
    intro b
    cases b with
    | nil => simp [lexCmp]
    | cons y b =>
      by_cases hxy : x = y
      · subst hxy
        rw [lexCmp_cons_self, lexCmp_cons_self, ih]
      · rw [lexCmp_cons_of_ne hxy, lexCmp_cons_of_ne (Ne.symm hxy)]
        ring

theorem lexCmp_eq_zero : ∀ {b : List UInt8}, lexCmp a b = 0 ↔ a = b := by
  induction a with
  | nil =>
    intro b
    cases b with
    | nil => simp [lexCmp]
    | cons y b =>
      simp only [lexCmp, List.length_nil, List.length_cons, Nat.cast_zero, reduceCtorEq, iff_false]
      omega
  | cons x a ih =>
    intro b
    cases b with
    | nil =>
      simp only [lexCmp, List.length_nil, List.length_cons, Nat.cast_zero, reduceCtorEq, iff_false]
      omega
    | cons y b =>
      by_cases hxy : x = y
      · subst hxy
        rw [lexCmp_cons_self, ih]
        simp
      · have hne := toNat_ne hxy
        rw [lexCmp_cons_of_ne hxy]
        simp only [List.cons.injEq, hxy, false_and, iff_false]
        omega

theorem lexCmp_antisymm (h : lexCmp a b ≤ 0) (h' : lexCmp b a ≤ 0) : a = b := by
  rw [lexCmp_swap a b] at h'
  exact lexCmp_eq_zero.mp (by omega)

theorem lexCmp_total (a b : List UInt8) : lexCmp a b ≤ 0 ∨ lexCmp b a ≤ 0 := by
  rw [lexCmp_swap a b]
  omega

theorem lexCmp_trans : ∀ {b c : List UInt8}, lexCmp a b ≤ 0 → lexCmp b c ≤ 0 → lexCmp a c ≤ 0 := by
  induction a with
  | nil =>
    intro b c _ _
    cases c with
    | nil => simp [lexCmp]
    | cons z c => simp only [lexCmp, List.length_nil, Nat.cast_zero]; omega
  | cons x a ih =>
    intro b c hab hbc
    -- the shorter string comes first, so neither of the other two is empty
    cases b with
    | nil => simp only [lexCmp, List.length_nil, List.length_cons] at hab; omega
    | cons y b =>
      cases c with
      | nil => simp only [lexCmp, List.length_nil, List.length_cons] at hbc; omega
      | cons z c =>
        by_cases hxy : x = y
        · subst hxy
          rw [lexCmp_cons_self] at hab
          by_cases hxz : x = z
          · subst hxz
            rw [lexCmp_cons_self] at hbc ⊢
            exact ih hab hbc
          · rwa [lexCmp_cons_of_ne hxz] at hbc ⊢
        · have hne := toNat_ne hxy
          rw [lexCmp_cons_of_ne hxy] at hab
          by_cases hyz : y = z
          · subst hyz
            rwa [lexCmp_cons_of_ne hxy]
          · rw [lexCmp_cons_of_ne hyz] at hbc
            have hlt : x.toNat < z.toNat := by omega
            rw [lexCmp_cons_of_ne (fun heq => by rw [heq] at hlt; omega)]
            omega

/-! ## The smaller and the greater of two -/

/-- Which of two strings comes first; the first one when they are equal. -/
def minLex (a b : List UInt8) : List UInt8 := if lexCmp a b ≤ 0 then a else b

/-- The other one. -/
def maxLex (a b : List UInt8) : List UInt8 := if lexCmp a b ≤ 0 then b else a

/-- Smaller and greater of two strings determine the two, and nothing else. -/
theorem minLex_maxLex_eq_iff {a' b' : List UInt8} :
    (minLex a b = minLex a' b' ∧ maxLex a b = maxLex a' b') ↔ s(a, b) = s(a', b') := by
  have hcomm : ∀ a b : List UInt8, minLex b a = minLex a b ∧ maxLex b a = maxLex a b := by
    intro a b
    unfold minLex maxLex
    by_cases hab : lexCmp a b ≤ 0
    · by_cases hba : lexCmp b a ≤ 0
      · obtain rfl := lexCmp_antisymm hab hba
        exact ⟨rfl, rfl⟩
      · rw [if_pos hab, if_pos hab, if_neg hba, if_neg hba]
        exact ⟨rfl, rfl⟩
    · have hba := (lexCmp_total a b).resolve_left hab
      rw [if_neg hab, if_neg hab, if_pos hba, if_pos hba]
      exact ⟨rfl, rfl⟩
  -- the two, whichever comes first
  have hpair : ∀ a b : List UInt8, s(minLex a b, maxLex a b) = s(a, b) := by
    intro a b
    unfold minLex maxLex
    by_cases hab : lexCmp a b ≤ 0
    · rw [if_pos hab, if_pos hab]
    · rw [if_neg hab, if_neg hab, Sym2.eq_swap]
  constructor
  · rintro ⟨hmin, hmax⟩
    rw [← hpair a b, ← hpair a' b', hmin, hmax]
  · intro h
    rcases Sym2.eq_iff.mp h with ⟨rfl, rfl⟩ | ⟨rfl, rfl⟩
    · exact ⟨rfl, rfl⟩
    · exact hcomm b a

theorem length_minLex {n : ℕ} (ha : a.length = n) (hb : b.length = n) :
    (minLex a b).length = n := by
  unfold minLex
  split
  · exact ha
  · exact hb

theorem length_maxLex {n : ℕ} (ha : a.length = n) (hb : b.length = n) :
    (maxLex a b).length = n := by
  unfold maxLex
  split
  · exact hb
  · exact ha

/-! ## Numbers -/

/-- The `width` bytes of a number. -/
def toBE : ℕ → ℕ → List UInt8
  | 0, _ => []
  | width + 1, n => UInt8.ofNat (n / 256 ^ width) :: toBE width n

/-- The number that bytes stand for. -/
def ofBE (bs : List UInt8) : ℕ := bs.foldl (fun v b => v * 256 + b.toNat) 0

theorem length_toBE (width n : ℕ) : (toBE width n).length = width := by
  induction width with
  | zero => rfl
  | succ width ih => rw [toBE, List.length_cons, ih]

theorem foldl_toBE (width n : ℕ) : ∀ v : ℕ,
    (toBE width n).foldl (fun v b => v * 256 + b.toNat) v = v * 256 ^ width + n % 256 ^ width := by
  induction width with
  | zero => intro v; simp [toBE, Nat.mod_one]
  | succ width ih =>
    intro v
    have hsplit : n % 256 ^ (width + 1) = n % 256 ^ width + 256 ^ width * (n / 256 ^ width % 256) :=
      Nat.mod_pow_succ
    have hbyte : (UInt8.ofNat (n / 256 ^ width)).toNat = n / 256 ^ width % 256 :=
      UInt8.toNat_ofNat'
    rw [toBE, List.foldl_cons, ih, hbyte, hsplit]
    ring

theorem ofBE_toBE {width n : ℕ} (h : n < 256 ^ width) : ofBE (toBE width n) = n := by
  rw [ofBE, foldl_toBE, zero_mul, zero_add, Nat.mod_eq_of_lt h]

theorem foldl_ofBE_lt (bs : List UInt8) : ∀ v : ℕ,
    bs.foldl (fun v b => v * 256 + b.toNat) v < (v + 1) * 256 ^ bs.length := by
  induction bs with
  | nil => intro v; simp
  | cons b bs ih =>
    intro v
    have hb := b.toNat_lt
    calc (b :: bs).foldl (fun v b => v * 256 + b.toNat) v
        < (v * 256 + b.toNat + 1) * 256 ^ bs.length := ih _
      _ ≤ ((v + 1) * 256) * 256 ^ bs.length := Nat.mul_le_mul_right _ (by omega)
      _ = (v + 1) * 256 ^ (b :: bs).length := by rw [List.length_cons]; ring

theorem ofBE_lt (bs : List UInt8) : ofBE bs < 256 ^ bs.length := by
  have h := foldl_ofBE_lt bs 0
  rwa [zero_add, one_mul] at h

theorem foldl_ofBE_inj (a : List UInt8) : ∀ {b : List UInt8} {v w : ℕ}, a.length = b.length →
    a.foldl (fun v x => v * 256 + x.toNat) v = b.foldl (fun v x => v * 256 + x.toNat) w →
    v = w ∧ a = b := by
  induction a with
  | nil =>
    intro b v w hlen h
    obtain rfl := List.length_eq_zero_iff.mp hlen.symm
    exact ⟨h, rfl⟩
  | cons x a ih =>
    intro b v w hlen h
    cases b with
    | nil => cases hlen
    | cons y b =>
      obtain ⟨hdigit, rfl⟩ := ih (Nat.succ.inj hlen) h
      dsimp only at hdigit
      have hx := x.toNat_lt
      have hy := y.toNat_lt
      obtain rfl : x = y := UInt8.toNat_inj.mp (by omega)
      exact ⟨by omega, rfl⟩

/-- Strings of one length that stand for one number are equal. -/
theorem ofBE_inj (hlen : a.length = b.length) (h : ofBE a = ofBE b) : a = b :=
  (foldl_ofBE_inj a hlen h).2

end Bytes
