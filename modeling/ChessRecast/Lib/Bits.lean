import Mathlib.Tactic

/-!
# Machine words as sets of bit positions

A `BitVec w` read as the set of positions of its one bits, together with the idiom that
visits that set: take the lowest one bit, clear it with `x &&& (x - 1)`, repeat until the
word is zero. `mem_bitLoop` and `nodup_bitLoop` say that the loop meets every one bit
exactly once, and `ext_getLsbD` that two words with the same one bits are equal.
-/

namespace Bits

variable {w : ℕ}

/-! ## Setting, clearing and reading one bit -/

/-- The word whose only one bit is at position `i` (zero when `i` is out of range). -/
def single (w i : ℕ) : BitVec w := 1#w <<< i

theorem getLsbD_single (i j : ℕ) (hi : i < w) :
    (single w i).getLsbD j = decide (j = i) := by
  unfold single
  by_cases hji : j = i
  · subst hji
    simp [hi]
  · by_cases hlt : j < i
    · simp [hlt, hji]
    · have hne : j - i ≠ 0 := by omega
      simp [hji, hne, BitVec.getLsbD_one]

theorem ext_getLsbD {x y : BitVec w} (h : ∀ i, i < w → x.getLsbD i = y.getLsbD i) : x = y :=
  BitVec.eq_of_getLsbD_eq h

theorem ne_zero_iff {x : BitVec w} : x ≠ 0#w ↔ ∃ i, i < w ∧ x.getLsbD i = true := by
  constructor
  · intro hx
    by_contra hnone
    push Not at hnone
    apply hx
    apply ext_getLsbD
    intro i hi
    have hbit : x.getLsbD i = false := by simpa using hnone i hi
    simp [hbit]
  · rintro ⟨i, -, hi⟩ rfl
    simp at hi

theorem and_single_ne_zero_iff {x : BitVec w} {i : ℕ} (hi : i < w) :
    x &&& single w i ≠ 0#w ↔ x.getLsbD i = true := by
  rw [ne_zero_iff]
  constructor
  · rintro ⟨j, -, hj⟩
    rw [BitVec.getLsbD_and, getLsbD_single i j hi, Bool.and_eq_true, decide_eq_true_iff] at hj
    exact hj.2 ▸ hj.1
  · intro h
    refine ⟨i, hi, ?_⟩
    rw [BitVec.getLsbD_and, getLsbD_single i i hi, h]
    simp

/-! ## The lowest one bit -/

/-- Position of the lowest one bit; `w` for the zero word. -/
def lowest (x : BitVec w) : ℕ := ((List.range w).find? fun i => x.getLsbD i).getD w

theorem lowest_spec {x : BitVec w} (hx : x ≠ 0#w) :
    lowest x < w ∧ x.getLsbD (lowest x) = true ∧ ∀ i, i < lowest x → x.getLsbD i = false := by
  obtain ⟨i, hi, hbit⟩ := ne_zero_iff.mp hx
  have hsome : ((List.range w).find? fun j => x.getLsbD j).isSome := by
    rw [List.find?_isSome]
    exact ⟨i, List.mem_range.mpr hi, hbit⟩
  obtain ⟨l, hl⟩ := Option.isSome_iff_exists.mp hsome
  have hlow : lowest x = l := by simp [lowest, hl]
  obtain ⟨hp, k, hk, hget, hbefore⟩ := List.find?_eq_some_iff_getElem.mp hl
  have hkl : k = l := by simpa using hget
  subst hkl
  rw [hlow]
  refine ⟨by simpa using hk, hp, ?_⟩
  intro j hj
  have := hbefore j hj
  simpa using this

/-- A number whose lowest one bit is `l`, in the form the subtraction below needs. -/
private theorem nat_split_at_low (n l : ℕ) (hl : n.testBit l = true)
    (hlow : ∀ i, i < l → n.testBit i = false) :
    n = 2 ^ (l + 1) * (n / 2 ^ (l + 1)) + 2 ^ l := by
  have hmod : n % 2 ^ (l + 1) = 2 ^ l := by
    apply Nat.eq_of_testBit_eq
    intro i
    rw [Nat.testBit_mod_two_pow, Nat.testBit_two_pow]
    rcases Nat.lt_trichotomy i l with hi | hi | hi
    · simp [hlow i hi, Nat.ne_of_gt hi]
    · subst hi
      simp [hl]
    · have : ¬ i < l + 1 := by omega
      simp [this, Nat.ne_of_lt hi]
  have := Nat.div_add_mod n (2 ^ (l + 1))
  omega

private theorem nat_testBit_and_pred (n l i : ℕ) (hl : n.testBit l = true)
    (hlow : ∀ j, j < l → n.testBit j = false) :
    (n &&& (n - 1)).testBit i = (n.testBit i && !decide (i = l)) := by
  have hsplit := nat_split_at_low n l hl hlow
  set q := n / 2 ^ (l + 1) with hq
  have hpos : 1 ≤ 2 ^ l := Nat.one_le_two_pow
  have hlt : 2 ^ l < 2 ^ (l + 1) := Nat.pow_lt_pow_right (by norm_num) (by omega)
  have hpred : n - 1 = 2 ^ (l + 1) * q + (2 ^ l - 1) := by omega
  rw [Nat.testBit_and, hpred, Nat.testBit_two_pow_mul_add _ (by omega)]
  by_cases hi : i < l + 1
  · rw [if_pos hi, Nat.testBit_two_pow_sub_one]
    by_cases hil : i = l
    · simp [hil]
    · have hil' : i < l := by omega
      simp [hlow i hil']
  · rw [if_neg hi]
    have hne : i ≠ l := by omega
    have hbit : n.testBit i = q.testBit (i - (l + 1)) := by
      conv_lhs => rw [hsplit]
      rw [Nat.testBit_two_pow_mul_add _ hlt, if_neg hi]
    simp [hne, hbit]

/-- `x &&& (x - 1)` clears the lowest one bit and nothing else. -/
theorem getLsbD_and_pred {x : BitVec w} (hx : x ≠ 0#w) (i : ℕ) :
    (x &&& (x - 1#w)).getLsbD i = (x.getLsbD i && !decide (i = lowest x)) := by
  obtain ⟨hlw, hlow, hbelow⟩ := lowest_spec hx
  have hpos : 1 ≤ x.toNat := by
    rcases Nat.eq_zero_or_pos x.toNat with h0 | h0
    · exact absurd (BitVec.eq_of_toNat_eq (by simpa using h0)) hx
    · exact h0
  have hle : 1#w ≤ x := by
    have hone : (1#w).toNat ≤ 1 := by
      rw [BitVec.toNat_ofNat]
      exact Nat.mod_le _ _
    exact BitVec.le_def.mpr (le_trans hone hpos)
  have hw : 1 < 2 ^ w := Nat.one_lt_two_pow (by omega)
  have hsub : (x - 1#w).toNat = x.toNat - 1 := by
    rw [BitVec.toNat_sub_of_le hle, BitVec.toNat_ofNat, Nat.mod_eq_of_lt hw]
  have := nat_testBit_and_pred x.toNat (lowest x) i hlow hbelow
  rw [← hsub] at this
  exact this

/-! ## Visiting every one bit -/

/-- The loop `while x: take the lowest bit, clear it`, run for at most `n` rounds. -/
def bitLoop : ℕ → BitVec w → List ℕ
  | 0, _ => []
  | n + 1, x => if x = 0#w then [] else lowest x :: bitLoop n (x &&& (x - 1#w))

/-- One bits of `x`, lowest first. A word of `w` bits is used up after `w` rounds. -/
def toList (x : BitVec w) : List ℕ := bitLoop w x

private theorem mem_bitLoop_aux (n : ℕ) : ∀ x : BitVec w,
    (∀ j, x.getLsbD j = true → w ≤ j + n) → ∀ i, i ∈ bitLoop n x ↔ x.getLsbD i = true := by
  -- the invariant: after some rounds all remaining one bits are among the top `n` positions
  induction n with
  | zero =>
    intro x hhigh i
    simp only [bitLoop, List.not_mem_nil, false_iff, Bool.not_eq_true]
    by_contra hbit
    have hbit : x.getLsbD i = true := by simpa using hbit
    have := hhigh i hbit
    rw [BitVec.getLsbD_of_ge _ _ (by omega)] at hbit
    cases hbit
  | succ n ih =>
    intro x hhigh i
    by_cases hx : x = 0#w
    · simp [bitLoop, hx]
    · obtain ⟨-, hlow, hbelow⟩ := lowest_spec hx
      have hstep : ∀ j, (x &&& (x - 1#w)).getLsbD j = true → w ≤ j + n := by
        intro j hj
        rw [getLsbD_and_pred hx, Bool.and_eq_true] at hj
        have hne : j ≠ lowest x := by simpa using hj.2
        have hge : lowest x ≤ j := by
          by_contra hlt
          rw [hbelow j (by omega)] at hj
          exact absurd hj.1 (by simp)
        have := hhigh _ hlow
        omega
      simp only [bitLoop, hx, if_false, List.mem_cons, ih _ hstep, getLsbD_and_pred hx,
        Bool.and_eq_true]
      by_cases hil : i = lowest x
      · simp [hil, hlow]
      · simp [hil]

@[simp] theorem mem_toList {x : BitVec w} {i : ℕ} : i ∈ toList x ↔ x.getLsbD i = true :=
  mem_bitLoop_aux w x (fun j _ => by omega) i

private theorem lowest_le_of_mem_bitLoop (n : ℕ) (x : BitVec w) (i : ℕ) (hi : i ∈ bitLoop n x) :
    x.getLsbD i = true := by
  induction n generalizing x with
  | zero => simp [bitLoop] at hi
  | succ n ih =>
    by_cases hx : x = 0#w
    · simp [bitLoop, hx] at hi
    · simp only [bitLoop, hx, if_false, List.mem_cons] at hi
      rcases hi with rfl | hi
      · exact (lowest_spec hx).2.1
      · have := ih _ hi
        rw [getLsbD_and_pred hx, Bool.and_eq_true] at this
        exact this.1

theorem ascending_toList (x : BitVec w) : (toList x).Pairwise (· < ·) := by
  suffices h : ∀ (n : ℕ) (y : BitVec w), (bitLoop n y).Pairwise (· < ·) from h w x
  intro n
  induction n with
  | zero => intro y; simp [bitLoop]
  | succ n ih =>
    intro y
    by_cases hy : y = 0#w
    · simp [bitLoop, hy]
    · simp only [bitLoop, hy, if_false, List.pairwise_cons]
      refine ⟨fun i hmem => ?_, ih _⟩
      -- what is left has a one bit of `y` that is not the lowest
      have hbit := lowest_le_of_mem_bitLoop n _ _ hmem
      rw [getLsbD_and_pred hy, Bool.and_eq_true] at hbit
      have hne : i ≠ lowest y := by simpa using hbit.2
      by_contra hle
      rw [(lowest_spec hy).2.2 i (by omega)] at hbit
      exact absurd hbit.1 (by simp)

theorem nodup_toList (x : BitVec w) : (toList x).Nodup :=
  (ascending_toList x).imp fun hlt => hlt.ne

end Bits
