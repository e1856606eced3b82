import Mathlib.Tactic

/-!
# Lines of sight on a square grid

A walker leaves a square of an `n × n` grid in one of the eight directions and goes on until
it leaves the grid or has entered a square that stops it. `walk` lists the squares it enters;
`Sees` states the same set by the number of steps, and `mem_walk` identifies the two.
Sight along a line is symmetric (`Sees.symm`).
-/

namespace Grid

/-- The square `(r, c)` lies on the `n × n` grid. -/
def Inside (n r c : ℤ) : Prop := 0 ≤ r ∧ r < n ∧ 0 ≤ c ∧ c < n

instance (n r c : ℤ) : Decidable (Inside n r c) :=
  inferInstanceAs (Decidable (0 ≤ r ∧ r < n ∧ 0 ≤ c ∧ c < n))

def UnitDir (dr dc : ℤ) : Prop :=
  (dr = -1 ∨ dr = 0 ∨ dr = 1) ∧ (dc = -1 ∨ dc = 0 ∨ dc = 1) ∧ ¬ (dr = 0 ∧ dc = 0)

theorem UnitDir.neg {dr dc : ℤ} (h : UnitDir dr dc) : UnitDir (-dr) (-dc) := by
  unfold UnitDir at *
  omega

/-- None of the first `k - 1` squares after `(r, c)` stops the walker. -/
def Clear (stop : ℤ → ℤ → Bool) (dr dc r c : ℤ) (k : ℕ) : Prop :=
  ∀ i : ℕ, 0 < i → i < k → stop (r + i * dr) (c + i * dc) = false

/-- From `(r, c)` the square `(x, y)` is seen in direction `(dr, dc)`. -/
def Sees (n : ℤ) (stop : ℤ → ℤ → Bool) (dr dc r c x y : ℤ) : Prop :=
  ∃ k : ℕ, 0 < k ∧ x = r + k * dr ∧ y = c + k * dc ∧ Inside n x y ∧ Clear stop dr dc r c k

/-- The squares entered by a walker that steps onto `(r, c)` first, for at most `fuel` steps. -/
def walk (n : ℤ) (stop : ℤ → ℤ → Bool) (dr dc : ℤ) : ℕ → ℤ → ℤ → List (ℤ × ℤ)
  | 0, _, _ => []
  | fuel + 1, r, c =>
    if Inside n r c then
      (r, c) :: (if stop r c then [] else walk n stop dr dc fuel (r + dr) (c + dc))
    else []

/-! ## Geometry of a line -/

variable {n dr dc r c x y : ℤ} {stop : ℤ → ℤ → Bool}

/-- A grid is convex: between two of its squares on a line there are only grid squares. -/
theorem Inside.between (hd : UnitDir dr dc) {k i : ℕ} (hik : i ≤ k)
    (h0 : Inside n r c) (hk : Inside n (r + k * dr) (c + k * dc)) :
    Inside n (r + i * dr) (c + i * dc) := by
  obtain ⟨hr, hc, -⟩ := hd
  unfold Inside at *
  rcases hr with rfl | rfl | rfl <;> rcases hc with rfl | rfl | rfl <;> omega

/-- A line has left the grid after `n` steps. -/
theorem Inside.steps_lt (hd : UnitDir dr dc) {k : ℕ}
    (h0 : Inside n r c) (hk : Inside n (r + k * dr) (c + k * dc)) : (k : ℤ) < n := by
  obtain ⟨hr, hc, hne⟩ := hd
  unfold Inside at *
  rcases hr with rfl | rfl | rfl <;> rcases hc with rfl | rfl | rfl <;> omega

/-! ## The walk lists what is seen -/

private theorem shift_step (a d : ℤ) (i : ℕ) : a + d + i * d = a + ((i + 1 : ℕ) : ℤ) * d := by
  push_cast
  ring

private theorem mem_walk_aux (fuel : ℕ) :
    ∀ r c x y : ℤ, (x, y) ∈ walk n stop dr dc fuel r c ↔
      ∃ k : ℕ, k < fuel ∧ x = r + k * dr ∧ y = c + k * dc ∧
        (∀ i : ℕ, i ≤ k → Inside n (r + i * dr) (c + i * dc)) ∧
        ∀ i : ℕ, i < k → stop (r + i * dr) (c + i * dc) = false := by
  induction fuel with
  | zero => intro r c x y; simp [walk]
  | succ fuel ih =>
    intro r c x y
    by_cases hin : Inside n r c
    · by_cases hst : stop r c = true
      · simp only [walk, hin, hst, if_true, List.mem_singleton, Prod.mk.injEq]
        constructor
        · rintro ⟨rfl, rfl⟩
          refine ⟨0, by omega, by simp, by simp, ?_, by simp⟩
          intro i hi
          obtain rfl : i = 0 := by omega
          simpa using hin
        · rintro ⟨k, -, rfl, rfl, -, hfree⟩
          -- a stopped walker cannot have gone further than its first square
          rcases Nat.eq_zero_or_pos k with rfl | hk
          · simp
          · have := hfree 0 hk
            simp [hst] at this
      · simp only [walk, hin, hst, if_true, List.mem_cons, Prod.mk.injEq, Bool.false_eq_true,
          if_false, ih]
        constructor
        · rintro (⟨rfl, rfl⟩ | ⟨k, hk, rfl, rfl, hall, hfree⟩)
          · refine ⟨0, by omega, by simp, by simp, ?_, by simp⟩
            intro i hi
            obtain rfl : i = 0 := by omega
            simpa using hin
          · refine ⟨k + 1, by omega, shift_step r dr k, shift_step c dc k, ?_, ?_⟩
            · intro i hi
              rcases i with - | i
              · simpa using hin
              · rw [← shift_step, ← shift_step]
                exact hall i (by omega)
            · intro i hi
              rcases i with - | i
              · simpa using hst
              · rw [← shift_step, ← shift_step]
                exact hfree i (by omega)
        · rintro ⟨k, hk, rfl, rfl, hall, hfree⟩
          rcases k with - | k
          · left; simp
          · right
            refine ⟨k, by omega, (shift_step r dr k).symm, (shift_step c dc k).symm, ?_, ?_⟩
            · intro i hi
              rw [shift_step, shift_step]
              exact hall (i + 1) (by omega)
            · intro i hi
              rw [shift_step, shift_step]
              exact hfree (i + 1) (by omega)
    · simp only [walk, hin, if_false, List.not_mem_nil, false_iff]
      rintro ⟨k, -, -, -, hall, -⟩
      exact hin (by simpa using hall 0 (by omega))

/-- The walk lists exactly the squares seen, when it is given `n` steps. -/
theorem mem_walk {fuel : ℕ}
    (hd : UnitDir dr dc) (hin : Inside n r c) (hfuel : n ≤ fuel + 1) :
    (x, y) ∈ walk n stop dr dc fuel (r + dr) (c + dc) ↔ Sees n stop dr dc r c x y := by
  rw [mem_walk_aux]
  constructor
  · rintro ⟨k, -, rfl, rfl, hall, hfree⟩
    refine ⟨k + 1, by omega, shift_step r dr k, shift_step c dc k, hall k le_rfl, ?_⟩
    intro i hi hik
    obtain ⟨j, rfl⟩ : ∃ j, i = j + 1 := ⟨i - 1, by omega⟩
    rw [← shift_step, ← shift_step]
    exact hfree j (by omega)
  · rintro ⟨k, hk, rfl, rfl, hin', hclear⟩
    obtain ⟨j, rfl⟩ : ∃ j, k = j + 1 := ⟨k - 1, by omega⟩
    have hlt := Inside.steps_lt hd hin hin'
    refine ⟨j, by omega, (shift_step r dr j).symm, (shift_step c dc j).symm, ?_, ?_⟩
    · intro i hi
      rw [shift_step, shift_step]
      exact Inside.between hd (by omega) hin hin'
    · intro i hi
      rw [shift_step, shift_step]
      exact hclear (i + 1) (by omega) (by omega)

/-! ## Symmetry and congruence -/

/-- What is seen looks back along the opposite direction. -/
theorem Sees.symm (hin : Inside n r c)
    (h : Sees n stop dr dc r c x y) : Sees n stop (-dr) (-dc) x y r c := by
  obtain ⟨k, hk, rfl, rfl, -, hclear⟩ := h
  refine ⟨k, hk, by ring, by ring, hin, ?_⟩
  intro i hi hik
  have hback : ∀ a d : ℤ, a + k * d + i * -d = a + ((k - i : ℕ) : ℤ) * d := by
    intro a d
    rw [Nat.cast_sub (by omega)]
    ring
  rw [hback, hback]
  exact hclear (k - i) (by omega) (by omega)

/-- Sight depends on the stopping squares inside the grid only. -/
theorem Sees.congr {stop stop' : ℤ → ℤ → Bool} (hd : UnitDir dr dc) (hin : Inside n r c)
    (hstop : ∀ a b, Inside n a b → stop a b = stop' a b) :
    Sees n stop dr dc r c x y ↔ Sees n stop' dr dc r c x y := by
  have aux : ∀ {s s' : ℤ → ℤ → Bool}, (∀ a b, Inside n a b → s a b = s' a b) →
      Sees n s dr dc r c x y → Sees n s' dr dc r c x y := by
    rintro s s' hs ⟨k, hk, rfl, rfl, hin', hclear⟩
    refine ⟨k, hk, rfl, rfl, hin', ?_⟩
    intro i hi hik
    rw [← hs _ _ (Inside.between hd (by omega) hin hin')]
    exact hclear i hi hik
  exact ⟨aux hstop, aux fun a b hab => (hstop a b hab).symm⟩

/-! ## Sight by signs

A program that is given both squares finds the direction from the signs of the differences and
the number of steps from the larger one. -/

/-- The two squares differ and lie on a common row, column or diagonal. -/
def Aligned (r c x y : ℤ) : Prop := (x = r ∨ y = c ∨ |x - r| = |y - c|) ∧ ¬ (x = r ∧ y = c)

/-- Number of steps between two aligned squares. -/
def steps (r c x y : ℤ) : ℕ := max (x - r).natAbs (y - c).natAbs

private theorem sign_natAbs_mul {k : ℕ} (hk : 0 < k) {d : ℤ} (hd : d = -1 ∨ d = 0 ∨ d = 1) :
    ((k : ℤ) * d).sign = d ∧ ((k : ℤ) * d).natAbs = if d = 0 then 0 else k := by
  have hpos : (0 : ℤ) < k := by exact_mod_cast hk
  rcases hd with rfl | rfl | rfl
  · exact ⟨Int.sign_eq_neg_one_of_neg (by omega), by simp⟩
  · simp
  · exact ⟨Int.sign_eq_one_of_pos (by omega), by simp⟩

/-- Walking by the signs reaches an aligned square after `steps` steps. -/
theorem Aligned.eq_steps (h : Aligned r c x y) :
    x = r + steps r c x y * (x - r).sign ∧ y = c + steps r c x y * (y - c).sign := by
  obtain ⟨halign, -⟩ := h
  rw [Int.abs_eq_natAbs, Int.abs_eq_natAbs] at halign
  -- each coordinate differs by all steps or not at all
  have hrow : x = r ∨ (steps r c x y : ℤ) = (x - r).natAbs := by
    unfold steps
    omega
  have hcol : y = c ∨ (steps r c x y : ℤ) = (y - c).natAbs := by
    unfold steps
    omega
  constructor
  · rcases hrow with rfl | hsteps
    · simp
    · rw [hsteps, mul_comm, Int.sign_mul_natAbs]
      ring
  · rcases hcol with rfl | hsteps
    · simp
    · rw [hsteps, mul_comm, Int.sign_mul_natAbs]
      ring

/-- Walking by the signs meets an aligned square only once. -/
theorem Aligned.eq_iff_steps (h : Aligned r c x y) {k : ℕ} :
    (r + k * (x - r).sign = x ∧ c + k * (y - c).sign = y) ↔ k = steps r c x y := by
  have hsteps := h.eq_steps
  constructor
  · rintro ⟨hr, hc⟩
    have hrow : (k : ℤ) * (x - r).sign = steps r c x y * (x - r).sign := by omega
    have hcol : (k : ℤ) * (y - c).sign = steps r c x y * (y - c).sign := by omega
    by_cases hx : x = r
    · have hy : (y - c).sign ≠ 0 := by
        rw [ne_eq, Int.sign_eq_zero_iff_zero, sub_eq_zero]
        exact fun hy => h.2 ⟨hx, hy⟩
      exact_mod_cast mul_right_cancel₀ hy hcol
    · have hs : (x - r).sign ≠ 0 := by
        rwa [ne_eq, Int.sign_eq_zero_iff_zero, sub_eq_zero]
      exact_mod_cast mul_right_cancel₀ hs hrow
  · rintro rfl
    exact ⟨hsteps.1.symm, hsteps.2.symm⟩

theorem sees_iff_sign (hd : UnitDir dr dc) :
    Sees n stop dr dc r c x y ↔ (dr = (x - r).sign ∧ dc = (y - c).sign ∧ Aligned r c x y) ∧
      Inside n x y ∧ Clear stop dr dc r c (steps r c x y) := by
  obtain ⟨hr, hc, hne⟩ := hd
  constructor
  · rintro ⟨k, hk, rfl, rfl, hin, hclear⟩
    obtain ⟨hsr, har⟩ := sign_natAbs_mul hk hr
    obtain ⟨hsc, hac⟩ := sign_natAbs_mul hk hc
    have hsteps : steps r c (r + k * dr) (c + k * dc) = k := by
      unfold steps
      rw [add_sub_cancel_left, add_sub_cancel_left, har, hac]
      split_ifs <;> simp_all
    rw [hsteps, add_sub_cancel_left, add_sub_cancel_left, hsr, hsc]
    refine ⟨⟨rfl, rfl, ?_⟩, hin, hclear⟩
    unfold Aligned
    rw [add_sub_cancel_left, add_sub_cancel_left, Int.abs_eq_natAbs, Int.abs_eq_natAbs, har, hac]
    rcases hr with rfl | rfl | rfl <;> rcases hc with rfl | rfl | rfl <;> simp at hne ⊢ <;> omega
  · rintro ⟨⟨rfl, rfl, halign⟩, hin, hclear⟩
    refine ⟨steps r c x y, ?_, halign.eq_steps.1, halign.eq_steps.2, hin, hclear⟩
    have := halign.2
    unfold steps
    omega

end Grid
