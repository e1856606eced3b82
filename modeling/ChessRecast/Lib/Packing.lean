import Mathlib.Tactic

/-!
# Groups and bits

A list cut into groups of one length and joined again, and numbers as their bits, the most
significant one first.
-/

namespace Packing

variable {α : Type}

/-- The list cut into `n` groups of `k`; the last groups may be short. -/
def split (k : ℕ) : ℕ → List α → List (List α)
  | 0, _ => []
  | n + 1, l => l.take k :: split k n (l.drop k)

theorem length_split (k n : ℕ) (l : List α) : (split k n l).length = n := by
  induction n generalizing l with
  | zero => rfl
  | succ n ih => rw [split, List.length_cons, ih]

theorem flatten_split {k n : ℕ} {l : List α} (h : l.length ≤ k * n) :
    (split k n l).flatten = l := by
  induction n generalizing l with
  | zero => exact (List.length_eq_zero_iff.mp (by omega)).symm
  | succ n ih =>
    rw [split, List.flatten_cons, ih, List.take_append_drop]
    rw [List.length_drop]
    have hmul : k * (n + 1) = k * n + k := Nat.mul_succ k n
    omega

theorem length_of_mem_split {k n : ℕ} {l : List α} (h : l.length = k * n) :
    ∀ g ∈ split k n l, g.length = k := by
  induction n generalizing l with
  | zero => exact fun g hg => absurd hg List.not_mem_nil
  | succ n ih =>
    have hmul : k * (n + 1) = k * n + k := Nat.mul_succ k n
    intro g hg
    rcases List.mem_cons.mp hg with rfl | hg
    · rw [List.length_take]
      omega
    · refine ih ?_ g hg
      rw [List.length_drop]
      omega

theorem split_flatten {k : ℕ} {groups : List (List α)} (h : ∀ g ∈ groups, g.length = k) :
    split k groups.length groups.flatten = groups := by
  induction groups with
  | nil => rfl
  | cons g groups ih =>
    have hg : g.length = k := h g List.mem_cons_self
    rw [List.length_cons, split, List.flatten_cons, List.take_left' hg, List.drop_left' hg,
      ih fun g' hg' => h g' (List.mem_cons_of_mem _ hg')]

/-! ## Bits -/

/-- The `width` low bits of a number. -/
def msb : ℕ → ℕ → List Bool
  | 0, _ => []
  | width + 1, n => n.testBit width :: msb width n

/-- The number that bits stand for. -/
def ofMsb (bits : List Bool) : ℕ := bits.foldl (fun v b => 2 * v + b.toNat) 0

@[simp] theorem length_msb (width n : ℕ) : (msb width n).length = width := by
  induction width with
  | zero => rfl
  | succ width ih => rw [msb, List.length_cons, ih]

theorem foldl_ofMsb (bits : List Bool) : ∀ v : ℕ,
    bits.foldl (fun v b => 2 * v + b.toNat) v = v * 2 ^ bits.length + ofMsb bits := by
  induction bits with
  | nil => intro v; simp [ofMsb]
  | cons b bits ih =>
    intro v
    rw [ofMsb, List.foldl_cons, List.foldl_cons, ih, ih (2 * 0 + b.toNat), List.length_cons]
    ring

theorem ofMsb_cons (b : Bool) (bits : List Bool) :
    ofMsb (b :: bits) = b.toNat * 2 ^ bits.length + ofMsb bits := by
  rw [ofMsb, List.foldl_cons, foldl_ofMsb, Nat.mul_zero, Nat.zero_add]

theorem ofMsb_lt (bits : List Bool) : ofMsb bits < 2 ^ bits.length := by
  induction bits with
  | nil => decide
  | cons b bits ih =>
    have hb : b.toNat * 2 ^ bits.length ≤ 1 * 2 ^ bits.length :=
      Nat.mul_le_mul_right _ (Bool.toNat_le b)
    rw [ofMsb_cons, List.length_cons, pow_succ]
    omega

theorem ofMsb_msb {width n : ℕ} (h : n < 2 ^ width) : ofMsb (msb width n) = n := by
  have hmod : ∀ width, ofMsb (msb width n) = n % 2 ^ width := by
    intro width
    induction width with
    | zero => simp [msb, ofMsb, Nat.mod_one]
    | succ width ih =>
      rw [msb, ofMsb_cons, ih, length_msb, Nat.toNat_testBit, Nat.mod_pow_succ]
      ring
  rw [hmod, Nat.mod_eq_of_lt h]

theorem msb_mul_add {width n : ℕ} (v : ℕ) (h : n < 2 ^ width) :
    msb width (v * 2 ^ width + n) = msb width n := by
  have hbit : ∀ i < width, (v * 2 ^ width + n).testBit i = n.testBit i := by
    intro i hi
    rw [Nat.mul_comm, Nat.testBit_two_pow_mul_add v h, if_pos hi]
  have hlow : ∀ k ≤ width, msb k (v * 2 ^ width + n) = msb k n := by
    intro k
    induction k with
    | zero => exact fun _ => rfl
    | succ k ih =>
      intro hk
      rw [msb, msb, hbit k hk, ih (by omega)]
  exact hlow width le_rfl

theorem msb_ofMsb (bits : List Bool) : msb bits.length (ofMsb bits) = bits := by
  induction bits with
  | nil => rfl
  | cons b bits ih =>
    have hlt := ofMsb_lt bits
    rw [List.length_cons, msb, ofMsb_cons, msb_mul_add _ hlt, ih]
    congr 1
    rw [Nat.testBit_eq_decide_div_mod_eq, Nat.mul_comm, Nat.mul_add_div (by positivity),
      Nat.div_eq_of_lt hlt]
    cases b <;> rfl

end Packing
