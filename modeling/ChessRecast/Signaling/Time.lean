import Mathlib.Tactic

/-!
# Times of the signaling service

A `time.Time` is its distance from the Unix epoch in nanoseconds.
-/

namespace ChessRecast.Signaling

def second : ℤ := 10 ^ 9

/-- `Time.Unix()`: whole seconds, rounded down. -/
def unix (t : ℤ) : ℤ := t / second

theorem unix_mul_le (t : ℤ) : unix t * second ≤ t := by
  simp only [unix, second]
  omega

theorem lt_unix_mul (t : ℤ) : t < unix t * second + second := by
  simp only [unix, second]
  omega

theorem unix_eq {t u : ℤ} (h : u * second ≤ t) (h' : t < u * second + second) : unix t = u := by
  simp only [unix, second] at *
  omega

end ChessRecast.Signaling
