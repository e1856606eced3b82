import Mathlib.Tactic

/-!
# Computations that return or throw

Inversion of `>>=` for `Except`: a bind returns exactly if both parts do, and throws exactly if the
first part does or the second one does on what the first one returned. Proofs about a fallible
function peel its binds off with these rules and never unfold them.
-/

namespace Outcome

variable {ε α β : Type} {x : Except ε α} {f : α → Except ε β} {r : β} {e : ε}

-- not by `rfl`: as a definitional step it would make the kernel evaluate what follows
theorem ok_bind (a : α) (f : α → Except ε β) : (Except.ok a >>= f) = f a := by
  simp only [bind, Except.bind]

theorem error_bind (e : ε) (f : α → Except ε β) :
    ((Except.error e : Except ε α) >>= f) = .error e := by
  simp only [bind, Except.bind]

theorem bind_eq_ok : (x >>= f) = .ok r ↔ ∃ a, x = .ok a ∧ f a = .ok r := by
  cases x with
  | error e => exact ⟨fun h => (by cases h), fun ⟨_, h, _⟩ => (by cases h)⟩
  | ok a =>
    rw [ok_bind]
    exact ⟨fun h => ⟨a, rfl, h⟩, fun ⟨_, h, hf⟩ => by rwa [← Except.ok.inj h] at hf⟩

theorem bind_eq_error : (x >>= f) = .error e ↔ x = .error e ∨ ∃ a, x = .ok a ∧ f a = .error e := by
  cases x with
  | error e' =>
    constructor
    · exact fun h => .inl (congrArg _ (Except.error.inj h))
    · rintro (h | ⟨a, h, -⟩)
      · exact congrArg _ (Except.error.inj h)
      · cases h
  | ok a =>
    rw [ok_bind]
    constructor
    · exact fun h => .inr ⟨a, rfl, h⟩
    · rintro (h | ⟨a', h, hf⟩)
      · cases h
      · rwa [← Except.ok.inj h] at hf

end Outcome
