import Mathlib.Tactic

/-!
# Machines with guarded steps

A machine is a partial step function: in a state an event is either refused (`none`) or leads to one
other state. Everything that a scheduler, a network or an adversary can choose is part of the event,
so a statement about every run is a statement about every interleaving.
-/

namespace Machine

variable {σ ε : Type}

/-- The events one after another, as long as none is refused. -/
def run (step : σ → ε → Option σ) (s : σ) (events : List ε) : Option σ := events.foldlM step s

/-- The states after the runs from `init`. -/
def Reachable (step : σ → ε → Option σ) (init s : σ) : Prop :=
  ∃ events, run step init events = some s

variable {step : σ → ε → Option σ} {s t init : σ} {e : ε} {events later : List ε}

theorem run_cons_iff :
    run step s (e :: events) = some t ↔ ∃ u, step s e = some u ∧ run step u events = some t := by
  simp only [run, List.foldlM_cons, Option.bind_eq_bind, Option.bind_eq_some_iff]

theorem run_append_iff :
    run step s (events ++ later) = some t ↔
      ∃ u, run step s events = some u ∧ run step u later = some t := by
  simp only [run, List.foldlM_append, Option.bind_eq_bind, Option.bind_eq_some_iff]

theorem run_concat_iff :
    run step s (events ++ [e]) = some t ↔ ∃ u, run step s events = some u ∧ step u e = some t := by
  rw [run_append_iff]
  simp [run]

theorem Reachable.trans (h : Reachable step init s) (hrun : run step s events = some t) :
    Reachable step init t := by
  obtain ⟨before, hbefore⟩ := h
  exact ⟨before ++ events, run_append_iff.mpr ⟨s, hbefore, hrun⟩⟩

/-! ## Rules -/

theorem run_invariant {I : σ → Prop} (hstep : ∀ s e t, I s → step s e = some t → I t)
    (h : run step s events = some t) (hs : I s) : I t := by
  induction events generalizing s with
  | nil =>
    cases h
    exact hs
  | cons e events ih =>
    obtain ⟨u, hu, hrest⟩ := run_cons_iff.mp h
    exact ih hrest (hstep s e u hs hu)

theorem Reachable.invariant {I : σ → Prop} (h : Reachable step init s) (hinit : I init)
    (hstep : ∀ s e t, I s → step s e = some t → I t) : I s := by
  obtain ⟨events, hrun⟩ := h
  exact run_invariant hstep hrun hinit

/-! ## Machines that refuse nothing -/

section Total

variable {next : σ → ε → σ} {P Q : σ → ε → Prop} {I : σ → Prop}

/-- Every event of the run has the property, in the state in which it comes. -/
def Along (next : σ → ε → σ) (P : σ → ε → Prop) : σ → List ε → Prop
  | _, [] => True
  | s, e :: events => P s e ∧ Along next P (next s e) events

/-- Two properties of single events that agree under an invariant agree along every run, if the
events that have them keep the invariant. -/
theorem along_iff (hiff : ∀ s e, I s → (P s e ↔ Q s e)) (hkeep : ∀ s e, I s → P s e → I (next s e))
    (hs : I s) : Along next P s events ↔ Along next Q s events := by
  induction events generalizing s with
  | nil => exact Iff.rfl
  | cons e events ih =>
    unfold Along
    rw [← hiff s e hs]
    exact and_congr_right fun hP => ih (hkeep s e hs hP)

theorem foldl_along (hkeep : ∀ s e, I s → P s e → I (next s e)) (h : Along next P s events)
    (hs : I s) : I (events.foldl next s) := by
  induction events generalizing s with
  | nil => exact hs
  | cons e events ih => exact ih h.2 (hkeep s e hs h.1)

theorem foldl_invariant (hkeep : ∀ s e, I s → I (next s e)) (hs : I s) :
    I (events.foldl next s) := by
  induction events generalizing s with
  | nil => exact hs
  | cons e events ih => exact ih (hkeep s e hs)

end Total

end Machine
