import Mathlib.Tactic

/-!
# Seats and a waiting list

A hall has a number of seats and a queue of bounded depth in front of them. Who comes is seated, or
else queued, or else turned away; when somebody leaves, the head of the queue takes a free seat. How
the leaving one is removed from the seats is a parameter: the rules below say what follows if at
most one seat becomes free at a time, and what follows for the order of the queue in any case.
-/

namespace Waitlist

/-- Those who sit and those who wait, each list in the order of arrival. -/
structure Hall (α : Type) where
  seated : List α := []
  waiting : List α := []
deriving DecidableEq, Repr

variable {α : Type}

namespace Hall

/-- Everybody in the hall, once for every place that they take. -/
def places (h : Hall α) : List α := h.seated ++ h.waiting

/-- There is a seat, or else room in the queue. -/
def HasRoom (cap depth : ℕ) (h : Hall α) : Prop :=
  h.seated.length < cap ∨ h.waiting.length < depth

instance (cap depth : ℕ) (h : Hall α) : Decidable (h.HasRoom cap depth) :=
  inferInstanceAs (Decidable (_ ∨ _))

def admitted (cap depth : ℕ) (h : Hall α) (a : α) : Hall α :=
  if h.seated.length < cap then { h with seated := h.seated ++ [a] }
  else if h.waiting.length < depth then { h with waiting := h.waiting ++ [a] }
  else h

/-- The head of the queue takes a free seat. -/
def promoted (cap : ℕ) (h : Hall α) : Hall α :=
  match h.waiting with
  | [] => h
  | next :: rest =>
    if h.seated.length < cap then { seated := h.seated ++ [next], waiting := rest } else h

/-- Somebody leaves the seats, and the queue moves up. -/
def released (cap : ℕ) (remove : List α → List α) (h : Hall α) : Hall α :=
  promoted cap { h with seated := remove h.seated }

/-- Seats and queue are within their bounds, and nobody waits in front of a free seat. -/
structure Fits (cap depth : ℕ) (h : Hall α) : Prop where
  seats : h.seated.length ≤ cap
  depth : h.waiting.length ≤ depth
  busy : h.seated.length < cap → h.waiting = []

variable {cap depth : ℕ} {h : Hall α} {a : α}

/-! ## Coming -/

theorem admitted_of_not_hasRoom (hno : ¬ h.HasRoom cap depth) : h.admitted cap depth a = h := by
  unfold HasRoom at hno
  push Not at hno
  unfold admitted
  rw [if_neg (by omega), if_neg (by omega)]

theorem places_admitted (hroom : h.HasRoom cap depth) :
    (h.admitted cap depth a).places.Perm (a :: h.places) := by
  unfold admitted places
  by_cases hseat : h.seated.length < cap
  · rw [if_pos hseat]
    simp only [List.append_assoc, List.singleton_append]
    exact List.perm_middle
  · rw [if_neg hseat, if_pos (hroom.resolve_left hseat)]
    simp only [← List.append_assoc]
    exact List.perm_append_singleton a _

theorem Fits.admitted (hf : h.Fits cap depth) : (h.admitted cap depth a).Fits cap depth := by
  obtain ⟨hseats, hdepth, hbusy⟩ := hf
  unfold Hall.admitted
  split
  · -- a seat was free, so the queue is empty
    rename_i hseat
    have hnil := hbusy hseat
    refine ⟨?_, hdepth, fun _ => hnil⟩
    rw [List.length_append, List.length_singleton]
    omega
  · split
    · refine ⟨hseats, ?_, fun hfree => ?_⟩
      · rw [List.length_append, List.length_singleton]
        omega
      · rename_i hseat _
        exact absurd hfree hseat
    · exact ⟨hseats, hdepth, hbusy⟩

/-! ## Leaving -/

variable {remove : List α → List α}

/-- The queue gives up its head to the seats, or nobody. -/
theorem released_cases (cap : ℕ) (remove : List α → List α) (h : Hall α) :
    ∃ called, called.length ≤ 1 ∧ h.waiting = called ++ (h.released cap remove).waiting ∧
      (h.released cap remove).seated = remove h.seated ++ called := by
  unfold released promoted
  cases hw : h.waiting with
  | nil => exact ⟨[], by simp, by simp, by simp⟩
  | cons next rest =>
    dsimp only
    split
    · exact ⟨[next], by simp, by simp, by simp⟩
    · exact ⟨[], by simp, by simp, by simp⟩

theorem places_released : (h.released cap remove).places.Perm (remove h.seated ++ h.waiting) := by
  obtain ⟨called, -, hwaiting, hseated⟩ := released_cases cap remove h
  unfold places
  rw [hseated, hwaiting, List.append_assoc]

/-- If at most one seat becomes free, the queue fills it. -/
theorem Fits.released (hf : h.Fits cap depth) (hle : (remove h.seated).length ≤ h.seated.length)
    (hone : h.seated.length ≤ (remove h.seated).length + 1) :
    (h.released cap remove).Fits cap depth := by
  obtain ⟨hseats, hdepth, hbusy⟩ := hf
  unfold Hall.released promoted
  cases hw : h.waiting with
  | nil =>
    refine ⟨?_, Nat.zero_le _, fun _ => rfl⟩
    show (remove h.seated).length ≤ cap
    omega
  | cons next rest =>
    -- somebody waits, so all the seats were taken
    have hfull : ¬ h.seated.length < cap := by
      intro hfree
      rw [hbusy hfree] at hw
      cases hw
    rw [hw, List.length_cons] at hdepth
    dsimp only
    split
    · refine ⟨?_, ?_, fun hfree => ?_⟩
      · rw [List.length_append, List.length_singleton]
        omega
      · show rest.length ≤ depth
        omega
      · rw [List.length_append, List.length_singleton] at hfree
        omega
    · rename_i hno
      refine ⟨?_, ?_, fun hfree => absurd hfree hno⟩
      · show (remove h.seated).length ≤ cap
        omega
      · show (next :: rest).length ≤ depth
        rw [List.length_cons]
        exact hdepth

/-- The queue fills the seats that become free exactly if there is one at most, or if nobody is left
to wait for the others. -/
theorem fits_released_iff (hf : h.Fits cap depth)
    (hle : (remove h.seated).length ≤ h.seated.length) :
    (h.released cap remove).Fits cap depth ↔
      h.seated.length ≤ (remove h.seated).length + 1 ∨ h.waiting.length ≤ 1 := by
  by_cases hone : h.seated.length ≤ (remove h.seated).length + 1
  · exact iff_of_true (hf.released hle hone) (.inl hone)
  · have hseats := hf.seats
    have hdepth := hf.depth
    rw [or_iff_right hone]
    unfold Hall.released promoted
    cases hw : h.waiting with
    | nil =>
      refine iff_of_true ⟨?_, Nat.zero_le _, fun _ => rfl⟩ (Nat.zero_le _)
      show (remove h.seated).length ≤ cap
      omega
    | cons next rest =>
      rw [hw, List.length_cons] at hdepth
      have hlen : (remove h.seated ++ [next]).length < cap := by
        rw [List.length_append, List.length_singleton]
        omega
      have hfree : (remove h.seated).length < cap := by omega
      dsimp only
      rw [if_pos hfree, List.length_cons]
      constructor
      · intro hfits
        have hrest : rest = [] := hfits.busy hlen
        rw [hrest, List.length_nil]
      · intro hrest
        have hnil : rest = [] := List.length_eq_zero_iff.mp (by omega)
        refine ⟨hlen.le, ?_, fun _ => hnil⟩
        show rest.length ≤ depth
        omega

end Hall

end Waitlist
