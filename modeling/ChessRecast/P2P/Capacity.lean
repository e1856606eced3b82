import ChessRecast.Lib.Waitlist
import ChessRecast.P2P.Spectators

/-!
# Seats and waitlist of a session (`spectator_capacity.dart`)

`admit` does not look for the key among those already seated, `release` takes every seat of the key
and then promotes one spectator. A key with several seats therefore leaves seats free in front of a
waitlist (`spectator_seats_iff`); the order of the waitlist is kept in any case.
-/

namespace ChessRecast.P2P

open Waitlist (Hall)

namespace SpectatorCapacity

def release (c : SpectatorCapacity) (spectatorPubKey : List UInt8) : SpectatorCapacity :=
  let c := { c with seated := c.seated.filter (· ≠ spectatorPubKey) }
  match c.waitlist with
  | [] => c
  | next :: rest =>
    if ¬ c.IsFull then { c with waitlist := rest, seated := c.seated ++ [next] } else c

def expireWaitlist (c : SpectatorCapacity) : SpectatorCapacity := { c with waitlist := [] }

end SpectatorCapacity

/-- The calls of a `SpectatorCapacityManager`. -/
inductive CapacityCall where
  | admitSpectator (spectatorPubKey : List UInt8)
  | release (spectatorPubKey : List UInt8)
  | expireWaitlist
deriving DecidableEq, Repr

namespace SpectatorCapacity

def step (c : SpectatorCapacity) : CapacityCall → SpectatorCapacity
  | .admitSpectator key => (c.admitSpectator key).1
  | .release key => c.release key
  | .expireWaitlist => c.expireWaitlist

/-- Seats and waitlist without the cap. -/
def hall (c : SpectatorCapacity) : Hall (List UInt8) := ⟨c.seated, c.waitlist⟩

/-- Seats and waitlist are within their bounds, and a free seat means an empty waitlist. -/
def Fits (c : SpectatorCapacity) : Prop := c.hall.Fits c.effectiveCap waitlistMaxDepth

/-- How a call may change the waitlist: it adds the new spectator at the end, gives a seat to the
one at the front, or expires everybody. -/
def InOrder (c : SpectatorCapacity) : CapacityCall → Prop
  | .admitSpectator key => (c.admitSpectator key).1.waitlist = c.waitlist ∨
      (c.admitSpectator key).1.waitlist = c.waitlist ++ [key]
  | .release key => ∃ called, called.length ≤ 1 ∧ c.waitlist = called ++ (c.release key).waitlist ∧
      (c.release key).seated = c.seated.filter (· ≠ key) ++ called
  | .expireWaitlist => c.expireWaitlist.waitlist = []

/-- A released key has one seat at most, or at most one spectator waits. -/
def FreesOne (c : SpectatorCapacity) : CapacityCall → Prop
  | .release key => c.seated.count key ≤ 1 ∨ c.waitlist.length ≤ 1
  | _ => True

variable {c : SpectatorCapacity} {key : List UInt8}

theorem hall_admitSpectator :
    (c.admitSpectator key).1.hall = c.hall.admitted c.effectiveCap waitlistMaxDepth key := by
  unfold admitSpectator Hall.admitted IsFull
  simp only [not_le, ge_iff_le]
  show _ = if c.seated.length < c.effectiveCap then _ else
    if c.waitlist.length < waitlistMaxDepth then _ else _
  split_ifs <;> rfl

theorem hall_release : (c.release key).hall =
    c.hall.released c.effectiveCap fun seated => seated.filter (· ≠ key) := by
  unfold release Hall.released Hall.promoted hall IsFull
  dsimp only
  cases c.waitlist with
  | nil => rfl
  | cons next rest =>
    simp only [not_le, ge_iff_le]
    split <;> rfl

theorem effectiveCap_step (c : SpectatorCapacity) (call : CapacityCall) :
    (c.step call).effectiveCap = c.effectiveCap := by
  cases call with
  | admitSpectator key =>
    show (c.admitSpectator key).1.effectiveCap = _
    unfold admitSpectator
    split_ifs <;> rfl
  | release key =>
    show (c.release key).effectiveCap = _
    unfold release
    dsimp only
    split
    · rfl
    · split <;> rfl
  | expireWaitlist => rfl

theorem inOrder (c : SpectatorCapacity) (call : CapacityCall) : c.InOrder call := by
  cases call with
  | admitSpectator key =>
    show (c.admitSpectator key).1.waitlist = c.waitlist ∨
      (c.admitSpectator key).1.waitlist = c.waitlist ++ [key]
    unfold admitSpectator
    split_ifs
    · exact .inr rfl
    · exact .inl rfl
    · exact .inl rfl
  | release key =>
    obtain ⟨called, hone, hwaiting, hseated⟩ :=
      Hall.released_cases c.effectiveCap (fun seated => seated.filter (· ≠ key)) c.hall
    rw [← hall_release] at hwaiting hseated
    exact ⟨called, hone, hwaiting, hseated⟩
  | expireWaitlist => rfl

theorem length_filter_ne_add_count (keys : List (List UInt8)) (key : List UInt8) :
    (keys.filter (· ≠ key)).length + keys.count key = keys.length := by
  have h := List.length_eq_length_filter_add (l := keys) (· == key)
  rw [List.count_eq_length_filter, h, Nat.add_comm]
  congr 2
  apply List.filter_congr
  exact fun x _ => by simp [Bool.beq_eq_decide_eq]

/-- A call leaves seats and waitlist as they should be exactly if it does not free two seats of one
key while two spectators wait. -/
theorem fits_step_iff (h : c.Fits) (call : CapacityCall) :
    (c.step call).Fits ↔ c.FreesOne call := by
  unfold Fits
  rw [effectiveCap_step]
  cases call with
  | admitSpectator key =>
    refine iff_of_true ?_ trivial
    show (c.admitSpectator key).1.hall.Fits _ _
    rw [hall_admitSpectator]
    exact Hall.Fits.admitted h
  | release key =>
    -- as many seats become free as the key has
    have hcount := length_filter_ne_add_count c.seated key
    show (c.release key).hall.Fits _ _ ↔ _
    rw [hall_release, Hall.fits_released_iff h (List.length_filter_le ..)]
    show c.seated.length ≤ (c.seated.filter (· ≠ key)).length + 1 ∨ _ ↔
      c.seated.count key ≤ 1 ∨ _
    apply or_congr_left
    omega
  | expireWaitlist =>
    exact iff_of_true ⟨h.seats, Nat.zero_le _, fun _ => rfl⟩ trivial

/-- In every run of a new manager the seats and the waitlist keep their bounds, nobody waits in
front of a free seat and the waitlist moves in order, exactly if no release frees two seats of one
key while two spectators wait. -/
theorem spectator_seats_iff (cap : Option ℤ) (calls : List CapacityCall) :
    Machine.Along step (fun c call => (c.step call).Fits ∧ c.InOrder call) (new cap) calls ↔
      Machine.Along step FreesOne (new cap) calls := by
  apply Machine.along_iff (I := Fits)
  · intro c call h
    rw [and_iff_left (inOrder c call)]
    exact fits_step_iff h call
  · exact fun c call _ hstep => hstep.1
  · exact ⟨Nat.zero_le _, Nat.zero_le _, fun _ => rfl⟩

/-- Two seats, both taken by one key, and two others wait: when the key is released only one of
them gets a seat. -/
theorem spectator_waits_at_free_seat :
    let full := [[1], [1], [2], [3]].foldl (fun c key => c.step (.admitSpectator key))
      (new (some 2))
    let c := full.step (.release [1])
    c.seated = [[2]] ∧ c.waitlist = [[3]] ∧ c.effectiveCap = 2 := by
  decide +kernel

end SpectatorCapacity

end ChessRecast.P2P
