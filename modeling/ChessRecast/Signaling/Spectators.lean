import ChessRecast.Lib.Machine
import ChessRecast.Lib.Waitlist
import ChessRecast.Signaling.Time

/-!
# The spectator manager of the signaling service (`spectator.go`)

`Admit` does not look for the account among those already seated or waiting, and `Release` removes
one seat and no place of the waitlist. The seats, the waitlist and its order are as they should be
in every run (`Waitlist.Hall.Fits`); that an account takes at most one place and leaves it when it
is released holds exactly as long as no account joins twice and none is released while it waits
(`spectator_places_iff`).
-/

namespace ChessRecast.Signaling

open Waitlist (Hall)

def errCapacityFull : String := "SPECTATOR_CAPACITY_FULL"

def errAuthRequired : String := "SPECTATOR_AUTH_REQUIRED"

def errRateLimited : String := "SPECTATOR_JOIN_RATE_LIMITED"

def defaultPerGameCap : ℤ := 50

def hardCeiling : ℤ := 200

def waitlistMaxDepth : ℕ := 50

def joinRateLimitPerMinute : ℕ := 6

def joinRateLimitPerHour : ℕ := 60

/-- `Manager`: the accounts in their seats, those on the waitlist, and the times at which each
account has joined. -/
structure SpectatorManager where
  gameID : String
  effectiveCap : ℕ
  seated : List String := []
  waitlist : List String := []
  joins : String → List ℤ := fun _ => []

structure AdmitResult where
  seated : Bool := false
  waitlisted : Bool := false
  errCode : String := ""
deriving DecidableEq, Repr

def removeFirst : List String → String → List String
  | [], _ => []
  | v :: list, val => if v = val then list else v :: removeFirst list val

namespace SpectatorManager

/-- `NewManager` -/
def new (gameID : String) (cap : ℤ) : SpectatorManager :=
  let cap := if cap ≤ 0 then defaultPerGameCap else cap
  let cap := if cap > hardCeiling then hardCeiling else cap
  { gameID, effectiveCap := cap.toNat }

/-- The joins of the last hour. -/
def pruned (m : SpectatorManager) (account : String) (now : ℤ) : List ℤ :=
  (m.joins account).filter fun t => now - t < 3600 * second

def RateLimited (m : SpectatorManager) (account : String) (now : ℤ) : Prop :=
  (m.pruned account now).countP (fun t => now - t < 60 * second) ≥ joinRateLimitPerMinute ∨
    (m.pruned account now).length ≥ joinRateLimitPerHour

instance (m : SpectatorManager) (account : String) (now : ℤ) :
    Decidable (m.RateLimited account now) :=
  inferInstanceAs (Decidable (_ ∨ _))

/-- `Admit`, with the time that it reads. -/
def admitSpectator (m : SpectatorManager) (account : String) (isAuthenticated : Bool) (now : ℤ) :
    SpectatorManager × AdmitResult :=
  if isAuthenticated = false then (m, { errCode := errAuthRequired })
  else if m.RateLimited account now then
    ({ m with joins := Function.update m.joins account (m.pruned account now) },
      { errCode := errRateLimited })
  else
    let m := { m with joins := Function.update m.joins account (m.pruned account now ++ [now]) }
    if m.seated.length < m.effectiveCap then
      ({ m with seated := m.seated ++ [account] }, { seated := true })
    else if m.waitlist.length < waitlistMaxDepth then
      ({ m with waitlist := m.waitlist ++ [account] }, { waitlisted := true })
    else (m, { errCode := errCapacityFull })

def release (m : SpectatorManager) (account : String) : SpectatorManager :=
  let m := { m with seated := removeFirst m.seated account }
  match m.waitlist with
  | [] => m
  | next :: rest =>
    if m.seated.length < m.effectiveCap then
      { m with waitlist := rest, seated := m.seated ++ [next] }
    else m

def expireWaitlist (m : SpectatorManager) : SpectatorManager := { m with waitlist := [] }

/-- `HostGoneEviction`: the number of spectators evicted, or the error. -/
def hostGoneEviction (m : SpectatorManager) (evictionTimeout : ℤ) :
    SpectatorManager × Except String ℕ :=
  if evictionTimeout ≤ 0 then (m, .error "evictionTimeout must be > 0")
  else ({ m with seated := [], waitlist := [] }, .ok m.seated.length)

end SpectatorManager

/-- The calls; each holds the mutex from its beginning to its end. -/
inductive SpectatorCall where
  | admitSpectator (account : String) (isAuthenticated : Bool) (now : ℤ)
  | release (account : String)
  | expireWaitlist
  | hostGoneEviction (evictionTimeout : ℤ)
deriving DecidableEq, Repr

namespace SpectatorManager

def step (m : SpectatorManager) : SpectatorCall → SpectatorManager
  | .admitSpectator account isAuthenticated now => (m.admitSpectator account isAuthenticated now).1
  | .release account => m.release account
  | .expireWaitlist => m.expireWaitlist
  | .hostGoneEviction evictionTimeout => (m.hostGoneEviction evictionTimeout).1

def run (m : SpectatorManager) (calls : List SpectatorCall) : SpectatorManager :=
  calls.foldl step m

/-! ## The hall -/

/-- Seats and waitlist without the rest. -/
def hall (m : SpectatorManager) : Hall String := ⟨m.seated, m.waitlist⟩

/-- The call gets past authentication and rate limit and finds room. -/
def Accepts (m : SpectatorManager) (account : String) (isAuthenticated : Bool) (now : ℤ) : Prop :=
  (isAuthenticated = true ∧ ¬ m.RateLimited account now) ∧
    m.hall.HasRoom m.effectiveCap waitlistMaxDepth

instance (m : SpectatorManager) (account : String) (isAuthenticated : Bool) (now : ℤ) :
    Decidable (m.Accepts account isAuthenticated now) :=
  inferInstanceAs (Decidable ((_ ∧ _) ∧ _))

variable {m : SpectatorManager} {account : String} {isAuthenticated : Bool} {now : ℤ}
  {call : SpectatorCall} {calls : List SpectatorCall}

theorem removeFirst_eq_erase (list : List String) (val : String) :
    removeFirst list val = list.erase val := by
  induction list with
  | nil => rfl
  | cons v list ih =>
    unfold removeFirst
    rw [List.erase_cons, ih]
    simp only [beq_iff_eq]

theorem hall_admitSpectator : (m.admitSpectator account isAuthenticated now).1.hall =
    if isAuthenticated = true ∧ ¬ m.RateLimited account now then
      m.hall.admitted m.effectiveCap waitlistMaxDepth account
    else m.hall := by
  unfold admitSpectator
  by_cases hauth : isAuthenticated = true
  · rw [if_neg (by rw [hauth]; decide)]
    by_cases hrate : m.RateLimited account now
    · rw [if_pos hrate, if_neg fun h => h.2 hrate]
      rfl
    · have hpass : isAuthenticated = true ∧ ¬ m.RateLimited account now := ⟨hauth, hrate⟩
      rw [if_neg hrate, if_pos hpass]
      unfold Hall.admitted
      show _ = if m.seated.length < m.effectiveCap then _ else
        if m.waitlist.length < waitlistMaxDepth then _ else _
      by_cases hseat : m.seated.length < m.effectiveCap
      · rw [if_pos hseat, if_pos hseat]
        rfl
      · rw [if_neg hseat, if_neg hseat]
        split <;> rfl
  · rw [if_pos (Bool.eq_false_iff.mpr hauth), if_neg fun h => hauth h.1]

theorem hall_admit_of_accepts (h : m.Accepts account isAuthenticated now) :
    (m.admitSpectator account isAuthenticated now).1.hall =
      m.hall.admitted m.effectiveCap waitlistMaxDepth account := by
  rw [hall_admitSpectator, if_pos h.1]

theorem hall_admit_of_not_accepts (h : ¬ m.Accepts account isAuthenticated now) :
    (m.admitSpectator account isAuthenticated now).1.hall = m.hall := by
  rw [hall_admitSpectator]
  split
  · rename_i hpass
    exact Hall.admitted_of_not_hasRoom fun hroom => h ⟨hpass, hroom⟩
  · rfl

theorem hall_release : (m.release account).hall =
    m.hall.released m.effectiveCap fun seated => seated.erase account := by
  unfold release Hall.released Hall.promoted hall
  rw [removeFirst_eq_erase]
  dsimp only
  cases m.waitlist with
  | nil => rfl
  | cons next rest =>
    dsimp only
    split <;> rfl

theorem effectiveCap_step (m : SpectatorManager) (call : SpectatorCall) :
    (m.step call).effectiveCap = m.effectiveCap := by
  cases call with
  | admitSpectator account isAuthenticated now =>
    show (m.admitSpectator account isAuthenticated now).1.effectiveCap = _
    unfold admitSpectator
    dsimp only
    split_ifs <;> rfl
  | release account =>
    show (m.release account).effectiveCap = _
    unfold release
    dsimp only
    split
    · rfl
    · split <;> rfl
  | expireWaitlist => rfl
  | hostGoneEviction evictionTimeout =>
    show (m.hostGoneEviction evictionTimeout).1.effectiveCap = _
    unfold hostGoneEviction
    split <;> rfl

theorem hall_hostGoneEviction (evictionTimeout : ℤ) :
    (m.hostGoneEviction evictionTimeout).1.hall = m.hall ∨
      (m.hostGoneEviction evictionTimeout).1.hall = {} := by
  unfold hostGoneEviction
  split
  · exact .inl rfl
  · exact .inr rfl

/-! ## Seats and waitlist -/

/-- Seats and waitlist are within their bounds, and a free seat means an empty waitlist. -/
def Fits (m : SpectatorManager) : Prop := m.hall.Fits m.effectiveCap waitlistMaxDepth

theorem fits_new (gameID : String) (cap : ℤ) : (new gameID cap).Fits :=
  ⟨Nat.zero_le _, Nat.zero_le _, fun _ => rfl⟩

theorem Fits.step (h : m.Fits) (call : SpectatorCall) : (m.step call).Fits := by
  unfold Fits
  rw [effectiveCap_step]
  cases call with
  | admitSpectator account isAuthenticated now =>
    show (m.admitSpectator account isAuthenticated now).1.hall.Fits _ _
    rw [hall_admitSpectator]
    split
    · exact Hall.Fits.admitted h
    · exact h
  | release account =>
    show (m.release account).hall.Fits _ _
    rw [hall_release]
    have herase := List.length_erase (a := account) (l := m.seated)
    apply Hall.Fits.released h
    · exact List.length_erase_le
    · show m.seated.length ≤ (m.seated.erase account).length + 1
      rw [herase]
      split <;> omega
  | expireWaitlist => exact ⟨h.seats, Nat.zero_le _, fun _ => rfl⟩
  | hostGoneEviction evictionTimeout =>
    show (m.hostGoneEviction evictionTimeout).1.hall.Fits _ _
    rcases hall_hostGoneEviction evictionTimeout with heq | heq
    · rw [heq]
      exact h
    · rw [heq]
      exact ⟨Nat.zero_le _, Nat.zero_le _, fun _ => rfl⟩

/-! ## The order of the waitlist -/

/-- Who goes on the waitlist in a call. -/
def queued (m : SpectatorManager) : SpectatorCall → List String
  | .admitSpectator account isAuthenticated now =>
    if (m.admitSpectator account isAuthenticated now).2.waitlisted then [account] else []
  | _ => []

/-- Who leaves the waitlist for a seat in a call. -/
def called (m : SpectatorManager) : SpectatorCall → List String
  | .release account =>
    m.waitlist.take (m.waitlist.length - (m.release account).waitlist.length)
  | _ => []

/-- Those who were put on the waitlist in a run, in this order. -/
def queuedIn : SpectatorManager → List SpectatorCall → List String
  | _, [] => []
  | m, call :: calls => m.queued call ++ queuedIn (m.step call) calls

/-- Those who were seated from the waitlist in a run, in this order. -/
def calledIn : SpectatorManager → List SpectatorCall → List String
  | _, [] => []
  | m, call :: calls => m.called call ++ calledIn (m.step call) calls

theorem waitlist_admitSpectator : (m.admitSpectator account isAuthenticated now).1.waitlist =
    m.waitlist ++ m.queued (.admitSpectator account isAuthenticated now) := by
  unfold queued admitSpectator
  dsimp only
  split_ifs <;> simp_all

/-- A release takes the head of the waitlist, or nobody, and gives them a seat. -/
theorem release_called : m.waitlist = m.called (.release account) ++ (m.release account).waitlist ∧
    (m.release account).seated =
      removeFirst m.seated account ++ m.called (.release account) := by
  obtain ⟨next, -, hwaiting, hseated⟩ :=
    Hall.released_cases m.effectiveCap (fun seated => seated.erase account) m.hall
  rw [← hall_release] at hwaiting hseated
  have hwait : m.waitlist = next ++ (m.release account).waitlist := hwaiting
  have hseat : (m.release account).seated = m.seated.erase account ++ next := hseated
  have hcalled : m.called (.release account) = next := by
    show m.waitlist.take (m.waitlist.length - (m.release account).waitlist.length) = next
    rw [hwait, List.length_append, Nat.add_sub_cancel, List.take_left']
    rfl
  rw [hcalled, removeFirst_eq_erase]
  exact ⟨hwait, hseat⟩

/-- One call: who was called and who still waits were waiting or have just been queued. -/
theorem called_step_sublist (m : SpectatorManager) (call : SpectatorCall) :
    (m.called call ++ (m.step call).waitlist).Sublist (m.waitlist ++ m.queued call) := by
  cases call with
  | admitSpectator account isAuthenticated now =>
    show (m.admitSpectator account isAuthenticated now).1.waitlist.Sublist _
    rw [waitlist_admitSpectator]
  | release account =>
    show (m.called (.release account) ++ (m.release account).waitlist).Sublist (m.waitlist ++ [])
    rw [← release_called.1, List.append_nil]
  | expireWaitlist => exact List.nil_sublist _
  | hostGoneEviction evictionTimeout =>
    show (m.hostGoneEviction evictionTimeout).1.waitlist.Sublist (m.waitlist ++ [])
    rw [List.append_nil]
    unfold hostGoneEviction
    split
    · exact List.Sublist.refl _
    · exact List.nil_sublist _

/-- Accounts are seated in the order in which they were put on the waitlist. -/
theorem calledIn_sublist (m : SpectatorManager) (calls : List SpectatorCall) :
    (m.calledIn calls ++ (m.run calls).waitlist).Sublist (m.waitlist ++ m.queuedIn calls) := by
  induction calls generalizing m with
  | nil =>
    show m.waitlist.Sublist (m.waitlist ++ [])
    rw [List.append_nil]
  | cons call calls ih =>
    unfold calledIn queuedIn
    have hstep := called_step_sublist m call
    have hrest := ih (m.step call)
    calc (m.called call ++ calledIn (m.step call) calls) ++ (m.run (call :: calls)).waitlist
        = m.called call ++ (calledIn (m.step call) calls ++ ((m.step call).run calls).waitlist) :=
          List.append_assoc _ _ _
      List.Sublist _ (m.called call ++ ((m.step call).waitlist ++ queuedIn (m.step call) calls)) :=
          hrest.append_left _
      _ = (m.called call ++ (m.step call).waitlist) ++ queuedIn (m.step call) calls :=
          (List.append_assoc _ _ _).symm
      List.Sublist _ ((m.waitlist ++ m.queued call) ++ queuedIn (m.step call) calls) :=
          hstep.append_right _
      _ = m.waitlist ++ (m.queued call ++ queuedIn (m.step call) calls) := List.append_assoc _ _ _

/-! ## One place for an account -/

/-- What a call promises: seats and waitlist fit, who leaves the waitlist on a release gets a seat,
no account takes two places, and a released account takes none. -/
structure Lawful (m : SpectatorManager) (call : SpectatorCall) : Prop where
  fits : (m.step call).Fits
  seats : ∀ account, call = .release account →
    (m.step call).seated = removeFirst m.seated account ++ m.called call
  once : (m.step call).hall.places.Nodup
  gone : ∀ account, call = .release account → account ∉ (m.step call).hall.places

/-- An account that is admitted has no place yet, and one that is released does not wait. -/
def Meets (m : SpectatorManager) : SpectatorCall → Prop
  | .admitSpectator account isAuthenticated now =>
    m.Accepts account isAuthenticated now → account ∉ m.hall.places
  | .release account => account ∉ m.waitlist
  | _ => True

theorem once_admit_iff (h : m.hall.places.Nodup) :
    (m.admitSpectator account isAuthenticated now).1.hall.places.Nodup ↔
      (m.Accepts account isAuthenticated now → account ∉ m.hall.places) := by
  by_cases hacc : m.Accepts account isAuthenticated now
  · rw [hall_admit_of_accepts hacc, (Hall.places_admitted hacc.2).nodup_iff, List.nodup_cons,
      and_iff_left h]
    exact ⟨fun hno _ => hno, fun hno => hno hacc⟩
  · rw [hall_admit_of_not_accepts hacc]
    exact iff_of_true h fun hyes => absurd hyes hacc

theorem places_release : (m.release account).hall.places.Perm
    (m.seated.erase account ++ m.waitlist) := by
  rw [hall_release]
  exact Hall.places_released

theorem once_release (h : m.hall.places.Nodup) : (m.release account).hall.places.Nodup := by
  rw [places_release.nodup_iff]
  exact h.sublist (List.Sublist.append (List.erase_sublist ..) (List.Sublist.refl _))

theorem gone_release_iff (h : m.hall.places.Nodup) :
    account ∉ (m.release account).hall.places ↔ account ∉ m.waitlist := by
  have hseat : account ∉ m.seated.erase account := (List.nodup_append.mp h).1.not_mem_erase
  rw [places_release.mem_iff, List.mem_append, not_or]
  exact and_iff_right hseat

theorem lawful_iff (hfits : m.Fits) (honce : m.hall.places.Nodup) (call : SpectatorCall) :
    m.Lawful call ↔ m.Meets call := by
  have hfits' := hfits.step call
  cases call with
  | admitSpectator account isAuthenticated now =>
    refine ⟨fun h => (once_admit_iff honce).mp h.once, fun h => ?_⟩
    exact ⟨hfits', nofun, (once_admit_iff honce).mpr h, nofun⟩
  | release account =>
    refine ⟨fun h => (gone_release_iff honce).mp (h.gone account rfl), fun h => ?_⟩
    refine ⟨hfits', fun account' heq => ?_, once_release honce, fun account' heq => ?_⟩
    · cases heq
      exact release_called.2
    · cases heq
      exact (gone_release_iff honce).mpr h
  | expireWaitlist =>
    refine iff_of_true ⟨hfits', nofun, ?_, nofun⟩ trivial
    exact honce.sublist (List.Sublist.append (List.Sublist.refl _) (List.nil_sublist _))
  | hostGoneEviction evictionTimeout =>
    refine iff_of_true ⟨hfits', nofun, ?_, nofun⟩ trivial
    show (m.hostGoneEviction evictionTimeout).1.hall.places.Nodup
    rcases hall_hostGoneEviction evictionTimeout with heq | heq
    · rw [heq]
      exact honce
    · rw [heq]
      exact List.nodup_nil

/-- In every run of a new manager the seats and the waitlist fit, accounts are seated in the order
of the waitlist, no account takes two places and a released account takes none, exactly if no call
admits an account that has a place already and none releases an account that waits. -/
theorem spectator_places_iff (gameID : String) (cap : ℤ) (calls : List SpectatorCall) :
    (Machine.Along step Lawful (new gameID cap) calls ∧
      ∀ earlier later, calls = earlier ++ later →
        ((new gameID cap).calledIn earlier ++ ((new gameID cap).run earlier).waitlist).Sublist
          ((new gameID cap).queuedIn earlier)) ↔
    Machine.Along step Meets (new gameID cap) calls := by
  have horder : ∀ earlier later, calls = earlier ++ later →
      ((new gameID cap).calledIn earlier ++ ((new gameID cap).run earlier).waitlist).Sublist
        ((new gameID cap).queuedIn earlier) :=
    fun earlier _ _ => calledIn_sublist (new gameID cap) earlier
  rw [and_iff_left horder]
  apply Machine.along_iff (I := fun m => m.Fits ∧ m.hall.places.Nodup)
  · exact fun m call h => lawful_iff h.1 h.2 call
  · exact fun m call _ hlaw => ⟨hlaw.fits, hlaw.once⟩
  · exact ⟨fits_new gameID cap, List.nodup_nil⟩

/-- With one seat, an account that joins twice still has it after it is released. -/
theorem spectator_rejoins : let m := new "game" 1
    let m' := m.run [.admitSpectator "alice" true 0, .admitSpectator "alice" true second]
    m'.seated = ["alice"] ∧ m'.waitlist = ["alice"] ∧ (m'.release "alice").seated = ["alice"] := by
  decide +kernel

end SpectatorManager

end ChessRecast.Signaling
