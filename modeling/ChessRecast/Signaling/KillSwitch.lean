import ChessRecast.Lib.Machine

/-!
# The automatic kill switch (`auto_killswitch.go`)

`Arm` starts a timer whose callback disables the kill switch; `Acknowledge` and `Stop` stop it. The
methods hold a mutex and the callback does not: once the runtime has started it, stopping the timer
has no effect, and it disables the switch at a moment of its own. So an acknowledgement is respected
if and only if no callback is in flight when it comes (`acknowledge_respected_iff`).
-/

namespace ChessRecast.Signaling

/-- The state of a timer of the runtime and of its callback: not yet due, stopped in time, started,
past `ks.Disable()`, returned. -/
inductive TimerStatus where
  | pending
  | stopped
  | started
  | notifying
  | finished
deriving DecidableEq, Repr

structure Timer where
  status : TimerStatus := .pending
  deadline : ℤ
deriving DecidableEq, Repr

/-- `AutoKillSwitch` with the flag of its `KillSwitch`, the timers made so far (`timer` is the place
of one of them), the clock of the runtime, and the timers whose callback has called `onFire`. -/
structure AutoKillSwitch where
  tAck : ℤ
  hasOnFire : Bool
  clock : ℤ
  disabled : Bool := false
  timer : Option ℕ := none
  stopped : Bool := false
  timers : List Timer := []
  notified : List ℕ := []
deriving DecidableEq, Repr

namespace AutoKillSwitch

/-- `NewAutoKillSwitch` -/
def new (tAck : ℤ) (hasOnFire : Bool) (clock : ℤ) : AutoKillSwitch where
  tAck := tAck
  hasOnFire := hasOnFire
  clock := clock

/-- The state of the timer with a number. -/
def status (a : AutoKillSwitch) (id : ℕ) : Option TimerStatus := a.timers[id]?.map Timer.status

def setStatus (a : AutoKillSwitch) (id : ℕ) (status : TimerStatus) : AutoKillSwitch :=
  { a with timers := a.timers.modify id fun t => { t with status } }

/-- `timer.Stop()`: it has no effect on a callback that has been started. -/
def stopTimer (a : AutoKillSwitch) (id : ℕ) : AutoKillSwitch :=
  if a.status id = some .pending then a.setStatus id .stopped else a

def arm (a : AutoKillSwitch) : AutoKillSwitch :=
  if a.stopped then a
  else
    let a := match a.timer with
      | some id => a.stopTimer id
      | none => a
    { a with
      timer := some a.timers.length
      timers := a.timers ++ [{ deadline := a.clock + a.tAck }] }

def acknowledge (a : AutoKillSwitch) : AutoKillSwitch :=
  match a.timer with
  | some id => { a.stopTimer id with timer := none }
  | none => a

def reset (a : AutoKillSwitch) : AutoKillSwitch := a.arm

def stop (a : AutoKillSwitch) : AutoKillSwitch :=
  let a := match a.timer with
    | some id => { a.stopTimer id with timer := none }
    | none => a
  { a with stopped := true }

/-- The first call of the callback, `ks.Disable()`. -/
def disable (a : AutoKillSwitch) (id : ℕ) : AutoKillSwitch :=
  { a.setStatus id (if a.hasOnFire then .notifying else .finished) with disabled := true }

/-- The second call of the callback, `onFire()`. -/
def notify (a : AutoKillSwitch) (id : ℕ) : AutoKillSwitch :=
  { a.setStatus id .finished with notified := a.notified ++ [id] }

end AutoKillSwitch

/-- The methods, the clock, and the three moments of a callback. -/
inductive KillSwitchEvent where
  | arm
  | acknowledge
  | reset
  | stop
  | tick (time : ℤ)
  | fire (id : ℕ)
  | disable (id : ℕ)
  | notify (id : ℕ)
deriving DecidableEq, Repr

/-- The event is not a call of a method. -/
def KillSwitchEvent.Passive : KillSwitchEvent → Prop
  | .arm | .acknowledge | .reset | .stop => False
  | _ => True

namespace AutoKillSwitch

def Due (a : AutoKillSwitch) (id : ℕ) : Prop :=
  ∃ t ∈ a.timers[id]?, t.status = .pending ∧ t.deadline ≤ a.clock

instance (a : AutoKillSwitch) (id : ℕ) : Decidable (a.Due id) :=
  inferInstanceAs (Decidable (∃ t ∈ a.timers[id]?, _))

def step (a : AutoKillSwitch) : KillSwitchEvent → Option AutoKillSwitch
  | .arm => some a.arm
  | .acknowledge => some a.acknowledge
  | .reset => some a.reset
  | .stop => some a.stop
  | .tick time => if a.clock ≤ time then some { a with clock := time } else none
  | .fire id => if a.Due id then some (a.setStatus id .started) else none
  | .disable id => if a.status id = some .started then some (a.disable id) else none
  | .notify id => if a.status id = some .notifying then some (a.notify id) else none

/-! ## What a step does to a timer -/

variable {a b : AutoKillSwitch} {id id' : ℕ}

theorem status_setStatus (st : TimerStatus) : (a.setStatus id st).status id' =
    if id = id' then (a.status id').map fun _ => st else a.status id' := by
  unfold setStatus status
  rw [List.getElem?_modify]
  by_cases h : id = id'
  · simp [h, Function.comp_def]
  · simp [h]

theorem status_lt {st : TimerStatus} (h : a.status id = some st) : id < a.timers.length := by
  obtain ⟨t, ht, -⟩ := Option.map_eq_some_iff.mp h
  exact (List.getElem?_eq_some_iff.mp ht).1

theorem exists_status (h : id < a.timers.length) : ∃ st, a.status id = some st :=
  ⟨_, by rw [status, List.getElem?_eq_getElem h, Option.map_some]⟩

theorem length_setStatus (st : TimerStatus) : (a.setStatus id st).timers.length = a.timers.length :=
  List.length_modify ..

/-- From one state of a timer to the next; a callback that is past its first call has disabled the
switch. -/
def Move (disabled : Bool) (st st' : TimerStatus) : Prop :=
  st' = st ∨ (st = .pending ∧ (st' = .stopped ∨ st' = .started)) ∨
    (st = .started ∧ (st' = .notifying ∨ st' = .finished) ∧ disabled = true) ∨
    (st = .notifying ∧ st' = .finished)

/-- Timers are made and move on, and the switch stays disabled. -/
structure Advance (a b : AutoKillSwitch) : Prop where
  grows : a.timers.length ≤ b.timers.length
  disabled : a.disabled = true → b.disabled = true
  moves : ∀ id st, a.status id = some st → ∃ st', b.status id = some st' ∧ Move b.disabled st st'
  fresh : ∀ id, a.timers.length ≤ id → ∀ st, b.status id = some st → st = .pending

theorem Advance.of_timers (htimers : b.timers = a.timers) (hdisabled : b.disabled = a.disabled) :
    Advance a b where
  grows := by rw [htimers]
  disabled := by rw [hdisabled]; exact id
  moves := fun id st h => ⟨st, by rw [status, htimers]; exact h, .inl rfl⟩
  fresh := fun id hid st h => absurd (status_lt h) (by rw [htimers]; exact not_lt.mpr hid)

theorem Advance.of_setStatus {st st' : TimerStatus} (hst : a.status id = some st)
    (htimers : b.timers = (a.setStatus id st').timers)
    (hdisabled : a.disabled = true → b.disabled = true) (hmove : Move b.disabled st st') :
    Advance a b where
  grows := by rw [htimers, length_setStatus]
  disabled := hdisabled
  moves := by
    intro id' st'' h
    have hstatus : b.status id' = (a.setStatus id st').status id' := by
      rw [status, htimers]
      rfl
    rw [hstatus, status_setStatus]
    by_cases heq : id = id'
    · subst heq
      obtain rfl : st = st'' := Option.some.inj (hst.symm.trans h)
      exact ⟨st', by rw [if_pos rfl, hst]; rfl, hmove⟩
    · exact ⟨st'', by rw [if_neg heq, h], .inl rfl⟩
  fresh := by
    intro id' hid' st'' h
    have hlt := status_lt h
    rw [htimers, length_setStatus] at hlt
    exact absurd hlt (not_lt.mpr hid')

theorem status_append (t : Timer) (hb : b.timers = a.timers ++ [t]) :
    b.status id = if id = a.timers.length then some t.status else a.status id := by
  unfold status
  rw [hb]
  by_cases hlt : id < a.timers.length
  · rw [List.getElem?_append_left hlt, if_neg hlt.ne]
  · by_cases heq : id = a.timers.length
    · rw [if_pos heq, heq, List.getElem?_concat_length, Option.map_some]
    · rw [if_neg heq, List.getElem?_eq_none (by simp; omega), List.getElem?_eq_none (by omega)]

theorem Advance.append (h : Advance a b) {c : AutoKillSwitch} (t : Timer)
    (hpending : t.status = .pending) (htimers : c.timers = b.timers ++ [t])
    (hdisabled : c.disabled = b.disabled) : Advance a c where
  grows := by
    have := h.grows
    rw [htimers, List.length_append]
    omega
  disabled := by rw [hdisabled]; exact h.disabled
  moves := by
    intro id st hst
    obtain ⟨st', hst', hmove⟩ := h.moves id st hst
    refine ⟨st', ?_, by rwa [hdisabled]⟩
    rw [status_append t htimers, if_neg (status_lt hst').ne, hst']
  fresh := by
    intro id hid st hst
    rw [status_append t htimers] at hst
    split_ifs at hst
    · exact (Option.some.inj hst).symm.trans hpending
    · exact h.fresh id hid st hst

/-! ## Stopping the timer -/

/-- The three methods begin by stopping the timer they know. -/
def cancelled (a : AutoKillSwitch) : AutoKillSwitch :=
  match a.timer with
  | some id => a.stopTimer id
  | none => a

theorem arm_eq (h : a.stopped = false) : a.arm = { a.cancelled with
    timer := some a.cancelled.timers.length
    timers := a.cancelled.timers ++ [{ deadline := a.cancelled.clock + a.cancelled.tAck }] } := by
  unfold arm cancelled
  rw [h]
  cases a.timer <;> rfl

theorem acknowledge_eq (a : AutoKillSwitch) :
    a.acknowledge = { a.cancelled with timer := none } := by
  unfold acknowledge cancelled
  cases htimer : a.timer with
  | none =>
    show a = { a with timer := none }
    rw [← htimer]
  | some id => rfl

theorem stop_eq (a : AutoKillSwitch) :
    a.stop = { a.cancelled with timer := none, stopped := true } := by
  unfold stop cancelled
  cases htimer : a.timer with
  | none =>
    show { a with stopped := true } = { a with timer := none, stopped := true }
    rw [← htimer]
  | some id => rfl

theorem advance_cancelled (a : AutoKillSwitch) : Advance a a.cancelled := by
  unfold cancelled
  cases a.timer with
  | none => exact .of_timers rfl rfl
  | some id =>
    dsimp only
    unfold stopTimer
    by_cases h : a.status id = some .pending
    · rw [if_pos h]
      exact .of_setStatus h rfl (fun h => h) (.inr (.inl ⟨rfl, .inl rfl⟩))
    · rw [if_neg h]
      exact .of_timers rfl rfl

theorem length_cancelled (a : AutoKillSwitch) : a.cancelled.timers.length = a.timers.length := by
  unfold cancelled stopTimer
  cases a.timer with
  | none => rfl
  | some id =>
    dsimp only
    split_ifs
    · exact length_setStatus _
    · rfl

/-- A callback that has been started is not stopped. -/
theorem status_cancelled_started : a.cancelled.status id = some .started ↔
    a.status id = some .started := by
  unfold cancelled stopTimer
  cases a.timer with
  | none => rfl
  | some id' =>
    dsimp only
    split_ifs with h
    · rw [status_setStatus]
      by_cases heq : id' = id
      · subst heq
        simp [h]
      · rw [if_neg heq]
    · rfl

theorem step_advance {e : KillSwitchEvent} (h : a.step e = some b) : Advance a b := by
  have harm : Advance a a.arm := by
    by_cases hstopped : a.stopped = true
    · unfold arm
      rw [if_pos hstopped]
      exact .of_timers rfl rfl
    · rw [arm_eq (by simpa using hstopped)]
      exact (advance_cancelled a).append _ rfl rfl rfl
  cases e with
  | arm =>
    cases h
    exact harm
  | acknowledge =>
    cases h
    rw [acknowledge_eq]
    exact { advance_cancelled a with }
  | reset =>
    cases h
    exact harm
  | stop =>
    cases h
    rw [stop_eq]
    exact { advance_cancelled a with }
  | tick time =>
    simp only [step] at h
    split_ifs at h
    cases h
    exact .of_timers rfl rfl
  | fire id =>
    simp only [step] at h
    split_ifs at h with hdue
    cases h
    obtain ⟨t, ht, hpending, -⟩ := hdue
    have hst : a.status id = some .pending := by rw [status, ht, Option.map_some, hpending]
    exact .of_setStatus hst rfl (fun h => h) (.inr (.inl ⟨rfl, .inr rfl⟩))
  | disable id =>
    simp only [step] at h
    split_ifs at h with hst
    cases h
    refine .of_setStatus hst rfl (fun _ => rfl) (.inr (.inr (.inl ⟨rfl, ?_, rfl⟩)))
    cases a.hasOnFire
    · exact .inr rfl
    · exact .inl rfl
  | notify id =>
    simp only [step] at h
    split_ifs at h with hst
    cases h
    exact .of_setStatus hst rfl (fun h => h) (.inr (.inr (.inr ⟨rfl, rfl⟩)))

/-! ## The invariant -/

/-- Only the timer that the methods know is pending, and a callback past its first call has disabled
the switch. -/
structure Inv (a : AutoKillSwitch) : Prop where
  pending : ∀ id, a.status id = some .pending → a.timer = some id
  ran : ∀ id, a.status id = some .notifying ∨ a.status id = some .finished → a.disabled = true

theorem inv_new (tAck : ℤ) (hasOnFire : Bool) (clock : ℤ) : (new tAck hasOnFire clock).Inv where
  pending := fun id h => (by cases h)
  ran := fun id h => (by rcases h with h | h <;> cases h)

theorem Inv.not_pending_cancelled (h : a.Inv) (id : ℕ) : a.cancelled.status id ≠ some .pending := by
  intro hp
  unfold cancelled stopTimer at hp
  cases htimer : a.timer with
  | none =>
    rw [htimer] at hp
    have := h.pending id hp
    rw [htimer] at this
    cases this
  | some known =>
    rw [htimer] at hp
    dsimp only at hp
    split_ifs at hp with hknown
    · rw [status_setStatus] at hp
      by_cases heq : known = id
      · rw [if_pos heq] at hp
        obtain ⟨_, -, hst⟩ := Option.map_eq_some_iff.mp hp
        cases hst
      · rw [if_neg heq] at hp
        exact heq (Option.some.inj (htimer.symm.trans (h.pending id hp)))
    · obtain rfl := Option.some.inj (htimer.symm.trans (h.pending id hp))
      exact hknown hp

theorem Advance.pending (h : Advance a b) (hlen : b.timers.length = a.timers.length)
    (hp : b.status id = some .pending) : a.status id = some .pending := by
  have hlt := status_lt hp
  rw [hlen] at hlt
  obtain ⟨st, hst⟩ := exists_status hlt
  obtain ⟨st', hst', hmove⟩ := h.moves id st hst
  obtain rfl : .pending = st' := Option.some.inj (hp.symm.trans hst')
  rcases hmove with rfl | ⟨-, h | h⟩ | ⟨-, h | h, -⟩ | ⟨-, h⟩
  · exact hst
  all_goals cases h

theorem Inv.ran_step (h : a.Inv) (hadv : Advance a b)
    (hb : b.status id = some .notifying ∨ b.status id = some .finished) : b.disabled = true := by
  have hold : id < a.timers.length := by
    by_contra hlt
    rcases hb with hb | hb
    · cases hadv.fresh id (not_lt.mp hlt) _ hb
    · cases hadv.fresh id (not_lt.mp hlt) _ hb
  obtain ⟨st, hst⟩ := exists_status hold
  obtain ⟨st', hst', hmove⟩ := hadv.moves id st hst
  rcases hmove with rfl | ⟨-, rfl | rfl⟩ | ⟨-, -, hdisabled⟩ | ⟨rfl, -⟩
  · rw [hst'] at hb
    exact hadv.disabled (h.ran id (by rwa [hst]))
  · rw [hst'] at hb
    rcases hb with hb | hb <;> cases hb
  · rw [hst'] at hb
    rcases hb with hb | hb <;> cases hb
  · exact hdisabled
  · exact hadv.disabled (h.ran id (.inl hst))

theorem Inv.arm (h : a.Inv) (hstopped : a.stopped = false) (hp : a.arm.status id = some .pending) :
    a.arm.timer = some id := by
  rw [arm_eq hstopped] at hp ⊢
  rw [status_append (a := a.cancelled) _ rfl] at hp
  split_ifs at hp with heq
  · rw [heq]
  · exact absurd hp (h.not_pending_cancelled id)

theorem Inv.step (h : a.Inv) {e : KillSwitchEvent} (hstep : a.step e = some b) : b.Inv := by
  have hadv := step_advance hstep
  refine ⟨fun id hp => ?_, fun id hb => h.ran_step hadv hb⟩
  have harm : ∀ {b}, b = a.arm → b.status id = some .pending → b.timer = some id := by
    rintro b rfl hp
    by_cases hstopped : a.stopped = true
    · unfold AutoKillSwitch.arm at hp ⊢
      rw [if_pos hstopped] at hp ⊢
      exact h.pending id hp
    · exact h.arm (by simpa using hstopped) hp
  cases e with
  | arm => exact harm (Option.some.inj hstep).symm hp
  | reset => exact harm (Option.some.inj hstep).symm hp
  | acknowledge =>
    cases hstep
    rw [acknowledge_eq] at hp
    exact absurd hp (h.not_pending_cancelled id)
  | stop =>
    cases hstep
    rw [stop_eq] at hp
    exact absurd hp (h.not_pending_cancelled id)
  | tick time =>
    simp only [AutoKillSwitch.step] at hstep
    split_ifs at hstep
    cases hstep
    exact h.pending id hp
  | fire id' =>
    simp only [AutoKillSwitch.step] at hstep
    split_ifs at hstep
    cases hstep
    exact h.pending id (hadv.pending (length_setStatus _) hp)
  | disable id' =>
    simp only [AutoKillSwitch.step] at hstep
    split_ifs at hstep
    cases hstep
    exact h.pending id (hadv.pending (length_setStatus _) hp)
  | notify id' =>
    simp only [AutoKillSwitch.step] at hstep
    split_ifs at hstep
    cases hstep
    exact h.pending id (hadv.pending (length_setStatus _) hp)

/-! ## Acknowledgement -/

/-- A callback has been started and has not yet disabled the switch. -/
def InFlight (a : AutoKillSwitch) : Prop := ∃ id, a.status id = some .started

/-- In no continuation does the callback of one of the first `n` timers disable the switch. -/
def Quiet (a : AutoKillSwitch) (n : ℕ) : Prop :=
  ∀ events id b, Machine.run AutoKillSwitch.step a (events ++ [.disable id]) = some b → n ≤ id

/-- The first `n` timers are over. -/
structure Over (n : ℕ) (a : AutoKillSwitch) : Prop where
  made : n ≤ a.timers.length
  idle : ∀ id < n, a.status id ≠ some .pending ∧ a.status id ≠ some .started

theorem Over.advance {n : ℕ} (h : Over n a) (hadv : Advance a b) : Over n b where
  made := h.made.trans hadv.grows
  idle := by
    intro id hid
    obtain ⟨st, hst⟩ := exists_status (hid.trans_le h.made)
    obtain ⟨st', hst', hmove⟩ := hadv.moves id st hst
    have hover := h.idle id hid
    rw [hst] at hover
    rw [hst']
    rcases hmove with rfl | ⟨rfl, -⟩ | ⟨rfl, -⟩ | ⟨-, rfl⟩
    · exact hover
    · exact absurd rfl hover.1
    · exact absurd rfl hover.2
    · exact ⟨by simp, by simp⟩

theorem Over.quiet {n : ℕ} (h : Over n a) : a.Quiet n := by
  intro events id b hrun
  obtain ⟨c, hc, hdisable⟩ := Machine.run_concat_iff.mp hrun
  have hover : Over n c :=
    Machine.run_invariant (fun _ _ _ hs hstep => Over.advance hs (step_advance hstep)) hc h
  simp only [step] at hdisable
  split_ifs at hdisable with hst
  by_contra hlt
  exact (hover.idle id (not_le.mp hlt)).2 hst

/-- After the timer has been stopped, what is in flight is all that can come. -/
theorem Inv.quiet_iff (h : a.Inv) (hb : b.timers = a.cancelled.timers) :
    b.Quiet a.timers.length ↔ ¬ a.InFlight := by
  have hstatus : ∀ id, b.status id = a.cancelled.status id := by
    intro id
    rw [status, hb]
    rfl
  constructor
  · rintro hquiet ⟨id, hst⟩
    have hstarted : b.status id = some .started := by
      rw [hstatus, status_cancelled_started, hst]
    have hrun : Machine.run AutoKillSwitch.step b ([] ++ [.disable id]) = some (b.disable id) := by
      rw [Machine.run_concat_iff]
      exact ⟨b, rfl, if_pos hstarted⟩
    exact absurd (status_lt hst) (not_lt.mpr (hquiet [] id _ hrun))
  · intro hnone
    apply Over.quiet
    refine ⟨by rw [hb, length_cancelled], fun id _ => ⟨?_, ?_⟩⟩
    · rw [hstatus]
      exact h.not_pending_cancelled id
    · rw [hstatus, ne_eq, status_cancelled_started]
      exact fun hst => hnone ⟨id, hst⟩

/-! ## Without acknowledgement -/

theorem status_stopped_of_passive {e : KillSwitchEvent} (he : e.Passive) (hstep : a.step e = some b)
    (hb : b.status id = some .stopped) : a.status id = some .stopped := by
  have hset : ∀ {id' st}, st ≠ .stopped → (a.setStatus id' st).status id = some .stopped →
      a.status id = some .stopped := by
    intro id' st hne hst
    rw [status_setStatus] at hst
    split_ifs at hst
    · obtain ⟨_, -, heq⟩ := Option.map_eq_some_iff.mp hst
      exact absurd heq hne
    · exact hst
  cases e with
  | arm => exact he.elim
  | reset => exact he.elim
  | acknowledge => exact he.elim
  | stop => exact he.elim
  | tick time =>
    simp only [step] at hstep
    split_ifs at hstep
    cases hstep
    exact hb
  | fire id' =>
    simp only [step] at hstep
    split_ifs at hstep
    cases hstep
    exact hset (by decide) hb
  | disable id' =>
    simp only [step] at hstep
    split_ifs at hstep
    cases hstep
    exact hset (by cases a.hasOnFire <;> decide) hb
  | notify id' =>
    simp only [step] at hstep
    split_ifs at hstep
    cases hstep
    exact hset (by decide) hb

theorem not_stopped_of_passive {events : List KillSwitchEvent} (hpassive : ∀ e ∈ events, e.Passive)
    (hrun : Machine.run AutoKillSwitch.step a events = some b) (ha : a.status id ≠ some .stopped) :
    b.status id ≠ some .stopped := by
  induction events generalizing a with
  | nil =>
    cases hrun
    exact ha
  | cons e events ih =>
    obtain ⟨c, hc, hrest⟩ := Machine.run_cons_iff.mp hrun
    apply ih (fun e' he' => hpassive e' (by simp [he'])) hrest
    exact fun hst => ha (status_stopped_of_passive (hpassive e (by simp)) hc hst)

end AutoKillSwitch

/-- No callback of an earlier `Arm` disables the switch after `Acknowledge` or after `Stop` if and
only if none is in flight when the method is called; and an `Arm` that no method follows is not
stopped and has disabled the switch when its callback has returned. -/
theorem acknowledge_respected_iff (tAck : ℤ) (hasOnFire : Bool) (clock : ℤ) (a : AutoKillSwitch)
    (h : Machine.Reachable AutoKillSwitch.step (AutoKillSwitch.new tAck hasOnFire clock) a) :
    (a.acknowledge.Quiet a.timers.length ↔ ¬ a.InFlight) ∧
    (a.stop.Quiet a.timers.length ↔ ¬ a.InFlight) ∧
    (a.stopped = false → ∀ events b, (∀ e ∈ events, KillSwitchEvent.Passive e) →
      Machine.run AutoKillSwitch.step a.arm events = some b →
      b.status a.timers.length ≠ some .stopped ∧
        (b.status a.timers.length = some .finished → b.disabled = true)) := by
  have hkeep : ∀ a e b, AutoKillSwitch.Inv a → a.step e = some b → b.Inv :=
    fun _ _ _ hinv hstep => hinv.step hstep
  have hinv := h.invariant (AutoKillSwitch.inv_new tAck hasOnFire clock) hkeep
  refine ⟨?_, ?_, fun hstopped events b hpassive hrun => ⟨?_, fun hfinished => ?_⟩⟩
  · apply hinv.quiet_iff
    rw [AutoKillSwitch.acknowledge_eq]
  · apply hinv.quiet_iff
    rw [AutoKillSwitch.stop_eq]
  · apply AutoKillSwitch.not_stopped_of_passive hpassive hrun
    rw [AutoKillSwitch.arm_eq hstopped, AutoKillSwitch.status_append (a := a.cancelled) _ rfl,
      if_pos (AutoKillSwitch.length_cancelled a).symm]
    simp
  · have hb := Machine.run_invariant hkeep hrun (hinv.step (e := .arm) rfl)
    exact hb.ran _ (.inr hfinished)

/-- A switch acknowledged in time. -/
theorem acknowledge_respected_inTime :
    ∃ a, Machine.run AutoKillSwitch.step (AutoKillSwitch.new 60 true 0) [.arm, .tick 59] = some a ∧
      a.acknowledge.Quiet 1 := by
  have hrun : ∃ a, Machine.run AutoKillSwitch.step (AutoKillSwitch.new 60 true 0)
      [.arm, .tick 59] = some a ∧ a.timers = [{ deadline := 60 }] := ⟨_, rfl, rfl⟩
  obtain ⟨a, ha, htimers⟩ := hrun
  have hnone : ¬ a.InFlight := by
    rintro ⟨id, hst⟩
    rw [AutoKillSwitch.status, htimers] at hst
    cases id with
    | zero => cases hst
    | succ id => cases hst
  have hquiet := (acknowledge_respected_iff 60 true 0 a ⟨_, ha⟩).1.mpr hnone
  rw [htimers] at hquiet
  exact ⟨a, ha, hquiet⟩

/-- The callback is started, the alert is acknowledged and the whole switch stopped, and then the
callback disables the kill switch. -/
theorem acknowledged_and_disabled :
    ∃ a ∈ Machine.run AutoKillSwitch.step (AutoKillSwitch.new 60 true 0)
        [.arm, .tick 60, .fire 0, .acknowledge, .stop],
      a.disabled = false ∧
      ∃ b ∈ Machine.run AutoKillSwitch.step a [.disable 0], b.disabled = true := by
  decide

end ChessRecast.Signaling
