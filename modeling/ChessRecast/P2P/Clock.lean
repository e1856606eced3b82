import Mathlib.Tactic

/-!
# The chess clock (`chess_clock.dart`, `time_control.dart`)

`ChessClock` charges the time of a turn when the turn is stopped, and for sudden death already
when it is paused. Every operation takes the reading of the monotonic clock as an argument; times
are integers.

`Account` says what the clock is for: it keeps the time that each turn has run outside pauses. The
clock agrees with the account as long as turns begin and end outside pauses and are interrupted in
sudden death only (`clock_conserves`).
-/

namespace ChessRecast.P2P

inductive TcKind where
  | none
  | suddenDeath
  | fischer
  | bronstein
  | byoYomi
deriving DecidableEq, Repr

/-- The fields of `TimeControl` that the clock reads. -/
structure TimeControl where
  kind : TcKind
  bankMs : ℤ
  incrementMs : Option ℤ := none
  delayMs : Option ℤ := none
deriving DecidableEq, Repr

inductive ResumeResult where
  | ok
  | pauseBudgetExceeded
deriving DecidableEq, Repr

/-- The private fields of `ChessClock`. -/
structure ChessClock where
  remainingBank : ℤ
  turnStartMonoMs : ℤ := 0
  inTurn : Bool := false
  myElapsed : ℤ := 0
  paused : Bool := false
  pauseStartMonoMs : ℤ := 0
  totalPauseMs : ℤ := 0
  wasInTurnAtPause : Bool := false
  bronsteindelayUsedMs : ℤ := 0
deriving DecidableEq, Repr

/-- `x.clamp(lower, upper)` for `lower ≤ upper`. -/
def clamp (x lower upper : ℤ) : ℤ := if x < lower then lower else if upper < x then upper else x

namespace ChessClock

def maxPauseBudgetMs : ℤ := 5 * 60 * 1000

/-- The constructor, on a platform with a monotonic clock. -/
def create (tc : TimeControl) : ChessClock := { remainingBank := tc.bankMs }

def startMyTurn (c : ChessClock) (now : ℤ) : ChessClock :=
  if c.paused then c
  else { c with turnStartMonoMs := now, bronsteindelayUsedMs := 0, inTurn := true }

def stopMyTurn (tc : TimeControl) (c : ChessClock) (now : ℤ) : ChessClock :=
  if !c.inTurn then c
  else
    let elapsed := now - c.turnStartMonoMs
    let c := { c with inTurn := false, myElapsed := c.myElapsed + clamp elapsed 0 (2 ^ 53) }
    match tc.kind with
    | .none => c
    | .suddenDeath => { c with remainingBank := c.remainingBank - elapsed }
    | .fischer => { c with remainingBank := c.remainingBank - elapsed + tc.incrementMs.getD 0 }
    | .bronstein =>
      let charged := clamp (elapsed - tc.delayMs.getD 0) 0 elapsed
      { c with remainingBank := c.remainingBank - charged }
    | .byoYomi => { c with remainingBank := c.remainingBank - elapsed }

def pause (tc : TimeControl) (c : ChessClock) (now : ℤ) : ChessClock :=
  if c.paused then c
  else
    let c := { c with wasInTurnAtPause := c.inTurn }
    let c :=
      if c.inTurn then
        let elapsed := now - c.turnStartMonoMs
        { c with
          myElapsed := c.myElapsed + clamp elapsed 0 (2 ^ 53)
          remainingBank := if tc.kind = .suddenDeath then c.remainingBank - elapsed
            else c.remainingBank
          inTurn := false }
      else c
    { c with pauseStartMonoMs := now, paused := true }

def resume (c : ChessClock) (now : ℤ) : ResumeResult × ChessClock :=
  if !c.paused then (.ok, c)
  else
    let c :=
      { c with totalPauseMs := c.totalPauseMs + (now - c.pauseStartMonoMs), paused := false }
    if c.totalPauseMs > maxPauseBudgetMs then (.pauseBudgetExceeded, c)
    else if c.wasInTurnAtPause then (.ok, { c with turnStartMonoMs := now, inTurn := true })
    else (.ok, c)

def isTimed (tc : TimeControl) : Bool := tc.kind ≠ .none

def remainingBankMs (tc : TimeControl) (c : ChessClock) (now : ℤ) : ℤ :=
  if !isTimed tc then 0
  else if !c.inTurn then c.remainingBank
  else
    let elapsed := now - c.turnStartMonoMs
    match tc.kind with
    | .none => 0
    | .suddenDeath => c.remainingBank - elapsed
    | .fischer => c.remainingBank - elapsed
    | .bronstein => c.remainingBank - clamp (elapsed - tc.delayMs.getD 0) 0 elapsed
    | .byoYomi => c.remainingBank - elapsed

end ChessClock

/-! ## Runs -/

/-- The four operations. -/
inductive ClockOp where
  | start
  | stop
  | pause
  | resume
deriving DecidableEq, Repr

def ChessClock.step (tc : TimeControl) (c : ChessClock) (op : ClockOp) (now : ℤ) : ChessClock :=
  match op with
  | .start => c.startMyTurn now
  | .stop => c.stopMyTurn tc now
  | .pause => c.pause tc now
  | .resume => (c.resume now).2

/-- A series of operations with their times. -/
def ChessClock.run (tc : TimeControl) (c : ChessClock) (events : List (ClockOp × ℤ)) :
    ChessClock := events.foldl (fun c e => c.step tc e.1 e.2) c

/-- The time that turns have run outside pauses: of each completed turn, and up to `now` of the
turn in progress. -/
structure Account where
  completed : List ℤ := []
  turn : Option ℤ := none
  paused : Bool := false
  now : ℤ
deriving DecidableEq, Repr

namespace Account

/-- Time passes for a turn that is not paused. -/
def advance (a : Account) (now : ℤ) : Account :=
  { a with
    turn := if a.paused then a.turn else a.turn.map fun ran => ran + (now - a.now)
    now := now }

/-- One operation in the account. A turn that begins during a pause runs from the resume on. -/
def step (a : Account) (op : ClockOp) (now : ℤ) : Account :=
  let a := a.advance now
  match op with
  | .start => { a with turn := some (a.turn.getD 0) }
  | .stop => { a with completed := a.completed ++ a.turn.toList, turn := none }
  | .pause => { a with paused := true }
  | .resume => { a with paused := false }

theorem step_now (a : Account) (op : ClockOp) (now : ℤ) : (a.step op now).now = now := by
  cases op <;> rfl

/-- A series of operations with their times. -/
def run (a : Account) (events : List (ClockOp × ℤ)) : Account :=
  events.foldl (fun a e => a.step e.1 e.2) a

/-- What a turn costs: its time, in Bronstein less the delay. -/
def charge (tc : TimeControl) (ran : ℤ) : ℤ :=
  if tc.kind = .bronstein then max 0 (ran - max 0 (tc.delayMs.getD 0)) else ran

/-- What a completed turn earns: in Fischer the increment. -/
def bonus (tc : TimeControl) : ℤ := if tc.kind = .fischer then tc.incrementMs.getD 0 else 0

/-- The bank that the completed turns leave. -/
def bank (tc : TimeControl) (a : Account) : ℤ :=
  tc.bankMs - (a.completed.map (charge tc)).sum + a.completed.length * bonus tc

/-- The bank if the turn in progress were charged up to `now`. -/
def live (tc : TimeControl) (a : Account) (now : ℤ) : ℤ :=
  a.bank tc - ((a.advance now).turn.map (charge tc)).getD 0

end Account

/-! ## The clock against the account -/

/-- What the step must not be: a turn begun during a pause or while another one runs, a turn ended
while it is interrupted, an interruption outside sudden death, a resume beyond the budget. -/
def ChessClock.Fair (tc : TimeControl) (c : ChessClock) (op : ClockOp) (now : ℤ) : Prop :=
  match op with
  | .start => c.paused = false ∧ c.inTurn = false
  | .stop => c.paused = true → c.wasInTurnAtPause = false
  | .pause => c.paused = false → c.inTurn = true →
      tc.kind = .suddenDeath ∨ now = c.turnStartMonoMs
  | .resume => c.paused = true →
      c.totalPauseMs + (now - c.pauseStartMonoMs) ≤ ChessClock.maxPauseBudgetMs

instance (tc : TimeControl) (c : ChessClock) (op : ClockOp) (now : ℤ) :
    Decidable (c.Fair tc op now) := by
  cases op <;> unfold ChessClock.Fair <;> infer_instance

/-- Times do not decrease, and every step is fair. -/
def ChessClock.FairRun (tc : TimeControl) : ChessClock → ℤ → List (ClockOp × ℤ) → Prop
  | _, _, [] => True
  | c, last, e :: events =>
    last ≤ e.2 ∧ c.Fair tc e.1 e.2 ∧ FairRun tc (c.step tc e.1 e.2) e.2 events

section Agreement

variable {tc : TimeControl} {c : ChessClock} {a : Account} {op : ClockOp} {now : ℤ}

/-- The clock stands as the account says. Of the turn in progress `base` has been charged already,
by an earlier pause. -/
inductive Agrees (tc : TimeControl) (c : ChessClock) (a : Account) : Prop
  | idle (hpaused : c.paused = a.paused) (hturn : c.inTurn = false)
      (hwas : c.paused = true → c.wasInTurnAtPause = false) (hnone : a.turn = none)
      (hbank : c.remainingBank = a.bank tc)
  | running (base : ℤ) (hpaused : c.paused = false) (hpaused' : a.paused = false)
      (hturn : c.inTurn = true) (hstart : c.turnStartMonoMs ≤ a.now)
      (hsome : a.turn = some (base + (a.now - c.turnStartMonoMs)))
      (hbank : c.remainingBank = a.bank tc - base) (hbase : tc.kind = .suddenDeath ∨ base = 0)
  | interrupted (base : ℤ) (hpaused : c.paused = true) (hpaused' : a.paused = true)
      (hturn : c.inTurn = false) (hwas : c.wasInTurnAtPause = true) (hsome : a.turn = some base)
      (hbank : c.remainingBank = a.bank tc - base) (hbase : tc.kind = .suddenDeath ∨ base = 0)

theorem clamp_eq (delay : ℤ) {elapsed : ℤ} (h : 0 ≤ elapsed) :
    clamp (elapsed - delay) 0 elapsed = max 0 (elapsed - max 0 delay) := by
  unfold clamp
  split_ifs <;> omega

/-- Part of a turn may be charged in advance where the delay does not come off. -/
theorem charge_add {base : ℤ} (hbase : tc.kind = .suddenDeath ∨ base = 0) (ran : ℤ) :
    Account.charge tc (base + ran) = base + Account.charge tc ran := by
  rcases hbase with hkind | rfl
  · simp [Account.charge, hkind]
  · simp

theorem stopMyTurn_remainingBank (hkind : tc.kind ≠ .none) (hturn : c.inTurn = true)
    (hstart : c.turnStartMonoMs ≤ now) : (c.stopMyTurn tc now).remainingBank =
      c.remainingBank - Account.charge tc (now - c.turnStartMonoMs) + Account.bonus tc := by
  have hclamp := clamp_eq (tc.delayMs.getD 0) (sub_nonneg.mpr hstart)
  simp only [ChessClock.stopMyTurn, hturn, Account.charge, Account.bonus]
  cases h : tc.kind with
  | none => exact absurd h hkind
  | suddenDeath => simp
  | fischer => simp
  | bronstein => simp [hclamp]
  | byoYomi => simp

theorem remainingBankMs_of_inTurn (hkind : tc.kind ≠ .none) (hturn : c.inTurn = true)
    (hstart : c.turnStartMonoMs ≤ now) : c.remainingBankMs tc now =
      c.remainingBank - Account.charge tc (now - c.turnStartMonoMs) := by
  have hclamp := clamp_eq (tc.delayMs.getD 0) (sub_nonneg.mpr hstart)
  simp only [ChessClock.remainingBankMs, ChessClock.isTimed, hturn, Account.charge]
  cases h : tc.kind with
  | none => exact absurd h hkind
  | suddenDeath => simp
  | fischer => simp
  | bronstein => simp [hclamp]
  | byoYomi => simp

theorem remainingBankMs_of_not_inTurn (hkind : tc.kind ≠ .none) (hturn : c.inTurn = false) :
    c.remainingBankMs tc now = c.remainingBank := by
  simp [ChessClock.remainingBankMs, ChessClock.isTimed, hkind, hturn]

/-- Where they agree, the clock shows at any later time what the account says. -/
theorem Agrees.live (h : Agrees tc c a) (hkind : tc.kind ≠ .none) (hnow : a.now ≤ now) :
    c.remainingBankMs tc now = a.live tc now := by
  cases h with
  | idle hpaused hturn hwas hnone hbank =>
    rw [remainingBankMs_of_not_inTurn hkind hturn, hbank]
    simp [Account.live, Account.advance, hnone]
  | running base hpaused hpaused' hturn hstart hsome hbank hbase =>
    rw [remainingBankMs_of_inTurn hkind hturn (by omega), hbank]
    have hran : base + (a.now - c.turnStartMonoMs) + (now - a.now) =
      base + (now - c.turnStartMonoMs) := by ring
    simp only [Account.live, Account.advance, hpaused', hsome, Bool.false_eq_true, if_false,
      Option.map_some, Option.getD_some, hran, charge_add hbase]
    ring
  | interrupted base hpaused hpaused' hturn hwas hsome hbank hbase =>
    rw [remainingBankMs_of_not_inTurn hkind hturn, hbank]
    -- a part charged in advance costs what it ran
    have hcharge : Account.charge tc base = base := by
      rcases hbase with hsudden | rfl
      · simp [Account.charge, hsudden]
      · simp [Account.charge]
    simp [Account.live, Account.advance, hpaused', hsome, hcharge]

theorem Agrees.advance (h : Agrees tc c a) (hnow : a.now ≤ now) : Agrees tc c (a.advance now) := by
  cases h with
  | idle hpaused hturn hwas hnone hbank =>
    exact .idle hpaused hturn hwas (by simp [Account.advance, hnone]) hbank
  | running base hpaused hpaused' hturn hstart hsome hbank hbase =>
    refine .running base hpaused hpaused' hturn (hstart.trans hnow) ?_ hbank hbase
    simp only [Account.advance, hpaused', hsome, Bool.false_eq_true, if_false, Option.map_some,
      Option.some.injEq]
    ring
  | interrupted base hpaused hpaused' hturn hwas hsome hbank hbase =>
    exact .interrupted base hpaused hpaused' hturn hwas
      (by simp [Account.advance, hpaused', hsome]) hbank hbase

theorem bank_congr {a a' : Account} (h : a.completed = a'.completed) : a.bank tc = a'.bank tc := by
  rw [Account.bank, Account.bank, h]

theorem bank_concat {a a' : Account} {ran : ℤ} (h : a'.completed = a.completed ++ [ran]) :
    a'.bank tc = a.bank tc - Account.charge tc ran + Account.bonus tc := by
  rw [Account.bank, Account.bank, h, List.map_append, List.sum_append, List.length_append]
  simp
  ring

theorem Agrees.start (h : Agrees tc c a) (hfair : c.Fair tc .start a.now) :
    Agrees tc (c.startMyTurn a.now) { a with turn := some (a.turn.getD 0) } := by
  obtain ⟨hpaused, hturn⟩ := hfair
  have hstart : c.startMyTurn a.now =
      { c with turnStartMonoMs := a.now, bronsteindelayUsedMs := 0, inTurn := true } := by
    simp [ChessClock.startMyTurn, hpaused]
  cases h with
  | idle hpaused' hturn' hwas hnone hbank =>
    rw [hstart]
    refine .running 0 hpaused (hpaused'.symm.trans hpaused) rfl le_rfl ?_ ?_ (.inr rfl)
    · simp [hnone]
    · rw [sub_zero]
      exact hbank
  | running base hpaused hpaused' hturn' => rw [hturn] at hturn'; cases hturn'
  | interrupted base hpaused' => rw [hpaused] at hpaused'; cases hpaused'

theorem Agrees.stop (h : Agrees tc c a) (hkind : tc.kind ≠ .none)
    (hfair : c.Fair tc .stop a.now) : Agrees tc (c.stopMyTurn tc a.now)
      { a with completed := a.completed ++ a.turn.toList, turn := none } := by
  cases h with
  | idle hpaused hturn hwas hnone hbank =>
    have hstop : c.stopMyTurn tc a.now = c := by simp [ChessClock.stopMyTurn, hturn]
    rw [hstop]
    refine .idle hpaused hturn hwas rfl (hbank.trans (bank_congr ?_))
    simp [hnone]
  | running base hpaused hpaused' hturn hstart hsome hbank hbase =>
    have hfields : (c.stopMyTurn tc a.now).paused = c.paused ∧
        (c.stopMyTurn tc a.now).inTurn = false := by
      simp only [ChessClock.stopMyTurn, hturn]
      cases tc.kind <;> exact ⟨rfl, rfl⟩
    refine .idle (hfields.1.trans (hpaused.trans hpaused'.symm)) hfields.2
      (fun hp => ?_) rfl ?_
    · rw [hfields.1, hpaused] at hp
      cases hp
    · have hdone : Account.bank tc
          { a with completed := a.completed ++ a.turn.toList, turn := none } =
          a.bank tc - Account.charge tc (base + (a.now - c.turnStartMonoMs)) + Account.bonus tc :=
        bank_concat (by rw [hsome]; rfl)
      rw [stopMyTurn_remainingBank hkind hturn hstart, hbank, hdone, charge_add hbase]
      ring
  | interrupted base hpaused hpaused' hturn hwas =>
    rw [hfair hpaused] at hwas
    cases hwas

theorem Agrees.pause (h : Agrees tc c a) (hfair : c.Fair tc .pause a.now) :
    Agrees tc (c.pause tc a.now) { a with paused := true } := by
  cases h with
  | idle hpaused hturn hwas hnone hbank =>
    by_cases hp : c.paused = true
    · have hpause : c.pause tc a.now = c := by simp [ChessClock.pause, hp]
      rw [hpause]
      exact .idle hp hturn hwas hnone hbank
    · have hpause : c.pause tc a.now = { c with
          wasInTurnAtPause := false, pauseStartMonoMs := a.now, paused := true } := by
        simp [ChessClock.pause, hp, hturn]
      rw [hpause]
      exact .idle rfl hturn (fun _ => rfl) hnone hbank
  | running base hpaused hpaused' hturn hstart hsome hbank hbase =>
    -- the time up to the pause becomes part of the base in sudden death, and is none otherwise
    refine .interrupted (base + (a.now - c.turnStartMonoMs)) ?_ rfl ?_ ?_ hsome ?_ ?_
    · simp [ChessClock.pause, hpaused]
    · simp [ChessClock.pause, hpaused, hturn]
    · simp [ChessClock.pause, hpaused, hturn]
    · simp only [ChessClock.pause, hpaused, hturn, hbank]
      rcases hfair hpaused hturn with hsudden | hnow
      · simp only [hsudden, if_true, Bool.false_eq_true, if_false]
        exact (sub_sub _ _ _)
      · rw [hnow, sub_self, add_zero, sub_zero, ite_self]
        rfl
    · rcases hfair hpaused hturn with hsudden | hnow
      · exact .inl hsudden
      · rw [hnow, sub_self, add_zero]
        exact hbase
  | interrupted base hpaused hpaused' hturn hwas hsome hbank hbase =>
    have hpause : c.pause tc a.now = c := by simp [ChessClock.pause, hpaused]
    rw [hpause]
    exact .interrupted base hpaused rfl hturn hwas hsome hbank hbase

theorem Agrees.resume (h : Agrees tc c a) (hfair : c.Fair tc .resume a.now) :
    Agrees tc (c.resume a.now).2 { a with paused := false } := by
  -- within the budget a resume only restarts the interrupted turn
  have hresume : c.paused = true → (c.resume a.now).2 =
      if c.wasInTurnAtPause then { c with
        totalPauseMs := c.totalPauseMs + (a.now - c.pauseStartMonoMs), paused := false,
        turnStartMonoMs := a.now, inTurn := true }
      else { c with
        totalPauseMs := c.totalPauseMs + (a.now - c.pauseStartMonoMs), paused := false } := by
    intro hp
    have hbudget := not_lt.mpr (hfair hp)
    simp only [ChessClock.resume, hp, Bool.not_true, Bool.false_eq_true, if_false, gt_iff_lt,
      hbudget]
    split_ifs <;> rfl
  cases h with
  | idle hpaused hturn hwas hnone hbank =>
    by_cases hp : c.paused = true
    · rw [hresume hp, hwas hp]
      exact .idle rfl hturn (fun hfalse => (by cases hfalse)) hnone hbank
    · rw [Bool.not_eq_true] at hp
      have hsame : (c.resume a.now).2 = c := by simp [ChessClock.resume, hp]
      rw [hsame]
      exact .idle hp hturn hwas hnone hbank
  | running base hpaused hpaused' hturn hstart hsome hbank hbase =>
    have hsame : (c.resume a.now).2 = c := by simp [ChessClock.resume, hpaused]
    rw [hsame]
    exact .running base hpaused rfl hturn hstart hsome hbank hbase
  | interrupted base hpaused hpaused' hturn hwas hsome hbank hbase =>
    rw [hresume hpaused, hwas]
    refine .running base rfl rfl rfl le_rfl ?_ hbank hbase
    simpa using hsome

theorem Agrees.step (h : Agrees tc c a) (hkind : tc.kind ≠ .none) (hnow : a.now ≤ now)
    (hfair : c.Fair tc op now) : Agrees tc (c.step tc op now) (a.step op now) := by
  have hlater : Agrees tc c (a.advance now) := h.advance hnow
  cases op with
  | start => exact hlater.start hfair
  | stop => exact hlater.stop hkind hfair
  | pause => exact hlater.pause hfair
  | resume => exact hlater.resume hfair

theorem Agrees.run (hkind : tc.kind ≠ .none) (events : List (ClockOp × ℤ)) :
    ∀ (c : ChessClock) (a : Account), Agrees tc c a → c.FairRun tc a.now events →
      Agrees tc (c.run tc events) (a.run events) := by
  induction events with
  | nil => intro c a h _; exact h
  | cons e events ih =>
    rintro c a h ⟨hnow, hfair, hrest⟩
    refine ih _ _ (h.step hkind hnow hfair) ?_
    rw [Account.step_now]
    exact hrest

theorem live_step_of_pause_or_resume (hop : op = .pause ∨ op = .resume) :
    (a.step op now).live tc now = a.live tc now := by
  rcases hop with rfl | rfl <;> simp [Account.live, Account.step, Account.advance, Account.bank]

/-- In every fair run the bank between turns is the initial one less the time that the turns have
run outside pauses (less the delay, plus the increment), the clock shows at any time what it would
be if the turn in progress were charged up to then, and neither a pause nor a resume changes it. -/
theorem clock_conserves (hkind : tc.kind ≠ .none) {start : ℤ} {events : List (ClockOp × ℤ)}
    (hfair : (ChessClock.create tc).FairRun tc start events) :
    ((({ now := start } : Account).run events).turn = none →
      ((ChessClock.create tc).run tc events).remainingBank =
        (({ now := start } : Account).run events).bank tc) ∧
    ∀ now, (({ now := start } : Account).run events).now ≤ now →
      ((ChessClock.create tc).run tc events).remainingBankMs tc now =
        (({ now := start } : Account).run events).live tc now ∧
      ∀ op, op = .pause ∨ op = .resume →
        ((ChessClock.create tc).run tc events).Fair tc op now →
        (((ChessClock.create tc).run tc events).step tc op now).remainingBankMs tc now =
          ((ChessClock.create tc).run tc events).remainingBankMs tc now := by
  have hinit : Agrees tc (ChessClock.create tc) { now := start } :=
    .idle rfl rfl (fun h => (by cases h)) rfl (by simp [ChessClock.create, Account.bank])
  have hrun := Agrees.run hkind events _ _ hinit hfair
  refine ⟨fun hnone => ?_, fun now hnow => ⟨hrun.live hkind hnow, fun op hop hstep => ?_⟩⟩
  · cases hrun with
    | idle _ _ _ _ hbank => exact hbank
    | running base _ _ _ _ hsome => rw [hnone] at hsome; cases hsome
    | interrupted base _ _ _ _ hsome => rw [hnone] at hsome; cases hsome
  · rw [(hrun.step hkind hnow hstep).live hkind (Account.step_now _ _ _).le,
      hrun.live hkind hnow, live_step_of_pause_or_resume hop]

end Agreement

/-- A minute, with a second of increment or of delay. -/
def oneMinute (kind : TcKind) : TimeControl :=
  { kind := kind, bankMs := 60000, incrementMs := some 1000, delayMs := some 1000 }

/-- A turn of sudden death with a pause in it. -/
def pausedTurn : List (ClockOp × ℤ) :=
  [(.start, 0), (.pause, 10000), (.resume, 20000), (.stop, 25000)]

theorem clock_conserves_pausedTurn :
    ((ChessClock.create (oneMinute .suddenDeath)).run (oneMinute .suddenDeath)
      pausedTurn).remainingBank = 45000 := by
  have hfair : (ChessClock.create (oneMinute .suddenDeath)).FairRun (oneMinute .suddenDeath) 0
      pausedTurn := by
    simp only [pausedTurn, ChessClock.FairRun]
    decide
  exact ((clock_conserves (by decide) hfair).1 (by decide)).trans (by decide)

/-- What the clock shows after a run and what the account says. -/
def Shows (kind : TcKind) (events : List (ClockOp × ℤ)) (now shown owed : ℤ) : Prop :=
  ((ChessClock.create (oneMinute kind)).run (oneMinute kind) events).remainingBankMs
      (oneMinute kind) now = shown ∧
    (({ now := 0 } : Account).run events).live (oneMinute kind) now = owed

/-- A pause in a Fischer turn gives its time back, the delay of a Bronstein turn comes off once more
after a pause, a turn that starts during a pause is not charged, and a turn that ends during a pause
is charged on. -/
theorem clock_loses_time :
    Shows .fischer [(.start, 0), (.pause, 10000), (.resume, 20000), (.stop, 20000)] 20000
      61000 51000 ∧
    Shows .bronstein [(.start, 0), (.pause, 10000), (.resume, 20000), (.stop, 25000)] 25000
      56000 46000 ∧
    Shows .suddenDeath [(.pause, 0), (.start, 5000), (.resume, 10000), (.stop, 20000)] 20000
      60000 50000 ∧
    Shows .suddenDeath [(.start, 0), (.pause, 10000), (.stop, 15000), (.resume, 20000)] 30000
      40000 50000 := by
  unfold Shows
  decide

end ChessRecast.P2P
