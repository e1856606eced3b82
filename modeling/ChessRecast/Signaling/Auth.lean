import ChessRecast.Lib.Ascii
import ChessRecast.Lib.Machine
import ChessRecast.Signaling.Time

/-!
# Request signatures (`auth.go`)

`Verify` reads the clock, checks the age of the claims and the signature, and then, under a lock,
purges its table of seen signatures and looks the signature up. The purge and the new entry use the
time read before the lock, so calls that are held up in front of it run on old readings. Times are
nanoseconds. Ed25519 is any predicate on a key, a message and a signature.

An entry is kept for 180 seconds, and the claims of one signature are accepted for 121: a signature
is accepted once if and only if no call waits for the difference (`replay_protected_iff`).
-/

namespace ChessRecast.Signaling

def maxAge : ℤ := 60 * second

structure RequestClaims where
  method : List UInt8
  path : List UInt8
  ts : ℤ
  bodySHA : List UInt8
  length_bodySHA : bodySHA.length = 32

/-- `Ts.Unix()` -/
def RequestClaims.unix (c : RequestClaims) : ℤ := Signaling.unix c.ts

/-- `claimBytes`; a colon is the byte 58. -/
def claimBytes (c : RequestClaims) : List UInt8 :=
  c.method ++ [58] ++ c.path ++ [58] ++ Ascii.intText c.unix ++ [58] ++ Ascii.hexText c.bodySHA

/-- What `Verify` returns instead of `nil`. -/
inductive VerifyError where
  | window (delta : ℤ)
  | invalidSignature
  | replay
deriving DecidableEq, Repr

/-- `Verify` up to the lock. -/
def check (verify : List UInt8 → List UInt8 → List UInt8 → Bool) (now : ℤ) (pub sig : List UInt8)
    (c : RequestClaims) : Except VerifyError Unit :=
  let delta := now - c.ts
  if delta > maxAge ∨ delta < -maxAge then .error (.window delta)
  else if ¬ verify pub (claimBytes c) sig then .error .invalidSignature
  else .ok ()

/-- `Verifier`: each signature seen, in hexadecimal, with the time of the call. -/
structure Verifier where
  seen : List (List UInt8 × ℤ) := []
deriving DecidableEq, Repr

namespace Verifier

/-- The loop over the table. -/
def purge (v : Verifier) (now : ℤ) : Verifier where
  seen := v.seen.filter fun entry => ¬ now - entry.2 > maxAge * 3

/-- `Verify` under the lock. -/
def record (v : Verifier) (now : ℤ) (sig : List UInt8) : Except VerifyError Unit × Verifier :=
  let cacheKey := Ascii.hexText sig
  let v := v.purge now
  if v.seen.any fun entry => entry.1 = cacheKey then (.error .replay, v)
  else (.ok (), { seen := v.seen ++ [(cacheKey, now)] })

end Verifier

/-! ## Concurrent calls -/

/-- A call of `Verify` with the time it has read. -/
structure Call where
  now : ℤ
  pub : List UInt8
  sig : List UInt8
  claims : RequestClaims
  checked : Bool := false

/-- The verifier, the calls that have not returned, and those that have returned `nil`. -/
structure AuthService where
  clock : ℤ
  verifier : Verifier := {}
  calls : List Call := []
  accepted : List Call := []

/-- A call reads the clock, passes or fails its checks, or enters the locked section. -/
inductive AuthEvent where
  | read (time : ℤ) (pub sig : List UInt8) (claims : RequestClaims)
  | check (i : ℕ)
  | lock (time : ℤ) (i : ℕ)

namespace AuthService

def start (clock : ℤ) : AuthService where
  clock := clock

/-- The `i`-th call makes its checks, and returns if one fails. -/
def checkCall (verify : List UInt8 → List UInt8 → List UInt8 → Bool) (s : AuthService) (i : ℕ)
    (call : Call) : AuthService :=
  match check verify call.now call.pub call.sig call.claims with
  | .error _ => { s with calls := s.calls.eraseIdx i }
  | .ok () => { s with calls := s.calls.set i { call with checked := true } }

/-- The `i`-th call goes through the locked section. -/
def lockCall (s : AuthService) (time : ℤ) (i : ℕ) (call : Call) : AuthService :=
  match s.verifier.record call.now call.sig with
  | (.error _, verifier) => { s with clock := time, verifier, calls := s.calls.eraseIdx i }
  | (.ok (), verifier) =>
    { clock := time, verifier, calls := s.calls.eraseIdx i, accepted := s.accepted ++ [call] }

/-- The clock does not go back, and no call waits longer than `delay` from its reading to the
lock. -/
def step (verify : List UInt8 → List UInt8 → List UInt8 → Bool) (delay : ℕ) (s : AuthService) :
    AuthEvent → Option AuthService
  | .read time pub sig claims =>
    if s.clock ≤ time then
      some { s with clock := time, calls := s.calls ++ [{ now := time, pub, sig, claims }] }
    else none
  | .check i => s.calls[i]?.map (s.checkCall verify i)
  | .lock time i => s.calls[i]?.bind fun call =>
    if call.checked = true ∧ s.clock ≤ time ∧ time - call.now ≤ delay then
      some (s.lockCall time i call)
    else none

end AuthService

/-! ## The window -/

section

variable {verify : List UInt8 → List UInt8 → List UInt8 → Bool} {delay : ℕ}

theorem check_ok_iff {now : ℤ} {pub sig : List UInt8} {c : RequestClaims} :
    check verify now pub sig c = .ok () ↔
      c.ts - maxAge ≤ now ∧ now ≤ c.ts + maxAge ∧ verify pub (claimBytes c) sig = true := by
  unfold check
  dsimp only
  by_cases hwindow : now - c.ts > maxAge ∨ now - c.ts < -maxAge
  · rw [if_pos hwindow]
    constructor
    · intro h
      cases h
    · intro h
      omega
  · rw [if_neg hwindow]
    by_cases hsig : verify pub (claimBytes c) sig = true
    · rw [if_neg (not_not.mpr hsig)]
      exact ⟨fun _ => ⟨by omega, by omega, hsig⟩, fun _ => rfl⟩
    · rw [if_pos hsig]
      constructor
      · intro h
        cases h
      · exact fun h => absurd h.2.2 hsig

/-- Only the second of the time stamp is signed. -/
theorem claimBytes_ts {c : RequestClaims} {ts : ℤ} (h : unix ts = c.unix) :
    claimBytes { c with ts } = claimBytes c := by
  unfold claimBytes
  rw [show ({ c with ts } : RequestClaims).unix = c.unix from h]

/-- The signed bytes determine the second: a number has no colon, a digest has a fixed length. -/
theorem unix_eq_of_claimBytes {c c' : RequestClaims} (h : claimBytes c = claimBytes c') :
    c.unix = c'.unix := by
  have hdigest : (Ascii.hexText c.bodySHA).length = (Ascii.hexText c'.bodySHA).length := by
    rw [Ascii.length_hexText, Ascii.length_hexText, c.length_bodySHA, c'.length_bodySHA]
  have hfront := List.append_cancel_right (List.append_inj' h hdigest).1
  have hfield : ∀ c : RequestClaims, Ascii.lastField 58
      (c.method ++ [58] ++ c.path ++ [58] ++ Ascii.intText c.unix) = Ascii.intText c.unix := by
    intro c
    rw [List.append_assoc, List.singleton_append]
    exact Ascii.lastField_append _ _ (Ascii.notMem_intText (by decide) (by decide) _)
  have htext : Ascii.intText c.unix = Ascii.intText c'.unix := by
    rw [← hfield c, hfront, hfield c']
  exact Ascii.intText_injective htext

/-- The seconds of claims that verify with one signature are so close that an entry for one of them
outlives the other, whatever a call may wait. -/
def Outlives (verify : List UInt8 → List UInt8 → List UInt8 → Bool) (delay : ℕ) : Prop :=
  ∀ pub pub' sig c c', verify pub (claimBytes c) sig = true →
    verify pub' (claimBytes c') sig = true →
    (c'.unix - c.unix) * second + delay < 59 * second + 2

/-- The call has passed its checks. -/
def Call.Passed (verify : List UInt8 → List UInt8 → List UInt8 → Bool) (call : Call) : Prop :=
  check verify call.now call.pub call.sig call.claims = .ok ()

/-- A later call with the signature enters before the entry of the first one can be purged. -/
theorem Outlives.gap (h : Outlives verify delay) {first later : Call} (hfirst : first.Passed verify)
    (hlater : later.Passed verify) (hsig : later.sig = first.sig) :
    later.now + delay ≤ first.now + maxAge * 3 := by
  obtain ⟨hlow, -, hverify⟩ := check_ok_iff.mp hfirst
  obtain ⟨-, hhigh, hverify'⟩ := check_ok_iff.mp hlater
  rw [hsig] at hverify'
  have hclose := h _ _ _ _ _ hverify hverify'
  have hts := unix_mul_le first.claims.ts
  have hts' := lt_unix_mul later.claims.ts
  simp only [RequestClaims.unix, maxAge, second] at *
  omega

theorem mem_purge {v : Verifier} {now : ℤ} {entry : List UInt8 × ℤ} :
    entry ∈ (v.purge now).seen ↔ entry ∈ v.seen ∧ now ≤ entry.2 + maxAge * 3 := by
  simp only [Verifier.purge, List.mem_filter, decide_eq_true_eq]
  constructor
  · rintro ⟨hmem, hkeep⟩
    exact ⟨hmem, by omega⟩
  · rintro ⟨hmem, hkeep⟩
    exact ⟨hmem, by omega⟩

namespace AuthService

/-- An accepted call is in the table or too old to be in it. -/
structure Inv (verify : List UInt8 → List UInt8 → List UInt8 → Bool) (s : AuthService) : Prop where
  read : ∀ call ∈ s.calls, call.now ≤ s.clock
  checked : ∀ call ∈ s.calls, call.checked = true → call.Passed verify
  accepted : ∀ call ∈ s.accepted, call.Passed verify
  kept : ∀ call ∈ s.accepted, (Ascii.hexText call.sig, call.now) ∈ s.verifier.seen ∨
    call.now + maxAge * 3 < s.clock
  once : (s.accepted.map Call.sig).Nodup

variable {s t : AuthService} {time : ℤ} {i : ℕ} {call : Call}

theorem inv_start (clock : ℤ) : (start clock).Inv verify where
  read := by simp [start]
  checked := by simp [start]
  accepted := by simp [start]
  kept := by simp [start]
  once := List.nodup_nil

theorem Inv.checkCall (h : s.Inv verify) (hcall : call ∈ s.calls) :
    (s.checkCall verify i call).Inv verify := by
  unfold AuthService.checkCall
  cases hcheck : check verify call.now call.pub call.sig call.claims with
  | error e =>
    have hmem : ∀ call' ∈ s.calls.eraseIdx i, call' ∈ s.calls := fun _ => List.mem_of_mem_eraseIdx
    exact ⟨fun call' hc => h.read call' (hmem call' hc),
      fun call' hc => h.checked call' (hmem call' hc), h.accepted, h.kept, h.once⟩
  | ok u =>
    refine ⟨fun call' hc => ?_, fun call' hc hchecked => ?_, h.accepted, h.kept, h.once⟩
    · rcases List.mem_or_eq_of_mem_set hc with hc | rfl
      · exact h.read call' hc
      · exact h.read call hcall
    · rcases List.mem_or_eq_of_mem_set hc with hc | rfl
      · exact h.checked call' hc hchecked
      · exact hcheck

/-- What is purged at a reading is older than the clock. -/
theorem Inv.kept_purge (h : s.Inv verify) (hcall : call ∈ s.calls) (htime : s.clock ≤ time)
    {call' : Call} (hacc : call' ∈ s.accepted) :
    (Ascii.hexText call'.sig, call'.now) ∈ (s.verifier.purge call.now).seen ∨
      call'.now + maxAge * 3 < time := by
  have hread := h.read call hcall
  rcases h.kept call' hacc with hseen | hold
  · by_cases hkeep : call.now ≤ call'.now + maxAge * 3
    · exact .inl (mem_purge.mpr ⟨hseen, hkeep⟩)
    · right
      omega
  · right
    omega

theorem Inv.lockCall (h : s.Inv verify) (hout : Outlives verify delay) (hcall : call ∈ s.calls)
    (hchecked : call.checked = true) (htime : s.clock ≤ time) (hwait : time - call.now ≤ delay) :
    (s.lockCall time i call).Inv verify := by
  have hpassed := h.checked call hcall hchecked
  have hmem : ∀ call' ∈ s.calls.eraseIdx i, call' ∈ s.calls := fun _ => List.mem_of_mem_eraseIdx
  have hread : ∀ call' ∈ s.calls.eraseIdx i, call'.now ≤ time :=
    fun call' hc => (h.read call' (hmem call' hc)).trans htime
  have hstill : ∀ call' ∈ s.calls.eraseIdx i, call'.checked = true → call'.Passed verify :=
    fun call' hc => h.checked call' (hmem call' hc)
  unfold AuthService.lockCall Verifier.record
  dsimp only
  by_cases hseen : ((s.verifier.purge call.now).seen.any
      fun entry => entry.1 = Ascii.hexText call.sig) = true
  · rw [if_pos hseen]
    exact ⟨hread, hstill, h.accepted, fun call' hacc => h.kept_purge hcall htime hacc, h.once⟩
  · rw [if_neg hseen]
    -- an earlier call with this signature is still in the table
    have hfresh : call.sig ∉ s.accepted.map Call.sig := by
      intro hin
      obtain ⟨call', hacc, hsig⟩ := List.mem_map.mp hin
      have hgap := hout.gap (h.accepted call' hacc) hpassed hsig.symm
      rcases h.kept_purge hcall htime hacc with hentry | hold
      · apply hseen
        rw [List.any_eq_true]
        exact ⟨_, hentry, by simp [hsig]⟩
      · omega
    refine ⟨hread, hstill, fun call' hacc => ?_, fun call' hacc => ?_, ?_⟩
    · rcases List.mem_append.mp hacc with hacc | hacc
      · exact h.accepted call' hacc
      · rwa [List.mem_singleton.mp hacc]
    · rcases List.mem_append.mp hacc with hacc | hacc
      · exact (h.kept_purge hcall htime hacc).imp_left (List.mem_append_left _)
      · rw [List.mem_singleton.mp hacc]
        exact .inl (List.mem_append_right _ (List.mem_singleton_self _))
    · rw [List.map_append]
      apply List.Nodup.append h.once (List.nodup_singleton _)
      intro sig hsig hlast
      exact hfresh (List.mem_singleton.mp hlast ▸ hsig)

theorem Inv.step (h : s.Inv verify) (hout : Outlives verify delay) {e : AuthEvent}
    (hstep : s.step verify delay e = some t) : t.Inv verify := by
  cases e with
  | read time pub sig claims =>
    simp only [AuthService.step] at hstep
    split_ifs at hstep with htime
    cases hstep
    refine ⟨fun call hc => ?_, fun call hc hchecked => ?_, h.accepted, fun call hacc => ?_, h.once⟩
    · rcases List.mem_append.mp hc with hc | hc
      · exact (h.read call hc).trans htime
      · rw [List.mem_singleton.mp hc]
    · rcases List.mem_append.mp hc with hc | hc
      · exact h.checked call hc hchecked
      · rw [List.mem_singleton.mp hc] at hchecked
        cases hchecked
    · exact (h.kept call hacc).imp_right fun hold => lt_of_lt_of_le hold htime
  | check i =>
    obtain ⟨call, hget, rfl⟩ := Option.map_eq_some_iff.mp hstep
    exact h.checkCall (List.mem_of_getElem? hget)
  | lock time i =>
    obtain ⟨call, hget, hlock⟩ := Option.bind_eq_some_iff.mp hstep
    split_ifs at hlock with hguard
    cases hlock
    exact h.lockCall hout (List.mem_of_getElem? hget) hguard.1 hguard.2.1 hguard.2.2

/-! ## Calls that wait -/

theorem run_checked {pub sig : List UInt8} {claims : RequestClaims}
    (hpassed : check verify time pub sig claims = .ok ()) (htime : s.clock ≤ time) :
    Machine.run (step verify delay) s [.read time pub sig claims, .check s.calls.length] =
    some { s with clock := time, calls := s.calls ++ [⟨time, pub, sig, claims, true⟩] } := by
  have hread : s.step verify delay (.read time pub sig claims) =
      some { s with clock := time, calls := s.calls ++ [{ now := time, pub, sig, claims }] } :=
    if_pos htime
  rw [Machine.run_cons_iff]
  refine ⟨_, hread, ?_⟩
  rw [Machine.run_cons_iff]
  refine ⟨{ s with clock := time, calls := s.calls ++ [⟨time, pub, sig, claims, true⟩] }, ?_, rfl⟩
  simp [AuthService.step, AuthService.checkCall, hpassed]

theorem run_locked {v : Verifier} (hget : s.calls[i]? = some call) (hchecked : call.checked = true)
    (htime : s.clock ≤ time) (hwait : time - call.now ≤ delay)
    (hrecord : s.verifier.record call.now call.sig = (.ok (), v)) :
    Machine.run (step verify delay) s [.lock time i] =
    some { clock := time, verifier := v, calls := s.calls.eraseIdx i,
           accepted := s.accepted ++ [call] } := by
  rw [Machine.run_cons_iff]
  refine ⟨_, ?_, rfl⟩
  simp only [AuthService.step, hget, Option.bind_some, hchecked, htime, hwait, and_self, if_true,
    AuthService.lockCall, hrecord]

theorem run_call {pub sig : List UInt8} {claims : RequestClaims} {v : Verifier}
    (hpassed : check verify time pub sig claims = .ok ()) (htime : s.clock ≤ time)
    (hrecord : s.verifier.record time sig = (.ok (), v)) :
    Machine.run (step verify delay) s
      ([.read time pub sig claims, .check s.calls.length] ++ [.lock time s.calls.length]) =
    some { clock := time, verifier := v, calls := s.calls,
           accepted := s.accepted ++ [⟨time, pub, sig, claims, true⟩] } := by
  rw [Machine.run_append_iff]
  refine ⟨_, run_checked hpassed htime, ?_⟩
  set checked : AuthService :=
    { s with clock := time, calls := s.calls ++ [⟨time, pub, sig, claims, true⟩] } with hs
  have hget : checked.calls[s.calls.length]? = some ⟨time, pub, sig, claims, true⟩ := by simp [hs]
  have hlock : Machine.run (step verify delay) checked [.lock time s.calls.length] = _ :=
    run_locked hget rfl le_rfl (by simp) hrecord
  have hleft : checked.calls.eraseIdx s.calls.length = s.calls := by
    rw [hs, List.eraseIdx_append_of_length_le le_rfl]
    simp
  rw [hlock, hleft]

end AuthService

theorem record_empty (now : ℤ) (sig : List UInt8) :
    ({} : Verifier).record now sig = (.ok (), { seen := [(Ascii.hexText sig, now)] }) := rfl

/-- A reading late enough purges the entry, whatever the signature. -/
theorem record_late {sig sig' : List UInt8} {first now : ℤ} (h : first + maxAge * 3 < now) :
    ({ seen := [(Ascii.hexText sig, first)] } : Verifier).record now sig' =
      (.ok (), { seen := [(Ascii.hexText sig', now)] }) := by
  have hpurge : ({ seen := [(Ascii.hexText sig, first)] } : Verifier).purge now = {} := by
    simp only [Verifier.purge, List.filter_cons, List.filter_nil]
    rw [if_neg]
    simp only [decide_eq_true_eq, not_not]
    omega
  rw [Verifier.record, hpurge]
  rfl

theorem record_early {sig sig' : List UInt8} {first now : ℤ} (hne : sig ≠ sig') (h : now ≤ first) :
    ({ seen := [(Ascii.hexText sig, first)] } : Verifier).record now sig' =
      (.ok (), { seen := [(Ascii.hexText sig, first), (Ascii.hexText sig', now)] }) := by
  have hpurge : ({ seen := [(Ascii.hexText sig, first)] } : Verifier).purge now =
      { seen := [(Ascii.hexText sig, first)] } := by
    simp only [Verifier.purge, List.filter_cons, List.filter_nil]
    rw [if_pos]
    rw [decide_eq_true_eq]
    simp only [maxAge, second]
    omega
  have hkey : ¬ Ascii.hexText sig = Ascii.hexText sig' :=
    fun heq => hne (Ascii.hexText_injective heq)
  rw [Verifier.record, hpurge]
  simp [hkey]

/-- Every signature is accepted at most once. -/
def ReplayProtected (verify : List UInt8 → List UInt8 → List UInt8 → Bool) (delay : ℕ) : Prop :=
  ∀ first s, Machine.Reachable (AuthService.step verify delay) (AuthService.start first) s →
    (s.accepted.map Call.sig).Nodup

/-- The claims with a time stamp at the given distance from the start of their second. -/
theorem check_at {pub sig : List UInt8} {c : RequestClaims} (off now : ℤ)
    (hverify : verify pub (claimBytes c) sig = true) (hoff : 0 ≤ off ∧ off < second)
    (hnow : c.unix * second + off - maxAge ≤ now ∧ now ≤ c.unix * second + off + maxAge) :
    check verify now pub sig { c with ts := c.unix * second + off } = .ok () := by
  have hunix : unix (c.unix * second + off) = c.unix := unix_eq (by omega) (by omega)
  rw [check_ok_iff, claimBytes_ts hunix]
  exact ⟨hnow.1, hnow.2, hverify⟩

/-- Two calls with one signature, the first as early and the second as late as possible. -/
theorem not_protected
    (hsigns : ∀ unix, ∃ pub sig c, c.unix = unix ∧ verify pub (claimBytes c) sig = true)
    {pub pub' sig : List UInt8} {c c' : RequestClaims}
    (hverify : verify pub (claimBytes c) sig = true)
    (hverify' : verify pub' (claimBytes c') sig = true) (hle : c.unix ≤ c'.unix)
    (hlong : 59 * second + 2 ≤ (c'.unix - c.unix) * second + delay) :
    ¬ ReplayProtected verify delay := by
  intro hprotected
  set b := c.unix * second - maxAge with hb
  set a := c'.unix * second + (second - 1) + maxAge with ha
  have hab : b ≤ a := by
    simp only [maxAge, second] at *
    omega
  have hfirst := check_at 0 b hverify ⟨le_rfl, by decide⟩
    (by simp only [maxAge, second] at *; omega)
  have hsecond := check_at (second - 1) a hverify' ⟨by decide, by decide⟩
    (by simp only [maxAge, second] at *; omega)
  have hreach : Machine.Reachable (AuthService.step verify delay) (AuthService.start b) _ :=
    ⟨_, AuthService.run_call hfirst (le_refl b) (record_empty b sig)⟩
  by_cases hlate : b + maxAge * 3 < a
  · -- the second call purges the entry of the first
    have hagain := hprotected b _
      (hreach.trans (AuthService.run_call hsecond hab (record_late hlate)))
    simp [AuthService.start] at hagain
  · -- the second call waits while a third one purges the entry
    set d := b + maxAge * 3 + 1 with hd
    have had : a ≤ d := by omega
    obtain ⟨pub'', sig'', c'', hunix, hverify''⟩ := hsigns (unix d)
    have hthird := check_at 0 d hverify'' ⟨le_rfl, by decide⟩
      (by
        have hlow := unix_mul_le d
        have hhigh := lt_unix_mul d
        rw [hunix]
        simp only [maxAge, second] at *
        omega)
    have hwaits := hreach.trans (AuthService.run_checked hsecond hab)
    have hpurged := hwaits.trans (AuthService.run_call hthird had (record_late (by omega)))
    by_cases hsame : sig'' = sig
    · have htwice := hprotected b _ hpurged
      simp [AuthService.start, hsame] at htwice
    · have hdelayed := hprotected b _ (hpurged.trans (AuthService.run_locked (i := 0) rfl rfl
        le_rfl (by simp only [maxAge, second] at *; omega) (record_early hsame had)))
      simp [AuthService.start] at hdelayed

/-- Each signature is accepted at most once, in every run in which no call waits longer than `delay`
in front of the lock, if and only if the entry of a call outlives all later ones with its signature.
A key that can sign at any time is assumed. -/
theorem replay_protected_iff (verify : List UInt8 → List UInt8 → List UInt8 → Bool)
    (hsigns : ∀ unix, ∃ pub sig c, c.unix = unix ∧ verify pub (claimBytes c) sig = true)
    (delay : ℕ) : ReplayProtected verify delay ↔ Outlives verify delay := by
  constructor
  · intro hprotected pub pub' sig c c' hverify hverify'
    by_contra hlong
    by_cases hle : c.unix ≤ c'.unix
    · exact not_protected hsigns hverify hverify' hle (not_lt.mp hlong) hprotected
    · -- the wait is long enough for one and the same call
      apply not_protected hsigns hverify hverify le_rfl _ hprotected
      simp only [second] at *
      omega
  · intro hout first s hreach
    exact (hreach.invariant (AuthService.inv_start first)
      fun _ _ _ hinv hstep => hinv.step hout hstep).once

/-- With signatures that bind their message, a call must not wait 59 seconds and two nanoseconds. -/
theorem outlives_iff_of_binds
    (hsigns : ∀ unix, ∃ pub sig c, c.unix = unix ∧ verify pub (claimBytes c) sig = true)
    (hbinds : ∀ pub pub' sig m m', verify pub m sig = true → verify pub' m' sig = true → m = m') :
    Outlives verify delay ↔ (delay : ℤ) < 59 * second + 2 := by
  constructor
  · intro hout
    obtain ⟨pub, sig, c, -, hverify⟩ := hsigns 0
    have := hout pub pub sig c c hverify hverify
    rwa [sub_self, zero_mul, zero_add] at this
  · intro hshort pub pub' sig c c' hverify hverify'
    rw [unix_eq_of_claimBytes (hbinds pub pub' sig _ _ hverify hverify'), sub_self, zero_mul,
      zero_add]
    exact hshort

end

/-! ## An example -/

/-- A signature scheme for examples: the message is its own signature. -/
def plainVerify (_pub message sig : List UInt8) : Bool := sig = message

/-- Claims that are empty but for their time. -/
def plainClaims (ts : ℤ) : RequestClaims where
  method := []
  path := []
  ts := ts
  bodySHA := List.replicate 32 0
  length_bodySHA := List.length_replicate

theorem plainVerify_signs (unix : ℤ) : ∃ pub sig c, RequestClaims.unix c = unix ∧
    plainVerify pub (claimBytes c) sig = true := by
  refine ⟨[], claimBytes (plainClaims (unix * second)), plainClaims (unix * second), ?_, ?_⟩
  · exact unix_eq (le_refl (unix * second)) (lt_add_of_pos_right _ (by decide))
  · simp [plainVerify]

/-- Calls that are never held up. -/
theorem replay_protected_atOnce : ReplayProtected plainVerify 0 := by
  apply (replay_protected_iff plainVerify plainVerify_signs 0).mpr
  apply (outlives_iff_of_binds plainVerify_signs _).mpr (by decide)
  intro pub pub' sig m m' h h'
  simp only [plainVerify, decide_eq_true_eq] at h h'
  rw [← h, h']

/-- The first call reads the clock 60 seconds before its time stamp, the second, with the same
signature, 60 seconds after its own and is then held up; a third one purges the entry. -/
theorem replay_after_purge :
    (Machine.run (AuthService.step plainVerify 59000000002) (AuthService.start 0)
      [.read 40000000000 [] (claimBytes (plainClaims 100000000000)) (plainClaims 100000000000),
        .check 0, .lock 40000000000 0,
        .read 160999999999 [] (claimBytes (plainClaims 100000000000)) (plainClaims 100999999999),
        .check 0,
        .read 220000000001 [] (claimBytes (plainClaims 220000000000)) (plainClaims 220000000000),
        .check 1, .lock 220000000001 1, .lock 220000000001 0]).map
      (fun s => s.accepted.map Call.sig) =
    some [claimBytes (plainClaims 100000000000), claimBytes (plainClaims 220000000000),
      claimBytes (plainClaims 100000000000)] := by
  decide +kernel

end ChessRecast.Signaling
