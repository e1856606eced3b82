import ChessRecast.Lib.Ascii
import ChessRecast.Lib.Machine
import ChessRecast.P2P.Rekey

/-!
# Spectators of a session (`spectator_session.dart`)

A join goes through authentication, the rate limit and the capacity manager, and only a refusal by
the last one ends it there: a spectator on the waitlist gets a view key like a seated one. The
eviction check reports whom to evict and takes neither seat nor key from them. So access equals
seating exactly as long as nobody joins a full game and nobody misses their heartbeats
(`spectator_access_iff`).
-/

namespace ChessRecast.P2P

def kSpectatorCapacityFull : String := "SPECTATOR_CAPACITY_FULL"

def kSpectatorAuthRequired : String := "SPECTATOR_AUTH_REQUIRED"

def kSpectatorJoinRateLimited : String := "SPECTATOR_JOIN_RATE_LIMITED"

/-! ## Capacity -/

/-- `SpectatorCapacityManager` -/
structure SpectatorCapacity where
  effectiveCap : ℕ
  seated : List (List UInt8) := []
  waitlist : List (List UInt8) := []
deriving DecidableEq, Repr

namespace SpectatorCapacity

def defaultCap : ℤ := 50

def hardCeiling : ℤ := 200

def waitlistMaxDepth : ℕ := 50

def clamp (v : ℤ) : ℕ := (max 1 (min v hardCeiling)).toNat

def new (cap : Option ℤ) : SpectatorCapacity := { effectiveCap := clamp (cap.getD defaultCap) }

def IsFull (c : SpectatorCapacity) : Prop := c.seated.length ≥ c.effectiveCap

instance (c : SpectatorCapacity) : Decidable c.IsFull := inferInstanceAs (Decidable (_ ≥ _))

/-- `admit` -/
def admitSpectator (c : SpectatorCapacity) (spectatorPubKey : List UInt8) :
    SpectatorCapacity × Option String :=
  if ¬ c.IsFull then ({ c with seated := c.seated ++ [spectatorPubKey] }, none)
  else if c.waitlist.length < waitlistMaxDepth then
    ({ c with waitlist := c.waitlist ++ [spectatorPubKey] }, some "WAITLISTED")
  else (c, some kSpectatorCapacityFull)

end SpectatorCapacity

/-! ## Authentication and rate limit -/

/-- `SpectatorAuthRequest`; nothing reads its account. -/
structure SpectatorAuthRequest where
  devicePubKey : Option (List UInt8)
deriving DecidableEq, Repr

/-- `isAuthenticated`: the key, if there is one and it has 32 bytes. -/
def SpectatorAuthRequest.authenticated (request : SpectatorAuthRequest) : Option (List UInt8) :=
  request.devicePubKey.filter fun key => key.length = 32

/-- `SpectatorJoinRateLimit`: the joins of each account. -/
structure SpectatorJoinRateLimit where
  timestamps : String → List ℤ := fun _ => []

namespace SpectatorJoinRateLimit

/-- The joins that are not older than an hour. -/
def pruned (r : SpectatorJoinRateLimit) (accountId : String) (nowMs : ℤ) : List ℤ :=
  (r.timestamps accountId).filter fun t => ¬ nowMs - t > 3600000

def Limited (r : SpectatorJoinRateLimit) (accountId : String) (nowMs : ℤ) : Prop :=
  (r.pruned accountId nowMs).countP (fun t => nowMs - t < 60000) ≥ 6 ∨
    (r.pruned accountId nowMs).length ≥ 60

instance (r : SpectatorJoinRateLimit) (accountId : String) (nowMs : ℤ) :
    Decidable (r.Limited accountId nowMs) :=
  inferInstanceAs (Decidable (_ ∨ _))

def attempt (r : SpectatorJoinRateLimit) (accountId : String) (nowMs : ℤ) :
    SpectatorJoinRateLimit × Option String :=
  if r.Limited accountId nowMs then
    (⟨Function.update r.timestamps accountId (r.pruned accountId nowMs)⟩,
      some kSpectatorJoinRateLimited)
  else
    (⟨Function.update r.timestamps accountId (r.pruned accountId nowMs ++ [nowMs])⟩, none)

end SpectatorJoinRateLimit

/-! ## Heartbeats -/

/-- `SpectatorHeartbeatTracker` -/
structure HeartbeatTracker where
  spectatorPubKey : List UInt8
  lastHeartbeatMs : ℤ
  consecutiveMisses : ℤ := 0
deriving DecidableEq, Repr

def heartbeatIntervalMs : ℤ := 30000

def missedToEvict : ℤ := 2

namespace HeartbeatTracker

def onHeartbeat (t : HeartbeatTracker) (nowMs : ℤ) : HeartbeatTracker :=
  { t with lastHeartbeatMs := nowMs, consecutiveMisses := 0 }

/-- `tickAt`: the tracker afterwards, and whether the spectator should be evicted. -/
def tickAt (t : HeartbeatTracker) (nowMs : ℤ) : HeartbeatTracker × Bool :=
  let misses := (nowMs - t.lastHeartbeatMs) / heartbeatIntervalMs
  ({ t with consecutiveMisses := misses }, misses ≥ missedToEvict)

theorem tickAt_iff (t : HeartbeatTracker) (nowMs : ℤ) :
    (t.tickAt nowMs).2 = true ↔ nowMs - t.lastHeartbeatMs ≥ 60000 := by
  unfold tickAt heartbeatIntervalMs missedToEvict
  rw [decide_eq_true_eq]
  omega

end HeartbeatTracker

/-- The trackers in the order of the map, which keeps the place of a key that is set again. -/
def registerSpectator (trackers : List HeartbeatTracker) (spectatorPubKey : List UInt8)
    (nowMs : ℤ) : List HeartbeatTracker :=
  let tracker : HeartbeatTracker := { spectatorPubKey, lastHeartbeatMs := nowMs }
  let sameKey := fun t : HeartbeatTracker =>
    Ascii.hexText t.spectatorPubKey = Ascii.hexText spectatorPubKey
  if trackers.any fun t => sameKey t then trackers.map fun t => if sameKey t then tracker else t
  else trackers ++ [tracker]

/-! ## The session -/

/-- `HkdfSha256.derive` -/
def hkdfSha256 (hmac : Hmac) (ikm salt : List UInt8) (info : List Char) (length : ℕ) : List UInt8 :=
  (expand hmac (hmac.convert salt ikm) (Utf8.encode info) length length [] [] 1).take length

/-- `deriveKView`; the hexadecimal text of the key ends the label. -/
def deriveKView (hmac : Hmac) (sessionMaster spectatorPubKey : List UInt8)
    (salt : Option (List UInt8)) : List UInt8 :=
  let spectatorHex := (Ascii.hexText spectatorPubKey).map fun b => Char.ofNat b.toNat
  let info := "chessrecast/p2p/v1/spectator/view-only/".toList ++ spectatorHex
  hkdfSha256 hmac sessionMaster (salt.getD (List.replicate 32 0)) info 32

/-- `SpectatorSession`; the maps are keyed by the hexadecimal text of the spectator's key. -/
structure SpectatorSession where
  sessionMaster : List UInt8
  capacity : SpectatorCapacity
  rateLimit : SpectatorJoinRateLimit := {}
  trackers : List HeartbeatTracker := []
  channels : List (List UInt8) := []
  joinOrder : List (List UInt8) := []
  kViews : List UInt8 → Option (List UInt8) := fun _ => none

namespace SpectatorSession

def new (sessionMaster : List UInt8) (perGameCap : Option ℤ) : SpectatorSession :=
  { sessionMaster, capacity := .new perGameCap }

def kViewFor (s : SpectatorSession) (spectatorPubKey : List UInt8) : Option (List UInt8) :=
  s.kViews (Ascii.hexText spectatorPubKey)

/-- Steps 4 to 6 of `handleJoin`: the key, the tracker, the channel and the join order. -/
def enter (hmac : Hmac) (s : SpectatorSession) (devicePubKey : List UInt8) (nowMs : ℤ)
    (salt : Option (List UInt8)) : SpectatorSession :=
  let hex := Ascii.hexText devicePubKey
  { s with
    kViews := Function.update s.kViews hex
      (some (deriveKView hmac s.sessionMaster devicePubKey salt))
    trackers := registerSpectator s.trackers devicePubKey nowMs
    channels := s.channels ++ [devicePubKey]
    joinOrder := s.joinOrder ++ [hex] }

/-- `handleJoin`: the session afterwards, and the view key or the error. -/
def handleJoin (hmac : Hmac) (s : SpectatorSession) (authRequest : SpectatorAuthRequest)
    (accountId : String) (nowMs : ℤ) (salt : Option (List UInt8)) :
    SpectatorSession × Except String (List UInt8) :=
  match authRequest.authenticated with
  | none => (s, .error kSpectatorAuthRequired)
  | some devicePubKey =>
    let (rateLimit, rateErr) := s.rateLimit.attempt accountId nowMs
    let s := { s with rateLimit }
    match rateErr with
    | some err => (s, .error err)
    | none =>
      let (capacity, capResult) := s.capacity.admitSpectator devicePubKey
      let s := { s with capacity }
      -- a join that is waitlisted goes on like one that is seated
      if capResult = some kSpectatorCapacityFull then (s, .error kSpectatorCapacityFull)
      else (s.enter hmac devicePubKey nowMs salt,
        .ok (deriveKView hmac s.sessionMaster devicePubKey salt))

def onHeartbeat (s : SpectatorSession) (spectatorPubKey : List UInt8) (nowMs : ℤ) :
    SpectatorSession :=
  { s with
    trackers := s.trackers.map fun t =>
      if Ascii.hexText t.spectatorPubKey = Ascii.hexText spectatorPubKey then t.onHeartbeat nowMs
      else t }

/-- `checkEvictions`: the session afterwards, and the keys to evict. -/
def checkEvictions (s : SpectatorSession) (nowMs : ℤ) : SpectatorSession × List (List UInt8) :=
  ({ s with trackers := s.trackers.map fun t => (t.tickAt nowMs).1 },
    (s.trackers.filter fun t => (t.tickAt nowMs).2).map HeartbeatTracker.spectatorPubKey)

end SpectatorSession

inductive SpectatorEvent where
  | join (authRequest : SpectatorAuthRequest) (accountId : String) (nowMs : ℤ)
      (salt : Option (List UInt8))
  | heartbeat (spectatorPubKey : List UInt8) (nowMs : ℤ)
  | checkEvictions (nowMs : ℤ)
deriving DecidableEq, Repr

namespace SpectatorSession

def step (hmac : Hmac) (s : SpectatorSession) : SpectatorEvent → SpectatorSession
  | .join authRequest accountId nowMs salt =>
    (s.handleJoin hmac authRequest accountId nowMs salt).1
  | .heartbeat spectatorPubKey nowMs => s.onHeartbeat spectatorPubKey nowMs
  | .checkEvictions nowMs => (s.checkEvictions nowMs).1

variable {hmac : Hmac} {s : SpectatorSession} {authRequest : SpectatorAuthRequest}
  {accountId : String} {nowMs : ℤ} {salt : Option (List UInt8)} {key : List UInt8}

/-! ## What a join does -/

/-- The join gets as far as the capacity manager, with this key. -/
def Passes (s : SpectatorSession) (authRequest : SpectatorAuthRequest) (accountId : String)
    (nowMs : ℤ) (key : List UInt8) : Prop :=
  authRequest.authenticated = some key ∧ ¬ s.rateLimit.Limited accountId nowMs

/-- The stores that seating and access are about. -/
structure SameAccess (s s' : SpectatorSession) : Prop where
  capacity : s'.capacity = s.capacity
  kViews : s'.kViews = s.kViews
  tracked : s'.trackers.map HeartbeatTracker.spectatorPubKey =
    s.trackers.map HeartbeatTracker.spectatorPubKey

/-- A join that does not get as far changes neither seating nor access. -/
theorem handleJoin_of_not_passes (hmac : Hmac) (salt : Option (List UInt8))
    (h : ∀ key, ¬ s.Passes authRequest accountId nowMs key) :
    SameAccess s (s.handleJoin hmac authRequest accountId nowMs salt).1 ∧
      ∃ e, (s.handleJoin hmac authRequest accountId nowMs salt).2 = .error e := by
  unfold handleJoin
  cases hauth : authRequest.authenticated with
  | none => exact ⟨⟨rfl, rfl, rfl⟩, _, rfl⟩
  | some key =>
    have hlimited : s.rateLimit.Limited accountId nowMs := by
      by_contra hno
      exact h key ⟨hauth, hno⟩
    unfold SpectatorJoinRateLimit.attempt
    rw [if_pos hlimited]
    exact ⟨⟨rfl, rfl, rfl⟩, _, rfl⟩

theorem handleJoin_of_passes (hmac : Hmac) (salt : Option (List UInt8))
    (h : s.Passes authRequest accountId nowMs key) :
    ∃ s₁ : SpectatorSession, s₁.capacity = (s.capacity.admitSpectator key).1 ∧
      s₁.kViews = s.kViews ∧
      s₁.trackers = s.trackers ∧
      s.handleJoin hmac authRequest accountId nowMs salt =
        if (s.capacity.admitSpectator key).2 = some kSpectatorCapacityFull then
          (s₁, .error kSpectatorCapacityFull)
        else (s₁.enter hmac key nowMs salt, .ok (deriveKView hmac s₁.sessionMaster key salt)) := by
  obtain ⟨hauth, hrate⟩ := h
  refine ⟨{ s with
    rateLimit := (s.rateLimit.attempt accountId nowMs).1
    capacity := (s.capacity.admitSpectator key).1 }, rfl, rfl, rfl, ?_⟩
  unfold handleJoin SpectatorJoinRateLimit.attempt
  rw [hauth, if_neg hrate]

theorem mem_registerSpectator {trackers : List HeartbeatTracker} {t : HeartbeatTracker}
    (h : t ∈ registerSpectator trackers key nowMs) : t ∈ trackers ∨ t.spectatorPubKey = key := by
  unfold registerSpectator at h
  dsimp only at h
  split at h
  · obtain ⟨u, hu, rfl⟩ := List.mem_map.mp h
    split
    · exact .inr rfl
    · exact .inl hu
  · rcases List.mem_append.mp h with ht | ht
    · exact .inl ht
    · rw [List.mem_singleton.mp ht]
      exact .inr rfl

theorem kViewFor_enter (s : SpectatorSession) (key other : List UInt8) :
    (s.enter hmac key nowMs salt).kViewFor other =
      if other = key then some (deriveKView hmac s.sessionMaster key salt)
      else s.kViewFor other := by
  unfold kViewFor enter
  dsimp only
  rw [Function.update_apply]
  simp only [Ascii.hexText_injective.eq_iff]

/-! ## Access and seating -/

/-- Those with a view key are those in the seats, which are not more than the cap. -/
structure Matched (s : SpectatorSession) : Prop where
  access : ∀ key, s.kViewFor key ≠ none ↔ key ∈ s.capacity.seated
  cap : s.capacity.seated.length ≤ s.capacity.effectiveCap

/-- What an event promises: access equals seating, a join that is put on the waitlist gets no key,
and who is reported as evicted has neither seat nor key. -/
structure Lawful (hmac : Hmac) (s : SpectatorSession) (e : SpectatorEvent) : Prop where
  matched : (s.step hmac e).Matched
  waitlisted : ∀ authRequest accountId nowMs salt, e = .join authRequest accountId nowMs salt →
    (s.step hmac e).capacity.waitlist ≠ s.capacity.waitlist →
    ∀ kView, (s.handleJoin hmac authRequest accountId nowMs salt).2 ≠ .ok kView
  evicted : ∀ nowMs, e = .checkEvictions nowMs → ∀ key ∈ (s.checkEvictions nowMs).2,
    key ∉ (s.step hmac e).capacity.seated ∧ (s.step hmac e).kViewFor key = none

/-- No join gets as far as a full capacity manager, and no tracker is overdue when they are
checked. -/
def Meets (s : SpectatorSession) : SpectatorEvent → Prop
  | .join authRequest accountId nowMs _ =>
    ∀ key, s.Passes authRequest accountId nowMs key → ¬ s.capacity.IsFull
  | .heartbeat _ _ => True
  | .checkEvictions nowMs => ∀ t ∈ s.trackers, nowMs - t.lastHeartbeatMs < 60000

/-- As long as everything went well: nobody waits, and the trackers are of seated spectators. -/
structure Inv (s : SpectatorSession) : Prop extends Matched s where
  nobodyWaits : s.capacity.waitlist = []
  tracked : ∀ key ∈ s.trackers.map HeartbeatTracker.spectatorPubKey, key ∈ s.capacity.seated

theorem inv_new (sessionMaster : List UInt8) (perGameCap : Option ℤ) :
    (new sessionMaster perGameCap).Inv where
  access := fun _ => iff_of_false (fun h => h rfl) List.not_mem_nil
  cap := Nat.zero_le _
  nobodyWaits := rfl
  tracked := fun _ h => absurd h List.not_mem_nil

theorem Inv.of_sameAccess {s' : SpectatorSession} (h : s.Inv) (hs : SameAccess s s') : s'.Inv where
  access := by
    intro key
    unfold kViewFor
    rw [hs.kViews, hs.capacity]
    exact h.access key
  cap := by
    rw [hs.capacity]
    exact h.cap
  nobodyWaits := by
    rw [hs.capacity]
    exact h.nobodyWaits
  tracked := by
    rw [hs.tracked, hs.capacity]
    exact h.tracked

theorem sameAccess_onHeartbeat (s : SpectatorSession) (key : List UInt8) (nowMs : ℤ) :
    SameAccess s (s.onHeartbeat key nowMs) := by
  refine ⟨rfl, rfl, ?_⟩
  unfold onHeartbeat
  rw [List.map_map]
  refine List.map_congr_left fun t _ => ?_
  dsimp only [Function.comp]
  split <;> rfl

theorem sameAccess_checkEvictions (s : SpectatorSession) (nowMs : ℤ) :
    SameAccess s (s.checkEvictions nowMs).1 := by
  refine ⟨rfl, rfl, ?_⟩
  unfold checkEvictions
  rw [List.map_map]
  rfl

theorem Inv.join_of_seat (hmac : Hmac) (salt : Option (List UInt8)) (h : s.Inv)
    (hpass : s.Passes authRequest accountId nowMs key) (hseat : ¬ s.capacity.IsFull) :
    (s.handleJoin hmac authRequest accountId nowMs salt).1.Inv ∧
      (s.handleJoin hmac authRequest accountId nowMs salt).1.capacity.waitlist =
        s.capacity.waitlist := by
  obtain ⟨s₁, hcap, hviews, htrackers, heq⟩ := handleJoin_of_passes hmac salt hpass
  have hadmitted : s.capacity.admitSpectator key =
      ({ s.capacity with seated := s.capacity.seated ++ [key] }, none) := by
    unfold SpectatorCapacity.admitSpectator
    rw [if_pos hseat]
  rw [hadmitted] at hcap heq
  rw [heq, if_neg nofun]
  have hseated : (s₁.enter hmac key nowMs salt).capacity.seated = s.capacity.seated ++ [key] := by
    show s₁.capacity.seated = _
    rw [hcap]
  have hwait : (s₁.enter hmac key nowMs salt).capacity.waitlist = s.capacity.waitlist := by
    show s₁.capacity.waitlist = _
    rw [hcap]
  refine ⟨⟨⟨fun other => ?_, ?_⟩, hwait.trans h.nobodyWaits, fun other hmem => ?_⟩, hwait⟩
  · rw [kViewFor_enter, hseated, List.mem_append, List.mem_singleton]
    have hbefore : s₁.kViewFor other ≠ none ↔ other ∈ s.capacity.seated := by
      unfold kViewFor
      rw [hviews]
      exact h.access other
    by_cases hother : other = key
    · rw [if_pos hother]
      exact iff_of_true nofun (.inr hother)
    · rw [if_neg hother, hbefore, or_iff_left hother]
  · rw [hseated, List.length_append, List.length_singleton]
    show _ ≤ s₁.capacity.effectiveCap
    rw [hcap]
    exact Nat.lt_of_not_ge hseat
  · rw [hseated, List.mem_append, List.mem_singleton]
    obtain ⟨t, ht, rfl⟩ := List.mem_map.mp hmem
    rcases mem_registerSpectator ht with hold | hnew
    · rw [htrackers] at hold
      exact .inl (h.tracked _ (List.mem_map_of_mem hold))
    · exact .inr hnew

/-- A join to a full game is waitlisted and gets a key all the same. -/
theorem Inv.join_of_full (hmac : Hmac) (salt : Option (List UInt8)) (h : s.Inv)
    (hpass : s.Passes authRequest accountId nowMs key) (hfull : s.capacity.IsFull) :
    (s.handleJoin hmac authRequest accountId nowMs salt).1.capacity.waitlist = [key] ∧
      ∃ kView, (s.handleJoin hmac authRequest accountId nowMs salt).2 = .ok kView := by
  obtain ⟨s₁, hcap, -, -, heq⟩ := handleJoin_of_passes hmac salt hpass
  have hadmitted : s.capacity.admitSpectator key =
      ({ s.capacity with waitlist := [key] }, some "WAITLISTED") := by
    unfold SpectatorCapacity.admitSpectator
    rw [if_neg (not_not.mpr hfull), h.nobodyWaits, if_pos (by decide), List.nil_append]
  have hnot : ¬ some "WAITLISTED" = some kSpectatorCapacityFull := by decide
  rw [hadmitted] at hcap heq
  rw [heq, if_neg hnot]
  refine ⟨?_, _, rfl⟩
  show s₁.capacity.waitlist = _
  rw [hcap]

theorem lawful_iff (h : s.Inv) (e : SpectatorEvent) : Lawful hmac s e ↔ s.Meets e := by
  cases e with
  | join authRequest accountId nowMs salt =>
    constructor
    · intro hlaw key hpass hfull
      obtain ⟨hwait, kView, hok⟩ := h.join_of_full hmac salt hpass hfull
      refine hlaw.waitlisted _ _ _ _ rfl ?_ kView hok
      rw [h.nobodyWaits]
      show (s.handleJoin hmac authRequest accountId nowMs salt).1.capacity.waitlist ≠ []
      rw [hwait]
      exact List.cons_ne_nil _ _
    · intro hmeets
      by_cases hpass : ∃ key, s.Passes authRequest accountId nowMs key
      · obtain ⟨key, hpass⟩ := hpass
        obtain ⟨hinv, hwait⟩ := h.join_of_seat hmac salt hpass (hmeets key hpass)
        refine ⟨hinv.toMatched, fun _ _ _ _ heq hne => ?_, nofun⟩
        exact absurd hwait hne
      · have hsame := (handleJoin_of_not_passes hmac salt (not_exists.mp hpass)).1
        refine ⟨(h.of_sameAccess hsame).toMatched, fun _ _ _ _ _ hne => ?_, nofun⟩
        exact absurd (congrArg SpectatorCapacity.waitlist hsame.capacity) hne
  | heartbeat key nowMs =>
    have hinv := h.of_sameAccess (sameAccess_onHeartbeat s key nowMs)
    exact iff_of_true ⟨hinv.toMatched, nofun, nofun⟩ trivial
  | checkEvictions nowMs =>
    have hinv := h.of_sameAccess (sameAccess_checkEvictions s nowMs)
    have hevict : ∀ t ∈ s.trackers, nowMs - t.lastHeartbeatMs ≥ 60000 →
        t.spectatorPubKey ∈ (s.checkEvictions nowMs).2 := by
      intro t ht hlate
      exact List.mem_map_of_mem (List.mem_filter.mpr ⟨ht, (t.tickAt_iff nowMs).mpr hlate⟩)
    constructor
    · -- whoever is reported is tracked, and still has the seat
      intro hlaw t ht
      by_contra hlate
      refine (hlaw.evicted nowMs rfl _ (hevict t ht (by omega))).1 ?_
      exact h.tracked _ (List.mem_map_of_mem ht)
    · intro hmeets
      refine ⟨hinv.toMatched, nofun, fun nowMs' heq key hkey => ?_⟩
      cases heq
      obtain ⟨t, ht, -⟩ := List.mem_map.mp hkey
      obtain ⟨hmem, htick⟩ := List.mem_filter.mp ht
      have hlate := (t.tickAt_iff nowMs).mp htick
      have hearly := hmeets t hmem
      omega

theorem Inv.step (h : s.Inv) {e : SpectatorEvent} (hmeets : s.Meets e) : (s.step hmac e).Inv := by
  cases e with
  | join authRequest accountId nowMs salt =>
    by_cases hpass : ∃ key, s.Passes authRequest accountId nowMs key
    · obtain ⟨key, hpass⟩ := hpass
      exact (h.join_of_seat hmac salt hpass (hmeets key hpass)).1
    · exact h.of_sameAccess (handleJoin_of_not_passes hmac salt (not_exists.mp hpass)).1
  | heartbeat key nowMs => exact h.of_sameAccess (sameAccess_onHeartbeat s key nowMs)
  | checkEvictions nowMs => exact h.of_sameAccess (sameAccess_checkEvictions s nowMs)

/-- In every run of a new session access equals seating, waitlisted spectators get no key and
evicted ones keep neither seat nor key, exactly if no join that passes authentication and rate limit
comes when all seats are taken and no spectator is overdue at an eviction check. -/
theorem spectator_access_iff (hmac : Hmac) (sessionMaster : List UInt8) (perGameCap : Option ℤ)
    (events : List SpectatorEvent) :
    Machine.Along (step hmac) (Lawful hmac) (new sessionMaster perGameCap) events ↔
      Machine.Along (step hmac) Meets (new sessionMaster perGameCap) events := by
  apply Machine.along_iff (I := Inv)
  · exact fun s e h => lawful_iff h e
  · exact fun s e h hlaw => h.step ((lawful_iff h e).mp hlaw)
  · exact inv_new sessionMaster perGameCap

/-- With one seat, the second of two spectators waits and holds a key; a minute later both are to be
evicted, and the first keeps seat and key. -/
theorem spectator_waits_with_key :
    let key := fun b : UInt8 => List.replicate 32 b
    let s := (new [] (some 1)).step Hmac.sample (.join ⟨some (key 1)⟩ "alice" 0 none)
    let s := s.step Hmac.sample (.join ⟨some (key 2)⟩ "bob" 0 none)
    let s' := s.step Hmac.sample (.checkEvictions 60000)
    s.capacity.waitlist = [key 2] ∧ s.capacity.seated = [key 1] ∧ (s.kViewFor (key 2)).isSome ∧
      (s.checkEvictions 60000).2 = [key 1, key 2] ∧ s'.capacity.seated = [key 1] ∧
      (s'.kViewFor (key 1)).isSome := by
  decide +kernel

end SpectatorSession

end ChessRecast.P2P
