import ChessRecast.Lib.Ascii
import ChessRecast.Lib.Machine
import ChessRecast.P2P.Aead

/-!
# Remote configuration (`remote_config.dart`)

A signed blob turns P2P on or off. The replay guard of `acceptBlob` compares a blob with the one in
the cache, and `clearCache` takes that one away: the next signed blob then takes effect whatever its
age. So a run has no rollback exactly if every signed blob that comes while the cache is empty is
newer than all signed blobs before it (`noRollback_iff`).
-/

namespace ChessRecast.P2P

structure RemoteConfigBlob where
  kEnableP2P : Bool
  generatedAtMs : ℤ
deriving DecidableEq, Repr

namespace RemoteConfigBlob

/-- `_canonicalBytes`: the JSON text of the two fields. -/
def canonicalBytes (b : RemoteConfigBlob) : List UInt8 :=
  Ascii.ofChars "\x7b\"kEnableP2P\":".toList ++
    Ascii.ofChars (if b.kEnableP2P then "true".toList else "false".toList) ++
    Ascii.ofChars ",\"generatedAtMs\":".toList ++ Ascii.intText b.generatedAtMs ++
    Ascii.ofChars "\x7d".toList

def sign (hmac : Hmac) (b : RemoteConfigBlob) (keyBytes : List UInt8) : List UInt8 :=
  hmac.convert keyBytes b.canonicalBytes

/-- `verify`; the differences of the bytes are collected as for the tag of a frame. -/
def verify (hmac : Hmac) (b : RemoteConfigBlob) (sig keyBytes : List UInt8) : Bool :=
  let expected := b.sign hmac keyBytes
  if expected.length ≠ sig.length then false else AeadCipher.tagDiff expected sig = 0

end RemoteConfigBlob

structure RemoteConfigSignatureError where
  message : String
deriving DecidableEq, Repr

structure RemoteConfigService where
  trustedKeyBytes : List UInt8
  previousKeyBytes : Option (List UInt8)
  cached : Option RemoteConfigBlob := none

namespace RemoteConfigService

def kDefaultEnableP2P : Bool := false

def isP2PEnabled (s : RemoteConfigService) : Bool :=
  (s.cached.map RemoteConfigBlob.kEnableP2P).getD kDefaultEnableP2P

def acceptBlob (hmac : Hmac) (s : RemoteConfigService) (blob : RemoteConfigBlob)
    (sig : List UInt8) : Except RemoteConfigSignatureError RemoteConfigService :=
  let validCurrent := blob.verify hmac sig s.trustedKeyBytes
  let validPrevious := s.previousKeyBytes.any (blob.verify hmac sig)
  if ¬ validCurrent ∧ ¬ validPrevious then .error ⟨"HMAC signature mismatch"⟩
  else if s.cached.any fun cached => blob.generatedAtMs ≤ cached.generatedAtMs then .ok s
  else .ok { s with cached := some blob }

def clearCache (s : RemoteConfigService) : RemoteConfigService := { s with cached := none }

end RemoteConfigService

/-! ## Runs -/

inductive ConfigCall where
  | acceptBlob (blob : RemoteConfigBlob) (sig : List UInt8)
  | clearCache
deriving DecidableEq, Repr

section

variable (hmac : Hmac)

namespace RemoteConfigService

/-- The service after a call; an exception leaves it as it was. -/
def next (s : RemoteConfigService) : ConfigCall → RemoteConfigService
  | .acceptBlob blob sig => (s.acceptBlob hmac blob sig).toOption.getD s
  | .clearCache => s.clearCache

/-- The signature is valid under one of the two keys. -/
def signed (s : RemoteConfigService) (blob : RemoteConfigBlob) (sig : List UInt8) : Bool :=
  blob.verify hmac sig s.trustedKeyBytes || s.previousKeyBytes.any (blob.verify hmac sig)

/-- The blob that takes effect with the call: the cache then has another one than before. -/
def tookEffect (s : RemoteConfigService) (call : ConfigCall) : Option RemoteConfigBlob :=
  if (s.next hmac call).cached = s.cached then none else (s.next hmac call).cached

end RemoteConfigService

/-- The blob that the call offers under a valid signature. -/
def ConfigCall.offered (s : RemoteConfigService) : ConfigCall → Option RemoteConfigBlob
  | .acceptBlob blob sig => if s.signed hmac blob sig then some blob else none
  | .clearCache => none

/-- A service, with the signed blobs it was offered and those that took effect so far. -/
structure ConfigRun where
  service : RemoteConfigService
  offered : List RemoteConfigBlob := []
  effective : List RemoteConfigBlob := []

namespace ConfigRun

def next (r : ConfigRun) (call : ConfigCall) : ConfigRun where
  service := r.service.next hmac call
  offered := (call.offered hmac r.service).toList ++ r.offered
  effective := (r.service.tookEffect hmac call).toList ++ r.effective

/-- What takes effect is newer than all that took effect before. -/
def NoRollback (r : ConfigRun) (call : ConfigCall) : Prop :=
  ∀ blob, r.service.tookEffect hmac call = some blob →
    ∀ earlier ∈ r.effective, earlier.generatedAtMs < blob.generatedAtMs

/-- A signed blob that finds the cache empty is newer than all signed blobs before it. -/
def FreshWhenEmpty (r : ConfigRun) (call : ConfigCall) : Prop :=
  ∀ blob, call.offered hmac r.service = some blob → r.service.cached = none →
    ∀ earlier ∈ r.offered, earlier.generatedAtMs < blob.generatedAtMs

/-- The cached blob took effect and is the newest one offered; nothing offered is newer than all
that took effect. -/
structure Inv (r : ConfigRun) : Prop where
  cached_newest : ∀ blob, r.service.cached = some blob →
    ∀ earlier ∈ r.offered, earlier.generatedAtMs ≤ blob.generatedAtMs
  cached_effective : ∀ blob, r.service.cached = some blob → blob ∈ r.effective
  effective_offered : ∀ blob ∈ r.effective, blob ∈ r.offered
  offered_le : ∀ blob ∈ r.offered, ∃ e ∈ r.effective, blob.generatedAtMs ≤ e.generatedAtMs

end ConfigRun

end

/-! ## What a call does -/

section

variable {hmac : Hmac} {s : RemoteConfigService} {blob : RemoteConfigBlob} {sig : List UInt8}
  {call : ConfigCall} {r : ConfigRun}

namespace RemoteConfigService

/-- The replay guard lets the blob pass. -/
def Newer (s : RemoteConfigService) (blob : RemoteConfigBlob) : Prop :=
  ∀ cached, s.cached = some cached → cached.generatedAtMs < blob.generatedAtMs

theorem newer_iff : s.Newer blob ↔
    ¬ (s.cached.any fun cached => blob.generatedAtMs ≤ cached.generatedAtMs) = true := by
  simp [Newer, Option.any_eq_true]

theorem acceptBlob_of_signed (h : s.signed hmac blob sig = true) :
    s.acceptBlob hmac blob sig =
      if s.cached.any fun cached => blob.generatedAtMs ≤ cached.generatedAtMs then .ok s
      else .ok { s with cached := some blob } := by
  rw [signed, Bool.or_eq_true] at h
  rw [acceptBlob, if_neg (by rwa [← not_or, not_not])]

theorem cached_next_of_newer (h : s.signed hmac blob sig = true) (hnewer : s.Newer blob) :
    (s.next hmac (.acceptBlob blob sig)).cached = some blob := by
  rw [next, acceptBlob_of_signed h, if_neg (newer_iff.mp hnewer)]
  rfl

theorem cached_next_of_not (h : ¬ (s.signed hmac blob sig = true ∧ s.Newer blob)) :
    (s.next hmac (.acceptBlob blob sig)).cached = s.cached := by
  by_cases hsigned : s.signed hmac blob sig = true
  · have hold : ¬ s.Newer blob := fun hnewer => h ⟨hsigned, hnewer⟩
    rw [newer_iff, not_not] at hold
    rw [next, acceptBlob_of_signed hsigned, if_pos hold]
    rfl
  · rw [signed, Bool.or_eq_true, not_or] at hsigned
    rw [next, acceptBlob, if_pos hsigned]
    rfl

/-- A signed blob takes effect unless the cached one is as new. -/
theorem tookEffect_eq_some_iff :
    s.tookEffect hmac call = some blob ↔ call.offered hmac s = some blob ∧ s.Newer blob := by
  unfold tookEffect
  cases call with
  | clearCache =>
    have hnone : (s.next hmac .clearCache).cached = none := rfl
    rw [hnone, ite_self]
    simp [ConfigCall.offered]
  | acceptBlob blob' sig =>
    by_cases h : s.signed hmac blob' sig = true ∧ s.Newer blob'
    · have hne : some blob' ≠ s.cached := fun heq => lt_irrefl _ (h.2 blob' heq.symm)
      rw [cached_next_of_newer h.1 h.2, if_neg hne, ConfigCall.offered, if_pos h.1]
      exact ⟨fun heq => ⟨heq, Option.some_injective _ heq ▸ h.2⟩, And.left⟩
    · rw [if_pos (cached_next_of_not h)]
      refine iff_of_false (Option.some_ne_none _).symm fun ⟨hoffered, hnewer⟩ => h ?_
      rw [ConfigCall.offered] at hoffered
      by_cases hsigned : s.signed hmac blob' sig = true
      · rw [if_pos hsigned] at hoffered
        exact ⟨hsigned, Option.some_injective _ hoffered ▸ hnewer⟩
      · rw [if_neg hsigned] at hoffered
        cases hoffered

end RemoteConfigService

open RemoteConfigService

theorem next_cached_eq_some (h : (s.next hmac call).cached = some blob) :
    s.tookEffect hmac call = some blob ∨ s.tookEffect hmac call = none ∧ s.cached = some blob := by
  unfold RemoteConfigService.tookEffect
  by_cases heq : (s.next hmac call).cached = s.cached
  · exact Or.inr ⟨if_pos heq, heq ▸ h⟩
  · exact Or.inl ((if_neg heq).trans h)

/-! ## The rule -/

namespace ConfigRun

theorem noRollback_iff_fresh (hr : r.Inv) :
    r.NoRollback hmac call ↔ r.FreshWhenEmpty hmac call := by
  constructor
  · intro h blob hoffered hnone earlier hearlier
    have heffect : r.service.tookEffect hmac call = some blob :=
      tookEffect_eq_some_iff.mpr ⟨hoffered, fun c hc => by rw [hnone] at hc; cases hc⟩
    obtain ⟨e, he, hle⟩ := hr.offered_le earlier hearlier
    exact hle.trans_lt (h blob heffect e he)
  · intro h blob heffect earlier hearlier
    obtain ⟨hoffered, hguard⟩ := tookEffect_eq_some_iff.mp heffect
    have hmem := hr.effective_offered earlier hearlier
    -- with a cached blob it is the guard that keeps the order
    cases hcached : r.service.cached with
    | none => exact h blob hoffered hcached earlier hmem
    | some c => exact (hr.cached_newest c hcached earlier hmem).trans_lt (hguard c hcached)

theorem Inv.next (hr : r.Inv) (h : r.NoRollback hmac call) : (r.next hmac call).Inv where
  cached_newest := by
    intro blob hblob earlier hearlier
    have hearlier' : call.offered hmac r.service = some earlier ∨ earlier ∈ r.offered := by
      simpa [ConfigRun.next] using hearlier
    rcases next_cached_eq_some hblob with heffect | ⟨hnone, hcached⟩
    · rcases hearlier' with hoffered | hmem
      · obtain ⟨hoffered', -⟩ := tookEffect_eq_some_iff.mp heffect
        rw [hoffered] at hoffered'
        exact (congrArg _ (Option.some_injective _ hoffered')).le
      · obtain ⟨e, he, hle⟩ := hr.offered_le earlier hmem
        exact hle.trans (h blob heffect e he).le
    · rcases hearlier' with hoffered | hmem
      · -- the offered blob did not pass the guard
        by_contra hlt
        refine Option.some_ne_none earlier (?_ : some earlier = none)
        rw [← hnone, eq_comm, tookEffect_eq_some_iff]
        refine ⟨hoffered, fun c hc => ?_⟩
        rw [hcached] at hc
        cases hc
        omega
      · exact hr.cached_newest blob hcached earlier hmem
  cached_effective := by
    intro blob hblob
    simp only [ConfigRun.next, List.mem_append, Option.mem_toList]
    apply (next_cached_eq_some hblob).imp id
    exact fun hkept => hr.cached_effective blob hkept.2
  effective_offered := by
    intro blob hblob
    simp only [ConfigRun.next, List.mem_append, Option.mem_toList] at hblob ⊢
    apply hblob.imp _ (hr.effective_offered blob)
    exact fun heffect => (tookEffect_eq_some_iff.mp heffect).1
  offered_le := by
    intro blob hblob
    simp only [ConfigRun.next, List.mem_append, Option.mem_toList] at hblob ⊢
    rcases hblob with hoffered | hmem
    · by_cases hnewer : r.service.Newer blob
      · exact ⟨blob, Or.inl (tookEffect_eq_some_iff.mpr ⟨hoffered, hnewer⟩), le_rfl⟩
      · -- the cached blob is as new, and it took effect
        unfold Newer at hnewer
        push Not at hnewer
        obtain ⟨cached, hcached, hle⟩ := hnewer
        exact ⟨cached, Or.inr (hr.cached_effective cached hcached), hle⟩
    · obtain ⟨e, he, hle⟩ := hr.offered_le blob hmem
      exact ⟨e, Or.inr he, hle⟩

end ConfigRun

/-- In a run of a new service no blob takes effect that is as old as an effective one before it,
exactly if every signed blob that finds the cache empty is newer than all signed blobs before it. -/
theorem noRollback_iff (hmac : Hmac) (trustedKeyBytes : List UInt8)
    (previousKeyBytes : Option (List UInt8)) (calls : List ConfigCall) :
    Machine.Along (ConfigRun.next hmac) (ConfigRun.NoRollback hmac)
        { service := { trustedKeyBytes, previousKeyBytes } } calls ↔
      Machine.Along (ConfigRun.next hmac) (ConfigRun.FreshWhenEmpty hmac)
        { service := { trustedKeyBytes, previousKeyBytes } } calls := by
  apply Machine.along_iff (I := ConfigRun.Inv)
  · exact fun r call hr => ConfigRun.noRollback_iff_fresh hr
  · exact fun r call hr h => hr.next h
  · constructor <;> simp

/-- P2P was disabled by the newer blob, the cache is cleared, and the older blob enables it. -/
theorem cleared_cache_rolls_back :
    let disable : RemoteConfigBlob := ⟨false, 2⟩
    let enable : RemoteConfigBlob := ⟨true, 1⟩
    let s : RemoteConfigService := { trustedKeyBytes := [7], previousKeyBytes := none }
    let calls := [.acceptBlob disable (disable.sign .sample [7]), .clearCache,
      .acceptBlob enable (enable.sign .sample [7])]
    ¬ Machine.Along (ConfigRun.next .sample) (ConfigRun.NoRollback .sample) { service := s } calls ∧
      ((calls.take 1).foldl (RemoteConfigService.next .sample) s).isP2PEnabled = false ∧
      (calls.foldl (RemoteConfigService.next .sample) s).isP2PEnabled = true := by
  refine ⟨fun h => ?_, by decide +kernel, by decide +kernel⟩
  exact absurd (h.2.2.1 ⟨true, 1⟩ (by decide +kernel) ⟨false, 2⟩ (by decide +kernel)) (by decide)

end

end ChessRecast.P2P
