import ChessRecast.Lib.Ascii
import ChessRecast.Lib.Base64
import ChessRecast.Lib.Keyed
import ChessRecast.Lib.Machine
import ChessRecast.P2P.Aead
import ChessRecast.Signaling.Time

/-!
# Invite tokens (`invites.go` and `invite_link_generator.dart`)

A token is the base64url text of a public key, a nonce, an expiry second and a tag over the three.
It is written by the Go service and by the Dart client and redeemed by the service. `Redeem` decodes
the token and checks its tag, reads the clock, and then, under a lock, looks the nonce up among
those already redeemed; other calls may run between these parts.

That HMAC cannot be forged is a restriction on what is submitted: a tag that verifies belongs to the
payload of an issued token. Then each token is redeemed once (`invites_single_use`).
-/

namespace ChessRecast.Signaling

open P2P (Hmac)

/-- The alphabet of `base64.RawURLEncoding` and `base64Url`. -/
def urlAlphabet : Base64.Alphabet where
  letters := Ascii.ofChars
    "ABCDEFGHIJKLMNOPQRSTUVWXYZabcdefghijklmnopqrstuvwxyz0123456789-_".toList
  length_letters := by decide
  nodup := by decide +kernel
  breaks := by decide +kernel
  padding := by decide +kernel

/-- What `Redeem` returns instead of a key. -/
inductive InviteError where
  | expired
  | replayed
  | invalid
deriving DecidableEq, Repr

/-- What a token says. -/
structure Invite where
  pubkey : List UInt8
  nonce : List UInt8
  expiry : ℕ
deriving DecidableEq, Repr

/-- `computeMAC` of the service, `_computeMac` of the client. -/
def computeMAC (hmac : Hmac) (secret pubkey nonce expiryBytes : List UInt8) : List UInt8 :=
  hmac.convert secret (pubkey ++ nonce ++ expiryBytes)

/-- The 84 bytes of a token. -/
def rawToken (hmac : Hmac) (secret pubkey nonce expiryBytes : List UInt8) : List UInt8 :=
  pubkey ++ nonce ++ expiryBytes ++ computeMAC hmac secret pubkey nonce expiryBytes

/-! ## The two writers -/

/-- `Service.Generate` with the nonce it has drawn; `none` is the error for a key that has not 32
bytes. The expiry is converted to `uint32`. -/
def generate (hmac : Hmac) (secret : List UInt8) (now ttl : ℤ) (pubkey nonce : List UInt8) :
    Option (List UInt8) :=
  if pubkey.length ≠ 32 then none
  else
    let expiry := unix (now + ttl) % 2 ^ 32
    let expiryBytes := Bytes.toBE 4 expiry.toNat
    some (Base64.encodeRaw urlAlphabet (rawToken hmac secret pubkey nonce expiryBytes))

/-- `InviteLinkGenerator.generate` with the nonce it has drawn; `none` is the `ArgumentError`. The
clock is read in milliseconds, `~/` rounds towards zero and `_uint32be` keeps 32 bits. -/
def inviteLinkGenerate (hmac : Hmac) (secret : List UInt8) (now ttlSeconds : ℤ)
    (pubkey nonce : List UInt8) : Option (List UInt8) :=
  if pubkey.length ≠ 32 then none
  else
    let expiry := (now / 10 ^ 6).tdiv 1000 + ttlSeconds
    let expiryBytes := Bytes.toBE 4 (expiry % 2 ^ 32).toNat
    let raw := rawToken hmac secret pubkey nonce expiryBytes
    some ((Base64.encode urlAlphabet raw).filter fun b => b ≠ 61)

/-- Who writes a token. -/
inductive Writer where
  | service
  | client
deriving DecidableEq, Repr

def Writer.generate : Writer → Hmac → List UInt8 → ℤ → ℤ → List UInt8 → List UInt8 →
    Option (List UInt8)
  | .service => Signaling.generate
  | .client => inviteLinkGenerate

/-- The second at which a token expires; the client counts its lifetime in seconds. -/
def Writer.expiry : Writer → ℤ → ℤ → ℤ
  | .service, now, ttl => unix (now + ttl)
  | .client, now, ttlSeconds => unix now + ttlSeconds

/-! ## The reader -/

/-- `Redeem` up to the tag. -/
def parse (hmac : Hmac) (secret token : List UInt8) : Except InviteError Invite :=
  match Base64.decodeRaw urlAlphabet token with
  | none => .error .invalid
  | some raw =>
    if raw.length ≠ 84 then .error .invalid
    else
      let pubkey := raw.take 32
      let nonce := (raw.drop 32).take 16
      let expiryBytes := (raw.drop 48).take 4
      let gotMAC := raw.drop 52
      if gotMAC ≠ computeMAC hmac secret pubkey nonce expiryBytes then .error .invalid
      else .ok ⟨pubkey, nonce, Bytes.ofBE expiryBytes⟩

/-- `now().After(expiry)` -/
def Invite.expired (invite : Invite) (now : ℤ) : Prop := now > invite.expiry * second

instance (invite : Invite) (now : ℤ) : Decidable (invite.expired now) :=
  inferInstanceAs (Decidable (_ > _))

/-- `Redeem` under the lock: the nonces already redeemed, as base64 text. -/
def redeemNonce (redeemed : List (List UInt8)) (invite : Invite) :
    Except InviteError (List UInt8) × List (List UInt8) :=
  let nonceKey := Base64.encodeRaw urlAlphabet invite.nonce
  if nonceKey ∈ redeemed then (.error .replayed, redeemed)
  else (.ok invite.pubkey, nonceKey :: redeemed)

section

variable {hmac : Hmac} {secret token token' pubkey nonce : List UInt8} {invite : Invite}

/-- The payload that the tag is over. -/
def Invite.payload (invite : Invite) : List UInt8 :=
  invite.pubkey ++ invite.nonce ++ Bytes.toBE 4 invite.expiry

/-- The fields have their lengths. -/
structure Invite.Sized (invite : Invite) : Prop where
  pubkey : invite.pubkey.length = 32
  nonce : invite.nonce.length = 16
  expiry : invite.expiry < 2 ^ 32

theorem Invite.Sized.eq_of_payload {invite' : Invite} (h : invite.Sized) (h' : invite'.Sized)
    (heq : invite.payload = invite'.payload) : invite = invite' := by
  obtain ⟨hfront, hexpiry⟩ := List.append_inj' heq (by simp [Bytes.length_toBE])
  obtain ⟨hpubkey, hnonce⟩ := List.append_inj hfront (by rw [h.pubkey, h'.pubkey])
  have hnumber := congrArg Bytes.ofBE hexpiry
  rw [Bytes.ofBE_toBE (by have := h.expiry; norm_num; omega),
    Bytes.ofBE_toBE (by have := h'.expiry; norm_num; omega)] at hnumber
  cases invite
  cases invite'
  simp_all

/-- What 84 bytes say, whatever their tag. -/
def Invite.ofRaw (raw : List UInt8) : Invite :=
  ⟨raw.take 32, (raw.drop 32).take 16, Bytes.ofBE ((raw.drop 48).take 4)⟩

theorem length_expiryBytes {raw : List UInt8} (h : raw.length = 84) :
    ((raw.drop 48).take 4).length = 4 := by
  rw [List.length_take, List.length_drop]
  omega

theorem Invite.sized_ofRaw {raw : List UInt8} (h : raw.length = 84) : (ofRaw raw).Sized := by
  have hlt := Bytes.ofBE_lt ((raw.drop 48).take 4)
  rw [length_expiryBytes h] at hlt
  refine ⟨?_, ?_, hlt⟩
  · simp [ofRaw, h]
  · simp [ofRaw, h]

theorem Invite.payload_ofRaw {raw : List UInt8} (h : raw.length = 84) :
    (ofRaw raw).payload = raw.take 52 := by
  have hbytes : Bytes.toBE 4 (Bytes.ofBE ((raw.drop 48).take 4)) = (raw.drop 48).take 4 := by
    have hlt := Bytes.ofBE_lt ((raw.drop 48).take 4)
    rw [length_expiryBytes h] at hlt
    apply Bytes.ofBE_inj
    · rw [Bytes.length_toBE, length_expiryBytes h]
    · exact Bytes.ofBE_toBE hlt
  unfold payload ofRaw
  dsimp only
  rw [hbytes, ← List.take_add, ← List.take_add]

theorem Invite.Sized.length_payload (h : invite.Sized) : invite.payload.length = 52 := by
  simp [Invite.payload, h.pubkey, h.nonce, Bytes.length_toBE]

theorem parse_of_decode {raw : List UInt8} (hraw : Base64.decodeRaw urlAlphabet token = some raw)
    (hlen : raw.length = 84) : parse hmac secret token =
      if raw.drop 52 ≠ hmac.convert secret (raw.take 52) then .error .invalid
      else .ok (Invite.ofRaw raw) := by
  have hmac' : computeMAC hmac secret (raw.take 32) ((raw.drop 32).take 16) ((raw.drop 48).take 4) =
      hmac.convert secret (raw.take 52) := by
    rw [computeMAC, ← List.take_add, ← List.take_add]
  unfold parse
  rw [hraw]
  dsimp only
  rw [if_neg (not_not.mpr hlen), hmac']
  rfl

/-- A token is accepted as far as its tag exactly if it decodes to the bytes of what it says. -/
theorem parse_ok_iff : parse hmac secret token = .ok invite ↔
    Base64.decodeRaw urlAlphabet token =
      some (invite.payload ++ hmac.convert secret invite.payload) ∧ invite.Sized := by
  constructor
  · intro h
    cases hraw : Base64.decodeRaw urlAlphabet token with
    | none =>
      unfold parse at h
      rw [hraw] at h
      cases h
    | some raw =>
      by_cases hlen : raw.length = 84
      · rw [parse_of_decode hraw hlen] at h
        split_ifs at h with htag
        obtain rfl := Except.ok.inj h
        refine ⟨?_, Invite.sized_ofRaw hlen⟩
        rw [Invite.payload_ofRaw hlen, ← not_not.mp htag, List.take_append_drop]
      · unfold parse at h
        rw [hraw] at h
        dsimp only at h
        rw [if_pos hlen] at h
        cases h
  · rintro ⟨hraw, hsized⟩
    have htake := hsized.length_payload
    have hlen : (invite.payload ++ hmac.convert secret invite.payload).length = 84 := by
      rw [List.length_append, htake, hmac.length_convert]
    have hfront : (invite.payload ++ hmac.convert secret invite.payload).take 52 =
        invite.payload := List.take_left' htake
    have hsame := (Invite.sized_ofRaw hlen).eq_of_payload hsized (by
      rw [Invite.payload_ofRaw hlen, hfront])
    rw [parse_of_decode hraw hlen, hfront, List.drop_left' htake, if_neg (not_not.mpr rfl), hsame]

theorem parse_error {e : InviteError} (h : parse hmac secret token = .error e) : e = .invalid := by
  unfold parse at h
  cases hraw : Base64.decodeRaw urlAlphabet token with
  | none =>
    rw [hraw] at h
    exact (Except.error.inj h).symm
  | some raw =>
    rw [hraw] at h
    dsimp only at h
    split_ifs at h
    · exact (Except.error.inj h).symm
    · exact (Except.error.inj h).symm

/-- A token that either writer has written is accepted as far as its tag. -/
theorem Writer.parse_generate {w : Writer} {now ttl : ℤ} (hnow : 0 ≤ now)
    (hexpiry : 0 ≤ w.expiry now ttl ∧ w.expiry now ttl < 2 ^ 32) (hnonce : nonce.length = 16)
    (hgen : w.generate hmac secret now ttl pubkey nonce = some token) :
    parse hmac secret token = .ok ⟨pubkey, nonce, (w.expiry now ttl).toNat⟩ := by
  -- both write the base64 text of the same bytes
  have htext : pubkey.length = 32 ∧ token = Base64.encodeRaw urlAlphabet
      (rawToken hmac secret pubkey nonce (Bytes.toBE 4 (w.expiry now ttl).toNat)) := by
    cases w with
    | service =>
      simp only [Writer.generate, Signaling.generate] at hgen
      split_ifs at hgen with hlen
      refine ⟨not_not.mp hlen, ?_⟩
      rw [← Option.some.inj hgen, ← Int.emod_eq_of_lt hexpiry.1 hexpiry.2]
      rfl
    | client =>
      have hclock : (now / 10 ^ 6).tdiv 1000 = unix now := by
        rw [Int.tdiv_eq_ediv_of_nonneg (by omega)]
        simp only [unix, second]
        omega
      simp only [Writer.generate, inviteLinkGenerate] at hgen
      split_ifs at hgen with hlen
      refine ⟨not_not.mp hlen, ?_⟩
      rw [← Option.some.inj hgen, Base64.filter_encode, hclock]
      rw [← Int.emod_eq_of_lt hexpiry.1 hexpiry.2]
      rfl
  obtain ⟨hpubkey, rfl⟩ := htext
  rw [parse_ok_iff, Base64.decodeRaw_encodeRaw]
  refine ⟨rfl, hpubkey, hnonce, ?_⟩
  show (w.expiry now ttl).toNat < 2 ^ 32
  omega

end

/-! ## Concurrent calls -/

/-- A token as it was written. -/
structure Issued where
  token : List UInt8
  invite : Invite
deriving DecidableEq, Repr

/-- A call of `Redeem` that has passed its tag, with the time it has read. -/
structure RedeemCall where
  token : List UInt8
  invite : Invite
  reading : Option ℤ := none
deriving DecidableEq, Repr

/-- A call that has returned. -/
structure Redeemed where
  token : List UInt8
  reading : Option ℤ
  result : Except InviteError (List UInt8)

/-- The nonces redeemed, the tokens issued, the calls that have not returned, and those that have,
in the order in which they did. -/
structure InviteService where
  redeemed : List (List UInt8) := []
  issued : List Issued := []
  calls : List RedeemCall := []
  finished : List Redeemed := []

inductive InviteEvent where
  | generate (w : Writer) (now ttl : ℤ) (pubkey nonce : List UInt8)
  | submit (token : List UInt8)
  | read (i : ℕ) (now : ℤ)
  | lock (i : ℕ)

namespace InviteService

/-- A fresh nonce of 16 bytes, and times that `uint32` can hold. -/
def MayGenerate (s : InviteService) (w : Writer) (now ttl : ℤ) (nonce : List UInt8) : Prop :=
  (nonce.length = 16 ∧ ∀ τ ∈ s.issued, τ.invite.nonce ≠ nonce) ∧
    0 ≤ now ∧ 0 ≤ w.expiry now ttl ∧ w.expiry now ttl < 2 ^ 32

instance (s : InviteService) (w : Writer) (now ttl : ℤ) (nonce : List UInt8) :
    Decidable (s.MayGenerate w now ttl nonce) :=
  inferInstanceAs (Decidable ((_ ∧ _) ∧ _ ∧ _ ∧ _))

/-- A tag that verifies belongs to the payload of an issued token. -/
def Unforged (hmac : Hmac) (secret : List UInt8) (s : InviteService) (token : List UInt8) : Prop :=
  ∀ raw ∈ Base64.decodeRaw urlAlphabet token, raw.length = 84 →
    raw.drop 52 = hmac.convert secret (raw.take 52) → ∃ τ ∈ s.issued, τ.invite.payload = raw.take 52

instance (hmac : Hmac) (secret : List UInt8) (s : InviteService) (token : List UInt8) :
    Decidable (s.Unforged hmac secret token) :=
  inferInstanceAs (Decidable (∀ raw ∈ Base64.decodeRaw urlAlphabet token, _))

/-- A call is submitted: it returns if the token or its tag is wrong. -/
def submit (hmac : Hmac) (secret : List UInt8) (s : InviteService) (token : List UInt8) :
    InviteService :=
  match parse hmac secret token with
  | .error e => { s with finished := s.finished ++ [⟨token, none, .error e⟩] }
  | .ok invite => { s with calls := s.calls ++ [{ token, invite }] }

/-- The `i`-th call reads the clock: it returns if the token has expired. -/
def read (s : InviteService) (i : ℕ) (now : ℤ) (call : RedeemCall) : InviteService :=
  if call.invite.expired now then
    { s with
      calls := s.calls.eraseIdx i
      finished := s.finished ++ [⟨call.token, some now, .error .expired⟩] }
  else { s with calls := s.calls.set i { call with reading := some now } }

/-- The `i`-th call goes through the locked section. -/
def lock (s : InviteService) (i : ℕ) (call : RedeemCall) : InviteService :=
  let answer := redeemNonce s.redeemed call.invite
  { s with
    redeemed := answer.2
    calls := s.calls.eraseIdx i
    finished := s.finished ++ [⟨call.token, call.reading, answer.1⟩] }

def step (hmac : Hmac) (secret : List UInt8) (s : InviteService) :
    InviteEvent → Option InviteService
  | .generate w now ttl pubkey nonce =>
    match w.generate hmac secret now ttl pubkey nonce with
    | none => some s
    | some token =>
      if s.MayGenerate w now ttl nonce then
        let invite := ⟨pubkey, nonce, (w.expiry now ttl).toNat⟩
        some { s with issued := s.issued ++ [{ token, invite }] }
      else none
  | .submit token =>
    if s.Unforged hmac secret token then some (s.submit hmac secret token) else none
  | .read i now => s.calls[i]?.bind fun call =>
    if call.reading = none then some (s.read i now call) else none
  | .lock i => s.calls[i]?.bind fun call =>
    if call.reading ≠ none then some (s.lock i call) else none

/-! ## Single use -/

/-- The text decodes to an issued token. -/
def Presents (token : List UInt8) (τ : Issued) : Prop :=
  Base64.decodeRaw urlAlphabet token = Base64.decodeRaw urlAlphabet τ.token

instance (token : List UInt8) (τ : Issued) : Decidable (Presents token τ) :=
  inferInstanceAs (Decidable (_ = _))

/-- The call presented the token and read the clock no later than its expiry. -/
def InTime (τ : Issued) (f : Redeemed) : Prop :=
  Presents f.token τ ∧ ∃ now ∈ f.reading, ¬ τ.invite.expired now

instance (τ : Issued) (f : Redeemed) : Decidable (InTime τ f) :=
  inferInstanceAs (Decidable (_ ∧ _))

/-- The calls in time for a token, in the order in which they went through the locked section. -/
def inTime (s : InviteService) (τ : Issued) : List Redeemed := s.finished.filter fun f => InTime τ f

/-- The first call in time gets the key, and the others in time learn that they are late. -/
def OnceIn (τ : Issued) (fs : List Redeemed) : Prop :=
  fs = [] ∨ ∃ n, fs.map Redeemed.result = .ok τ.invite.pubkey :: List.replicate n (.error .replayed)

/-- What the service promises of the calls that have returned. -/
structure SingleUse (s : InviteService) : Prop where
  invalid : ∀ f ∈ s.finished, (∀ τ ∈ s.issued, ¬ Presents f.token τ) → f.result = .error .invalid
  expired : ∀ f ∈ s.finished, ∀ τ ∈ s.issued, Presents f.token τ →
    ∃ now, f.reading = some now ∧ (τ.invite.expired now → f.result = .error .expired)
  once : ∀ τ ∈ s.issued, OnceIn τ (s.inTime τ)

/-! ## The invariant -/

/-- The nonce of a token as the table holds it. -/
def nonceKey (τ : Issued) : List UInt8 := Base64.encodeRaw urlAlphabet τ.invite.nonce

/-- A call that has returned: its token was issued and its reading decides, or its tag is wrong. -/
def Settled (hmac : Hmac) (secret : List UInt8) (issued : List Issued) (f : Redeemed) : Prop :=
  (∃ τ ∈ issued, Presents f.token τ ∧
    ∃ now, f.reading = some now ∧ (τ.invite.expired now → f.result = .error .expired)) ∨
  ((∀ invite, parse hmac secret f.token ≠ .ok invite) ∧ f.result = .error .invalid)

structure Inv (hmac : Hmac) (secret : List UInt8) (s : InviteService) : Prop where
  written : ∀ τ ∈ s.issued, parse hmac secret τ.token = .ok τ.invite
  distinct : Keyed.Distinct (fun τ : Issued => τ.invite.nonce) s.issued
  calls : ∀ call ∈ s.calls, ∃ τ ∈ s.issued, Presents call.token τ ∧ call.invite = τ.invite ∧
    ∀ now ∈ call.reading, ¬ τ.invite.expired now
  spent : ∀ key ∈ s.redeemed, ∃ τ ∈ s.issued, key = nonceKey τ
  redeemed : ∀ τ ∈ s.issued, nonceKey τ ∈ s.redeemed ↔ s.inTime τ ≠ []
  settled : ∀ f ∈ s.finished, Settled hmac secret s.issued f
  once : ∀ τ ∈ s.issued, OnceIn τ (s.inTime τ)

variable {hmac : Hmac} {secret token : List UInt8} {s t : InviteService} {τ τ' : Issued}
  {call : RedeemCall} {i : ℕ}

theorem inv_empty : Inv hmac secret {} where
  written := by simp
  distinct := List.Pairwise.nil
  calls := by simp
  spent := by simp
  redeemed := by simp
  settled := by simp
  once := by simp

theorem presents_iff (hwritten : parse hmac secret τ.token = .ok τ.invite) :
    Presents token τ ↔ parse hmac secret token = .ok τ.invite := by
  obtain ⟨hraw, hsized⟩ := parse_ok_iff.mp hwritten
  unfold Presents
  rw [hraw, parse_ok_iff]
  exact ⟨fun h => ⟨h, hsized⟩, fun h => h.1⟩

theorem Inv.eq_of_presents (h : s.Inv hmac secret) (hτ : τ ∈ s.issued) (hτ' : τ' ∈ s.issued)
    (hp : Presents token τ) (hp' : Presents token τ') : τ = τ' := by
  rw [presents_iff (h.written τ hτ)] at hp
  rw [presents_iff (h.written τ' hτ')] at hp'
  have hinvite : τ.invite = τ'.invite := Except.ok.inj (hp.symm.trans hp')
  exact h.distinct.eq_of_key hτ hτ' (congrArg Invite.nonce hinvite)

theorem Inv.eq_of_nonceKey (h : s.Inv hmac secret) (hτ : τ ∈ s.issued) (hτ' : τ' ∈ s.issued)
    (hkey : nonceKey τ = nonceKey τ') : τ = τ' :=
  h.distinct.eq_of_key hτ hτ' (Base64.encodeRaw_injective hkey)

/-- Every string whose tag verifies was issued. -/
theorem Inv.issued_of_parse (h : s.Inv hmac secret) {invite : Invite}
    (hunforged : s.Unforged hmac secret token) (hparse : parse hmac secret token = .ok invite) :
    ∃ τ ∈ s.issued, Presents token τ ∧ invite = τ.invite := by
  obtain ⟨hraw, hsized⟩ := parse_ok_iff.mp hparse
  have hlen := hsized.length_payload
  have hfront : (invite.payload ++ hmac.convert secret invite.payload).take 52 = invite.payload :=
    List.take_left' hlen
  obtain ⟨τ, hτ, hpayload⟩ := hunforged _ hraw
    (by rw [List.length_append, hlen, hmac.length_convert])
    (by rw [hfront, List.drop_left' hlen])
  rw [hfront] at hpayload
  have hsame : τ.invite = invite :=
    (parse_ok_iff.mp (h.written τ hτ)).2.eq_of_payload hsized hpayload
  refine ⟨τ, hτ, ?_, hsame.symm⟩
  rw [presents_iff (h.written τ hτ), hsame]
  exact hparse

theorem inTime_append (f : Redeemed) (ht : t.finished = s.finished ++ [f]) :
    t.inTime τ = s.inTime τ ++ if InTime τ f then [f] else [] := by
  unfold inTime
  rw [ht, List.filter_append]
  congr 1
  by_cases hf : InTime τ f
  · simp [hf]
  · simp [hf]

/-- A call returns without having been in time for any token. -/
theorem Inv.finish (h : s.Inv hmac secret) (f : Redeemed) (ht : t.finished = s.finished ++ [f])
    (hissued : t.issued = s.issued) (hredeemed : t.redeemed = s.redeemed)
    (hcalls : ∀ call ∈ t.calls, call ∈ s.calls) (hsettled : Settled hmac secret s.issued f)
    (hlate : ∀ τ ∈ s.issued, ¬ InTime τ f) : t.Inv hmac secret := by
  have hsame : ∀ τ ∈ s.issued, t.inTime τ = s.inTime τ := by
    intro τ hτ
    rw [inTime_append f ht, if_neg (hlate τ hτ), List.append_nil]
  constructor
  · rw [hissued]
    exact h.written
  · rw [hissued]
    exact h.distinct
  · rw [hissued]
    exact fun call hcall => h.calls call (hcalls call hcall)
  · rw [hissued, hredeemed]
    exact h.spent
  · intro τ hτ
    rw [hissued] at hτ
    rw [hredeemed, hsame τ hτ]
    exact h.redeemed τ hτ
  · intro f' hf'
    rw [hissued]
    rw [ht] at hf'
    rcases List.mem_append.mp hf' with hf' | hf'
    · exact h.settled f' hf'
    · rwa [List.mem_singleton.mp hf']
  · intro τ hτ
    rw [hissued] at hτ
    rw [hsame τ hτ]
    exact h.once τ hτ

theorem Inv.submit (h : s.Inv hmac secret) (hunforged : s.Unforged hmac secret token) :
    (s.submit hmac secret token).Inv hmac secret := by
  unfold InviteService.submit
  cases hparse : parse hmac secret token with
  | error e =>
    have hwrong : ∀ invite, parse hmac secret token ≠ .ok invite := by
      intro invite hok
      rw [hparse] at hok
      cases hok
    have hinvalid : e = .invalid := parse_error hparse
    refine h.finish ⟨token, none, .error e⟩ rfl rfl rfl (fun _ => id) (.inr ⟨hwrong, ?_⟩) ?_
    · rw [hinvalid]
    · rintro τ - ⟨-, now, hnow, -⟩
      cases hnow
  | ok invite =>
    obtain ⟨τ, hτ, hpresents, rfl⟩ := h.issued_of_parse hunforged hparse
    refine ⟨h.written, h.distinct, fun call hcall => ?_, h.spent, h.redeemed, h.settled, h.once⟩
    rcases List.mem_append.mp hcall with hcall | hcall
    · exact h.calls call hcall
    · rw [List.mem_singleton.mp hcall]
      exact ⟨τ, hτ, hpresents, rfl, by simp⟩

theorem Inv.read (h : s.Inv hmac secret) (hcall : call ∈ s.calls) (now : ℤ) :
    (s.read i now call).Inv hmac secret := by
  obtain ⟨τ, hτ, hpresents, hinvite, -⟩ := h.calls call hcall
  unfold InviteService.read
  by_cases hexpired : call.invite.expired now
  · rw [if_pos hexpired]
    rw [hinvite] at hexpired
    refine h.finish ⟨call.token, some now, .error .expired⟩ rfl rfl rfl
      (fun _ => List.mem_of_mem_eraseIdx) (.inl ⟨τ, hτ, hpresents, now, rfl, fun _ => rfl⟩) ?_
    rintro τ' hτ' ⟨hpresents', now', hnow', hin⟩
    obtain rfl := h.eq_of_presents hτ hτ' hpresents hpresents'
    obtain rfl : now = now' := Option.some.inj hnow'
    exact hin hexpired
  · rw [if_neg hexpired]
    refine ⟨h.written, h.distinct, fun call' hcall' => ?_, h.spent, h.redeemed, h.settled, h.once⟩
    rcases List.mem_or_eq_of_mem_set hcall' with hcall' | rfl
    · exact h.calls call' hcall'
    · refine ⟨τ, hτ, hpresents, hinvite, fun now' hnow' => ?_⟩
      rw [← Option.some.inj hnow', ← hinvite]
      exact hexpired

/-- The table decides, and it knows the token exactly if a call has been in time. -/
theorem Inv.lock (h : s.Inv hmac secret) (hcall : call ∈ s.calls) (hread : call.reading ≠ none) :
    (s.lock i call).Inv hmac secret := by
  obtain ⟨τ, hτ, hpresents, hinvite, hin⟩ := h.calls call hcall
  obtain ⟨now, hnow⟩ := Option.ne_none_iff_exists'.mp hread
  set answer := redeemNonce s.redeemed call.invite with hanswer
  set f : Redeemed := ⟨call.token, call.reading, answer.1⟩ with hf
  have hintime : InTime τ f := ⟨hpresents, now, hnow, hin now hnow⟩
  have hother : ∀ τ' ∈ s.issued, τ' ≠ τ → ¬ InTime τ' f :=
    fun τ' hτ' hne hf' => hne (h.eq_of_presents hτ' hτ hf'.1 hpresents)
  have hlist : ∀ τ', (s.lock i call).inTime τ' = s.inTime τ' ++ if InTime τ' f then [f] else [] :=
    fun τ' => inTime_append f rfl
  have hanswer' : answer = if nonceKey τ ∈ s.redeemed then (.error .replayed, s.redeemed)
      else (.ok τ.invite.pubkey, nonceKey τ :: s.redeemed) := by
    rw [hanswer, redeemNonce, hinvite]
    rfl
  have hkeys : ∀ key, key ∈ answer.2 ↔ key = nonceKey τ ∨ key ∈ s.redeemed := by
    intro key
    rw [hanswer']
    split_ifs with hseen
    · exact ⟨.inr, fun hkey => hkey.elim (fun heq => heq ▸ hseen) id⟩
    · exact List.mem_cons
  have hsettled : Settled hmac secret s.issued f :=
    .inl ⟨τ, hτ, hpresents, now, hnow, fun hexp => absurd hexp (hin now hnow)⟩
  refine ⟨h.written, h.distinct, fun call' hcall' => ?_, fun key hkey => ?_, fun τ' hτ' => ?_,
    fun f' hf' => ?_, fun τ' hτ' => ?_⟩
  · exact h.calls call' (List.mem_of_mem_eraseIdx hcall')
  · rcases (hkeys key).mp hkey with rfl | hkey
    · exact ⟨τ, hτ, rfl⟩
    · exact h.spent key hkey
  · show nonceKey τ' ∈ answer.2 ↔ _
    rw [hkeys, hlist]
    by_cases heq : τ' = τ
    · subst heq
      simp [hintime]
    · have hkey : nonceKey τ' ≠ nonceKey τ := fun hk => heq (h.eq_of_nonceKey hτ' hτ hk)
      rw [if_neg (hother τ' hτ' heq), List.append_nil, or_iff_right hkey]
      exact h.redeemed τ' hτ'
  · rcases List.mem_append.mp hf' with hf' | hf'
    · exact h.settled f' hf'
    · rwa [List.mem_singleton.mp hf']
  · rw [hlist]
    by_cases heq : τ' = τ
    · subst heq
      rw [if_pos hintime]
      right
      by_cases hseen : nonceKey τ' ∈ s.redeemed
      · -- not the first one in time
        have hresult : f.result = .error .replayed := by
          rw [hf, hanswer', if_pos hseen]
        rcases h.once τ' hτ' with hnil | ⟨n, hn⟩
        · exact absurd hnil ((h.redeemed τ' hτ').mp hseen)
        · refine ⟨n + 1, ?_⟩
          rw [List.map_append, hn, List.map_singleton, hresult, List.replicate_succ']
          rfl
      · have hresult : f.result = .ok τ'.invite.pubkey := by
          rw [hf, hanswer', if_neg hseen]
        have hnil : s.inTime τ' = [] := not_not.mp fun hne => hseen ((h.redeemed τ' hτ').mpr hne)
        refine ⟨0, ?_⟩
        rw [hnil, List.nil_append, List.map_singleton, hresult]
        rfl
    · rw [if_neg (hother τ' hτ' heq), List.append_nil]
      exact h.once τ' hτ'

/-- A new token has not been presented before. -/
theorem Inv.issue (h : s.Inv hmac secret) (hwritten : parse hmac secret τ.token = .ok τ.invite)
    (hfresh : ∀ τ' ∈ s.issued, τ'.invite.nonce ≠ τ.invite.nonce) :
    { s with issued := s.issued ++ [τ] }.Inv hmac secret := by
  have hunseen : ∀ f ∈ s.finished, ¬ Presents f.token τ := by
    intro f hf hpresents
    rw [presents_iff hwritten] at hpresents
    rcases h.settled f hf with ⟨τ', hτ', hpresents', -⟩ | ⟨hwrong, -⟩
    · rw [presents_iff (h.written τ' hτ')] at hpresents'
      have hinvite := Except.ok.inj (hpresents'.symm.trans hpresents)
      exact hfresh τ' hτ' (congrArg Invite.nonce hinvite)
    · exact hwrong τ.invite hpresents
  have hnone : s.inTime τ = [] := by
    unfold inTime
    rw [List.filter_eq_nil_iff]
    intro f hf hin
    exact hunseen f hf (of_decide_eq_true hin).1
  have hunspent : nonceKey τ ∉ s.redeemed := by
    intro hkey
    obtain ⟨τ', hτ', heq⟩ := h.spent _ hkey
    exact hfresh τ' hτ' (Base64.encodeRaw_injective heq).symm
  -- what holds of the old tokens and of the new one holds of all
  have hall : ∀ {P : Issued → Prop}, (∀ τ' ∈ s.issued, P τ') → P τ →
      ∀ τ' ∈ s.issued ++ [τ], P τ' := by
    intro P hold hnew τ' hτ'
    rcases List.mem_append.mp hτ' with hτ' | hτ'
    · exact hold τ' hτ'
    · rwa [List.mem_singleton.mp hτ']
  refine ⟨hall h.written hwritten, ?_, fun call hcall => ?_, fun key hkey => ?_, ?_, fun f hf => ?_,
    hall h.once (.inl hnone)⟩
  · exact Keyed.distinct_append_singleton_iff.mpr ⟨h.distinct, hfresh⟩
  · obtain ⟨τ', hτ', hrest⟩ := h.calls call hcall
    exact ⟨τ', List.mem_append_left _ hτ', hrest⟩
  · obtain ⟨τ', hτ', heq⟩ := h.spent key hkey
    exact ⟨τ', List.mem_append_left _ hτ', heq⟩
  · apply hall h.redeemed
    exact iff_of_false hunspent (not_not.mpr hnone)
  · refine (h.settled f hf).imp_left ?_
    rintro ⟨τ', hτ', hrest⟩
    exact ⟨τ', List.mem_append_left _ hτ', hrest⟩

theorem Inv.step (h : s.Inv hmac secret) {e : InviteEvent}
    (hstep : s.step hmac secret e = some t) : t.Inv hmac secret := by
  cases e with
  | generate w now ttl pubkey nonce =>
    simp only [InviteService.step] at hstep
    cases hgen : w.generate hmac secret now ttl pubkey nonce with
    | none =>
      rw [hgen] at hstep
      cases hstep
      exact h
    | some token =>
      rw [hgen] at hstep
      dsimp only at hstep
      split_ifs at hstep with hmay
      cases hstep
      obtain ⟨⟨hnonce, hfresh⟩, hnow, hexpiry⟩ := hmay
      exact h.issue (w.parse_generate hnow hexpiry hnonce hgen) hfresh
  | submit token =>
    simp only [InviteService.step] at hstep
    split_ifs at hstep with hunforged
    cases hstep
    exact h.submit hunforged
  | read i now =>
    obtain ⟨call, hget, hread⟩ := Option.bind_eq_some_iff.mp hstep
    split_ifs at hread
    cases hread
    exact h.read (List.mem_of_getElem? hget) now
  | lock i =>
    obtain ⟨call, hget, hlock⟩ := Option.bind_eq_some_iff.mp hstep
    split_ifs at hlock with hread
    cases hlock
    exact h.lock (List.mem_of_getElem? hget) hread

theorem Inv.singleUse (h : s.Inv hmac secret) : s.SingleUse where
  invalid := by
    intro f hf hnone
    rcases h.settled f hf with ⟨τ, hτ, hpresents, -⟩ | ⟨-, hinvalid⟩
    · exact absurd hpresents (hnone τ hτ)
    · exact hinvalid
  expired := by
    intro f hf τ hτ hpresents
    rcases h.settled f hf with ⟨τ', hτ', hpresents', hdecides⟩ | ⟨hwrong, -⟩
    · rwa [← h.eq_of_presents hτ' hτ hpresents' hpresents]
    · exact absurd ((presents_iff (h.written τ hτ)).mp hpresents) (hwrong τ.invite)
  once := h.once

end InviteService

/-- However the calls interleave, a token of either writer is redeemed by the first call in time and
by no other. -/
theorem invites_single_use (hmac : Hmac) (secret : List UInt8) (s : InviteService)
    (h : Machine.Reachable (InviteService.step hmac secret) {} s) : s.SingleUse :=
  (h.invariant InviteService.inv_empty fun _ _ _ hinv hstep => hinv.step hstep).singleUse

/-- The token of a client whose key and nonce are all zeros. -/
def zeroToken : List UInt8 :=
  (inviteLinkGenerate Hmac.sample [1] (5 * second) 60 (List.replicate 32 0)
    (List.replicate 16 0)).getD []

/-- Two calls read the clock, and the later one is the first to reach the lock; a third call comes
when the token has expired, and a fourth with another text. -/
def zeroRun : List InviteEvent :=
  [.generate .client (5 * second) 60 (List.replicate 32 0) (List.replicate 16 0),
    .submit zeroToken, .submit zeroToken, .read 0 (64 * second), .read 1 (65 * second),
    .lock 1, .lock 0, .submit zeroToken, .read 0 (65 * second + 1), .submit [65]]

theorem invites_single_use_zeroRun :
    ∃ s, Machine.run (InviteService.step Hmac.sample [1]) {} zeroRun = some s ∧
      s.finished.map Redeemed.result =
        [.ok (List.replicate 32 0), .error .replayed, .error .expired, .error .invalid] ∧
      s.SingleUse := by
  have hrun : (Machine.run (InviteService.step Hmac.sample [1]) {} zeroRun).map
      (fun s => s.finished.map Redeemed.result) =
      some [.ok (List.replicate 32 0), .error .replayed, .error .expired, .error .invalid] := by
    decide +kernel
  obtain ⟨s, hs, hresults⟩ := Option.map_eq_some_iff.mp hrun
  exact ⟨s, hs, hresults, invites_single_use Hmac.sample [1] s ⟨zeroRun, hs⟩⟩

end ChessRecast.Signaling
