import ChessRecast.Lib.Ascii
import ChessRecast.Lib.Base64
import ChessRecast.Lib.Machine
import ChessRecast.P2P.Aead
import ChessRecast.Signaling.Time

/-!
# TURN credentials (`turn.go`)

A credential is a user name that begins with the second of its expiry, and the base64 text of a tag
over it. The service signs with its current key and verifies with the current and with one previous
key, so a credential is accepted until it expires only if its key is still one of the two
(`turn_available_iff`). The current key is consulted even if it is empty, and the previous one
however long ago it was replaced (`turn_authentic_iff`).
-/

namespace ChessRecast.Signaling

open P2P (Hmac)

/-- The alphabet of `base64.StdEncoding`. -/
def stdAlphabet : Base64.Alphabet where
  letters := Ascii.ofChars
    "ABCDEFGHIJKLMNOPQRSTUVWXYZabcdefghijklmnopqrstuvwxyz0123456789+/".toList
  length_letters := by decide
  nodup := by decide +kernel
  breaks := by decide +kernel
  padding := by decide +kernel

/-- `TTL` -/
def turnTTL : ℤ := 5 * 60 * second

structure Credential where
  username : List UInt8
  password : List UInt8
  expiresAt : ℤ
deriving DecidableEq, Repr

structure KeyPair where
  current : List UInt8
  previous : List UInt8 := []
  rotatedAt : ℤ
deriving DecidableEq, Repr

/-- What `VerifyWithExpiry` returns instead of `nil`. -/
inductive TurnError where
  | formatInvalid
  | expired
  | failed
deriving DecidableEq, Repr

/-! ## Reading the expiry -/

/-- The encodings of the characters that `fmt` skips in front of a number; a line break is not one
of them. -/
def spaces : List (List UInt8) :=
  [[9], [11], [12], [13], [32], [0xC2, 0x85], [0xC2, 0xA0], [0xE1, 0x9A, 0x80]] ++
    ((List.range 11).map fun i => [0xE2, 0x80, UInt8.ofNat (0x80 + i)]) ++
    [[0xE2, 0x80, 0xA8], [0xE2, 0x80, 0xA9], [0xE2, 0x80, 0xAF], [0xE2, 0x81, 0x9F],
      [0xE3, 0x80, 0x80]]

/-- `SkipSpace`; a text has at most as many spaces as bytes. -/
def skipSpace : ℕ → List UInt8 → List UInt8
  | 0, text => text
  | fuel + 1, text =>
    match spaces.find? fun space => space.isPrefixOf text with
    | some space => skipSpace fuel (text.drop space.length)
    | none => text

/-- The sign in front of a number. -/
def scanSign : List UInt8 → Bool × List UInt8
  | 45 :: text => (true, text)
  | 43 :: text => (false, text)
  | text => (false, text)

/-- `fmt.Sscanf(username, "%d:", &expireUnix)` -/
def scanExpiry (username : List UInt8) : Option ℤ :=
  let (negative, text) := scanSign (skipSpace username.length username)
  let digits := text.takeWhile fun b => Ascii.IsDigit b
  let value : ℤ := if negative then -Ascii.natValue digits else Ascii.natValue digits
  if digits = [] then none
  else if value < -2 ^ 63 ∨ 2 ^ 63 ≤ value then none
  else if (text.drop digits.length).head? = some 58 then some value
  else none

/-- From the first day of the internal calendar to the Unix epoch, in seconds. -/
def unixToInternal : ℤ := 62135596800

/-- `time.Unix(expireUnix, 0).Before(now)`; the internal seconds are an `int64`. -/
def expiredAt (expireUnix now : ℤ) : Prop :=
  let internal := (expireUnix + unixToInternal + 2 ^ 63) % 2 ^ 64 - 2 ^ 63
  internal * second < now + unixToInternal * second

instance (expireUnix now : ℤ) : Decidable (expiredAt expireUnix now) :=
  inferInstanceAs (Decidable (_ < _))

/-- A second that a `time.Time` can have. -/
def InRange (seconds : ℤ) : Prop := -2 ^ 63 ≤ seconds ∧ seconds + unixToInternal < 2 ^ 63

instance (seconds : ℤ) : Decidable (InRange seconds) := inferInstanceAs (Decidable (_ ∧ _))

/-! ## The service -/

namespace KeyPair

def newKeyPair (now : ℤ) (currentKey : List UInt8) : KeyPair where
  current := currentKey
  rotatedAt := now

def rotate (kp : KeyPair) (now : ℤ) (newKey : List UInt8) : KeyPair where
  previous := kp.current
  current := newKey
  rotatedAt := now

/-- The user name with the second of the expiry in front; a colon is the byte 58. -/
def timestamped (expiry : ℤ) (username : List UInt8) : List UInt8 :=
  Ascii.intText (unix expiry) ++ 58 :: username

/-- The text of the tag that a key gives a user name. -/
def passwordOf (hmac : Hmac) (key username : List UInt8) : List UInt8 :=
  Base64.encode stdAlphabet (hmac.convert key username)

/-- `Mint`; `none` is `ErrNoKey`. -/
def mint (hmac : Hmac) (kp : KeyPair) (now : ℤ) (username : List UInt8) : Option Credential :=
  if kp.current.length = 0 then none
  else
    let expiry := now + turnTTL
    let timestamped := timestamped expiry username
    some ⟨timestamped, passwordOf hmac kp.current timestamped, expiry⟩

def verifyWithKey (hmac : Hmac) (username password key : List UInt8) : Prop :=
  passwordOf hmac key username = password

instance (hmac : Hmac) (username password key : List UInt8) :
    Decidable (verifyWithKey hmac username password key) :=
  inferInstanceAs (Decidable (_ = _))

def verify (hmac : Hmac) (kp : KeyPair) (username password : List UInt8) : Except TurnError Unit :=
  if verifyWithKey hmac username password kp.current then .ok ()
  else if kp.previous.length > 0 ∧ verifyWithKey hmac username password kp.previous then .ok ()
  else .error .failed

def verifyWithExpiry (hmac : Hmac) (kp : KeyPair) (now : ℤ) (username password : List UInt8) :
    Except TurnError Unit :=
  match scanExpiry username with
  | none => .error .formatInvalid
  | some expireUnix =>
    if expiredAt expireUnix now then .error .expired else kp.verify hmac username password

end KeyPair

/-! ## What is accepted -/

section

variable {hmac : Hmac} {kp : KeyPair} {now : ℤ} {username password key : List UInt8}

theorem expiredAt_iff {expireUnix : ℤ} (h : InRange expireUnix) :
    expiredAt expireUnix now ↔ expireUnix * second < now := by
  simp only [expiredAt, InRange, unixToInternal, second] at *
  omega

theorem skipSpace_of_digit {b : UInt8} {text : List UInt8} (fuel : ℕ)
    (h : b = 45 ∨ Ascii.IsDigit b) : skipSpace fuel (b :: text) = b :: text := by
  cases fuel with
  | zero => rfl
  | succ fuel =>
    have hnone : spaces.find? (fun space => space.isPrefixOf (b :: text)) = none := by
      have hfirst : ∀ space ∈ spaces,
          (space.head?.all fun c => c ≠ 45 ∧ ¬ Ascii.IsDigit c) = true := by decide
      rw [List.find?_eq_none]
      intro space hspace hmatch
      cases space with
      | nil => revert hspace; decide
      | cons c space =>
        obtain ⟨hne, hdigit⟩ : c ≠ 45 ∧ ¬ Ascii.IsDigit c := by simpa using hfirst _ hspace
        have hc : c = b := by
          simp only [List.isPrefixOf, Bool.and_eq_true, beq_iff_eq] at hmatch
          exact hmatch.1
        rcases h with h | h
        · exact hne (hc.trans h)
        · exact hdigit (hc ▸ h)
    rw [skipSpace, hnone]

theorem scanSign_of_digit {b : UInt8} {text : List UInt8} (h : Ascii.IsDigit b) :
    scanSign (b :: text) = (false, b :: text) := by
  unfold scanSign
  split
  · rename_i heq
    rw [(List.cons.inj heq).1] at h
    exact absurd h (by decide)
  · rename_i heq
    rw [(List.cons.inj heq).1] at h
    exact absurd h (by decide)
  · rfl

theorem takeWhile_natText (m : ℕ) (rest : List UInt8) :
    (Ascii.natText m ++ 58 :: rest).takeWhile (fun b => Ascii.IsDigit b) = Ascii.natText m := by
  rw [List.takeWhile_append_of_pos fun b hb => decide_eq_true (Ascii.isDigit_of_mem_natText hb),
    List.takeWhile_cons_of_neg (by decide), List.append_nil]

theorem scanSign_intText (n : ℤ) (rest : List UInt8) :
    scanSign (skipSpace (Ascii.intText n ++ 58 :: rest).length (Ascii.intText n ++ 58 :: rest)) =
      (decide (n < 0), Ascii.natText n.natAbs ++ 58 :: rest) := by
  unfold Ascii.intText
  by_cases hn : n < 0
  · rw [if_pos hn, List.cons_append, skipSpace_of_digit _ (.inl rfl), decide_eq_true hn]
    rfl
  · have habs : n.toNat = n.natAbs := by omega
    obtain ⟨b, text, htext⟩ := List.exists_cons_of_ne_nil (Ascii.natText_ne_nil n.natAbs)
    have hb : Ascii.IsDigit b := Ascii.isDigit_of_mem_natText (htext ▸ List.mem_cons_self)
    rw [if_neg hn, habs, htext, List.cons_append, skipSpace_of_digit _ (.inr hb),
      scanSign_of_digit hb, decide_eq_false hn]

theorem scanExpiry_intText {n : ℤ} (h : -2 ^ 63 ≤ n ∧ n < 2 ^ 63) (rest : List UInt8) :
    scanExpiry (Ascii.intText n ++ 58 :: rest) = some n := by
  have hvalue : (if decide (n < 0) = true then -(n.natAbs : ℤ) else n.natAbs) = n := by
    by_cases hn : n < 0
    · rw [if_pos (decide_eq_true hn)]
      omega
    · rw [if_neg (by simpa using hn)]
      omega
  unfold scanExpiry
  rw [scanSign_intText]
  dsimp only
  rw [takeWhile_natText, Ascii.natValue_natText, hvalue, if_neg (Ascii.natText_ne_nil _),
    if_neg (by omega), List.drop_left, List.head?_cons, if_pos rfl]

theorem verify_ok_iff : kp.verify hmac username password = .ok () ↔
    KeyPair.verifyWithKey hmac username password kp.current ∨
      (kp.previous ≠ [] ∧ KeyPair.verifyWithKey hmac username password kp.previous) := by
  unfold KeyPair.verify
  simp only [gt_iff_lt, List.length_pos_iff]
  by_cases hcurrent : KeyPair.verifyWithKey hmac username password kp.current
  · simp [hcurrent]
  · rw [if_neg hcurrent, or_iff_right hcurrent]
    by_cases hprevious : kp.previous ≠ [] ∧ KeyPair.verifyWithKey hmac username password kp.previous
    · simp [hprevious]
    · simp [hprevious]

theorem verifyWithExpiry_ok_iff : kp.verifyWithExpiry hmac now username password = .ok () ↔
    (∃ expireUnix, scanExpiry username = some expireUnix ∧ ¬ expiredAt expireUnix now) ∧
      kp.verify hmac username password = .ok () := by
  unfold KeyPair.verifyWithExpiry
  cases hscan : scanExpiry username with
  | none => simp
  | some expireUnix =>
    dsimp only
    by_cases hexpired : expiredAt expireUnix now
    · simp [hexpired]
    · simp [hexpired]

end

/-! ## Runs -/

/-- A call of `Mint` that returned: the key it used and the time it read. -/
structure Minted where
  key : List UInt8
  time : ℤ
  credential : Credential
deriving DecidableEq, Repr

/-- The key pair, the keys replaced with the time of it, the credentials minted, and the keys that
have become known to others. -/
structure TurnService where
  keys : KeyPair
  clock : ℤ
  retired : List (List UInt8 × ℤ) := []
  minted : List Minted := []
  leaked : List (List UInt8) := []
deriving DecidableEq, Repr

inductive TurnEvent where
  | rotate (time : ℤ) (newKey : List UInt8)
  | mint (time : ℤ) (username : List UInt8)
  | leak (key : List UInt8)

namespace TurnService

def start (time : ℤ) (currentKey : List UInt8) : TurnService where
  keys := KeyPair.newKeyPair time currentKey
  clock := time

/-- `Mint` at a time; nothing is minted without a key. -/
def mint (hmac : Hmac) (s : TurnService) (time : ℤ) (username : List UInt8) : TurnService :=
  match s.keys.mint hmac time username with
  | none => { s with clock := time }
  | some credential =>
    { s with clock := time, minted := s.minted ++ [⟨s.keys.current, time, credential⟩] }

/-- The clock does not go back, and expiries are values of `time.Time`. -/
def step (hmac : Hmac) (s : TurnService) : TurnEvent → Option TurnService
  | .rotate time newKey =>
    if s.clock ≤ time then
      some { s with
        keys := s.keys.rotate time newKey
        clock := time
        retired := s.retired ++ [(s.keys.current, time)] }
    else none
  | .mint time username =>
    if s.clock ≤ time ∧ InRange (unix (time + turnTTL)) then some (s.mint hmac time username)
    else none
  | .leak key => some { s with leaked := s.leaked ++ [key] }

/-- The keys that have been current. -/
def configured (s : TurnService) : List (List UInt8) := s.keys.current :: s.retired.map Prod.fst

/-- The tags of the keys configured can be told apart. -/
def CollisionFree (hmac : Hmac) (s : TurnService) : Prop :=
  ∀ k ∈ s.configured, ∀ k' ∈ s.configured, ∀ username,
    hmac.convert k username = hmac.convert k' username → k = k'

/-! ## The invariant -/

/-- The previous key is the last one replaced, and a credential was minted before its key was
replaced. -/
structure Inv (hmac : Hmac) (s : TurnService) : Prop where
  previous : s.keys.previous = [] ∨ (s.keys.previous, s.keys.rotatedAt) ∈ s.retired
  rotated : s.keys.rotatedAt ≤ s.clock
  retired : ∀ entry ∈ s.retired, entry.2 ≤ s.keys.rotatedAt
  minted : ∀ m ∈ s.minted, m.key ≠ [] ∧ InRange (unix (m.time + turnTTL)) ∧ m.time ≤ s.clock ∧
    (m.key = s.keys.current ∨ ∃ entry ∈ s.retired, entry.1 = m.key ∧ m.time ≤ entry.2)
  written : ∀ m ∈ s.minted, m.credential.expiresAt = m.time + turnTTL ∧
    (∃ username, m.credential.username = KeyPair.timestamped (m.time + turnTTL) username) ∧
    m.credential.password = KeyPair.passwordOf hmac m.key m.credential.username

variable {hmac : Hmac} {s t : TurnService} {now : ℤ}

theorem inv_start (time : ℤ) (currentKey : List UInt8) : (start time currentKey).Inv hmac where
  previous := .inl rfl
  rotated := le_rfl
  retired := by simp [start]
  minted := by simp [start]
  written := by simp [start]

theorem Inv.rotate (h : s.Inv hmac) {time : ℤ} (htime : s.clock ≤ time) (newKey : List UInt8) :
    { s with
      keys := s.keys.rotate time newKey
      clock := time
      retired := s.retired ++ [(s.keys.current, time)] }.Inv hmac where
  previous := .inr (List.mem_append_right _ (List.mem_singleton_self _))
  rotated := le_rfl
  retired := by
    intro entry hentry
    rcases List.mem_append.mp hentry with hentry | hentry
    · exact ((h.retired entry hentry).trans h.rotated).trans htime
    · rw [List.mem_singleton.mp hentry]
      exact le_rfl
  minted := by
    intro m hm
    obtain ⟨hkey, hrange, hclock, hheld⟩ := h.minted m hm
    refine ⟨hkey, hrange, hclock.trans htime, .inr ?_⟩
    rcases hheld with hcurrent | ⟨entry, hentry, hheld⟩
    · exact ⟨_, List.mem_append_right _ (List.mem_singleton_self _), hcurrent.symm,
        hclock.trans htime⟩
    · exact ⟨entry, List.mem_append_left _ hentry, hheld⟩
  written := h.written

theorem Inv.mint (h : s.Inv hmac) {time : ℤ} (htime : s.clock ≤ time)
    (hrange : InRange (unix (time + turnTTL))) (username : List UInt8) :
    (s.mint hmac time username).Inv hmac := by
  have hold : ∀ m ∈ s.minted, m.key ≠ [] ∧ InRange (unix (m.time + turnTTL)) ∧ m.time ≤ time ∧
      (m.key = s.keys.current ∨ ∃ entry ∈ s.retired, entry.1 = m.key ∧ m.time ≤ entry.2) := by
    intro m hm
    obtain ⟨hkey, hrange, hclock, hheld⟩ := h.minted m hm
    exact ⟨hkey, hrange, hclock.trans htime, hheld⟩
  unfold TurnService.mint KeyPair.mint
  by_cases hkey : s.keys.current.length = 0
  · rw [if_pos hkey]
    exact ⟨h.previous, h.rotated.trans htime, h.retired, hold, h.written⟩
  · rw [if_neg hkey]
    refine ⟨h.previous, h.rotated.trans htime, h.retired, fun m hm => ?_, fun m hm => ?_⟩
    · rcases List.mem_append.mp hm with hm | hm
      · exact hold m hm
      · rw [List.mem_singleton.mp hm]
        exact ⟨fun hnil => hkey (List.length_eq_zero_iff.mpr hnil), hrange, le_rfl, .inl rfl⟩
    · rcases List.mem_append.mp hm with hm | hm
      · exact h.written m hm
      · rw [List.mem_singleton.mp hm]
        exact ⟨rfl, ⟨username, rfl⟩, rfl⟩

theorem Inv.step (h : s.Inv hmac) {e : TurnEvent} (hstep : s.step hmac e = some t) :
    t.Inv hmac := by
  cases e with
  | rotate time newKey =>
    simp only [TurnService.step] at hstep
    split_ifs at hstep with htime
    cases hstep
    exact h.rotate htime newKey
  | mint time username =>
    simp only [TurnService.step] at hstep
    split_ifs at hstep with hguard
    cases hstep
    exact h.mint hguard.1 hguard.2 username
  | leak key =>
    cases hstep
    exact ⟨h.previous, h.rotated, h.retired, h.minted, h.written⟩

theorem inv_of_reachable {first : ℤ} {key : List UInt8}
    (h : Machine.Reachable (TurnService.step hmac) (start first key) s) : s.Inv hmac :=
  h.invariant (inv_start first key) fun _ _ _ hinv hstep => hinv.step hstep

theorem Inv.previous_configured (h : s.Inv hmac) (hne : s.keys.previous ≠ []) :
    s.keys.previous ∈ s.configured :=
  List.mem_cons_of_mem _ (List.mem_map_of_mem (h.previous.resolve_left hne))

theorem Inv.key_configured (h : s.Inv hmac) {m : Minted} (hm : m ∈ s.minted) :
    m.key ∈ s.configured := by
  obtain ⟨-, -, -, hcurrent | ⟨entry, hentry, hkey, -⟩⟩ := h.minted m hm
  · rw [hcurrent]
    exact List.mem_cons_self
  · rw [← hkey]
    exact List.mem_cons_of_mem _ (List.mem_map_of_mem hentry)

/-- A tag that two of the keys verify is of one key. -/
theorem CollisionFree.eq (hfree : s.CollisionFree hmac) {k k' username password : List UInt8}
    (hk : k ∈ s.configured) (hk' : k' ∈ s.configured)
    (hv : KeyPair.verifyWithKey hmac username password k)
    (hv' : KeyPair.verifyWithKey hmac username password k') : k = k' :=
  hfree k hk k' hk' username (Base64.encode_injective (hv.trans hv'.symm))

theorem Inv.scanExpiry (h : s.Inv hmac) {m : Minted} (hm : m ∈ s.minted) :
    scanExpiry m.credential.username = some (unix m.credential.expiresAt) ∧
      InRange (unix m.credential.expiresAt) := by
  obtain ⟨-, hrange, -⟩ := h.minted m hm
  obtain ⟨hexpires, ⟨username, hname⟩, -⟩ := h.written m hm
  rw [hexpires, hname]
  refine ⟨scanExpiry_intText ?_ username, hrange⟩
  simp only [InRange, unixToInternal] at hrange
  omega

/-- A credential is of the key that minted it, and of no other key configured. -/
theorem Inv.verifyWithKey_iff (h : s.Inv hmac) (hfree : s.CollisionFree hmac) {m : Minted}
    (hm : m ∈ s.minted) {k : List UInt8} (hk : k ∈ s.configured) :
    KeyPair.verifyWithKey hmac m.credential.username m.credential.password k ↔ m.key = k := by
  have hown : KeyPair.verifyWithKey hmac m.credential.username m.credential.password m.key :=
    (h.written m hm).2.2.symm
  constructor
  · exact hfree.eq (h.key_configured hm) hk hown
  · rintro rfl
    exact hown

end TurnService

/-- Up to its expiry a credential is accepted if and only if its key is still one of the two. -/
theorem turn_available_iff (hmac : Hmac) (first : ℤ) (key : List UInt8) (s : TurnService)
    (hreach : Machine.Reachable (TurnService.step hmac) (TurnService.start first key) s)
    (hfree : s.CollisionFree hmac) (m : Minted) (hm : m ∈ s.minted) (now : ℤ)
    (hnow : now ≤ unix m.credential.expiresAt * second) :
    s.keys.verifyWithExpiry hmac now m.credential.username m.credential.password = .ok () ↔
      m.key = s.keys.current ∨ m.key = s.keys.previous := by
  have hinv := TurnService.inv_of_reachable hreach
  obtain ⟨hscan, hrange⟩ := hinv.scanExpiry hm
  have hkey := (hinv.minted m hm).1
  rw [verifyWithExpiry_ok_iff, verify_ok_iff,
    hinv.verifyWithKey_iff hfree hm List.mem_cons_self]
  rw [and_iff_right ⟨_, hscan, fun h => absurd hnow (not_le.mpr ((expiredAt_iff hrange).mp h))⟩]
  apply or_congr_right
  by_cases hprevious : s.keys.previous = []
  · rw [hprevious]
    simp [hkey]
  · rw [hinv.verifyWithKey_iff hfree hm (hinv.previous_configured hprevious)]
    exact and_iff_right hprevious

/-- An HMAC for examples: the key, cut or filled up to the length of a digest. -/
def keyedHmac : Hmac where
  convert key _ := (key ++ List.replicate 32 0).take 32
  length_convert := by simp

theorem collisionFree_keyedHmac {s : TurnService}
    (h : ∀ k ∈ s.configured, ∀ k' ∈ s.configured,
      (k ++ List.replicate 32 0).take 32 = (k' ++ List.replicate 32 0).take 32 → k = k') :
    s.CollisionFree keyedHmac :=
  fun k hk k' hk' _ heq => h k hk k' hk' heq

/-- One rotation leaves a credential valid. -/
theorem turn_available_oneRotation :
    ∃ s, Machine.run (TurnService.step keyedHmac) (TurnService.start 0 [1])
        [.mint 0 [97], .rotate second [2]] = some s ∧
      ∃ m ∈ s.minted, s.keys.verifyWithExpiry keyedHmac (2 * second) m.credential.username
        m.credential.password = .ok () := by
  have hrun : ∃ s, Machine.run (TurnService.step keyedHmac) (TurnService.start 0 [1])
      [.mint 0 [97], .rotate second [2]] = some s ∧ s.configured = [[2], [1]] ∧
      ∃ m ∈ s.minted, m.key = s.keys.previous ∧
        2 * second ≤ unix m.credential.expiresAt * second :=
    ⟨_, rfl, rfl, _, List.mem_singleton_self _, rfl, by decide⟩
  obtain ⟨s, hs, hkeys, m, hm, hkey, hnow⟩ := hrun
  refine ⟨s, hs, m, hm, ?_⟩
  have hfree : s.CollisionFree keyedHmac := by
    apply collisionFree_keyedHmac
    rw [hkeys]
    decide
  exact (turn_available_iff keyedHmac 0 [1] s ⟨_, hs⟩ hfree m hm _ hnow).mpr (.inr hkey)

/-- Two rotations within the lifetime of a credential: it is refused almost five minutes before its
expiry. -/
theorem turn_refused_twoRotations :
    ∃ s ∈ Machine.run (TurnService.step keyedHmac) (TurnService.start 0 [1])
        [.mint 0 [97], .rotate second [2], .rotate (2 * second) [3]],
      ∃ m ∈ s.minted, 3 * second < unix m.credential.expiresAt * second ∧
        s.keys.verifyWithExpiry keyedHmac (3 * second) m.credential.username
          m.credential.password = .error .failed := by
  decide +kernel

/-! ## Who can produce what is accepted -/

namespace TurnService

/-- What can be presented: a tag of a key that is not empty and has not leaked was minted. -/
def Presentable (hmac : Hmac) (s : TurnService) (username password : List UInt8) : Prop :=
  ∀ k ∈ s.configured, k ≠ [] → k ∉ s.leaked → KeyPair.verifyWithKey hmac username password k →
    ∃ m ∈ s.minted, m.key = k ∧ m.credential.username = username

/-- A key that is not empty and is current or was replaced at most `TTL` ago. -/
def Allowed (s : TurnService) (now : ℤ) (k : List UInt8) : Prop :=
  k ≠ [] ∧ (k = s.keys.current ∨ ∃ entry ∈ s.retired, entry.1 = k ∧ now - entry.2 ≤ turnTTL)

/-- Whatever is accepted was produced with an allowed key. -/
def Authentic (hmac : Hmac) (s : TurnService) (now : ℤ) : Prop :=
  ∀ username password, s.Presentable hmac username password →
    s.keys.verifyWithExpiry hmac now username password = .ok () →
    ∃ k, s.Allowed now k ∧ KeyPair.verifyWithKey hmac username password k

variable {hmac : Hmac} {s : TurnService} {now : ℤ}

theorem Allowed.configured {k : List UInt8} (h : s.Allowed now k) : k ∈ s.configured := by
  obtain ⟨-, rfl | ⟨entry, hentry, rfl, -⟩⟩ := h
  · exact List.mem_cons_self
  · exact List.mem_cons_of_mem _ (List.mem_map_of_mem hentry)

/-- A user name that has not expired. -/
def freshName (now : ℤ) : List UInt8 := Ascii.intText (unix now + 1) ++ 58 :: []

/-- Whoever has a key that is consulted can have a user name accepted. -/
theorem verifyWithExpiry_freshName (hrange : InRange (unix now + 1)) {k : List UInt8}
    (hk : k = s.keys.current ∨ (s.keys.previous ≠ [] ∧ k = s.keys.previous)) :
    s.keys.verifyWithExpiry hmac now (freshName now)
      (KeyPair.passwordOf hmac k (freshName now)) = .ok () := by
  rw [verifyWithExpiry_ok_iff, verify_ok_iff]
  refine ⟨⟨unix now + 1, scanExpiry_intText ?_ [], ?_⟩, ?_⟩
  · simp only [InRange, unixToInternal] at hrange
    omega
  · rw [expiredAt_iff hrange]
    have := lt_unix_mul now
    simp only [second] at *
    omega
  · rcases hk with rfl | ⟨hne, rfl⟩
    · exact .inl rfl
    · exact .inr ⟨hne, rfl⟩

/-- A key that is consulted, held by others and not allowed breaks authenticity. -/
theorem not_authentic (hfree : s.CollisionFree hmac) (hrange : InRange (unix now + 1))
    {k : List UInt8} (hconf : k ∈ s.configured)
    (hk : k = s.keys.current ∨ (s.keys.previous ≠ [] ∧ k = s.keys.previous))
    (hheld : k = [] ∨ k ∈ s.leaked) (hnot : ¬ s.Allowed now k) : ¬ s.Authentic hmac now := by
  intro hauth
  have hown : KeyPair.verifyWithKey hmac (freshName now)
      (KeyPair.passwordOf hmac k (freshName now)) k := rfl
  have hpresentable : s.Presentable hmac (freshName now)
      (KeyPair.passwordOf hmac k (freshName now)) := by
    intro k' hk' hne hsecret hverify
    obtain rfl := hfree.eq hconf hk' hown hverify
    rcases hheld with hnil | hleaked
    · exact absurd hnil hne
    · exact absurd hleaked hsecret
  obtain ⟨k', hallowed, hverify⟩ :=
    hauth _ _ hpresentable (verifyWithExpiry_freshName hrange hk)
  obtain rfl := hfree.eq hconf hallowed.configured hown hverify
  exact hnot hallowed

/-- A credential of the previous key that was minted has not expired, so the key was replaced less
than `TTL` ago. -/
theorem Inv.allowed_of_minted (h : s.Inv hmac) {m : Minted} (hm : m ∈ s.minted)
    {password : List UInt8}
    (hok : s.keys.verifyWithExpiry hmac now m.credential.username password = .ok ()) :
    s.Allowed now m.key := by
  obtain ⟨⟨expireUnix, hscan, hfresh⟩, -⟩ := verifyWithExpiry_ok_iff.mp hok
  obtain ⟨hscan', hrange⟩ := h.scanExpiry hm
  obtain rfl : unix m.credential.expiresAt = expireUnix :=
    Option.some.inj (hscan'.symm.trans hscan)
  rw [expiredAt_iff hrange, not_lt, (h.written m hm).1] at hfresh
  have hnow := hfresh.trans (unix_mul_le _)
  obtain ⟨hne, -, -, hcurrent | ⟨entry, hentry, hkey, htime⟩⟩ := h.minted m hm
  · exact ⟨hne, .inl hcurrent⟩
  · exact ⟨hne, .inr ⟨entry, hentry, hkey, by omega⟩⟩

end TurnService

/-- Only credentials of allowed keys are accepted if and only if the current key is not empty and
the previous one, if it is another key and known to others, was replaced at most `TTL` ago. -/
theorem turn_authentic_iff (hmac : Hmac) (first : ℤ) (key : List UInt8) (s : TurnService)
    (hreach : Machine.Reachable (TurnService.step hmac) (TurnService.start first key) s)
    (hfree : s.CollisionFree hmac) (now : ℤ) (hrange : InRange (unix now + 1)) :
    s.Authentic hmac now ↔ s.keys.current ≠ [] ∧
      (s.keys.previous = [] ∨ s.keys.previous = s.keys.current ∨ s.keys.previous ∉ s.leaked ∨
        now - s.keys.rotatedAt ≤ turnTTL) := by
  have hinv := TurnService.inv_of_reachable hreach
  constructor
  · intro hauth
    refine ⟨fun hnil => ?_, ?_⟩
    · exact TurnService.not_authentic hfree hrange List.mem_cons_self (.inl rfl) (.inl hnil)
        (fun h => h.1 hnil) hauth
    · by_contra hnot
      simp only [not_or, not_not, not_le] at hnot
      obtain ⟨hne, hother, hleaked, hold⟩ := hnot
      refine TurnService.not_authentic hfree hrange (hinv.previous_configured hne)
        (.inr ⟨hne, rfl⟩) (.inr hleaked) ?_ hauth
      rintro ⟨-, hcurrent | ⟨entry, hentry, -, hrecent⟩⟩
      · exact hother hcurrent
      · have := hinv.retired entry hentry
        omega
  · rintro ⟨hcurrent, hprevious⟩ username password hpresentable hok
    rcases verify_ok_iff.mp (verifyWithExpiry_ok_iff.mp hok).2 with hverify | ⟨hne, hverify⟩
    · exact ⟨_, ⟨hcurrent, .inl rfl⟩, hverify⟩
    · refine ⟨_, ?_, hverify⟩
      rcases hprevious with hnil | hsame | hsecret | hrecent
      · exact absurd hnil hne
      · exact ⟨hne, .inl hsame⟩
      · obtain ⟨m, hm, hkey, rfl⟩ :=
          hpresentable _ (hinv.previous_configured hne) hne hsecret hverify
        rw [← hkey]
        exact hinv.allowed_of_minted hm hok
      · exact ⟨hne, .inr ⟨_, hinv.previous.resolve_left hne, rfl, hrecent⟩⟩

/-- One minute after a rotation, with the old key leaked. -/
theorem turn_authentic_oneMinute :
    ∃ s, Machine.run (TurnService.step keyedHmac) (TurnService.start 0 [1])
        [.rotate second [2], .leak [1]] = some s ∧ s.Authentic keyedHmac (61 * second) := by
  refine ⟨_, rfl, ?_⟩
  apply (turn_authentic_iff keyedHmac 0 [1] _ ⟨[.rotate second [2], .leak [1]], rfl⟩ ?_ _ ?_).mpr
  · exact ⟨by decide, .inr (.inr (.inr (by decide)))⟩
  · exact collisionFree_keyedHmac (by decide)
  · decide

/-- Without a key anyone's credentials are accepted, and an hour after a rotation those of the old
key still are. -/
theorem turn_accepts_empty_and_old_key :
    ¬ (TurnService.start 0 []).Authentic keyedHmac 0 ∧
    ∃ s, Machine.run (TurnService.step keyedHmac) (TurnService.start 0 [1])
        [.rotate second [2], .leak [1]] = some s ∧ ¬ s.Authentic keyedHmac (3601 * second) := by
  refine ⟨?_, _, rfl, ?_⟩
  · exact TurnService.not_authentic (k := []) (collisionFree_keyedHmac (by decide)) (by decide)
      (by decide) (.inl rfl) (.inl rfl) (fun h => h.1 rfl)
  · refine TurnService.not_authentic (k := [1]) (collisionFree_keyedHmac (by decide)) (by decide)
      (by decide) (.inr (by decide)) (.inr (by decide)) ?_
    rintro ⟨-, hcurrent | ⟨entry, hentry, -, hrecent⟩⟩
    · exact absurd hcurrent (by decide)
    · obtain rfl := List.mem_singleton.mp hentry
      exact absurd hrecent (by decide)

end ChessRecast.Signaling
