import ChessRecast.Lib.Utf8
import ChessRecast.P2P.Aead

/-!
# Key epochs (`SessionRekey` and `RekeyAadBinding` in `identity.dart`)

A re-key derives a new session master from the previous one and a fresh shared secret and counts the
epoch up. The associated data of a frame names the epoch in its last byte. The counter is not
bounded, so after 256 re-keys the byte is that of the first epoch (`epochs_separated_iff`).
-/

namespace ChessRecast.P2P

/-- `sha256.convert(data).bytes` -/
structure Sha256 where
  convert : List UInt8 → List UInt8
  length_convert : ∀ data, (convert data).length = 32

/-- `value & 0xFF` as it is stored in a byte. -/
def lowByte (value : ℤ) : UInt8 := UInt8.ofNat (value % 256).toNat

/-- `n.setRange(0, 32, source)`, which throws when the source is too short. -/
def first32 (source : List UInt8) : Except AeadError (List UInt8) :=
  if source.length < 32 then .error .tooFew else .ok (source.take 32)

/-! ## The key schedule -/

/-- The loop of `_hkdf`; each round adds 32 bytes, so `length` rounds are enough. -/
def expand (hmac : Hmac) (prk infoBytes : List UInt8) (length : ℕ) :
    ℕ → List UInt8 → List UInt8 → ℕ → List UInt8
  | 0, okm, _, _ => okm
  | rounds + 1, okm, prev, counter =>
    if okm.length < length then
      let prev := hmac.convert prk (prev ++ infoBytes ++ [UInt8.ofNat counter])
      expand hmac prk infoBytes length rounds (okm ++ prev) prev (counter + 1)
    else okm

def hkdf (hmac : Hmac) (inputKeyMaterial salt : List UInt8) (info : List Char) (length : ℕ) :
    List UInt8 :=
  let saltKey := if salt = [] then List.replicate 32 0 else salt
  let prk := hmac.convert saltKey inputKeyMaterial
  (expand hmac prk (Utf8.encode info) length length [] [] 1).take length

def sharedSecret (sha256 : Sha256) (myPrivateKey theirPublicKey : List UInt8) :
    Except AeadError (List UInt8) := do
  let mine ← first32 myPrivateKey
  let theirs ← first32 theirPublicKey
  return sha256.convert (mine ++ theirs)

theorem le_length_expand (hmac : Hmac) (prk infoBytes : List UInt8) (length : ℕ) :
    ∀ (rounds : ℕ) (okm prev : List UInt8) (counter : ℕ), length ≤ rounds * 32 + okm.length →
      length ≤ (expand hmac prk infoBytes length rounds okm prev counter).length := by
  intro rounds
  induction rounds with
  | zero =>
    intro okm prev counter h
    simpa [expand] using h
  | succ rounds ih =>
    intro okm prev counter h
    rw [expand]
    by_cases hshort : okm.length < length
    · rw [if_pos hshort]
      apply ih
      rw [List.length_append, hmac.length_convert]
      omega
    · rw [if_neg hshort]
      exact not_lt.mp hshort

theorem length_hkdf (hmac : Hmac) (inputKeyMaterial salt : List UInt8) (info : List Char)
    (length : ℕ) : (hkdf hmac inputKeyMaterial salt info length).length = length := by
  unfold hkdf
  rw [List.length_take]
  exact min_eq_left (le_length_expand hmac _ _ length length [] [] 1 (by omega))

/-! ## Re-keying -/

structure RekeyResult where
  newSessionMaster : List UInt8
  keygenCounter : ℤ
deriving DecidableEq, Repr

/-- The arguments of `rekey`. -/
structure RekeyRound where
  prevSessionMaster : List UInt8
  myNewPrivateKey : List UInt8
  theirNewPublicKey : List UInt8
deriving DecidableEq, Repr

structure SessionRekey where
  keygenCounter : ℤ := 0
deriving DecidableEq, Repr

namespace SessionRekey

/-- What `rekey` computes before it counts. -/
def newMaster (hmac : Hmac) (sha256 : Sha256) (round : RekeyRound) :
    Except AeadError (List UInt8) := do
  let newEcdh ← sharedSecret sha256 round.myNewPrivateKey round.theirNewPublicKey
  let master ← first32 round.prevSessionMaster
  let ecdh ← first32 newEcdh
  return hkdf hmac (master ++ ecdh) [] "chessrecast/p2p/v1/rekey".toList 32

/-- `rekey`: the result, the previous master as the call leaves it, and the counter. -/
def rekey (hmac : Hmac) (sha256 : Sha256) (r : SessionRekey) (round : RekeyRound) :
    Except AeadError RekeyResult × List UInt8 × SessionRekey :=
  match newMaster hmac sha256 round with
  | .error e => (.error e, round.prevSessionMaster, r)
  | .ok newSessionMaster =>
    let keygenCounter := r.keygenCounter + 1
    (.ok { newSessionMaster, keygenCounter },
      List.replicate round.prevSessionMaster.length 0, { keygenCounter })

/-- The calls of one session. -/
def rekeyAll (hmac : Hmac) (sha256 : Sha256) (r : SessionRekey) (rounds : List RekeyRound) :
    SessionRekey :=
  rounds.foldl (fun r round => (r.rekey hmac sha256 round).2.2) r

end SessionRekey

/-- All three arguments have the 32 bytes that `rekey` reads. -/
def RekeyRound.Complete (round : RekeyRound) : Prop :=
  32 ≤ round.prevSessionMaster.length ∧ 32 ≤ round.myNewPrivateKey.length ∧
    32 ≤ round.theirNewPublicKey.length

instance (round : RekeyRound) : Decidable round.Complete := inferInstanceAs (Decidable (_ ∧ _ ∧ _))

def buildAad (wireVersion frameType : ℤ) (sessionId : List UInt8) (keygenCounter : ℤ) :
    List UInt8 :=
  [lowByte wireVersion, lowByte frameType] ++ sessionId ++ [lowByte keygenCounter]

/-! ## Epochs -/

theorem first32_ok {source : List UInt8} (h : 32 ≤ source.length) :
    first32 source = .ok (source.take 32) :=
  if_neg (not_lt.mpr h)

theorem first32_error {source : List UInt8} (h : ¬ 32 ≤ source.length) :
    first32 source = .error .tooFew :=
  if_pos (not_le.mp h)

section

variable {hmac : Hmac} {sha256 : Sha256} {round : RekeyRound} {r : SessionRekey}

/-- A re-key succeeds, with a master of 32 bytes, exactly if its arguments are long enough. -/
theorem newMaster_of_complete (h : round.Complete) :
    ∃ master, SessionRekey.newMaster hmac sha256 round = .ok master ∧ master.length = 32 := by
  obtain ⟨hprev, hmine, htheirs⟩ := h
  have hok : SessionRekey.newMaster hmac sha256 round = .ok (hkdf hmac
      (round.prevSessionMaster.take 32 ++ (sha256.convert (round.myNewPrivateKey.take 32 ++
        round.theirNewPublicKey.take 32)).take 32) [] "chessrecast/p2p/v1/rekey".toList 32) := by
    unfold SessionRekey.newMaster sharedSecret
    rw [first32_ok hmine, first32_ok htheirs, first32_ok hprev]
    simp only [bind, Except.bind, pure, Except.pure]
    rw [first32_ok (sha256.length_convert _).ge]
  exact ⟨_, hok, length_hkdf ..⟩

theorem newMaster_of_not_complete (h : ¬ round.Complete) :
    SessionRekey.newMaster hmac sha256 round = .error .tooFew := by
  unfold SessionRekey.newMaster sharedSecret
  by_cases hmine : 32 ≤ round.myNewPrivateKey.length
  · by_cases htheirs : 32 ≤ round.theirNewPublicKey.length
    · have hprev : ¬ 32 ≤ round.prevSessionMaster.length := fun hprev => h ⟨hprev, hmine, htheirs⟩
      rw [first32_ok hmine, first32_ok htheirs, first32_error hprev]
      rfl
    · rw [first32_ok hmine, first32_error htheirs]
      rfl
  · rw [first32_error hmine]
    rfl

theorem keygenCounter_rekey : (r.rekey hmac sha256 round).2.2.keygenCounter =
    r.keygenCounter + if round.Complete then 1 else 0 := by
  unfold SessionRekey.rekey
  by_cases h : round.Complete
  · obtain ⟨master, hok, -⟩ := @newMaster_of_complete hmac sha256 round h
    rw [hok, if_pos h]
  · rw [newMaster_of_not_complete h, if_neg h, add_zero]

theorem keygenCounter_rekeyAll (rounds : List RekeyRound) : ∀ r : SessionRekey,
    (r.rekeyAll hmac sha256 rounds).keygenCounter =
      r.keygenCounter + rounds.countP fun round => round.Complete := by
  induction rounds with
  | nil =>
    intro r
    simp [SessionRekey.rekeyAll]
  | cons round rounds ih =>
    intro r
    show ((r.rekey hmac sha256 round).2.2.rekeyAll hmac sha256 rounds).keygenCounter = _
    rw [ih, keygenCounter_rekey, List.countP_cons]
    by_cases h : round.Complete
    · simp only [h, if_true, decide_true]
      push_cast
      ring
    · simp [h]

end

/-- The epoch names itself in the last byte. -/
theorem buildAad_counter {wv ft wv' ft' k k' : ℤ} {sid sid' : List UInt8}
    (h : buildAad wv ft sid k = buildAad wv' ft' sid' k') : lowByte k = lowByte k' :=
  List.singleton_injective (List.append_inj' h rfl).2

theorem lowByte_inj {k k' : ℤ} (hk : 0 ≤ k ∧ k < 256) (hk' : 0 ≤ k' ∧ k' < 256)
    (h : lowByte k = lowByte k') : k = k' := by
  have hnat := congrArg UInt8.toNat h
  unfold lowByte at hnat
  rw [UInt8.toNat_ofNat', UInt8.toNat_ofNat'] at hnat
  omega

/-- A count that ends at `n` has passed every number below. -/
theorem exists_countP_take {α : Type} (p : α → Bool) (l : List α) : ∀ k ≤ l.countP p,
    ∃ i, (l.take i).countP p = k := by
  induction l with
  | nil =>
    intro k hk
    exact ⟨0, (Nat.le_zero.mp hk).symm⟩
  | cons a l ih =>
    intro k hk
    rw [List.countP_cons] at hk
    cases k with
    | zero => exact ⟨0, rfl⟩
    | succ k =>
      cases ha : p a with
      | true =>
        obtain ⟨i, hi⟩ := ih k (by simpa [ha] using hk)
        exact ⟨i + 1, by simp [ha, hi]⟩
      | false =>
        obtain ⟨i, hi⟩ := ih (k + 1) (by simpa [ha] using hk)
        exact ⟨i + 1, by simp [ha, hi]⟩

/-- The counter after the first `i` calls of a session. -/
def epochAt (hmac : Hmac) (sha256 : Sha256) (rounds : List RekeyRound) (i : ℕ) : ℤ :=
  (({} : SessionRekey).rekeyAll hmac sha256 (rounds.take i)).keygenCounter

/-- No associated data of one epoch is that of another epoch. -/
def EpochsSeparated (hmac : Hmac) (sha256 : Sha256) (rounds : List RekeyRound) : Prop :=
  ∀ i j, epochAt hmac sha256 rounds i ≠ epochAt hmac sha256 rounds j →
    ∀ wireVersion frameType sessionId wireVersion' frameType' sessionId',
      buildAad wireVersion frameType sessionId (epochAt hmac sha256 rounds i) ≠
        buildAad wireVersion' frameType' sessionId' (epochAt hmac sha256 rounds j)

theorem epochAt_eq (hmac : Hmac) (sha256 : Sha256) (rounds : List RekeyRound) (i : ℕ) :
    epochAt hmac sha256 rounds i = ((rounds.take i).countP fun round => round.Complete : ℕ) := by
  rw [epochAt, keygenCounter_rekeyAll]
  exact zero_add _

/-- The epochs of a session are separated if and only if it has at most 255 re-keys that succeed. -/
theorem epochs_separated_iff (hmac : Hmac) (sha256 : Sha256) (rounds : List RekeyRound) :
    EpochsSeparated hmac sha256 rounds ↔ (rounds.countP fun round => round.Complete) ≤ 255 := by
  constructor
  · intro hsep
    by_contra hmany
    -- the epoch 256 is reached, and its byte is that of the epoch zero
    obtain ⟨i, hi⟩ := exists_countP_take (fun round : RekeyRound => round.Complete) rounds
      256 (by omega)
    have hfirst : epochAt hmac sha256 rounds 0 = 0 := by simp [epochAt_eq]
    have hlast : epochAt hmac sha256 rounds i = 256 := by rw [epochAt_eq, hi]; rfl
    apply hsep 0 i (by rw [hfirst, hlast]; decide) 0 0 [] 0 0 []
    rw [hfirst, hlast]
    decide
  · intro hfew i j hne wv ft sid wv' ft' sid' heq
    have hbound : ∀ i, 0 ≤ epochAt hmac sha256 rounds i ∧ epochAt hmac sha256 rounds i < 256 := by
      intro i
      have hle := (List.take_sublist i rounds).countP_le (p := fun round : RekeyRound => round.Complete)
      rw [epochAt_eq]
      omega
    exact hne (lowByte_inj (hbound i) (hbound j) (buildAad_counter heq))

/-- A hash for examples. -/
def Sha256.sample : Sha256 where
  convert data := (data ++ List.replicate 32 0).take 32
  length_convert := by simp

/-- A round with keys of 32 bytes. -/
def RekeyRound.sample : RekeyRound :=
  ⟨List.replicate 32 1, List.replicate 32 2, List.replicate 32 3⟩

/-- After 256 re-keys every frame has the associated data of the first epoch. -/
theorem epoch_byte_wraps :
    epochAt Hmac.sample Sha256.sample (List.replicate 256 RekeyRound.sample) 0 = 0 ∧
    epochAt Hmac.sample Sha256.sample (List.replicate 256 RekeyRound.sample) 256 = 256 ∧
    ∀ wireVersion frameType sessionId,
      buildAad wireVersion frameType sessionId 0 =
        buildAad wireVersion frameType sessionId 256 := by
  have hcount : (List.replicate 256 RekeyRound.sample).countP (fun round => round.Complete) = 256 :=
    List.countP_replicate.trans (if_pos (by decide))
  refine ⟨?_, ?_, fun _ _ _ => rfl⟩
  · rw [epochAt_eq, List.take_zero]
    rfl
  · rw [epochAt_eq, List.take_of_length_le List.length_replicate.le, hcount]
    rfl

end ChessRecast.P2P
