import ChessRecast.P2P.Rekey

/-!
# The wrapped account key (`WrappedBlob` in `identity.dart`)

A blob is stored in 87 bytes: version, memory in four bytes, iterations in one, parallelism, salt,
ciphertext and tag. `wrap` takes any parameters, and what does not fit into its bytes is cut off
when the blob is stored (`wrapped_blob_survives_iff`).
-/

namespace ChessRecast.P2P

/-- A key of 32 bytes, as the asserts of `wrap` and `unwrap` require. -/
abbrev Key := { bytes : List UInt8 // bytes.length = 32 }

/-- What the calls throw: the `FormatException` of `decode`, the `BlobIntegrityError` of `unwrap`,
and the errors of `setRange` and `sublist` for a salt or a ciphertext that is too short. -/
inductive BlobError where
  | tooShort
  | integrity
  | tooFew
deriving DecidableEq, Repr

structure WrappedBlob where
  kdfVersion : ℤ
  mKib : ℤ
  iterations : ℤ
  salt : List UInt8
  ciphertext : List UInt8
deriving DecidableEq, Repr

namespace WrappedBlob

def kVersion : ℤ := 1

/-- The input of the keystream. -/
def encInput (salt aad : List UInt8) : List UInt8 := salt ++ aad ++ [1]

/-- `wrap`; the text of the keystream is one digest long. -/
def wrap (hmac : Hmac) (accountKey kek : Key) (aad : List UInt8) (mKib iterations : ℤ)
    (salt : List UInt8) : WrappedBlob :=
  let keystream := hmac.convert kek.1 (encInput salt aad)
  let ct := AeadCipher.xorKeystream keystream accountKey.1
  let tag := hmac.convert kek.1 (salt ++ aad ++ ct)
  { kdfVersion := kVersion, mKib, iterations, salt, ciphertext := ct ++ tag }

def unwrap (hmac : Hmac) (b : WrappedBlob) (kek : Key) (aad : List UInt8) :
    Except BlobError (List UInt8) :=
  if b.ciphertext.length < 64 then .error .tooFew
  else
    let ct := b.ciphertext.take 32
    let tag := (b.ciphertext.drop 32).take 32
    let expectedTag := hmac.convert kek.1 (b.salt ++ aad ++ ct)
    if AeadCipher.tagDiff tag expectedTag ≠ 0 then .error .integrity
    else .ok (AeadCipher.xorKeystream (hmac.convert kek.1 (encInput b.salt aad)) ct)

def encode (b : WrappedBlob) : Except BlobError (List UInt8) :=
  if b.salt.length < 16 ∨ b.ciphertext.length < 64 then .error .tooFew
  else .ok ([lowByte b.kdfVersion] ++ Bytes.toBE 4 (b.mKib % 2 ^ 32).toNat ++
    [lowByte b.iterations] ++ [1] ++ b.salt.take 16 ++ b.ciphertext.take 64)

def decode (data : List UInt8) : Except BlobError WrappedBlob :=
  if data.length < 87 then .error .tooShort
  else .ok
    { kdfVersion := (data.getD 0 0).toNat
      mKib := Bytes.ofBE ((data.drop 1).take 4)
      iterations := (data.getD 5 0).toNat
      salt := (data.drop 7).take 16
      ciphertext := (data.drop 23).take 64 }

variable {hmac : Hmac} {accountKey kek : Key} {aad salt : List UInt8} {mKib iterations : ℤ}

theorem toNat_lowByte (n : ℤ) : ((lowByte n).toNat : ℤ) = n % 256 := by
  unfold lowByte
  rw [UInt8.toNat_ofNat']
  omega

/-- A stored blob comes back with the parts of its parameters that have room in the layout. -/
theorem decode_of_encode {b : WrappedBlob} (hsalt : b.salt.length = 16)
    (hcipher : b.ciphertext.length = 64) : ∃ data, b.encode = .ok data ∧
      decode data = .ok { b with
        kdfVersion := b.kdfVersion % 256
        mKib := b.mKib % 2 ^ 32
        iterations := b.iterations % 256 } := by
  have hmem : (Bytes.toBE 4 (b.mKib % 2 ^ 32).toNat).length = 4 := Bytes.length_toBE ..
  have hvalue : (Bytes.ofBE (Bytes.toBE 4 (b.mKib % 2 ^ 32).toNat) : ℤ) = b.mKib % 2 ^ 32 := by
    rw [Bytes.ofBE_toBE (by norm_num; omega)]
    omega
  unfold encode
  rw [if_neg (by omega), List.take_of_length_le hsalt.le, List.take_of_length_le hcipher.le]
  refine ⟨_, rfl, ?_⟩
  -- the four bytes of the memory by name, so that the offsets can be computed
  generalize hbytes : Bytes.toBE 4 (b.mKib % 2 ^ 32).toNat = bytes at hmem hvalue
  obtain ⟨m₀, m₁, m₂, m₃, rfl⟩ : ∃ m₀ m₁ m₂ m₃, bytes = [m₀, m₁, m₂, m₃] := by
    match bytes, hmem with
    | [m₀, m₁, m₂, m₃], _ => exact ⟨m₀, m₁, m₂, m₃, rfl⟩
  have hdrop : ∀ header : List UInt8, header.length = 7 →
      (header ++ b.salt ++ b.ciphertext).drop 23 = b.ciphertext := by
    intro header hheader
    exact List.drop_left' (by rw [List.length_append, hheader, hsalt])
  have hrest := hdrop ([lowByte b.kdfVersion] ++ [m₀, m₁, m₂, m₃] ++ [lowByte b.iterations]
    ++ [1]) rfl
  unfold decode
  rw [if_neg (by simp [hsalt, hcipher]), hrest, List.take_of_length_le hcipher.le]
  simp only [List.cons_append, List.nil_append, List.drop_succ_cons, List.drop_zero,
    List.getD_cons_zero, List.getD_cons_succ, List.take_succ_cons, List.take_zero, hvalue,
    toNat_lowByte, List.take_left' hsalt]

theorem length_ciphertext_wrap :
    (wrap hmac accountKey kek aad mKib iterations salt).ciphertext.length = 64 := by
  simp only [wrap, List.length_append, AeadCipher.length_xorKeystream, accountKey.2,
    hmac.length_convert]

/-- `unwrap` reads neither version nor parameters. -/
theorem unwrap_of_wrap {b : WrappedBlob} (hsalt : b.salt = salt)
    (hcipher : b.ciphertext = (wrap hmac accountKey kek aad mKib iterations salt).ciphertext) :
    b.unwrap hmac kek aad = .ok accountKey.1 := by
  have hlen : b.ciphertext.length = 64 := by
    rw [hcipher]
    exact length_ciphertext_wrap
  have hct : (AeadCipher.xorKeystream (hmac.convert kek.1 (encInput salt aad))
      accountKey.1).length = 32 := by
    rw [AeadCipher.length_xorKeystream, accountKey.2]
  unfold unwrap
  rw [if_neg (by omega), hcipher, hsalt]
  simp only [wrap, List.take_left' hct, List.drop_left' hct,
    List.take_of_length_le (hmac.length_convert ..).le]
  rw [if_neg (not_not.mpr ((AeadCipher.tagDiff_eq_zero_iff rfl).mpr rfl)),
    AeadCipher.xorKeystream_xorKeystream]

/-- A wrapped key comes back from storage as the blob that it was, and unwraps to the account key,
exactly if neither memory nor iterations are negative and the iterations fit into a byte. -/
theorem wrapped_blob_survives_iff (hmac : Hmac) (accountKey kek : Key) (aad salt : List UInt8)
    (mKib iterations : ℤ) (hsalt : salt.length = 16) (hmem : mKib < 2 ^ 32) :
    (∃ data b, (wrap hmac accountKey kek aad mKib iterations salt).encode = .ok data ∧
        decode data = .ok b ∧ b = wrap hmac accountKey kek aad mKib iterations salt ∧
        b.unwrap hmac kek aad = .ok accountKey.1) ↔
      0 ≤ mKib ∧ 0 ≤ iterations ∧ iterations < 256 := by
  obtain ⟨data, hdata, hb⟩ := decode_of_encode
    (b := wrap hmac accountKey kek aad mKib iterations salt) hsalt length_ciphertext_wrap
  constructor
  · rintro ⟨data', b, hdata', hb', heq, -⟩
    rw [hdata, Except.ok.injEq] at hdata'
    rw [← hdata', hb, Except.ok.injEq, heq] at hb'
    have hkib : mKib % 2 ^ 32 = mKib := congrArg WrappedBlob.mKib hb'
    have hiter : iterations % 256 = iterations := congrArg WrappedBlob.iterations hb'
    omega
  · rintro ⟨hkib, hpos, hiter⟩
    refine ⟨data, _, hdata, hb, ?_, unwrap_of_wrap rfl rfl⟩
    have hkib' : mKib % 2 ^ 32 = mKib := Int.emod_eq_of_lt hkib hmem
    have hiter' : iterations % 256 = iterations := Int.emod_eq_of_lt hpos hiter
    simp only [wrap, hkib', hiter', kVersion]
    rfl

/-- A digest function for the two results below. -/
def zeros : Hmac := ⟨fun _ _ => List.replicate 32 0, fun _ _ => rfl⟩

theorem wrapped_blob_survives_default :
    let key : Key := ⟨List.replicate 32 7, rfl⟩
    let blob := wrap zeros key key [] 16384 4 (List.replicate 16 0)
    ∃ data b, blob.encode = .ok data ∧ decode data = .ok b ∧ b = blob ∧
      b.unwrap zeros key [] = .ok key.1 :=
  (wrapped_blob_survives_iff zeros ⟨List.replicate 32 7, rfl⟩ ⟨List.replicate 32 7, rfl⟩ []
    (List.replicate 16 0) 16384 4 rfl (by decide)).mpr (by decide)

/-- 260 iterations come back as 4. -/
theorem wrapped_blob_loses_iterations :
    let key : Key := ⟨List.replicate 32 7, rfl⟩
    let blob := wrap zeros key key [] 16384 260 (List.replicate 16 0)
    blob.iterations = 260 ∧
      (blob.encode.bind decode).map WrappedBlob.iterations = .ok 4 := by
  decide +kernel

end WrappedBlob

end ChessRecast.P2P
