import ChessRecast.Lib.Bytes

/-!
# The frame cipher (`AeadCipher` in `identity.dart`)

A frame is sealed under a nonce made of a salt, the direction and a sequence number: the plaintext
is combined with a keystream, and a tag over nonce, associated data and ciphertext is appended. Both
keystream and tag are HMAC-SHA256 under one key; nothing is assumed of `Hmac` but the length of its
digests. An exception does not undo what the cipher has already written, so `encrypt` and `decrypt`
return a result and the cipher after it.

`decrypt` moves the window before it looks at the tag, so a frame that fails still moves it
(`forged_frames_iff`).
-/

namespace ChessRecast.P2P

/-- `Hmac(sha256, key).convert(data)` -/
structure Hmac where
  convert : List UInt8 → List UInt8 → List UInt8
  length_convert : ∀ key data, (convert key data).length = 32

/-- What `encrypt` and `decrypt` throw: the three errors of the source, and that of `setRange` for a
salt that is too short. -/
inductive AeadError where
  | seqCeilingReached
  | outOfSequence (received lastSeen : ℤ)
  | aeadDecrypt
  | tooFew
deriving DecidableEq, Repr

structure AeadCipher where
  key : List UInt8
  salt15 : List UInt8
  direction : ℤ
  seq : ℤ := 0
  lastSeenSeq : ℤ := -1
deriving DecidableEq, Repr

/-- The arguments of `decrypt`. -/
structure AeadFrame where
  ciphertext : List UInt8
  aad : List UInt8
  seq : ℤ
deriving DecidableEq, Repr

namespace AeadCipher

def kSeqCeiling : ℤ := 2 ^ 62

/-- The 24 bytes of `_buildNonce`; `seq` is a 64-bit integer. -/
def nonce (c : AeadCipher) (seq : ℤ) : List UInt8 :=
  c.salt15.take 15 ++ [UInt8.ofNat (c.direction % 256).toNat] ++
    Bytes.toBE 8 (seq % 2 ^ 64).toNat

def buildNonce (c : AeadCipher) (seq : ℤ) : Except AeadError (List UInt8) :=
  if c.salt15.length < 15 then .error .tooFew else .ok (c.nonce seq)

/-- The loops that combine a text with the keystream. -/
def xorKeystream (keystream text : List UInt8) : List UInt8 :=
  text.mapIdx fun i b => b ^^^ keystream.getD (i % 32) 0

def ct (hmac : Hmac) (c : AeadCipher) (nonce plaintext : List UInt8) : List UInt8 :=
  xorKeystream (hmac.convert c.key nonce) plaintext

def encrypt (hmac : Hmac) (c : AeadCipher) (plaintext aad : List UInt8) :
    Except AeadError (List UInt8) × AeadCipher :=
  if c.seq ≥ kSeqCeiling then (.error .seqCeilingReached, c)
  else
    match c.buildNonce c.seq with
    | .error e => (.error e, c)
    | .ok nonce =>
      let ct := c.ct hmac nonce plaintext
      let tag := hmac.convert c.key (nonce ++ aad ++ ct)
      (.ok (ct ++ tag), { c with seq := c.seq + 1 })

/-- The loop that compares two tags. -/
def tagDiff (tag expectedTag : List UInt8) : UInt8 :=
  (tag.zip expectedTag).foldl (fun diff p => diff ||| (p.1 ^^^ p.2)) 0

def decrypt (hmac : Hmac) (c : AeadCipher) (f : AeadFrame) :
    Except AeadError (List UInt8) × AeadCipher :=
  if f.seq ≤ c.lastSeenSeq then (.error (.outOfSequence f.seq c.lastSeenSeq), c)
  else
    let c := { c with lastSeenSeq := f.seq }
    if f.ciphertext.length < 32 then (.error .aeadDecrypt, c)
    else
      let ct := f.ciphertext.take (f.ciphertext.length - 32)
      let tag := f.ciphertext.drop (f.ciphertext.length - 32)
      match c.buildNonce f.seq with
      | .error e => (.error e, c)
      | .ok nonce =>
        let expectedTag := hmac.convert c.key (nonce ++ f.aad ++ ct)
        if tagDiff tag expectedTag ≠ 0 then (.error .aeadDecrypt, c)
        else (.ok (xorKeystream (hmac.convert c.key nonce) ct), c)

/-- Frames one after another, with what `decrypt` returns or throws for each. -/
def decryptAll (hmac : Hmac) (c : AeadCipher) :
    List AeadFrame → List (Except AeadError (List UInt8)) × AeadCipher
  | [] => ([], c)
  | f :: fs =>
    let (result, c) := c.decrypt hmac f
    let (results, c) := c.decryptAll hmac fs
    (result :: results, c)

/-! ## Tags, keystreams and nonces -/

theorem foldl_tagDiff (a : List UInt8) : ∀ (b : List UInt8) (diff : UInt8), a.length = b.length →
    ((a.zip b).foldl (fun diff p => diff ||| (p.1 ^^^ p.2)) diff = 0 ↔ diff = 0 ∧ a = b) := by
  induction a with
  | nil =>
    intro b diff hlen
    obtain rfl := List.length_eq_zero_iff.mp hlen.symm
    simp
  | cons x a ih =>
    intro b diff hlen
    cases b with
    | nil => cases hlen
    | cons y b =>
      rw [List.zip_cons_cons, List.foldl_cons, ih b _ (Nat.succ.inj hlen)]
      simp only [UInt8.or_eq_zero_iff, UInt8.xor_eq_zero_iff, List.cons.injEq]
      exact and_assoc

theorem tagDiff_eq_zero_iff {a b : List UInt8} (hlen : a.length = b.length) :
    tagDiff a b = 0 ↔ a = b := by
  unfold tagDiff
  rw [foldl_tagDiff a b 0 hlen]
  simp

@[simp] theorem length_xorKeystream (keystream text : List UInt8) :
    (xorKeystream keystream text).length = text.length := by
  simp [xorKeystream]

@[simp] theorem xorKeystream_xorKeystream (keystream text : List UInt8) :
    xorKeystream keystream (xorKeystream keystream text) = text := by
  unfold xorKeystream
  rw [List.mapIdx_mapIdx]
  apply List.ext_getElem
  · simp
  · intro i _ _
    simp only [List.getElem_mapIdx, Function.comp_apply, UInt8.xor_assoc, UInt8.xor_self,
      UInt8.xor_zero]

variable {hmac : Hmac} {c : AeadCipher} {f : AeadFrame}

@[simp] theorem ct_ct (nonce plaintext : List UInt8) :
    c.ct hmac nonce (c.ct hmac nonce plaintext) = plaintext :=
  xorKeystream_xorKeystream _ _

theorem length_nonce (hsalt : ¬ c.salt15.length < 15) (seq : ℤ) : (c.nonce seq).length = 24 := by
  simp only [nonce, List.length_append, List.length_take, List.length_singleton, Bytes.length_toBE]
  omega

theorem nonce_inj {seq seq' : ℤ} (hseq : 0 ≤ seq ∧ seq < 2 ^ 64) (hseq' : 0 ≤ seq' ∧ seq' < 2 ^ 64)
    (h : c.nonce seq = c.nonce seq') : seq = seq' := by
  have hbytes : Bytes.toBE 8 (seq % 2 ^ 64).toNat = Bytes.toBE 8 (seq' % 2 ^ 64).toNat :=
    List.append_cancel_left h
  have hnat := congrArg Bytes.ofBE hbytes
  rw [Bytes.ofBE_toBE (by norm_num; omega), Bytes.ofBE_toBE (by norm_num; omega)] at hnat
  omega

/-! ## What the two calls do -/

/-- A frame as `encrypt` returns it under the number `seq`. -/
def sealed (hmac : Hmac) (c : AeadCipher) (plaintext aad : List UInt8) (seq : ℤ) : AeadFrame where
  ciphertext := c.ct hmac (c.nonce seq) plaintext ++
    hmac.convert c.key (c.nonce seq ++ aad ++ c.ct hmac (c.nonce seq) plaintext)
  aad := aad
  seq := seq

/-- The input of the tag that `decrypt` expects of a frame. -/
def tagInput (c : AeadCipher) (f : AeadFrame) : List UInt8 :=
  c.nonce f.seq ++ f.aad ++ f.ciphertext.take (f.ciphertext.length - 32)

/-- The frame ends with the tag that `decrypt` expects. -/
def Verifies (hmac : Hmac) (c : AeadCipher) (f : AeadFrame) : Prop :=
  ¬ c.salt15.length < 15 ∧ ¬ f.ciphertext.length < 32 ∧
    f.ciphertext.drop (f.ciphertext.length - 32) = hmac.convert c.key (c.tagInput f)

instance : Decidable (c.Verifies hmac f) := inferInstanceAs (Decidable (_ ∧ _ ∧ _))

theorem encrypt_ok_iff {plaintext aad ciphertext : List UInt8} :
    (c.encrypt hmac plaintext aad).1 = .ok ciphertext ↔
      c.seq < kSeqCeiling ∧ ¬ c.salt15.length < 15 ∧
        ciphertext = (c.sealed hmac plaintext aad c.seq).ciphertext := by
  unfold encrypt buildNonce
  by_cases hceil : c.seq ≥ kSeqCeiling
  · simp [hceil, not_lt.mpr hceil]
  · by_cases hsalt : c.salt15.length < 15
    · simp [hceil, hsalt]
    · rw [if_neg hceil, if_neg hsalt]
      simp [not_le.mp hceil, hsalt, sealed, eq_comm]

theorem encrypt_snd_of_ok {plaintext aad ciphertext : List UInt8}
    (h : (c.encrypt hmac plaintext aad).1 = .ok ciphertext) :
    (c.encrypt hmac plaintext aad).2 = { c with seq := c.seq + 1 } := by
  obtain ⟨hceil, hsalt, -⟩ := encrypt_ok_iff.mp h
  unfold encrypt buildNonce
  rw [if_neg (not_le.mpr hceil), if_neg hsalt]

theorem encrypt_snd_of_error {plaintext aad : List UInt8} {e : AeadError}
    (h : (c.encrypt hmac plaintext aad).1 = .error e) : (c.encrypt hmac plaintext aad).2 = c := by
  unfold encrypt buildNonce at h ⊢
  split_ifs at h ⊢
  · rfl
  · rfl

/-- The window moves whatever comes of the frame. -/
theorem decrypt_snd : (c.decrypt hmac f).2 = { c with lastSeenSeq := max c.lastSeenSeq f.seq } := by
  unfold decrypt buildNonce
  by_cases hseq : f.seq ≤ c.lastSeenSeq
  · rw [if_pos hseq, max_eq_left hseq]
  · rw [if_neg hseq, max_eq_right (not_le.mp hseq).le]
    dsimp only
    by_cases hlen : f.ciphertext.length < 32
    · rw [if_pos hlen]
    · rw [if_neg hlen]
      by_cases hsalt : c.salt15.length < 15
      · rw [if_pos hsalt]
      · rw [if_neg hsalt]
        dsimp only
        split_ifs <;> rfl

theorem decrypt_ok_iff {plaintext : List UInt8} :
    (c.decrypt hmac f).1 = .ok plaintext ↔ c.lastSeenSeq < f.seq ∧ c.Verifies hmac f ∧
      plaintext = c.ct hmac (c.nonce f.seq) (f.ciphertext.take (f.ciphertext.length - 32)) := by
  unfold decrypt buildNonce Verifies
  by_cases hseq : f.seq ≤ c.lastSeenSeq
  · simp [hseq, not_lt.mpr hseq]
  · rw [if_neg hseq]
    dsimp only
    by_cases hlen : f.ciphertext.length < 32
    · simp [hlen]
    · rw [if_neg hlen]
      by_cases hsalt : c.salt15.length < 15
      · simp [hsalt]
      · rw [if_neg hsalt]
        dsimp only
        have htag : tagDiff (f.ciphertext.drop (f.ciphertext.length - 32))
            (hmac.convert c.key (c.tagInput f)) = 0 ↔ _ := tagDiff_eq_zero_iff (by
          rw [List.length_drop, hmac.length_convert]
          omega)
        show (if tagDiff _ (hmac.convert c.key (c.tagInput f)) ≠ 0 then _ else _ : _ × _).1 = _ ↔ _
        simp only [ne_eq, htag, hlen, hsalt, not_le.mp hseq, not_false_eq_true, true_and]
        by_cases heq : f.ciphertext.drop (f.ciphertext.length - 32) =
            hmac.convert c.key (c.tagInput f)
        · rw [if_neg (not_not.mpr heq)]
          simp [heq, ct, nonce, eq_comm]
        · simp [heq]

/-- Two ciphers of one key, salt and direction. -/
structure SameKeys (c c' : AeadCipher) : Prop where
  key : c.key = c'.key
  salt15 : c.salt15 = c'.salt15
  direction : c.direction = c'.direction

theorem SameKeys.nonce {c' : AeadCipher} (h : c.SameKeys c') (seq : ℤ) :
    c.nonce seq = c'.nonce seq := by
  simp only [AeadCipher.nonce, h.salt15, h.direction]

theorem SameKeys.ct {c' : AeadCipher} (h : c.SameKeys c') (nonce plaintext : List UInt8) :
    c.ct hmac nonce plaintext = c'.ct hmac nonce plaintext := by
  simp only [AeadCipher.ct, h.key]

theorem SameKeys.sealed {c' : AeadCipher} (h : c.SameKeys c') (plaintext aad : List UInt8)
    (seq : ℤ) :
    c.sealed hmac plaintext aad seq = c'.sealed hmac plaintext aad seq := by
  simp only [AeadCipher.sealed, h.nonce, h.ct, h.key]

theorem take_sealed (plaintext aad : List UInt8) (seq : ℤ) :
    (c.sealed hmac plaintext aad seq).ciphertext.take
      ((c.sealed hmac plaintext aad seq).ciphertext.length - 32) =
    c.ct hmac (c.nonce seq) plaintext := by
  simp [sealed, hmac.length_convert]

theorem verifies_sealed (hsalt : ¬ c.salt15.length < 15) (plaintext aad : List UInt8) (seq : ℤ) :
    c.Verifies hmac (c.sealed hmac plaintext aad seq) := by
  refine ⟨hsalt, ?_, ?_⟩
  · simp [sealed, hmac.length_convert]
  · rw [tagInput, take_sealed]
    simp [sealed, hmac.length_convert]

/-- A sealed frame is accepted, with its plaintext, exactly if the window has not passed it. -/
theorem decrypt_sealed (hsalt : ¬ c.salt15.length < 15) (plaintext aad : List UInt8) (seq : ℤ) :
    (c.decrypt hmac (c.sealed hmac plaintext aad seq)).1 = .ok plaintext ↔ c.lastSeenSeq < seq := by
  rw [decrypt_ok_iff, take_sealed]
  exact ⟨fun h => h.1, fun h => ⟨h, verifies_sealed hsalt plaintext aad seq, (ct_ct _ _).symm⟩⟩

/-! ## Frames that fail -/

theorem foldl_max_le_iff (fs : List AeadFrame) : ∀ l n : ℤ,
    fs.foldl (fun l f => max l f.seq) l ≤ n ↔ l ≤ n ∧ ∀ f ∈ fs, f.seq ≤ n := by
  induction fs with
  | nil =>
    intro l n
    simp
  | cons f fs ih =>
    intro l n
    rw [List.foldl_cons, ih, max_le_iff, List.forall_mem_cons, and_assoc]

/-- The window after a run is at the greatest number presented. -/
theorem decryptAll_snd (fs : List AeadFrame) : ∀ c : AeadCipher, (c.decryptAll hmac fs).2 =
    { c with lastSeenSeq := fs.foldl (fun l f => max l f.seq) c.lastSeenSeq } := by
  induction fs with
  | nil =>
    intro c
    rfl
  | cons f fs ih =>
    intro c
    show ((c.decrypt hmac f).2.decryptAll hmac fs).2 = _
    rw [ih, decrypt_snd]
    rfl

theorem le_foldl_max (fs : List AeadFrame) (l : ℤ) : l ≤ fs.foldl (fun l f => max l f.seq) l :=
  ((foldl_max_le_iff fs l _).mp le_rfl).1

theorem decryptAll_snd_eq_iff {fs : List AeadFrame} :
    (c.decryptAll hmac fs).2 = c ↔ ∀ f ∈ fs, f.seq ≤ c.lastSeenSeq := by
  have hle := foldl_max_le_iff fs c.lastSeenSeq c.lastSeenSeq
  rw [decryptAll_snd]
  constructor
  · intro h
    exact (hle.mp (congrArg lastSeenSeq h).le).2
  · intro h
    rw [le_antisymm (hle.mpr ⟨le_rfl, h⟩) (le_foldl_max fs c.lastSeenSeq)]

end AeadCipher

/-- Whatever comes of the frames presented: the cipher is as before if and only if none of them has
a number above the window, and a genuine frame that was still to come is accepted if and only if all
of them have smaller numbers. -/
theorem forged_frames_iff (hmac : Hmac) (c : AeadCipher) (forged : List AeadFrame) :
    ((c.decryptAll hmac forged).2 = c ↔ ∀ f ∈ forged, f.seq ≤ c.lastSeenSeq) ∧
    ∀ (sender : AeadCipher) (plaintext aad ciphertext : List UInt8), sender.SameKeys c →
      (sender.encrypt hmac plaintext aad).1 = .ok ciphertext → c.lastSeenSeq < sender.seq →
      (((c.decryptAll hmac forged).2.decrypt hmac ⟨ciphertext, aad, sender.seq⟩).1 = .ok plaintext ↔
        ∀ f ∈ forged, f.seq < sender.seq) := by
  refine ⟨AeadCipher.decryptAll_snd_eq_iff, ?_⟩
  intro sender plaintext aad ciphertext hsame hencrypt hnext
  obtain ⟨-, hsalt, rfl⟩ := AeadCipher.encrypt_ok_iff.mp hencrypt
  set after := (c.decryptAll hmac forged).2 with hafter
  rw [AeadCipher.decryptAll_snd] at hafter
  have hkeys : sender.SameKeys after := by
    rw [hafter]
    exact ⟨hsame.key, hsame.salt15, hsame.direction⟩
  have hframe : (⟨(sender.sealed hmac plaintext aad sender.seq).ciphertext, aad, sender.seq⟩ :
      AeadFrame) = after.sealed hmac plaintext aad sender.seq :=
    hkeys.sealed plaintext aad sender.seq
  have hlast : after.lastSeenSeq = forged.foldl (fun l f => max l f.seq) c.lastSeenSeq := by
    rw [hafter]
  rw [hframe, AeadCipher.decrypt_sealed (by rwa [← hkeys.salt15]), hlast, ← Int.le_sub_one_iff,
    AeadCipher.foldl_max_le_iff]
  simp only [Int.le_sub_one_iff]
  exact and_iff_right hnext

/-- An HMAC for examples: the data, cut or filled up to the length of a digest. -/
def Hmac.sample : Hmac where
  convert _ data := (data ++ List.replicate 32 0).take 32
  length_convert := by simp

/-- A cipher before its first frame. -/
def AeadCipher.sample : AeadCipher :=
  { key := [1], salt15 := List.replicate 15 0, direction := 0 }

/-- An empty frame with the number five: it fails, it moves the window, and the first genuine frame
is then out of sequence. -/
theorem forged_frame_closes_window :
    (AeadCipher.sample.decrypt Hmac.sample ⟨[], [], 5⟩).1 = .error .aeadDecrypt ∧
    (AeadCipher.sample.decrypt Hmac.sample ⟨[], [], 5⟩).2 ≠ AeadCipher.sample ∧
    ∀ plaintext aad ciphertext,
      (AeadCipher.sample.encrypt Hmac.sample plaintext aad).1 = .ok ciphertext →
      (AeadCipher.sample.decrypt Hmac.sample ⟨ciphertext, aad, 0⟩).1 = .ok plaintext ∧
      ((AeadCipher.sample.decrypt Hmac.sample ⟨[], [], 5⟩).2.decrypt Hmac.sample
        ⟨ciphertext, aad, 0⟩).1 = .error (.outOfSequence 0 5) := by
  refine ⟨by decide, by decide, fun plaintext aad ciphertext hencrypt => ⟨?_, rfl⟩⟩
  obtain ⟨-, hsalt, rfl⟩ := AeadCipher.encrypt_ok_iff.mp hencrypt
  exact (AeadCipher.decrypt_sealed hsalt plaintext aad 0).mpr (by decide)

end ChessRecast.P2P
