import ChessRecast.Lib.Machine
import ChessRecast.P2P.Aead

/-!
# A channel under attack

One cipher seals, another one of the same key, salt and direction opens, and the network presents
any frames it likes. That HMAC cannot be forged is a restriction on the network: a frame whose tag
verifies has an input that the sender has passed to HMAC. The sender passes nonces as well, for its
keystream, and a keystream is known to whoever knows the plaintext; that no such digest passes for a
tag is due to the associated data, which has a fixed length other than zero.

Frames come out in the order in which they were sealed, each at most once and with its own
associated data (`aead_channel_sound`).
-/

namespace ChessRecast.P2P

/-- A call of `encrypt` that returned. -/
structure Sent where
  plaintext : List UInt8
  frame : AeadFrame
deriving DecidableEq, Repr

/-- What a frame carries. -/
def Sent.content (s : Sent) : List UInt8 × List UInt8 := (s.plaintext, s.frame.aad)

/-- Both ends, the inputs that the sender has passed to HMAC, and what `decrypt` has returned, with
the associated data it was given. -/
structure Channel where
  sender : AeadCipher
  receiver : AeadCipher
  sent : List Sent := []
  macs : List (List UInt8) := []
  delivered : List (List UInt8 × List UInt8) := []
deriving DecidableEq, Repr

inductive ChannelEvent where
  | encrypt (plaintext aad : List UInt8)
  | present (f : AeadFrame)

namespace Channel

/-- Two new ciphers. -/
def create (key salt15 : List UInt8) (direction : ℤ) : Channel where
  sender := { key, salt15, direction }
  receiver := { key, salt15, direction }

/-- The sender seals a frame, or throws. -/
def encrypt (hmac : Hmac) (ch : Channel) (plaintext aad : List UInt8) : Channel :=
  match ch.sender.encrypt hmac plaintext aad with
  | (.ok ciphertext, sender) =>
    let nonce := ch.sender.nonce ch.sender.seq
    { ch with
      sender
      sent := ch.sent ++ [⟨plaintext, ⟨ciphertext, aad, ch.sender.seq⟩⟩]
      macs := ch.macs ++ [nonce, nonce ++ aad ++ ch.sender.ct hmac nonce plaintext] }
  | (.error _, sender) => { ch with sender }

/-- The receiver opens a frame, or throws. -/
def present (hmac : Hmac) (ch : Channel) (f : AeadFrame) : Channel :=
  match ch.receiver.decrypt hmac f with
  | (.ok plaintext, receiver) =>
    { ch with
      receiver
      delivered := ch.delivered ++ [(plaintext, f.aad)] }
  | (.error _, receiver) => { ch with receiver }

/-- What the network can present: associated data of the fixed length, a sequence number that is a
64-bit integer, and no tag for an input that the sender has not passed to HMAC. -/
def Presentable (hmac : Hmac) (aadLength : ℕ) (ch : Channel) (f : AeadFrame) : Prop :=
  f.aad.length = aadLength ∧ (-2 ^ 63 ≤ f.seq ∧ f.seq < 2 ^ 63) ∧
    (ch.receiver.Verifies hmac f → ch.receiver.tagInput f ∈ ch.macs)

instance (hmac : Hmac) (aadLength : ℕ) (ch : Channel) (f : AeadFrame) :
    Decidable (ch.Presentable hmac aadLength f) :=
  inferInstanceAs (Decidable (_ ∧ _ ∧ _))

def step (hmac : Hmac) (aadLength : ℕ) (ch : Channel) : ChannelEvent → Option Channel
  | .encrypt plaintext aad =>
    if aad.length = aadLength then some (ch.encrypt hmac plaintext aad) else none
  | .present f => if ch.Presentable hmac aadLength f then some (ch.present hmac f) else none

/-! ## The invariant -/

/-- Frames are numbered by their position and sealed under that number; what has been delivered
comes, in order, from the frames that the window has passed. -/
structure Inv (hmac : Hmac) (aadLength : ℕ) (base : AeadCipher) (ch : Channel) : Prop where
  sender : ch.sender = { base with seq := ch.sent.length }
  receiver : ch.receiver = { base with lastSeenSeq := ch.receiver.lastSeenSeq }
  window : -1 ≤ ch.receiver.lastSeenSeq
  ceiling : (ch.sent.length : ℤ) ≤ AeadCipher.kSeqCeiling
  salt : ch.sent ≠ [] → ¬ base.salt15.length < 15
  numbered : ∀ (i : ℕ) (s : Sent), ch.sent[i]? = some s → s.frame.seq = i
  sealed : ∀ s ∈ ch.sent, s.frame = base.sealed hmac s.plaintext s.frame.aad s.frame.seq ∧
    s.frame.aad.length = aadLength
  macs : ∀ m ∈ ch.macs, ∃ s ∈ ch.sent, m = base.nonce s.frame.seq ∨ m = base.tagInput s.frame
  delivered : ch.delivered.Sublist
    ((ch.sent.take (ch.receiver.lastSeenSeq + 1).toNat).map Sent.content)

variable {hmac : Hmac} {aadLength : ℕ} {base : AeadCipher} {ch : Channel} {f : AeadFrame}

theorem inv_create (key salt15 : List UInt8) (direction : ℤ) :
    Inv hmac aadLength { key, salt15, direction } (create key salt15 direction) where
  sender := rfl
  receiver := rfl
  window := le_rfl
  ceiling := by simp [create, AeadCipher.kSeqCeiling]
  salt := fun h => absurd rfl h
  numbered := by simp [create]
  sealed := by simp [create]
  macs := by simp [create]
  delivered := List.Sublist.refl _

theorem Inv.seq_range (h : Inv hmac aadLength base ch) {s : Sent} (hs : s ∈ ch.sent) :
    0 ≤ s.frame.seq ∧ s.frame.seq < 2 ^ 62 := by
  obtain ⟨i, hi⟩ := List.mem_iff_getElem?.mp hs
  have hseq := h.numbered i s hi
  have hlt : i < ch.sent.length := (List.getElem?_eq_some_iff.mp hi).1
  have hceil : (ch.sent.length : ℤ) ≤ 2 ^ 62 := h.ceiling
  omega

theorem tagInput_sealed (plaintext aad : List UInt8) (seq : ℤ) :
    base.tagInput (base.sealed hmac plaintext aad seq) =
      base.nonce seq ++ aad ++ base.ct hmac (base.nonce seq) plaintext := by
  rw [AeadCipher.tagInput, AeadCipher.take_sealed]
  rfl

/-! ## Sealing -/

theorem Inv.encrypt (h : Inv hmac aadLength base ch) {plaintext aad : List UInt8}
    (haad : aad.length = aadLength) : Inv hmac aadLength base (ch.encrypt hmac plaintext aad) := by
  unfold Channel.encrypt
  cases hresult : ch.sender.encrypt hmac plaintext aad with
  | mk result sender =>
  have hsnd : (ch.sender.encrypt hmac plaintext aad).2 = sender := by rw [hresult]
  cases result with
  | error e =>
    have hkeep := AeadCipher.encrypt_snd_of_error (congrArg Prod.fst hresult)
    obtain rfl : ch.sender = sender := hkeep.symm.trans hsnd
    exact h
  | ok ciphertext =>
    have hok := congrArg Prod.fst hresult
    obtain ⟨hceil, hsalt, hcipher⟩ := AeadCipher.encrypt_ok_iff.mp hok
    have hsender := (AeadCipher.encrypt_snd_of_ok hok).symm.trans hsnd
    have hseq : ch.sender.seq = ch.sent.length := by rw [h.sender]
    set s : Sent := ⟨plaintext, ⟨ciphertext, aad, ch.sender.seq⟩⟩ with hs
    have hkeys : ch.sender.SameKeys base := by
      rw [h.sender]
      exact ⟨rfl, rfl, rfl⟩
    have hframe : s.frame = base.sealed hmac plaintext aad ch.sender.seq := by
      rw [← hkeys.sealed, hs, hcipher]
      rfl
    refine ⟨?_, h.receiver, h.window, ?_, fun _ => ?_, ?_, ?_, ?_, ?_⟩
    · show sender = _
      rw [← hsender, h.sender]
      simp
    · show ((ch.sent ++ [s]).length : ℤ) ≤ _
      rw [List.length_append, List.length_singleton]
      push_cast
      omega
    · rwa [h.sender] at hsalt
    · intro i s' hget
      rw [List.getElem?_append] at hget
      split_ifs at hget with hlt
      · exact h.numbered i s' hget
      · obtain ⟨hi, rfl⟩ := List.getElem?_eq_some_iff.mp hget
        rw [List.length_singleton] at hi
        simp only [List.getElem_singleton]
        show ch.sender.seq = i
        omega
    · intro s' hs'
      rcases List.mem_append.mp hs' with hs' | hs'
      · exact h.sealed s' hs'
      · rw [List.mem_singleton.mp hs']
        exact ⟨hframe, haad⟩
    · intro m hm
      rcases List.mem_append.mp hm with hm | hm
      · obtain ⟨s', hs', hm⟩ := h.macs m hm
        exact ⟨s', List.mem_append_left _ hs', hm⟩
      · refine ⟨s, List.mem_append_right _ (List.mem_singleton_self s), ?_⟩
        rw [hkeys.nonce, hkeys.ct] at hm
        rw [hframe, tagInput_sealed]
        simpa [AeadCipher.sealed] using hm
    · apply h.delivered.trans
      apply List.Sublist.map
      rw [List.take_append]
      exact List.sublist_append_left _ _

/-! ## Opening -/

/-- A frame that verifies is the one that was sealed under its number. -/
theorem Inv.verified_sent (h : Inv hmac aadLength base ch) (hpos : 0 < aadLength)
    (hshown : ch.Presentable hmac aadLength f) (hnew : ch.receiver.lastSeenSeq < f.seq)
    (hverifies : ch.receiver.Verifies hmac f) :
    ∃ s, ch.sent[f.seq.toNat]? = some s ∧ s.frame.aad = f.aad ∧
      f.ciphertext.take (f.ciphertext.length - 32) =
        base.ct hmac (base.nonce f.seq) s.plaintext := by
  obtain ⟨haad, hrange, hforge⟩ := hshown
  have hinput : base.tagInput f ∈ ch.macs := by
    have hmac := hforge hverifies
    rwa [h.receiver] at hmac
  obtain ⟨s, hs, hnonce | htag⟩ := h.macs _ hinput
  · -- a digest of the keystream is one of 24 bytes
    have hsalt := h.salt (List.ne_nil_of_mem hs)
    have hlen := congrArg List.length hnonce
    simp only [AeadCipher.tagInput, List.length_append, AeadCipher.length_nonce hsalt, haad] at hlen
    omega
  · have hsalt := h.salt (List.ne_nil_of_mem hs)
    obtain ⟨hsealed, hlen⟩ := h.sealed s hs
    rw [hsealed, tagInput_sealed, AeadCipher.tagInput] at htag
    obtain ⟨hhead, hct⟩ := List.append_inj htag (by
      simp [AeadCipher.length_nonce hsalt, haad, hlen])
    obtain ⟨hnonce, haads⟩ := List.append_inj hhead (by simp [AeadCipher.length_nonce hsalt])
    have hwindow := h.window
    have hrange' := h.seq_range hs
    have hseq : f.seq = s.frame.seq :=
      AeadCipher.nonce_inj ⟨by omega, by omega⟩ ⟨by omega, by omega⟩ hnonce
    refine ⟨s, ?_, haads.symm, ?_⟩
    · obtain ⟨i, hi⟩ := List.mem_iff_getElem?.mp hs
      have hi' := h.numbered i s hi
      rwa [show f.seq.toNat = i by omega]
    · rw [hct, hseq]

theorem Inv.present (h : Inv hmac aadLength base ch) (hpos : 0 < aadLength)
    (hshown : ch.Presentable hmac aadLength f) :
    Inv hmac aadLength base (ch.present hmac f) := by
  have hmoved : (ch.receiver.decrypt hmac f).2 =
      { base with lastSeenSeq := max ch.receiver.lastSeenSeq f.seq } := by
    rw [AeadCipher.decrypt_snd, h.receiver]
  unfold Channel.present
  cases hresult : ch.receiver.decrypt hmac f with
  | mk result receiver =>
  rw [hresult] at hmoved
  obtain rfl : receiver = _ := hmoved
  have hwindow : -1 ≤ max ch.receiver.lastSeenSeq f.seq := le_max_of_le_left h.window
  cases result with
  | error e =>
    refine ⟨h.sender, rfl, hwindow, h.ceiling, h.salt, h.numbered, h.sealed, h.macs, ?_⟩
    apply h.delivered.trans
    apply List.Sublist.map
    apply (List.take_sublist_take_left ?_)
    show _ ≤ (max ch.receiver.lastSeenSeq f.seq + 1).toNat
    have := le_max_left ch.receiver.lastSeenSeq f.seq
    omega
  | ok plaintext =>
    refine ⟨h.sender, rfl, hwindow, h.ceiling, h.salt, h.numbered, h.sealed, h.macs, ?_⟩
    obtain ⟨hnew, hverifies, hplain⟩ := AeadCipher.decrypt_ok_iff.mp (congrArg Prod.fst hresult)
    obtain ⟨s, hs, haad, hct⟩ := h.verified_sent hpos hshown hnew hverifies
    have hcontent : (plaintext, f.aad) = s.content := by
      have hkeys : ch.receiver.SameKeys base := by
        rw [h.receiver]
        exact ⟨rfl, rfl, rfl⟩
      rw [hplain, hct, hkeys.nonce, hkeys.ct, AeadCipher.ct_ct, Sent.content, haad]
    have hpassed : (max ch.receiver.lastSeenSeq f.seq + 1).toNat = f.seq.toNat + 1 := by
      have := h.window
      omega
    show (ch.delivered ++ [(plaintext, f.aad)]).Sublist
      ((ch.sent.take (max ch.receiver.lastSeenSeq f.seq + 1).toNat).map Sent.content)
    rw [hpassed, List.take_add_one, hs, List.map_append, hcontent]
    apply List.Sublist.append _ (List.Sublist.refl _)
    apply h.delivered.trans
    apply List.Sublist.map
    apply List.take_sublist_take_left
    omega

theorem Inv.step (h : Inv hmac aadLength base ch) (hpos : 0 < aadLength) {e : ChannelEvent}
    {ch' : Channel} (hstep : ch.step hmac aadLength e = some ch') :
    Inv hmac aadLength base ch' := by
  cases e with
  | encrypt plaintext aad =>
    simp only [Channel.step] at hstep
    split_ifs at hstep with haad
    cases hstep
    exact h.encrypt haad
  | present f =>
    simp only [Channel.step] at hstep
    split_ifs at hstep with hshown
    cases hstep
    exact h.present hpos hshown

/-! ## Frames in order -/

theorem Inv.ascending (h : Inv hmac aadLength base ch) :
    ch.sent.Pairwise fun s s' => s.frame.seq < s'.frame.seq := by
  rw [List.pairwise_iff_getElem]
  intro i j hi hj hij
  rw [h.numbered i _ (List.getElem?_eq_getElem hi), h.numbered j _ (List.getElem?_eq_getElem hj)]
  exact_mod_cast hij

theorem decryptAll_sealed (hsalt : ¬ base.salt15.length < 15) (shown : List Sent)
    (hsealed : ∀ s ∈ shown, s.frame = base.sealed hmac s.plaintext s.frame.aad s.frame.seq)
    (hasc : shown.Pairwise fun s s' => s.frame.seq < s'.frame.seq) :
    ∀ c : AeadCipher, c.SameKeys base → (∀ s ∈ shown, c.lastSeenSeq < s.frame.seq) →
      (c.decryptAll hmac (shown.map Sent.frame)).1 = shown.map fun s => .ok s.plaintext := by
  induction shown with
  | nil =>
    intro c _ _
    rfl
  | cons s shown ih =>
    intro c hkeys hlast
    obtain ⟨hfirst, hrest⟩ := List.pairwise_cons.mp hasc
    have hopen : (c.decrypt hmac s.frame).1 = .ok s.plaintext := by
      rw [hsealed s (by simp), ← hkeys.sealed,
        AeadCipher.decrypt_sealed (by rwa [hkeys.salt15])]
      exact hlast s (by simp)
    have hnext := ih (fun s' hs' => hsealed s' (by simp [hs'])) hrest (c.decrypt hmac s.frame).2
      (by rw [AeadCipher.decrypt_snd]; exact ⟨hkeys.key, hkeys.salt15, hkeys.direction⟩)
      (by
        intro s' hs'
        rw [AeadCipher.decrypt_snd]
        exact max_lt (hlast s' (by simp [hs'])) (hfirst s' hs'))
    show (c.decrypt hmac s.frame).1 :: ((c.decrypt hmac s.frame).2.decryptAll hmac _).1 = _
    rw [hopen, hnext, List.map_cons]

theorem Inv.nonces_nodup (h : Inv hmac aadLength base ch) :
    (ch.sent.map fun s => ch.sender.buildNonce s.frame.seq).Nodup := by
  apply List.pairwise_map.mpr
  apply h.ascending.imp_of_mem
  intro s s' hs hs' hlt heq
  have hsalt : ¬ ch.sender.salt15.length < 15 := by
    rw [h.sender]
    exact h.salt (List.ne_nil_of_mem hs)
  rw [AeadCipher.buildNonce, AeadCipher.buildNonce, if_neg hsalt, if_neg hsalt,
    Except.ok.injEq] at heq
  have hrange := h.seq_range hs
  have hrange' := h.seq_range hs'
  have := AeadCipher.nonce_inj ⟨by omega, by omega⟩ ⟨by omega, by omega⟩ heq
  omega

end Channel

/-- In every run of the channel: what is delivered is a subsequence of what was sealed, with the
associated data it was sealed with; frames presented to a new receiver in the order in which they
were sealed, all or some of them, are all accepted; and no nonce is used twice. -/
theorem aead_channel_sound (hmac : Hmac) (aadLength : ℕ) (hpos : 0 < aadLength)
    (key salt15 : List UInt8) (direction : ℤ) (ch : Channel)
    (h : Machine.Reachable (Channel.step hmac aadLength) (Channel.create key salt15 direction) ch) :
    ch.delivered.Sublist (ch.sent.map Sent.content) ∧
    (∀ shown : List Sent, shown.Sublist ch.sent →
      (({ key, salt15, direction } : AeadCipher).decryptAll hmac (shown.map Sent.frame)).1 =
        shown.map fun s => .ok s.plaintext) ∧
    (ch.sent.map fun s => ch.sender.buildNonce s.frame.seq).Nodup := by
  have hinv : Channel.Inv hmac aadLength { key, salt15, direction } ch :=
    h.invariant (Channel.inv_create key salt15 direction) fun _ _ _ hs hstep => hs.step hpos hstep
  refine ⟨hinv.delivered.trans ((List.take_sublist _ _).map _), fun shown hshown => ?_,
    hinv.nonces_nodup⟩
  cases shown with
  | nil => rfl
  | cons s shown =>
    have hmem : s ∈ ch.sent := hshown.subset (by simp)
    apply Channel.decryptAll_sealed (hinv.salt (List.ne_nil_of_mem hmem)) (s :: shown)
      (fun s' hs' => (hinv.sealed s' (hshown.subset hs')).1) (hinv.ascending.sublist hshown) _
      ⟨rfl, rfl, rfl⟩
    intro s' hs'
    have hrange := hinv.seq_range (hshown.subset hs')
    show (-1 : ℤ) < _
    omega

/-- A frame that is presented twice is delivered once. -/
theorem aead_channel_sound_oneFrame :
    ∃ ch, Machine.run (Channel.step Hmac.sample 1) (Channel.create [1] (List.replicate 15 0) 0)
        [.encrypt [10, 20] [7], .present (AeadCipher.sample.sealed Hmac.sample [10, 20] [7] 0),
          .present (AeadCipher.sample.sealed Hmac.sample [10, 20] [7] 0)] = some ch ∧
      ch.delivered = [([10, 20], [7])] ∧ ch.delivered.Sublist (ch.sent.map Sent.content) := by
  have hrun : ∃ ch, Machine.run (Channel.step Hmac.sample 1)
      (Channel.create [1] (List.replicate 15 0) 0)
      [.encrypt [10, 20] [7], .present (AeadCipher.sample.sealed Hmac.sample [10, 20] [7] 0),
        .present (AeadCipher.sample.sealed Hmac.sample [10, 20] [7] 0)] = some ch ∧
      ch.delivered = [([10, 20], [7])] := ⟨_, rfl, rfl⟩
  obtain ⟨ch, hch, hdelivered⟩ := hrun
  exact ⟨ch, hch, hdelivered, (aead_channel_sound _ 1 (by decide) _ _ _ ch ⟨_, hch⟩).1⟩

end ChessRecast.P2P
