import ChessRecast.Lib.Bytes
import Mathlib.Data.Sym.Sym2

/-!
# The session id of a handshake (`frame.dart`, `SessionIdDeriver`)

Both peers hash the two ephemeral keys and the two nonces, each pair in byte order. SHA-256 is a
parameter: the results below hold for every hash function, where needed an injective one.

Since keys and nonces are sorted on their own, the id does not say which nonce came with which
key.
-/

namespace ChessRecast.P2P

/-- What the two HELLO messages bring: 32-byte ephemeral keys and nonces of one length. -/
structure Handshake where
  ephPubA : List UInt8
  ephPubB : List UInt8
  nonceA : List UInt8
  nonceB : List UInt8
  length_ephPubA : ephPubA.length = 32
  length_ephPubB : ephPubB.length = 32
  length_nonceB : nonceB.length = nonceA.length

namespace SessionIdDeriver

def lex (a b : List UInt8) : ℤ := Bytes.lexCmp a b

/-- The bytes that `derive` hashes. -/
def input (ephPubA ephPubB nonceA nonceB : List UInt8) : List UInt8 :=
  let mn1 := if lex ephPubA ephPubB ≤ 0 then ephPubA else ephPubB
  let mx1 := if lex ephPubA ephPubB ≤ 0 then ephPubB else ephPubA
  let mn2 := if lex nonceA nonceB ≤ 0 then nonceA else nonceB
  let mx2 := if lex nonceA nonceB ≤ 0 then nonceB else nonceA
  mn1 ++ mx1 ++ mn2 ++ mx2

def derive (sha256 : List UInt8 → List UInt8) (ephPubA ephPubB nonceA nonceB : List UInt8) :
    List UInt8 :=
  sha256 (input ephPubA ephPubB nonceA nonceB)

end SessionIdDeriver

namespace Handshake

open SessionIdDeriver

variable {sha256 : List UInt8 → List UInt8} {h h' : Handshake}

/-- The id that a peer derives from a handshake. -/
def sessionId (sha256 : List UInt8 → List UInt8) (h : Handshake) : List UInt8 :=
  derive sha256 h.ephPubA h.ephPubB h.nonceA h.nonceB

/-- The same handshake as the other peer sees it. -/
def exchanged (h : Handshake) : Handshake where
  ephPubA := h.ephPubB
  ephPubB := h.ephPubA
  nonceA := h.nonceB
  nonceB := h.nonceA
  length_ephPubA := h.length_ephPubB
  length_ephPubB := h.length_ephPubA
  length_nonceB := h.length_nonceB.symm

/-- The two keys, in no order. -/
def keys (h : Handshake) : Sym2 (List UInt8) := s(h.ephPubA, h.ephPubB)

/-- The two nonces, in no order. -/
def nonces (h : Handshake) : Sym2 (List UInt8) := s(h.nonceA, h.nonceB)

/-- The two peers, each a key with its nonce. -/
def pairs (h : Handshake) : Sym2 (List UInt8 × List UInt8) :=
  s((h.ephPubA, h.nonceA), (h.ephPubB, h.nonceB))

theorem input_eq (h : Handshake) : input h.ephPubA h.ephPubB h.nonceA h.nonceB =
    (Bytes.minLex h.ephPubA h.ephPubB ++ Bytes.maxLex h.ephPubA h.ephPubB) ++
      (Bytes.minLex h.nonceA h.nonceB ++ Bytes.maxLex h.nonceA h.nonceB) := by
  rw [← List.append_assoc]
  rfl

theorem input_eq_iff : input h.ephPubA h.ephPubB h.nonceA h.nonceB =
      input h'.ephPubA h'.ephPubB h'.nonceA h'.nonceB ↔
    h.keys = h'.keys ∧ h.nonces = h'.nonces := by
  have hkeys : ∀ g : Handshake, (Bytes.minLex g.ephPubA g.ephPubB).length = 32 ∧
      (Bytes.maxLex g.ephPubA g.ephPubB).length = 32 := fun g =>
    ⟨Bytes.length_minLex g.length_ephPubA g.length_ephPubB,
      Bytes.length_maxLex g.length_ephPubA g.length_ephPubB⟩
  have hnonces : ∀ g : Handshake, (Bytes.minLex g.nonceA g.nonceB).length = g.nonceA.length ∧
      (Bytes.maxLex g.nonceA g.nonceB).length = g.nonceA.length := fun g =>
    ⟨Bytes.length_minLex rfl g.length_nonceB, Bytes.length_maxLex rfl g.length_nonceB⟩
  rw [input_eq, input_eq, keys, keys, nonces, nonces, ← Bytes.minLex_maxLex_eq_iff,
    ← Bytes.minLex_maxLex_eq_iff]
  constructor
  · intro heq
    -- two keys make 64 bytes; what is left are two nonces, each half of it
    obtain ⟨hpub, hnonce⟩ := List.append_inj heq (by
      rw [List.length_append, List.length_append, (hkeys h).1, (hkeys h).2, (hkeys h').1,
        (hkeys h').2])
    have hlen := congrArg List.length hnonce
    rw [List.length_append, List.length_append, (hnonces h).1, (hnonces h).2, (hnonces h').1,
      (hnonces h').2] at hlen
    refine ⟨List.append_inj hpub ?_, List.append_inj hnonce ?_⟩
    · rw [(hkeys h).1, (hkeys h').1]
    · rw [(hnonces h).1, (hnonces h').1]
      omega
  · rintro ⟨⟨hmin, hmax⟩, hmin', hmax'⟩
    rw [hmin, hmax, hmin', hmax']

/-- Both peers derive the same id, and two handshakes have the same id exactly if they have the
same two keys and the same two nonces. -/
theorem session_id_binds_keys_and_nonces (hsha : Function.Injective sha256) (h : Handshake) :
    h.exchanged.sessionId sha256 = h.sessionId sha256 ∧
      ∀ h' : Handshake, h'.sessionId sha256 = h.sessionId sha256 ↔
        h'.keys = h.keys ∧ h'.nonces = h.nonces := by
  constructor
  · exact congrArg sha256 (input_eq_iff.mpr ⟨Sym2.eq_swap, Sym2.eq_swap⟩)
  · intro h'
    exact hsha.eq_iff.trans input_eq_iff

/-- Keys of zeros and of ones, with nonces of one byte. -/
def sample (nonceA nonceB : UInt8) : Handshake where
  ephPubA := List.replicate 32 0
  ephPubB := List.replicate 32 1
  nonceA := [nonceA]
  nonceB := [nonceB]
  length_ephPubA := rfl
  length_ephPubB := rfl
  length_nonceB := rfl

theorem session_id_binds_sample : Function.Injective (id : List UInt8 → List UInt8) ∧
    ((sample 5 7).exchanged.sessionId id = (sample 5 7).sessionId id ∧
      ∀ h' : Handshake, h'.sessionId id = (sample 5 7).sessionId id ↔
        h'.keys = (sample 5 7).keys ∧ h'.nonces = (sample 5 7).nonces) :=
  ⟨Function.injective_id, session_id_binds_keys_and_nonces Function.injective_id (sample 5 7)⟩

/-- Two handshakes in which the nonces are exchanged between the keys have the same id, whatever
the hash function. -/
theorem session_id_forgets_whose_nonce : ∃ h h' : Handshake,
    (∀ sha256, h.sessionId sha256 = h'.sessionId sha256) ∧ h.pairs ≠ h'.pairs := by
  refine ⟨sample 5 7, sample 7 5, fun sha256 => ?_, by decide⟩
  exact congrArg sha256 (input_eq_iff.mpr ⟨rfl, Sym2.eq_swap⟩)

end Handshake

end ChessRecast.P2P
