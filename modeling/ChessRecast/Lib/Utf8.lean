import Mathlib.Tactic

/-!
# UTF-8

Texts are lists of Unicode scalar values. `decode` accepts the well-formed byte strings only: no
overlong forms, no surrogates, nothing above the last scalar value, nothing cut off.
-/

namespace Utf8

def encode (s : List Char) : List UInt8 := s.flatMap String.utf8EncodeChar

/-- What a byte behind the first one contributes. -/
def tailBits (b : UInt8) : Option ℕ :=
  if 128 ≤ b.toNat ∧ b.toNat < 192 then some (b.toNat - 128) else none

/-- A scalar value that needs as many bytes as it was given. -/
def scalar (least n : ℕ) : Option Char :=
  if least ≤ n ∧ n.isValidChar then some (Char.ofNat n) else none

/-- The scalar value of two bytes. -/
def two (a b : UInt8) : Option Char :=
  (tailBits b).bind fun y => if 192 ≤ a.toNat then scalar 128 ((a.toNat - 192) * 64 + y) else none

/-- The scalar value of three bytes. -/
def three (a b c : UInt8) : Option Char :=
  (tailBits b).bind fun y => (tailBits c).bind fun z =>
    scalar 2048 ((a.toNat - 224) * 4096 + y * 64 + z)

/-- The scalar value of four bytes. -/
def four (a b c d : UInt8) : Option Char :=
  (tailBits b).bind fun y => (tailBits c).bind fun z => (tailBits d).bind fun w =>
    scalar 65536 ((a.toNat - 240) * 262144 + y * 4096 + z * 64 + w)

/-- A text, if the bytes are one. The first byte says how many belong together. -/
def decode : List UInt8 → Option (List Char)
  | [] => some []
  | a :: as =>
    if a.toNat < 128 then (decode as).map (Char.ofNat a.toNat :: ·)
    else match as with
      | [] => none
      | b :: bs =>
        if a.toNat < 224 then (two a b).bind fun ch => (decode bs).map (ch :: ·)
        else match bs with
          | [] => none
          | c :: cs =>
            if a.toNat < 240 then (three a b c).bind fun ch => (decode cs).map (ch :: ·)
            else match cs with
              | [] => none
              | d :: ds => (four a b c d).bind fun ch => (decode ds).map (ch :: ·)

section Cases

variable {a b c d : UInt8} {rest : List UInt8}

theorem decode_one (h : a.toNat < 128) :
    decode (a :: rest) = (decode rest).map (Char.ofNat a.toNat :: ·) := by
  rw [decode.eq_def]
  exact if_pos h

theorem decode_two (h : 128 ≤ a.toNat) (h' : a.toNat < 224) :
    decode (a :: b :: rest) = (two a b).bind fun ch => (decode rest).map (ch :: ·) := by
  rw [decode.eq_def]
  exact (if_neg (not_lt.mpr h)).trans (if_pos h')

theorem decode_three (h : 224 ≤ a.toNat) (h' : a.toNat < 240) :
    decode (a :: b :: c :: rest) = (three a b c).bind fun ch => (decode rest).map (ch :: ·) := by
  rw [decode.eq_def]
  exact (if_neg (by omega)).trans ((if_neg (not_lt.mpr h)).trans (if_pos h'))

theorem decode_four (h : 240 ≤ a.toNat) :
    decode (a :: b :: c :: d :: rest) =
      (four a b c d).bind fun ch => (decode rest).map (ch :: ·) := by
  rw [decode.eq_def]
  exact (if_neg (by omega)).trans ((if_neg (by omega)).trans (if_neg (not_lt.mpr h)))

end Cases

theorem toNat_ofNat {n : ℕ} (h : n < 256) : (UInt8.ofNat n).toNat = n := by
  rw [UInt8.toNat_ofNat']
  exact Nat.mod_eq_of_lt h

theorem tailBits_ofNat {n : ℕ} (h : n < 64) : tailBits (UInt8.ofNat (n + 128)) = some n := by
  rw [tailBits, toNat_ofNat (by omega), if_pos ⟨by omega, by omega⟩, Nat.add_sub_cancel]

theorem scalar_toNat {least : ℕ} {ch : Char} (h : least ≤ ch.toNat) :
    scalar least ch.toNat = some ch := by
  rw [scalar, if_pos ⟨h, ch.valid⟩, Char.ofNat_toNat]

theorem toNat_lt (ch : Char) : ch.toNat < 1114112 := by
  rcases ch.valid with h | h
  · exact lt_trans h (by norm_num)
  · exact h.2

theorem decode_utf8EncodeChar_append (ch : Char) (rest : List UInt8) :
    decode (String.utf8EncodeChar ch ++ rest) = (decode rest).map (ch :: ·) := by
  have hlt := toNat_lt ch
  have hval : ch.val.toNat = ch.toNat := rfl
  unfold String.utf8EncodeChar
  simp only [hval]
  -- one case for each number of bytes
  by_cases h1 : ch.toNat ≤ 127
  · have ha := toNat_ofNat (n := ch.toNat) (by omega)
    rw [if_pos h1, List.singleton_append, decode_one (by omega), ha, Char.ofNat_toNat]
  · rw [if_neg h1]
    by_cases h2 : ch.toNat ≤ 2047
    · have ha : (UInt8.ofNat (ch.toNat / 64 % 32 + 192)).toNat = ch.toNat / 64 + 192 := by
        rw [toNat_ofNat (by omega)]
        omega
      have htwo : two (UInt8.ofNat (ch.toNat / 64 % 32 + 192)) (UInt8.ofNat (ch.toNat % 64 + 128)) =
          some ch := by
        rw [two, tailBits_ofNat (by omega), Option.bind_some, ha, if_pos (by omega),
          show (ch.toNat / 64 + 192 - 192) * 64 + ch.toNat % 64 = ch.toNat by omega,
          scalar_toNat (by omega)]
      rw [if_pos h2]
      exact (decode_two (by omega) (by omega)).trans (by rw [htwo]; rfl)
    · rw [if_neg h2]
      by_cases h3 : ch.toNat ≤ 65535
      · have ha : (UInt8.ofNat (ch.toNat / 4096 % 16 + 224)).toNat = ch.toNat / 4096 + 224 := by
          rw [toNat_ofNat (by omega)]
          omega
        have hthree : three (UInt8.ofNat (ch.toNat / 4096 % 16 + 224))
            (UInt8.ofNat (ch.toNat / 64 % 64 + 128)) (UInt8.ofNat (ch.toNat % 64 + 128)) =
            some ch := by
          rw [three, tailBits_ofNat (by omega), tailBits_ofNat (by omega), Option.bind_some,
            Option.bind_some, ha, show (ch.toNat / 4096 + 224 - 224) * 4096 +
              ch.toNat / 64 % 64 * 64 + ch.toNat % 64 = ch.toNat by omega, scalar_toNat (by omega)]
        rw [if_pos h3]
        exact (decode_three (by omega) (by omega)).trans (by rw [hthree]; rfl)
      · have ha : (UInt8.ofNat (ch.toNat / 262144 % 8 + 240)).toNat = ch.toNat / 262144 + 240 := by
          rw [toNat_ofNat (by omega)]
          omega
        have hfour : four (UInt8.ofNat (ch.toNat / 262144 % 8 + 240))
            (UInt8.ofNat (ch.toNat / 4096 % 64 + 128)) (UInt8.ofNat (ch.toNat / 64 % 64 + 128))
            (UInt8.ofNat (ch.toNat % 64 + 128)) = some ch := by
          rw [four, tailBits_ofNat (by omega), tailBits_ofNat (by omega), tailBits_ofNat (by omega),
            Option.bind_some, Option.bind_some, Option.bind_some, ha,
            show (ch.toNat / 262144 + 240 - 240) * 262144 + ch.toNat / 4096 % 64 * 4096 +
              ch.toNat / 64 % 64 * 64 + ch.toNat % 64 = ch.toNat by omega, scalar_toNat (by omega)]
        rw [if_neg h3]
        exact (decode_four (by omega)).trans (by rw [hfour]; rfl)

theorem decode_encode (s : List Char) : decode (encode s) = some s := by
  induction s with
  | nil => rfl
  | cons ch s ih =>
    rw [encode, List.flatMap_cons, decode_utf8EncodeChar_append]
    show (decode (encode s)).map _ = _
    rw [ih, Option.map_some]

theorem encode_injective : Function.Injective encode := by
  intro s s' h
  have hdecode := congrArg decode h
  rw [decode_encode, decode_encode] at hdecode
  exact Option.some.inj hdecode

end Utf8
