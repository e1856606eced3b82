import Mathlib.Data.List.GetD
import Mathlib.Tactic

/-!
# Base64

Three bytes are four digits of six bits; one or two bytes left over are two or three digits, and the
bits that fill up the last digit are ignored by the reader. The padded form fills the text up with
equals signs. The reader skips line breaks, so a byte string has more than one text, but the text
that the writer makes is read back (`decodeRaw_encodeRaw`).
-/

namespace Base64

/-- The letters of the sixty-four digits. -/
structure Alphabet where
  letters : List UInt8
  length_letters : letters.length = 64
  nodup : letters.Nodup
  breaks : 10 ∉ letters ∧ 13 ∉ letters
  padding : 61 ∉ letters

def sextets : List UInt8 → List ℕ
  | [] => []
  | [a] => [a.toNat / 4, a.toNat % 4 * 16]
  | [a, b] => [a.toNat / 4, a.toNat % 4 * 16 + b.toNat / 16, b.toNat % 16 * 4]
  | a :: b :: c :: bs =>
    a.toNat / 4 :: (a.toNat % 4 * 16 + b.toNat / 16) :: (b.toNat % 16 * 4 + c.toNat / 64) ::
      c.toNat % 64 :: sextets bs

/-- The bytes of digits; a single digit is left over by no byte string. -/
def octets : List ℕ → Option (List UInt8)
  | [] => some []
  | [_] => none
  | [p, q] => some [UInt8.ofNat (p * 4 + q / 16)]
  | [p, q, r] => some [UInt8.ofNat (p * 4 + q / 16), UInt8.ofNat (q % 16 * 16 + r / 4)]
  | p :: q :: r :: s :: ds => (octets ds).map fun bs =>
    UInt8.ofNat (p * 4 + q / 16) :: UInt8.ofNat (q % 16 * 16 + r / 4) ::
      UInt8.ofNat (r % 4 * 64 + s) :: bs

theorem octets_sextets (bs : List UInt8) : octets (sextets bs) = some bs := by
  -- each byte is put together from the parts of its two digits
  have hbyte : ∀ {b : UInt8} {n : ℕ}, n = b.toNat → UInt8.ofNat n = b := by
    rintro b n rfl
    exact UInt8.ofNat_toNat
  induction bs using sextets.induct with
  | case1 => rfl
  | case2 a =>
    have ha := a.toNat_lt
    simp only [sextets, octets, Option.some.injEq, List.cons.injEq, and_true]
    exact hbyte (by omega)
  | case3 a b =>
    have ha := a.toNat_lt
    have hb := b.toNat_lt
    simp only [sextets, octets, Option.some.injEq, List.cons.injEq, and_true]
    exact ⟨hbyte (by omega), hbyte (by omega)⟩
  | case4 a b c bs ih =>
    have ha := a.toNat_lt
    have hb := b.toNat_lt
    have hc := c.toNat_lt
    simp only [sextets, octets, ih, Option.map_some, Option.some.injEq, List.cons.injEq, and_true]
    exact ⟨hbyte (by omega), hbyte (by omega), hbyte (by omega)⟩

theorem sextets_lt (bs : List UInt8) : ∀ d ∈ sextets bs, d < 64 := by
  induction bs using sextets.induct with
  | case1 => simp [sextets]
  | case2 a =>
    have ha := a.toNat_lt
    simp only [sextets, List.forall_mem_cons, List.not_mem_nil, false_implies, implies_true,
      and_true]
    omega
  | case3 a b =>
    have ha := a.toNat_lt
    have hb := b.toNat_lt
    simp only [sextets, List.forall_mem_cons, List.not_mem_nil, false_implies, implies_true,
      and_true]
    omega
  | case4 a b c bs ih =>
    have ha := a.toNat_lt
    have hb := b.toNat_lt
    have hc := c.toNat_lt
    simp only [sextets, List.forall_mem_cons]
    exact ⟨by omega, by omega, by omega, by omega, ih⟩

/-! ## Texts -/

variable (a : Alphabet)

def letter (n : ℕ) : UInt8 := a.letters.getD n 0

def value (b : UInt8) : Option ℕ := a.letters.idxOf? b

def encodeRaw (bs : List UInt8) : List UInt8 := (sextets bs).map (letter a)

/-- The text, filled up to a multiple of four letters. -/
def encode (bs : List UInt8) : List UInt8 :=
  encodeRaw a bs ++ List.replicate ((3 - bs.length % 3) % 3) 61

/-- The bytes of a text without padding, in which line breaks may stand anywhere. -/
def decodeRaw (text : List UInt8) : Option (List UInt8) :=
  ((text.filter fun b => b ≠ 10 ∧ b ≠ 13).mapM (value a)).bind octets

variable {a}

theorem letter_mem {n : ℕ} (h : n < 64) : letter a n ∈ a.letters := by
  have hlt : n < a.letters.length := by rwa [a.length_letters]
  rw [letter, List.getD_eq_getElem _ _ hlt]
  exact List.getElem_mem hlt

theorem value_letter {n : ℕ} (h : n < 64) : value a (letter a n) = some n := by
  have hlt : n < a.letters.length := by rwa [a.length_letters]
  rw [value, letter, List.getD_eq_getElem _ _ hlt, List.idxOf?_eq_some_iff]
  refine ⟨hlt, rfl, fun j hj => ?_⟩
  rw [a.nodup.getElem_inj_iff]
  exact hj.ne

theorem mem_encodeRaw {bs : List UInt8} {b : UInt8} (h : b ∈ encodeRaw a bs) : b ∈ a.letters := by
  obtain ⟨d, hd, rfl⟩ := List.mem_map.mp h
  exact letter_mem (sextets_lt bs d hd)

theorem mapM_value_encodeRaw {ds : List ℕ} (h : ∀ d ∈ ds, d < 64) :
    (ds.map (letter a)).mapM (value a) = some ds := by
  induction ds with
  | nil => rfl
  | cons d ds ih =>
    rw [List.map_cons, List.mapM_cons, value_letter (h d (by simp)),
      ih fun d' hd' => h d' (by simp [hd'])]
    rfl

theorem decodeRaw_encodeRaw (bs : List UInt8) : decodeRaw a (encodeRaw a bs) = some bs := by
  have hfilter : (encodeRaw a bs).filter (fun b => b ≠ 10 ∧ b ≠ 13) = encodeRaw a bs := by
    rw [List.filter_eq_self]
    intro b hb
    have hmem := mem_encodeRaw hb
    have hten : b ≠ 10 := fun heq => a.breaks.1 (heq ▸ hmem)
    have hthirteen : b ≠ 13 := fun heq => a.breaks.2 (heq ▸ hmem)
    simpa using ⟨hten, hthirteen⟩
  rw [decodeRaw, hfilter, encodeRaw, mapM_value_encodeRaw (sextets_lt bs), Option.bind_some,
    octets_sextets]

theorem encodeRaw_injective : Function.Injective (encodeRaw a) := by
  intro bs bs' h
  have hread := congrArg (decodeRaw a) h
  rw [decodeRaw_encodeRaw, decodeRaw_encodeRaw] at hread
  exact Option.some.inj hread

/-- Without its padding a text is the raw one. -/
theorem filter_encode (bs : List UInt8) :
    (encode a bs).filter (fun b => b ≠ 61) = encodeRaw a bs := by
  have hraw : (encodeRaw a bs).filter (fun b => b ≠ 61) = encodeRaw a bs := by
    rw [List.filter_eq_self]
    intro b hb
    have hne : b ≠ 61 := fun heq => a.padding (heq ▸ mem_encodeRaw hb)
    simpa using hne
  rw [encode, List.filter_append, hraw, List.filter_eq_nil_iff.mpr, List.append_nil]
  intro b hb
  simp [List.eq_of_mem_replicate hb]

theorem encode_injective : Function.Injective (encode a) := by
  intro bs bs' h
  apply encodeRaw_injective (a := a)
  rw [← filter_encode, h, filter_encode]

end Base64
