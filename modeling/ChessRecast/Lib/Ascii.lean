import Mathlib.Tactic

/-!
# Numbers and bytes as text

Texts are byte strings. Integers are written in decimal with a sign in front of negative ones, byte
strings as two lower-case hexadecimal digits for each byte. Both are injective, and a decimal number
has no separator in it, so the last field of a text is determined by the text (`lastField_append`).
-/

namespace Ascii

def ofChars (s : List Char) : List UInt8 := s.map fun c => UInt8.ofNat c.toNat

/-! ## Decimal numbers -/

def IsDigit (b : UInt8) : Prop := 48 ≤ b.toNat ∧ b.toNat ≤ 57

instance (b : UInt8) : Decidable (IsDigit b) := inferInstanceAs (Decidable (_ ∧ _))

def natText (n : ℕ) : List UInt8 := ofChars (Nat.toDigits 10 n)

/-- A minus sign is the byte 45. -/
def intText (n : ℤ) : List UInt8 := if n < 0 then 45 :: natText n.natAbs else natText n.toNat

def natValue (digits : List UInt8) : ℕ := digits.foldl (fun v b => 10 * v + (b.toNat - 48)) 0

theorem toNat_of_isDigit {c : Char} (h : c.isDigit = true) :
    (UInt8.ofNat c.toNat).toNat = c.toNat ∧ 48 ≤ c.toNat ∧ c.toNat ≤ 57 := by
  have hrange : 48 ≤ c.toNat ∧ c.toNat ≤ 57 := by
    simpa [Char.isDigit, UInt32.le_iff_toNat_le] using h
  refine ⟨?_, hrange⟩
  rw [UInt8.toNat_ofNat']
  omega

theorem isDigit_of_mem_natText {n : ℕ} {b : UInt8} (h : b ∈ natText n) : IsDigit b := by
  obtain ⟨c, hc, rfl⟩ := List.mem_map.mp h
  obtain ⟨hbyte, hrange⟩ :=
    toNat_of_isDigit (Nat.isDigit_of_mem_toDigits (by norm_num) (by norm_num) hc)
  unfold IsDigit
  rwa [hbyte]

theorem natText_ne_nil (n : ℕ) : natText n ≠ [] := by
  simp [natText, ofChars, Nat.toDigits_ne_nil]

theorem foldl_ofChars (cs : List Char) (hdigits : ∀ c ∈ cs, c.isDigit = true) : ∀ v : ℕ,
    (ofChars cs).foldl (fun v b => 10 * v + (b.toNat - 48)) v = Nat.ofDigitChars 10 cs v := by
  induction cs with
  | nil =>
    intro v
    simp [ofChars]
  | cons c cs ih =>
    intro v
    have hc := (toNat_of_isDigit (hdigits c (by simp))).1
    rw [Nat.ofDigitChars_cons, ← ih fun c' hc' => hdigits c' (by simp [hc'])]
    show (ofChars cs).foldl _ (10 * v + ((UInt8.ofNat c.toNat).toNat - 48)) = _
    rw [hc]
    rfl

theorem natValue_natText (n : ℕ) : natValue (natText n) = n := by
  unfold natValue natText
  rw [foldl_ofChars _ fun c hc => Nat.isDigit_of_mem_toDigits (by norm_num) (by norm_num) hc]
  exact Nat.ofDigitChars_toDigits (by norm_num) (by norm_num)

theorem natText_injective : Function.Injective natText := by
  intro n m h
  rw [← natValue_natText n, h, natValue_natText]

theorem minus_notMem_natText (n : ℕ) : (45 : UInt8) ∉ natText n := by
  intro h
  have := (isDigit_of_mem_natText h).1
  simp at this

theorem intText_injective : Function.Injective intText := by
  intro n m h
  unfold intText at h
  -- the sign is not a digit
  split_ifs at h with hn hm hm
  · have := natText_injective (List.cons.inj h).2
    omega
  · exact absurd (h ▸ List.mem_cons_self) (minus_notMem_natText m.toNat)
  · exact absurd (h ▸ List.mem_cons_self) (minus_notMem_natText n.toNat)
  · have := natText_injective h
    omega

/-- A separator that is neither a digit nor a sign is not in a number. -/
theorem notMem_intText {sep : UInt8} (hsign : sep ≠ 45) (hdigit : ¬ IsDigit sep) (n : ℤ) :
    sep ∉ intText n := by
  unfold intText
  split_ifs with hn
  · rw [List.mem_cons]
    rintro (h | h)
    · exact hsign h
    · exact hdigit (isDigit_of_mem_natText h)
  · exact fun h => hdigit (isDigit_of_mem_natText h)

/-! ## Fields -/

/-- What stands behind the last separator. -/
def lastField (sep : UInt8) (text : List UInt8) : List UInt8 :=
  (text.reverse.takeWhile fun b => b ≠ sep).reverse

theorem lastField_append {sep : UInt8} (front field : List UInt8) (h : sep ∉ field) :
    lastField sep (front ++ sep :: field) = field := by
  have hfield : ∀ b ∈ field.reverse, decide (b ≠ sep) = true := by
    intro b hb
    have hne : b ≠ sep := fun heq => h (heq ▸ List.mem_reverse.mp hb)
    simpa using hne
  unfold lastField
  rw [List.reverse_append, List.reverse_cons, List.append_assoc,
    List.takeWhile_append_of_pos hfield]
  simp

/-! ## Hexadecimal -/

def hexDigit (n : ℕ) : UInt8 := if n < 10 then UInt8.ofNat (48 + n) else UInt8.ofNat (87 + n)

def hexText (bs : List UInt8) : List UInt8 :=
  bs.flatMap fun b => [hexDigit (b.toNat / 16), hexDigit (b.toNat % 16)]

theorem length_hexText (bs : List UInt8) : (hexText bs).length = 2 * bs.length := by
  induction bs with
  | nil => rfl
  | cons b bs ih =>
    rw [hexText, List.flatMap_cons, List.length_append, ← hexText, ih, List.length_cons]
    simp only [List.length_cons, List.length_nil]
    omega

theorem hexDigit_inj {n m : ℕ} (hn : n < 16) (hm : m < 16) (h : hexDigit n = hexDigit m) :
    n = m := by
  have hfin : ∀ a b : Fin 16, hexDigit a = hexDigit b → a = b := by decide
  exact Fin.mk.inj_iff.mp (hfin ⟨n, hn⟩ ⟨m, hm⟩ h)

theorem hexText_injective : Function.Injective hexText := by
  intro a
  induction a with
  | nil =>
    intro b h
    cases b with
    | nil => rfl
    | cons y b => cases h
  | cons x a ih =>
    intro b h
    cases b with
    | nil => cases h
    | cons y b =>
      have hx := x.toNat_lt
      have hy := y.toNat_lt
      injection h with hhigh htail
      injection htail with hlow hrest
      have hdiv := hexDigit_inj (by omega) (by omega) hhigh
      have hmod := hexDigit_inj (by omega) (by omega) hlow
      have hbyte : x = y := UInt8.toNat_inj.mp (by omega)
      rw [hbyte, ih hrest]

/-- The value of a digit of either case. -/
def hexValue (b : UInt8) : Option ℕ :=
  if 48 ≤ b.toNat ∧ b.toNat ≤ 57 then some (b.toNat - 48)
  else if 97 ≤ b.toNat ∧ b.toNat ≤ 102 then some (b.toNat - 87)
  else if 65 ≤ b.toNat ∧ b.toNat ≤ 70 then some (b.toNat - 55)
  else none

/-- The bytes of a text of hexadecimal digits. -/
def hexBytes : List UInt8 → Option (List UInt8)
  | [] => some []
  | [_] => none
  | a :: b :: text => do
    let high ← hexValue a
    let low ← hexValue b
    let bytes ← hexBytes text
    return UInt8.ofNat (16 * high + low) :: bytes

/-- The text with its capitals made small. -/
def lower (text : List UInt8) : List UInt8 :=
  text.map fun b => if 65 ≤ b.toNat ∧ b.toNat ≤ 90 then UInt8.ofNat (b.toNat + 32) else b

theorem hexDigit_hexValue {b : UInt8} {v : ℕ} (h : hexValue b = some v) :
    v < 16 ∧ [hexDigit v] = lower [b] := by
  have hall : ∀ i : Fin 256, (hexValue (UInt8.ofFin i)).all
      (fun v => v < 16 ∧ [hexDigit v] = lower [UInt8.ofFin i]) = true := by decide +kernel
  have hb := hall b.toFin
  rw [UInt8.ofFin_toFin, h] at hb
  simpa using hb

theorem hexValue_lower (b : UInt8) : (lower [b]).map hexValue = [hexValue b] := by
  have hall : ∀ i : Fin 256, (lower [UInt8.ofFin i]).map hexValue = [hexValue (UInt8.ofFin i)] := by
    decide +kernel
  have hb := hall b.toFin
  rwa [UInt8.ofFin_toFin] at hb

/-- A text that is decoded is the text of its bytes, but for the case of the digits. -/
theorem hexText_of_hexBytes {text : List UInt8} : ∀ {bytes : List UInt8},
    hexBytes text = some bytes → hexText bytes = lower text := by
  induction text using hexBytes.induct with
  | case1 =>
    intro bytes h
    cases h
    rfl
  | case2 => exact fun h => absurd h.symm (Option.some_ne_none _)
  | case3 a b text ih =>
    intro bytes h
    simp only [hexBytes, Option.bind_eq_bind, Option.bind_eq_some_iff, Option.pure_def,
      Option.some.injEq] at h
    obtain ⟨high, hhigh, low, hlow, rest, hrest, rfl⟩ := h
    obtain ⟨hlt, hdigit⟩ := hexDigit_hexValue hhigh
    obtain ⟨hlt', hdigit'⟩ := hexDigit_hexValue hlow
    have hbyte : (UInt8.ofNat (16 * high + low)).toNat = 16 * high + low :=
      UInt8.toNat_ofNat_of_lt' (by simp only [UInt8.size]; omega)
    have hdiv : (16 * high + low) / 16 = high := by omega
    have hmod : (16 * high + low) % 16 = low := by omega
    calc hexText (UInt8.ofNat (16 * high + low) :: rest)
        = [hexDigit high] ++ [hexDigit low] ++ hexText rest := by
          simp only [hexText, List.flatMap_cons, hbyte, hdiv, hmod, List.cons_append,
            List.nil_append]
      _ = lower [a] ++ lower [b] ++ lower text := by rw [hdigit, hdigit', ih hrest]
      _ = lower (a :: b :: text) := rfl

/-- The case of the digits does not matter to their bytes. -/
theorem hexBytes_lower (text : List UInt8) : hexBytes (lower text) = hexBytes text := by
  induction text using hexBytes.induct with
  | case1 => rfl
  | case2 => rfl
  | case3 a b text ih =>
    have ha := hexValue_lower a
    have hb := hexValue_lower b
    simp only [lower, List.map_cons, List.map_nil, List.cons.injEq, and_true] at ha hb
    rw [lower, List.map_cons, List.map_cons, ← lower, hexBytes, hexBytes, ha, hb, ih]

/-- Two texts that are decoded have the same bytes exactly if they differ in case only. -/
theorem hexBytes_eq_iff {text text' : List UInt8} (h : (hexBytes text).isSome)
    (h' : (hexBytes text').isSome) : hexBytes text = hexBytes text' ↔ lower text = lower text' := by
  obtain ⟨bytes, hbytes⟩ := Option.isSome_iff_exists.mp h
  obtain ⟨bytes', hbytes'⟩ := Option.isSome_iff_exists.mp h'
  constructor
  · intro heq
    rw [hbytes, hbytes', Option.some.injEq] at heq
    rw [← hexText_of_hexBytes hbytes, ← hexText_of_hexBytes hbytes', heq]
  · intro heq
    rw [← hexBytes_lower, heq, hexBytes_lower]

end Ascii
