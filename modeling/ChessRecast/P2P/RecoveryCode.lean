import Mathlib.Data.List.GetD
import ChessRecast.Lib.Ascii
import ChessRecast.Lib.Packing
import ChessRecast.P2P.Rekey

/-!
# The recovery code (`RecoveryCode` in `identity.dart`)

165 bits of entropy and eleven bits of their SHA-256 digest are written as sixteen words of eleven
bits each. Bits are taken from the left: bit `i` of some bytes is bit `7 - i % 8` of byte `i / 8`.
The 2048 words are different, so the code and its words determine each other
(`recovery_code_round_trip`).
-/

namespace ChessRecast.P2P

def realBip39Prefix : List (List Char) :=
  ["abandon", "ability", "able", "about", "above", "absent", "absorb", "abstract", "absurd",
    "abuse", "access", "accident", "account", "accuse", "achieve", "acid", "acoustic", "acquire",
    "across", "act", "action", "actor", "actress", "actual", "adapt", "add", "addict", "address",
    "adjust", "admit", "adult", "advance", "advice", "aerobic", "afford", "afraid", "again", "age",
    "agent", "agree", "ahead", "aim", "air", "airport", "aisle", "alarm", "album", "alcohol",
    "alert", "alien", "all", "alley", "allow", "almost", "alone", "alpha", "already", "also",
    "alter", "always", "amateur", "amazing", "among", "amount", "amused", "analyst", "anchor",
    "ancient", "anger", "angle", "angry", "animal", "ankle", "announce", "annual", "another",
    "answer", "antenna", "antique", "anxiety", "any", "apart", "apology", "appear", "apple",
    "approve", "april", "arch", "arctic", "area", "arena", "argue", "arm", "armed", "armor",
    "army", "around", "arrange", "arrest", "arrive", "arrow", "art", "artefact", "artist",
    "artwork", "ask", "aspect", "assault", "asset", "assist", "assume", "asthma", "athlete",
    "atom", "attack", "attend", "attitude", "attract", "auction", "audit", "august", "aunt",
    "author", "auto", "autumn", "average", "avocado", "avoid", "awake", "aware", "away", "awesome",
    "awful", "awkward", "axis"].map String.toList

/-- `padLeft(4, '0')` of a number, after a `w`. -/
def slug (idx : ℕ) : List Char :=
  let digits := Nat.toDigits 10 idx
  'w' :: (List.replicate (4 - digits.length) '0' ++ digits)

def wordlist : List (List Char) :=
  realBip39Prefix ++
    (List.range' realBip39Prefix.length (2048 - realBip39Prefix.length)).map slug

/-- What `fromWords` throws. -/
inductive RecoveryError where
  | wordCount (length : ℕ)
  | unknownWord
  | bip39Checksum
deriving DecidableEq, Repr

/-- The bits of some bytes. -/
def bitsOf (bytes : List UInt8) : List Bool := bytes.flatMap fun b => Packing.msb 8 b.toNat

/-- The loop that packs 165 bits into 21 bytes, which are zero before it. -/
def packEntropy (entropyBits : List Bool) : List UInt8 :=
  (Packing.split 8 21 (entropyBits ++ List.replicate 3 false)).map fun g =>
    UInt8.ofNat (Packing.ofMsb g)

structure RecoveryCode where
  words : List (List Char)
  entropy : List UInt8
deriving DecidableEq, Repr

namespace RecoveryCode

def kWordCount : ℕ := 16

/-- The 11 bits of the digest. -/
def checksum (sha256 : Sha256) (entropy : List UInt8) : List Bool :=
  (bitsOf (sha256.convert entropy)).take 11

def fromEntropy (sha256 : Sha256) (entropy : List UInt8) : RecoveryCode :=
  let bits := (bitsOf entropy).take 165 ++ checksum sha256 entropy
  { words := (Packing.split 11 16 bits).map fun g => wordlist.getD (Packing.ofMsb g) []
    entropy := entropy }

def fromWords (sha256 : Sha256) (words : List (List Char)) : Except RecoveryError RecoveryCode :=
  if words.length ≠ kWordCount then .error (.wordCount words.length)
  else
    match words.mapM fun word => wordlist.idxOf? word with
    | none => .error .unknownWord
    | some indices =>
      let bits := indices.flatMap (Packing.msb 11)
      let entropy := packEntropy (bits.take 165)
      if (bits.drop 165).take 11 ≠ checksum sha256 entropy then .error .bip39Checksum
      else .ok (fromEntropy sha256 entropy)

/-- 165 bits: 21 bytes of which the last three bits are zero. -/
def IsEntropy (entropy : List UInt8) : Prop :=
  entropy.length = 21 ∧ (bitsOf entropy).drop 165 = List.replicate 3 false

/-! ## Words -/

theorem length_wordlist : wordlist.length = 2048 := by
  decide +kernel

/-- A slug is read back, whatever zeros stand in front of its digits. -/
theorem natValue_slug (idx : ℕ) : Ascii.natValue (Ascii.ofChars (slug idx).tail) = idx := by
  have hzeros : ∀ (k : ℕ) (digits : List UInt8),
      Ascii.natValue (List.replicate k 48 ++ digits) = Ascii.natValue digits := by
    intro k digits
    induction k with
    | zero => rfl
    | succ k ih => exact ih
  simp only [slug, List.tail_cons, Ascii.ofChars, List.map_append, List.map_replicate]
  exact (hzeros _ _).trans (Ascii.natValue_natText idx)

theorem nodup_wordlist : wordlist.Nodup := by
  have hfront : realBip39Prefix.Nodup := by decide +kernel
  have hhead : ∀ word ∈ realBip39Prefix, word.head? = some 'a' := by decide +kernel
  -- the words of the first part begin with an a, the slugs with a w
  refine List.nodup_append.mpr ⟨hfront, ?_, ?_⟩
  · refine List.Nodup.map (fun idx idx' heq => ?_) List.nodup_range'
    rw [← natValue_slug idx, heq, natValue_slug]
  · rintro word hword word' hslug rfl
    obtain ⟨idx, -, rfl⟩ := List.mem_map.mp hslug
    have hw : some 'w' = some 'a' := hhead _ hword
    exact absurd hw (by decide)

theorem idxOf?_getD {idx : ℕ} (h : idx < 2048) :
    wordlist.idxOf? (wordlist.getD idx []) = some idx := by
  have hlt : idx < wordlist.length := by rwa [length_wordlist]
  rw [List.getD_eq_getElem _ _ hlt, List.idxOf?_eq_some_iff]
  refine ⟨hlt, rfl, fun j hj => ?_⟩
  rw [nodup_wordlist.getElem_inj_iff]
  exact hj.ne

theorem mapM_idxOf? {indices : List ℕ} (h : ∀ idx ∈ indices, idx < 2048) :
    (indices.map fun idx => wordlist.getD idx []).mapM (fun word => wordlist.idxOf? word) =
      some indices := by
  induction indices with
  | nil => rfl
  | cons idx indices ih =>
    rw [List.map_cons, List.mapM_cons, idxOf?_getD (h idx List.mem_cons_self),
      ih fun idx' hidx => h idx' (List.mem_cons_of_mem _ hidx)]
    rfl

theorem of_mapM_idxOf? {words : List (List Char)} : ∀ {indices : List ℕ},
    words.mapM (fun word => wordlist.idxOf? word) = some indices →
      (∀ idx ∈ indices, idx < 2048) ∧ (indices.map fun idx => wordlist.getD idx []) = words := by
  induction words with
  | nil =>
    intro indices h
    cases h
    exact ⟨fun _ hidx => absurd hidx List.not_mem_nil, rfl⟩
  | cons word words ih =>
    intro indices h
    simp only [List.mapM_cons, Option.bind_eq_bind, Option.bind_eq_some_iff, Option.pure_def,
      Option.some.injEq] at h
    obtain ⟨idx, hidx, rest, hrest, rfl⟩ := h
    obtain ⟨hlt, hword, -⟩ := List.idxOf?_eq_some_iff.mp hidx
    obtain ⟨hall, hwords⟩ := ih hrest
    constructor
    · intro idx' hmem
      rcases List.mem_cons.mp hmem with rfl | hmem
      · rwa [length_wordlist] at hlt
      · exact hall idx' hmem
    · rw [List.map_cons, List.getD_eq_getElem _ _ hlt, hword, hwords]

/-! ## Bits -/

theorem length_bitsOf (bytes : List UInt8) : (bitsOf bytes).length = 8 * bytes.length := by
  unfold bitsOf
  simp [List.length_flatMap, Nat.mul_comm]

theorem length_checksum (sha256 : Sha256) (entropy : List UInt8) :
    (checksum sha256 entropy).length = 11 := by
  rw [checksum, List.length_take, length_bitsOf, sha256.length_convert]
  rfl

/-- Groups of eight bits are the bits of the bytes that they are packed into. -/
theorem bitsOf_map {groups : List (List Bool)} (h : ∀ g ∈ groups, g.length = 8) :
    bitsOf (groups.map fun g => UInt8.ofNat (Packing.ofMsb g)) = groups.flatten := by
  unfold bitsOf
  rw [List.flatMap_map, ← List.flatMap_id]
  apply List.flatMap_congr
  intro g hg
  have hlt := Packing.ofMsb_lt g
  rw [h g hg] at hlt
  rw [UInt8.toNat_ofNat_of_lt' hlt, ← h g hg, Packing.msb_ofMsb, id]

theorem bitsOf_packEntropy {bits : List Bool} (h : bits.length = 165) :
    bitsOf (packEntropy bits) = bits ++ List.replicate 3 false := by
  have hlen : (bits ++ List.replicate 3 false).length = 8 * 21 := by simp [h]
  rw [packEntropy, bitsOf_map (Packing.length_of_mem_split hlen), Packing.flatten_split hlen.le]

theorem packEntropy_bitsOf {entropy : List UInt8} (h : IsEntropy entropy) :
    packEntropy ((bitsOf entropy).take 165) = entropy := by
  have hbits : ∀ g ∈ entropy.map (fun b => Packing.msb 8 b.toNat), g.length = 8 := by
    intro g hg
    obtain ⟨b, -, rfl⟩ := List.mem_map.mp hg
    exact Packing.length_msb ..
  have hsplit := Packing.split_flatten hbits
  rw [List.length_map, h.1, ← List.flatMap_def] at hsplit
  have hjoin : (bitsOf entropy).take 165 ++ List.replicate 3 false = bitsOf entropy := by
    rw [← h.2, List.take_append_drop]
  -- each group is the eight bits of one byte
  rw [packEntropy, hjoin, bitsOf, hsplit, List.map_map]
  refine (List.map_congr_left fun b _ => ?_).trans (List.map_id _)
  rw [Function.comp_apply, Packing.ofMsb_msb b.toNat_lt, UInt8.ofNat_toNat, id]

/-! ## The round trip -/

variable {sha256 : Sha256} {entropy : List UInt8} {words : List (List Char)}

/-- The words of a code are found, and their indices have the bits of the code. -/
theorem fromWords_of_bits {bits : List Bool} (hlen : bits.length = 176) :
    let groups := Packing.split 11 16 bits
    (groups.map fun g => wordlist.getD (Packing.ofMsb g) []).mapM
        (fun word => wordlist.idxOf? word) = some (groups.map Packing.ofMsb) ∧
      (groups.map Packing.ofMsb).flatMap (Packing.msb 11) = bits := by
  intro groups
  have hgroup := Packing.length_of_mem_split (k := 11) (n := 16) (l := bits) hlen
  constructor
  · have hindex : ∀ idx ∈ groups.map Packing.ofMsb, idx < 2048 := by
      intro idx hidx
      obtain ⟨g, hg, rfl⟩ := List.mem_map.mp hidx
      have hlt := Packing.ofMsb_lt g
      rwa [hgroup g hg] at hlt
    have hfound := mapM_idxOf? hindex
    rwa [List.map_map] at hfound
  · calc (groups.map Packing.ofMsb).flatMap (Packing.msb 11)
        = groups.flatMap id := by
          rw [List.flatMap_map]
          apply List.flatMap_congr
          intro g hg
          rw [← hgroup g hg, Packing.msb_ofMsb, id]
      _ = groups.flatten := List.flatMap_id
      _ = bits := Packing.flatten_split hlen.le

theorem fromWords_fromEntropy (h : IsEntropy entropy) :
    fromWords sha256 (fromEntropy sha256 entropy).words = .ok (fromEntropy sha256 entropy) := by
  have hfirst : ((bitsOf entropy).take 165).length = 165 := by
    rw [List.length_take, length_bitsOf, h.1]
    rfl
  have hcheck := length_checksum sha256 entropy
  have hlen : ((bitsOf entropy).take 165 ++ checksum sha256 entropy).length = 176 := by
    rw [List.length_append, hfirst, hcheck]
  obtain ⟨hfound, hbits⟩ := fromWords_of_bits hlen
  have hcount : (fromEntropy sha256 entropy).words.length = kWordCount := by
    simp only [fromEntropy, List.length_map, Packing.length_split]
    rfl
  unfold fromWords
  rw [if_neg (not_not.mpr hcount)]
  simp only [fromEntropy] at hfound ⊢
  rw [hfound]
  simp only [hbits, List.take_left' hfirst, List.drop_left' hfirst, packEntropy_bitsOf h,
    List.take_of_length_le hcheck.le, ne_eq, not_true_eq_false, if_false]

/-- Indices whose last eleven bits are the checksum of the others are those of the words that the
others are written as. -/
theorem words_packEntropy {indices : List ℕ} (hnum : indices.length = 16)
    (hlt : ∀ idx ∈ indices, idx < 2048)
    (hcheck : ((indices.flatMap (Packing.msb 11)).drop 165).take 11 =
      checksum sha256 (packEntropy ((indices.flatMap (Packing.msb 11)).take 165))) :
    (fromEntropy sha256 (packEntropy ((indices.flatMap (Packing.msb 11)).take 165))).words =
      indices.map fun idx => wordlist.getD idx [] := by
  have hlen : (indices.flatMap (Packing.msb 11)).length = 176 := by
    simp [List.length_flatMap, hnum]
  have hfirst : ((indices.flatMap (Packing.msb 11)).take 165).length = 165 := by
    rw [List.length_take, hlen]
    rfl
  have hsecond : ((indices.flatMap (Packing.msb 11)).drop 165).take 11 =
      (indices.flatMap (Packing.msb 11)).drop 165 := by
    apply List.take_of_length_le
    rw [List.length_drop, hlen]
  have hgroups : ∀ g ∈ indices.map (Packing.msb 11), g.length = 11 := by
    intro g hg
    obtain ⟨idx, -, rfl⟩ := List.mem_map.mp hg
    exact Packing.length_msb ..
  have hsplit := Packing.split_flatten hgroups
  rw [List.length_map, hnum, ← List.flatMap_def] at hsplit
  simp only [fromEntropy]
  -- the bits of the packed entropy and its checksum are the bits of the indices again
  rw [bitsOf_packEntropy hfirst, List.take_left' hfirst, ← hcheck, hsecond, List.take_append_drop,
    hsplit, List.map_map]
  apply List.map_congr_left
  intro idx hidx
  rw [Function.comp_apply, Packing.ofMsb_msb (hlt idx hidx)]

/-- Words that are accepted are the words of the entropy they are decoded to. -/
theorem words_of_fromWords {code : RecoveryCode} (h : fromWords sha256 words = .ok code) :
    code = fromEntropy sha256 code.entropy ∧ code.words = words := by
  unfold fromWords at h
  split at h
  · cases h
  · rename_i hcount
    cases hindices : words.mapM (fun word => wordlist.idxOf? word) with
    | none =>
      rw [hindices] at h
      cases h
    | some indices =>
      rw [hindices] at h
      dsimp only at h
      split at h
      · cases h
      · rename_i hcheck
        cases h
        obtain ⟨hlt, hwords⟩ := of_mapM_idxOf? hindices
        have hnum : indices.length = 16 := by
          rw [← hwords, List.length_map] at hcount
          exact not_not.mp hcount
        exact ⟨rfl, (words_packEntropy hnum hlt (not_not.mp hcheck)).trans hwords⟩

/-- The words of every entropy of 165 bits are accepted and give the same code again, and accepted
words are those of the code they give, so that different words give different codes. -/
theorem recovery_code_round_trip (sha256 : Sha256) :
    (∀ entropy, IsEntropy entropy →
      ∃ code, fromWords sha256 (fromEntropy sha256 entropy).words = .ok code ∧
        code.entropy = entropy ∧ code.words = (fromEntropy sha256 entropy).words) ∧
    (∀ words code, fromWords sha256 words = .ok code →
      (fromEntropy sha256 code.entropy).words = words) ∧
    (∀ words words' code code', fromWords sha256 words = .ok code →
      fromWords sha256 words' = .ok code' → code.entropy = code'.entropy → words = words') := by
  refine ⟨fun entropy h => ⟨_, fromWords_fromEntropy h, rfl, rfl⟩, fun words code h => ?_,
    fun words words' code code' h h' heq => ?_⟩
  · obtain ⟨hcode, hwords⟩ := words_of_fromWords h
    rw [← hcode, hwords]
  · obtain ⟨hcode, hwords⟩ := words_of_fromWords h
    obtain ⟨hcode', hwords'⟩ := words_of_fromWords h'
    rw [← hwords, ← hwords', hcode, hcode', heq]

end RecoveryCode

end ChessRecast.P2P
