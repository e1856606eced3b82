import ChessRecast.P2P.CborGrammar

/-!
# Decoding what was encoded

`decoded` is the value that comes back from an encoding: maps are sorted, a `List<int>` comes back
as a byte string, a byte order mark is lost. The value is the same again exactly if no `List<int>`
holds a number outside 0, …, 255 and no string begins with a byte order mark
(`codec_correct_iff`).
-/

namespace ChessRecast.P2P

/-! ## Values -/

/-- Induction over values, lists and maps by their members. -/
theorem Value.induct {P : Value → Prop} (null : P .null) (bool : ∀ b, P (.bool b))
    (int : ∀ n, P (.int n)) (bytes : ∀ bs, P (.bytes bs)) (ints : ∀ ns, P (.ints ns))
    (text : ∀ s, P (.text s)) (list : ∀ items, (∀ v ∈ items, P v) → P (.list items))
    (map : ∀ entries, (∀ e ∈ entries, P e.2) → P (.map entries)) (v : Value) : P v := by
  refine @Value.rec P (fun items => ∀ v ∈ items, P v) (fun entries => ∀ e ∈ entries, P e.2)
    (fun e => P e.2) null bool int bytes ints text list map ?_ ?_ ?_ ?_ ?_ v
  · intro v hv
    cases hv
  · intro v items hv hitems w hw
    rcases List.mem_cons.mp hw with rfl | hmem
    · exact hv
    · exact hitems w hmem
  · intro e he
    cases he
  · intro e entries he hentries f hf
    rcases List.mem_cons.mp hf with rfl | hmem
    · exact he
    · exact hentries f hmem
  · intro key v hv
    exact hv

mutual

/-- A Dart value: 64-bit integers, and no key twice in a map. -/
def Value.Valid : Value → Prop
  | .int n => -2 ^ 63 ≤ n ∧ n < 2 ^ 63
  | .list items => ValidItems items
  | .map entries => (entries.map Prod.fst).Nodup ∧ ValidEntries entries
  | _ => True

def Value.ValidItems : List Value → Prop
  | [] => True
  | v :: items => v.Valid ∧ ValidItems items

/-- Each value of an entry is valid. -/
def Value.ValidEntries : List (List Char × Value) → Prop
  | [] => True
  | e :: entries => e.2.Valid ∧ ValidEntries entries

end

namespace Value

theorem validItems_iff {items : List Value} : ValidItems items ↔ ∀ v ∈ items, v.Valid := by
  induction items with
  | nil => simp [ValidItems]
  | cons v items ih => rw [ValidItems, ih, List.forall_mem_cons]

theorem validEntries_iff {entries : List (List Char × Value)} :
    ValidEntries entries ↔ ∀ e ∈ entries, e.2.Valid := by
  induction entries with
  | nil => simp [ValidEntries]
  | cons e entries ih => rw [ValidEntries, ih, List.forall_mem_cons]

end Value

/-! ## Heads -/

open CborEncoder CborDecoder

theorem head_writeMajorInt {major value : ℕ} (hmajor : major < 8) (hvalue : value < 2 ^ 64) :
    Head major (writeMajorInt major value) value := by
  have hbyte : ∀ info < 32, (UInt8.ofNat (major * 32 + info)).toNat = major * 32 + info :=
    fun info hinfo => by
      rw [UInt8.toNat_ofNat']
      exact Nat.mod_eq_of_lt (by omega)
  -- the four heads with an argument behind the first byte
  have hwide : ∀ width info : ℕ, 0 < width → info < 32 → argWidth info = some width →
      value < 256 ^ width →
      Head major (UInt8.ofNat (major * 32 + info) :: Bytes.toBE width value) value := by
    intro width info hpos hinfo hwidth hlt
    have hlen := Bytes.length_toBE width value
    have hne : Bytes.toBE width value ≠ [] := fun hnil => by
      rw [hnil, List.length_nil] at hlen
      omega
    refine ⟨_, _, rfl, by rw [hbyte info hinfo]; omega, ?_, ?_⟩
    · rw [hbyte info hinfo, show (major * 32 + info) % 32 = info by omega, hlen, hwidth]
    · rw [if_neg hne, Bytes.ofBE_toBE hlt]
  unfold writeMajorInt
  split_ifs with h1 h2 h3 h4
  · have hinfo : (major * 32 + value) % 32 = value := by omega
    refine ⟨_, [], rfl, by rw [hbyte value (by omega)]; omega, ?_, ?_⟩
    · rw [hbyte value (by omega), hinfo, argWidth, if_pos h1]
      rfl
    · rw [if_pos rfl, hbyte value (by omega), hinfo]
  · exact hwide 1 24 (by norm_num) (by norm_num) rfl (by omega)
  · exact hwide 2 25 (by norm_num) (by norm_num) rfl (by omega)
  · exact hwide 4 26 (by norm_num) (by norm_num) rfl (by omega)
  · exact hwide 8 27 (by norm_num) (by norm_num) rfl (lt_of_lt_of_le hvalue (by norm_num))

theorem length_writeMajorInt (major value : ℕ) : (writeMajorInt major value).length =
    if value ≤ 23 then 1 else if value ≤ 0xff then 2 else if value ≤ 0xffff then 3
      else if value ≤ 0xffffffff then 5 else 9 := by
  unfold writeMajorInt
  dsimp only
  split_ifs <;> simp [Bytes.length_toBE]

/-! ## What comes back -/

section Decoded

variable {α β : Type}

/-- The encoded key of an entry comes before that of another one. -/
def EntryLE (a b : List Char × α) : Prop := lexCmp (writeText a.1) (writeText b.1) ≤ 0

instance : DecidableRel (EntryLE (α := α)) := fun a b =>
  inferInstanceAs (Decidable (lexCmp (writeText a.1) (writeText b.1) ≤ 0))

/-- Entries in the order of their encoded keys. -/
def sortByKey (entries : List (List Char × α)) : List (List Char × α) :=
  entries.insertionSort EntryLE

/-- The map that the decoder fills with some entries. -/
def insertAll (map entries : List (List Char × Value)) : List (List Char × Value) :=
  entries.foldl (fun m e => mapInsert m (stripBom e.1) e.2) map

mutual

/-- The value that comes back from an encoding. -/
def decoded : Value → Value
  | .null => .null
  | .bool b => .bool b
  | .int n => .int n
  | .bytes bs => .bytes bs
  | .ints ns => .bytes (fromList ns)
  | .text s => .text (stripBom s)
  | .list items => .list (decodedItems items)
  | .map entries => .map (insertAll [] (sortByKey (decodedEntries entries)))

def decodedItems : List Value → List Value
  | [] => []
  | v :: items => decoded v :: decodedItems items

/-- The entries that come back, before they are inserted. -/
def decodedEntries : List (List Char × Value) → List (List Char × Value)
  | [] => []
  | e :: entries => (e.1, decoded e.2) :: decodedEntries entries

end

theorem decodedItems_eq (items : List Value) : decodedItems items = items.map decoded := by
  induction items with
  | nil => rfl
  | cons v items ih => rw [decodedItems, ih, List.map_cons]

theorem decodedEntries_eq (entries : List (List Char × Value)) :
    decodedEntries entries = entries.map fun e => (e.1, decoded e.2) := by
  induction entries with
  | nil => rfl
  | cons e entries ih => rw [decodedEntries, ih, List.map_cons]

theorem writeItems_eq (items : List Value) : writeItems items = items.flatMap writeValue := by
  induction items with
  | nil => rfl
  | cons v items ih => rw [writeItems, ih, List.flatMap_cons]

theorem writeEntries_eq (entries : List (List Char × Value)) :
    writeEntries entries = entries.map fun e => (writeText e.1, writeValue e.2) := by
  induction entries with
  | nil => rfl
  | cons e entries ih => rw [writeEntries, ih, List.map_cons]

theorem sortByKey_map (f : α → β) (entries : List (List Char × α)) :
    sortByKey (entries.map fun e => (e.1, f e.2)) =
      (sortByKey entries).map fun e => (e.1, f e.2) :=
  (List.map_insertionSort EntryLE EntryLE (fun e => (e.1, f e.2)) entries
    fun _ _ _ _ => Iff.rfl).symm

theorem writeValue_map (entries : List (List Char × Value)) : writeValue (.map entries) =
    writeMajorInt 5 entries.length ++
      (sortByKey entries).flatMap fun e => writeText e.1 ++ writeValue e.2 := by
  have hsort : sortEntries (writeEntries entries) =
      (sortByKey entries).map fun e => (writeText e.1, writeValue e.2) := by
    rw [writeEntries_eq]
    exact (List.map_insertionSort EntryLE KeyLE (fun e => (writeText e.1, writeValue e.2)) entries
      fun _ _ _ _ => Iff.rfl).symm
  rw [writeValue, hsort, List.flatMap_map]

theorem mem_sortByKey {entries : List (List Char × α)} {e : List Char × α} :
    e ∈ sortByKey entries ↔ e ∈ entries := List.mem_insertionSort _

theorem length_sortByKey (entries : List (List Char × α)) :
    (sortByKey entries).length = entries.length := List.length_insertionSort _ _

/-! ## The round trip -/

theorem layout_writeText {s : List Char} (hfit : (writeText s).length < 2 ^ 63) :
    Layout (writeText s) (.value (.text (stripBom s))) := by
  rw [writeText, writeBytes, List.length_append] at hfit
  rw [writeText, writeBytes]
  refine .text (head_writeMajorInt (by norm_num) (by omega)) ?_
  rw [utf8Decode, Utf8.decode_encode, Option.map_some]

theorem layout_writeBytes {bs : List UInt8} (hfit : (writeBytes 2 bs).length < 2 ^ 63) :
    Layout (writeBytes 2 bs) (.value (.bytes bs)) := by
  rw [writeBytes, List.length_append] at hfit
  exact .bytes (head_writeMajorInt (by norm_num) (by omega))

theorem layout_writeItems (items : List Value)
    (hlayout : ∀ v ∈ items, Layout (writeValue v) (.value (decoded v))) :
    Layout (writeItems items) (.items (decodedItems items)) := by
  induction items with
  | nil => exact .noItems
  | cons v items ih =>
    rw [writeItems, decodedItems]
    exact .consItem (hlayout v List.mem_cons_self)
      (ih fun w hw => hlayout w (List.mem_cons_of_mem _ hw))

theorem layout_flatMap (entries : List (List Char × Value))
    (hkeys : ∀ e ∈ entries, (writeText e.1).length < 2 ^ 63)
    (hlayout : ∀ e ∈ entries, Layout (writeValue e.2) (.value (decoded e.2))) :
    Layout (entries.flatMap fun e => writeText e.1 ++ writeValue e.2)
      (.entries (entries.map fun e => (stripBom e.1, decoded e.2))) := by
  induction entries with
  | nil => exact .noEntries
  | cons e entries ih =>
    rw [List.flatMap_cons, List.map_cons]
    exact .consEntry (layout_writeText (hkeys e List.mem_cons_self))
      (hlayout e List.mem_cons_self)
      (ih (fun f hf => hkeys f (List.mem_cons_of_mem _ hf))
        fun f hf => hlayout f (List.mem_cons_of_mem _ hf))

theorem length_le_flatMap {ι : Type} {l : List ι} {f : ι → List UInt8} {a : ι} (ha : a ∈ l) :
    (f a).length ≤ (l.flatMap f).length := by
  rw [List.length_flatMap]
  exact List.single_le_sum (fun _ _ => Nat.zero_le _) _ (List.mem_map_of_mem ha)

theorem insertAll_eq (entries : List (List Char × Value)) :
    insertAll [] entries = mapOf (entries.map fun e => (stripBom e.1, e.2)) := by
  rw [insertAll, mapOf, List.foldl_map]

/-- An encoding is laid out as the format says, for the value that comes back. -/
theorem layout_writeValue (v : Value) (hv : v.Valid) (hfit : (writeValue v).length < 2 ^ 63) :
    Layout (writeValue v) (.value (decoded v)) := by
  induction v using Value.induct with
  | null => exact .simple (by decide) rfl
  | bool b =>
    cases b
    · exact .simple (by decide) rfl
    · exact .simple (by decide) rfl
  | int n =>
    obtain ⟨hlow, hhigh⟩ := hv
    simp only [writeValue, decoded]
    by_cases hn : n ≥ 0
    · rw [if_pos hn]
      have hlayout := Layout.uint (head_writeMajorInt (show 0 < 8 by norm_num)
        (show n.toNat < 2 ^ 64 by omega))
      rwa [int64_eq (by omega) (by omega), Int.toNat_of_nonneg hn] at hlayout
    · rw [if_neg hn]
      have hlayout := Layout.nint (head_writeMajorInt (show 1 < 8 by norm_num)
        (show (-1 - n).toNat < 2 ^ 64 by omega))
      rwa [int64_eq (by omega) (by omega), Int.toNat_of_nonneg (by omega), sub_sub_cancel]
        at hlayout
  | bytes bs => exact layout_writeBytes hfit
  | ints ns => exact layout_writeBytes hfit
  | text s => exact layout_writeText hfit
  | list items ih =>
    simp only [writeValue, List.length_append] at hfit ⊢
    have hitems := layout_writeItems items fun v hmem => ih v hmem
      (Value.validItems_iff.mp hv v hmem) (by
        have hle := length_le_flatMap (f := writeValue) hmem
        rw [← writeItems_eq] at hle
        omega)
    have hsize : (decodedItems items).length ≤ _ := hitems.size_le
    have hlen : (decodedItems items).length = items.length := by
      rw [decodedItems_eq, List.length_map]
    rw [decoded, ← hlen]
    exact .list (head_writeMajorInt (by norm_num) (by omega)) hitems
  | map entries ih =>
    rw [writeValue_map, List.length_append] at hfit
    rw [writeValue_map, decoded, decodedEntries_eq, sortByKey_map, insertAll_eq, List.map_map]
    have hpart : ∀ e ∈ sortByKey entries,
        (writeText e.1).length < 2 ^ 63 ∧ (writeValue e.2).length < 2 ^ 63 := by
      intro e he
      have hle := length_le_flatMap (f := fun e => writeText e.1 ++ writeValue e.2) he
      rw [List.length_append] at hle
      omega
    have hentries := layout_flatMap (sortByKey entries) (fun e he => (hpart e he).1) fun e he =>
      ih e (mem_sortByKey.mp he) (Value.validEntries_iff.mp hv.2 e (mem_sortByKey.mp he))
        (hpart e he).2
    have hsize := hentries.size_le
    simp only [Content.size, List.length_map] at hsize
    have hlen : ((sortByKey entries).map fun e => (stripBom e.1, decoded e.2)).length =
        entries.length := by
      rw [List.length_map, length_sortByKey]
    rw [← hlen]
    exact .map (head_writeMajorInt (by norm_num) (by rw [List.length_map]; omega)) hentries

theorem decode_encode (v : Value) (hv : v.Valid) (hfit : (CborCodec.encode v).length < 2 ^ 63) :
    CborCodec.decode (CborCodec.encode v) = .ok (decoded v) :=
  (layout_writeValue v hv hfit).decode_eq hfit

end Decoded

end ChessRecast.P2P
