import ChessRecast.P2P.CborTheorems

/-!
# When the codec is the identity

`Same` compares a value with what came back: maps as finite maps, and a `List<int>` also with a
byte string of the same numbers. The encoding does not depend on the order of the entries of a map,
nor on how a list of bytes is typed (`encode_eq_of_same`).
-/

namespace ChessRecast.P2P

open CborEncoder

mutual

def Value.Same : Value → Value → Prop
  | .null, w => w = .null
  | .bool b, w => w = .bool b
  | .int n, w => w = .int n
  | .bytes bs, w => w = .bytes bs
  | .ints ns, w => w = .ints ns ∨ ∃ bs, w = .bytes bs ∧ ns = bs.map fun b => (b.toNat : ℤ)
  | .text s, w => w = .text s
  | .list items, w => ∃ items', w = .list items' ∧ SameItems items items'
  | .map entries, w =>
    ∃ entries', w = .map entries' ∧ entries.length = entries'.length ∧ SameEntries entries entries'

def Value.SameItems : List Value → List Value → Prop
  | [], items' => items' = []
  | v :: items, items' => ∃ w rest, items' = w :: rest ∧ v.Same w ∧ SameItems items rest

/-- Each entry of the first list has its key with the same value in the second one. -/
def Value.SameEntries : List (List Char × Value) → List (List Char × Value) → Prop
  | [], _ => True
  | e :: entries, entries' => (∃ w, (e.1, w) ∈ entries' ∧ e.2.Same w) ∧ SameEntries entries entries'

end

mutual

/-- Nothing in the value is lost: a `List<int>` holds bytes only, and no string begins with a byte
order mark. -/
def Value.Plain : Value → Prop
  | .ints ns => ∀ n ∈ ns, 0 ≤ n ∧ n < 256
  | .text s => s.head? ≠ some '\uFEFF'
  | .list items => PlainItems items
  | .map entries => PlainEntries entries
  | _ => True

/-- Nothing in the items is lost. -/
def Value.PlainItems : List Value → Prop
  | [] => True
  | v :: items => v.Plain ∧ PlainItems items

/-- Nothing in the keys and values is lost. -/
def Value.PlainEntries : List (List Char × Value) → Prop
  | [] => True
  | e :: entries => (e.1.head? ≠ some '\uFEFF' ∧ e.2.Plain) ∧ PlainEntries entries

end

namespace Value

variable {items items' : List Value} {entries entries' : List (List Char × Value)} {v w : Value}

theorem sameItems_iff : SameItems items items' ↔ List.Forall₂ Same items items' := by
  induction items generalizing items' with
  | nil => rw [SameItems, List.forall₂_nil_left_iff]
  | cons v items ih =>
    rw [SameItems, List.forall₂_cons_left_iff]
    simp only [ih]
    constructor
    · rintro ⟨w, rest, rfl, hv, hrest⟩
      exact ⟨w, rest, hv, hrest, rfl⟩
    · rintro ⟨w, rest, hv, hrest, rfl⟩
      exact ⟨w, rest, rfl, hv, hrest⟩

theorem sameEntries_iff : SameEntries entries entries' ↔
    ∀ e ∈ entries, ∃ w, (e.1, w) ∈ entries' ∧ e.2.Same w := by
  induction entries with
  | nil => simp [SameEntries]
  | cons e entries ih => rw [SameEntries, ih, List.forall_mem_cons]

theorem plainItems_iff : PlainItems items ↔ ∀ v ∈ items, v.Plain := by
  induction items with
  | nil => simp [PlainItems]
  | cons v items ih => rw [PlainItems, ih, List.forall_mem_cons]

theorem plainEntries_iff : PlainEntries entries ↔
    ∀ e ∈ entries, e.1.head? ≠ some '\uFEFF' ∧ e.2.Plain := by
  induction entries with
  | nil => simp [PlainEntries]
  | cons e entries ih => rw [PlainEntries, ih, List.forall_mem_cons]

end Value

/-! ## The encoding depends on the value only -/

section Order

variable {entries entries' : List (List Char × Value)} {v w : Value}

/-- Longer strings have no shorter heads, so the whole shows the length of the contents. -/
theorem writeBytes_injective (major : ℕ) : Function.Injective (writeBytes major) := by
  intro bs bs' h
  have hlen := congrArg List.length h
  rw [writeBytes, writeBytes, List.length_append, List.length_append, length_writeMajorInt,
    length_writeMajorInt] at hlen
  have hsame : bs.length = bs'.length := by
    split_ifs at hlen <;> omega
  rw [writeBytes, writeBytes, hsame] at h
  exact List.append_cancel_left h

theorem writeText_injective : Function.Injective writeText :=
  (writeBytes_injective 3).comp Utf8.encode_injective

instance : Std.Total KeyLE := ⟨fun a b => Bytes.lexCmp_total a.1 b.1⟩

instance : IsTrans _ KeyLE := ⟨fun _ _ _ => Bytes.lexCmp_trans⟩

theorem sortEntries_eq_of_perm {es es' : List (List UInt8 × List UInt8)} (hperm : es.Perm es')
    (hnodup : (es.map Prod.fst).Nodup) : sortEntries es = sortEntries es' := by
  refine @List.Perm.eq_of_pairwise _ KeyLE _ _ (fun a b ha hb hab hba => ?_)
    (List.pairwise_insertionSort _ _) (List.pairwise_insertionSort _ _)
    ((List.perm_insertionSort _ _).trans (hperm.trans (List.perm_insertionSort _ _).symm))
  have ha' : a ∈ es := (List.mem_insertionSort _).mp ha
  have hb' : b ∈ es := hperm.mem_iff.mpr ((List.mem_insertionSort _).mp hb)
  exact List.inj_on_of_nodup_map hnodup ha' hb' (Bytes.lexCmp_antisymm hab hba)

theorem nodup_writeEntries (h : (entries.map Prod.fst).Nodup) :
    ((writeEntries entries).map Prod.fst).Nodup := by
  have hkeys : (writeEntries entries).map Prod.fst = (entries.map Prod.fst).map writeText := by
    rw [writeEntries_eq, List.map_map, List.map_map]
    rfl
  rw [hkeys]
  exact h.map writeText_injective

/-- The same value has the same encoding, whatever the order of its maps. -/
theorem writeValue_eq_of_same (v : Value) : ∀ w, v.Valid → v.Same w →
    writeValue v = writeValue w := by
  induction v using Value.induct with
  | null => rintro w _ h; rw [Value.Same] at h; rw [h]
  | bool b => rintro w _ h; rw [Value.Same] at h; rw [h]
  | int n => rintro w _ h; rw [Value.Same] at h; rw [h]
  | bytes bs => rintro w _ h; rw [Value.Same] at h; rw [h]
  | ints ns =>
    rintro w _ h
    rw [Value.Same] at h
    rcases h with rfl | ⟨bs, rfl, rfl⟩
    · rfl
    · have hbytes : fromList (bs.map fun b => (b.toNat : ℤ)) = bs := by
        rw [fromList, List.map_map]
        refine (List.map_congr_left fun b _ => ?_).trans (List.map_id bs)
        have hb := b.toNat_lt
        show UInt8.ofNat (((b.toNat : ℤ) % 256).toNat) = b
        rw [show ((b.toNat : ℤ) % 256).toNat = b.toNat by omega, UInt8.ofNat_toNat]
      rw [writeValue, writeValue, hbytes]
  | text s => rintro w _ h; rw [Value.Same] at h; rw [h]
  | list items ih =>
    rintro w hv h
    rw [Value.Same] at h
    obtain ⟨items', rfl, h⟩ := h
    rw [Value.sameItems_iff] at h
    rw [Value.Valid, Value.validItems_iff] at hv
    have hitems : writeItems items = writeItems items' := by
      rw [writeItems_eq, writeItems_eq]
      induction h with
      | nil => rfl
      | cons hvw _ ih' =>
        rw [List.flatMap_cons, List.flatMap_cons, ih _ List.mem_cons_self _
          (hv _ List.mem_cons_self) hvw, ih' (fun u hu => ih u (List.mem_cons_of_mem _ hu))
          fun u hu => hv u (List.mem_cons_of_mem _ hu)]
    rw [writeValue, writeValue, hitems, h.length_eq]
  | map entries ih =>
    rintro w hv h
    rw [Value.Same] at h
    obtain ⟨entries', rfl, hlen, h⟩ := h
    rw [Value.sameEntries_iff] at h
    rw [Value.Valid, Value.validEntries_iff] at hv
    -- every encoded entry is one of the other map, and there are as many
    have hsubset : writeEntries entries ⊆ writeEntries entries' := by
      intro x hx
      rw [writeEntries_eq] at hx ⊢
      obtain ⟨e, he, rfl⟩ := List.mem_map.mp hx
      obtain ⟨u, hu, hsame⟩ := h e he
      exact List.mem_map.mpr ⟨(e.1, u), hu, by rw [ih e he u (hv.2 e he) hsame]⟩
    have hnodup := nodup_writeEntries hv.1
    have hperm : (writeEntries entries).Perm (writeEntries entries') :=
      (List.subperm_of_subset (.of_map _ hnodup) hsubset).perm_of_length_le (by
        rw [writeEntries_eq, writeEntries_eq, List.length_map, List.length_map, hlen])
    rw [writeValue, writeValue, hlen, sortEntries_eq_of_perm hperm hnodup]

end Order

/-! ## What came back is the same -/

section Back

variable {entries m : List (List Char × Value)} {e : List Char × Value} {s : List Char}

theorem stripBom_of_ne (h : s.head? ≠ some '\uFEFF') : stripBom s = s := if_neg h

theorem stripBom_eq_self_iff : stripBom s = s ↔ s.head? ≠ some '\uFEFF' := by
  refine ⟨fun h hbom => ?_, stripBom_of_ne⟩
  have hlen := congrArg List.length (h.symm.trans (if_pos hbom))
  cases s with
  | nil => cases hbom
  | cons ch s => simp at hlen

theorem mem_mapInsert {key : List Char} {v : Value} (h : e ∈ mapInsert m key v) :
    e ∈ m ∨ e = (key, v) := by
  unfold mapInsert at h
  split_ifs at h
  · obtain ⟨f, hf, rfl⟩ := List.mem_map.mp h
    by_cases hkey : f.1 = key
    · rw [if_pos hkey]
      exact .inr rfl
    · rw [if_neg hkey]
      exact .inl hf
  · rcases List.mem_append.mp h with hmem | hmem
    · exact .inl hmem
    · exact .inr (List.mem_singleton.mp hmem)

theorem mem_insertAll (entries : List (List Char × Value)) : ∀ m, e ∈ insertAll m entries →
    e ∈ m ∨ ∃ f ∈ entries, e = (stripBom f.1, f.2) := by
  induction entries with
  | nil => intro m h; exact .inl h
  | cons f entries ih =>
    intro m h
    rcases ih _ h with hmem | ⟨g, hg, rfl⟩
    · rcases mem_mapInsert hmem with hmem | rfl
      · exact .inl hmem
      · exact .inr ⟨f, List.mem_cons_self, rfl⟩
    · exact .inr ⟨g, List.mem_cons_of_mem _ hg, rfl⟩

/-- Entries with new keys that no byte order mark begins are appended as they are. -/
theorem insertAll_eq_append (entries : List (List Char × Value)) :
    ∀ m, ((m ++ entries).map Prod.fst).Nodup → (∀ e ∈ entries, e.1.head? ≠ some '\uFEFF') →
      insertAll m entries = m ++ entries := by
  induction entries with
  | nil => intro m _ _; exact (List.append_nil m).symm
  | cons f entries ih =>
    intro m hnodup hbom
    have hnew : ¬ (m.any fun e => e.1 = f.1) = true := by
      intro hany
      obtain ⟨e, he, hkey⟩ := List.any_eq_true.mp hany
      rw [List.map_append, List.map_cons] at hnodup
      refine List.disjoint_of_nodup_append hnodup (List.mem_map_of_mem he) ?_
      rw [of_decide_eq_true hkey]
      exact List.mem_cons_self
    have hinsert : mapInsert m (stripBom f.1) f.2 = m ++ [f] := by
      rw [stripBom_of_ne (hbom f List.mem_cons_self), mapInsert, if_neg hnew]
    show insertAll (mapInsert m (stripBom f.1) f.2) entries = _
    rw [hinsert, ih _ (by rwa [List.append_assoc]) fun e he => hbom e (List.mem_cons_of_mem _ he),
      List.append_assoc]
    rfl

theorem map_fst_decodedEntries (entries : List (List Char × Value)) :
    (decodedEntries entries).map Prod.fst = entries.map Prod.fst := by
  rw [decodedEntries_eq, List.map_map]
  rfl

theorem same_decoded_of_plain (v : Value) : v.Valid → v.Plain → v.Same (decoded v) := by
  induction v using Value.induct with
  | null => intro _ _; rw [Value.Same, decoded]
  | bool b => intro _ _; rw [Value.Same, decoded]
  | int n => intro _ _; rw [Value.Same, decoded]
  | bytes bs => intro _ _; rw [Value.Same, decoded]
  | ints ns =>
    intro _ hplain
    rw [Value.Same, decoded]
    refine .inr ⟨_, rfl, ?_⟩
    rw [fromList, List.map_map]
    refine ((List.map_congr_left fun n hn => ?_).trans (List.map_id ns)).symm
    obtain ⟨h0, h256⟩ := hplain n hn
    show (((UInt8.ofNat (n % 256).toNat).toNat : ℕ) : ℤ) = n
    rw [UInt8.toNat_ofNat', Nat.mod_eq_of_lt (by omega)]
    omega
  | text s =>
    intro _ hplain
    rw [Value.Same, decoded, stripBom_of_ne hplain]
  | list items ih =>
    intro hv hplain
    rw [Value.Valid, Value.validItems_iff] at hv
    rw [Value.Plain, Value.plainItems_iff] at hplain
    rw [Value.Same, decoded]
    refine ⟨_, rfl, Value.sameItems_iff.mpr ?_⟩
    rw [decodedItems_eq, List.forall₂_map_right_iff]
    exact List.forall₂_same.mpr fun v hmem => ih v hmem (hv v hmem) (hplain v hmem)
  | map entries ih =>
    intro hv hplain
    rw [Value.Valid, Value.validEntries_iff] at hv
    rw [Value.Plain, Value.plainEntries_iff] at hplain
    -- nothing is lost when the entries are inserted
    have hfill : insertAll [] (sortByKey (decodedEntries entries)) =
        sortByKey (decodedEntries entries) := by
      refine insertAll_eq_append _ [] ?_ fun e he => ?_
      · refine (((List.perm_insertionSort _ _).map Prod.fst).nodup_iff).mpr ?_
        rw [map_fst_decodedEntries]
        exact hv.1
      · rw [mem_sortByKey, decodedEntries_eq] at he
        obtain ⟨f, hf, rfl⟩ := List.mem_map.mp he
        exact (hplain f hf).1
    rw [Value.Same, decoded, hfill]
    refine ⟨_, rfl, ?_, Value.sameEntries_iff.mpr fun e he => ⟨decoded e.2, ?_, ?_⟩⟩
    · rw [length_sortByKey, decodedEntries_eq, List.length_map]
    · rw [mem_sortByKey, decodedEntries_eq]
      exact List.mem_map.mpr ⟨e, he, rfl⟩
    · exact ih e he (hv.2 e he) (hplain e he).2

/-- If every key is one without its byte order mark, none has one: the longest of those that have
one would be that of a longer one. -/
theorem no_bom_of_covered {keys : List (List Char)}
    (h : ∀ k ∈ keys, ∃ k' ∈ keys, k = stripBom k') : ∀ k ∈ keys, k.head? ≠ some '\uFEFF' := by
  intro k hk hbom
  set marked := (keys.filter fun k => k.head? = some '\uFEFF').toFinset with hmarked
  have hmem : ∀ k, k ∈ marked ↔ k ∈ keys ∧ k.head? = some '\uFEFF' := by
    intro k
    rw [hmarked, List.mem_toFinset, List.mem_filter, decide_eq_true_eq]
  obtain ⟨longest, hlongest, hmax⟩ :=
    marked.exists_max_image List.length ⟨k, (hmem k).mpr ⟨hk, hbom⟩⟩
  obtain ⟨hin, hhead⟩ := (hmem longest).mp hlongest
  obtain ⟨k', hk', hstrip⟩ := h longest hin
  by_cases hk'bom : k'.head? = some '\uFEFF'
  · have hlen := hmax k' ((hmem k').mpr ⟨hk', hk'bom⟩)
    rw [stripBom, if_pos hk'bom] at hstrip
    cases k' with
    | nil => cases hk'bom
    | cons ch k' =>
      rw [hstrip, List.tail_cons, List.length_cons] at hlen
      omega
  · rw [stripBom_of_ne hk'bom] at hstrip
    rw [hstrip] at hhead
    exact hk'bom hhead

theorem plain_of_same_decoded (v : Value) : v.Valid → v.Same (decoded v) → v.Plain := by
  induction v using Value.induct with
  | null => intro _ _; trivial
  | bool b => intro _ _; trivial
  | int n => intro _ _; trivial
  | bytes bs => intro _ _; trivial
  | ints ns =>
    intro _ h n hn
    rw [Value.Same, decoded] at h
    rcases h with h | ⟨bs, -, rfl⟩
    · cases h
    · obtain ⟨b, -, rfl⟩ := List.mem_map.mp hn
      have hb := b.toNat_lt
      omega
  | text s =>
    intro _ h
    rw [Value.Same, decoded, Value.text.injEq] at h
    exact stripBom_eq_self_iff.mp h
  | list items ih =>
    intro hv h
    rw [Value.Valid, Value.validItems_iff] at hv
    rw [Value.Same, decoded] at h
    obtain ⟨items', hitems', h⟩ := h
    obtain rfl := Value.list.inj hitems'
    rw [Value.sameItems_iff, decodedItems_eq, List.forall₂_map_right_iff] at h
    rw [Value.Plain, Value.plainItems_iff]
    exact fun v hmem => ih v hmem (hv v hmem) (List.forall₂_same.mp h v hmem)
  | map entries ih =>
    intro hv h
    rw [Value.Valid, Value.validEntries_iff] at hv
    rw [Value.Same, decoded] at h
    obtain ⟨entries', hentries', -, h⟩ := h
    obtain rfl := Value.map.inj hentries'
    rw [Value.sameEntries_iff] at h
    -- every key is that of an entry, without its byte order mark
    have hcovered : ∀ e ∈ entries, ∃ f ∈ entries, e.1 = stripBom f.1 ∧ e.2.Same (decoded f.2) := by
      intro e he
      obtain ⟨w, hw, hsame⟩ := h e he
      rcases mem_insertAll _ [] hw with hnil | ⟨g, hg, heq⟩
      · cases hnil
      · rw [mem_sortByKey, decodedEntries_eq] at hg
        obtain ⟨f, hf, rfl⟩ := List.mem_map.mp hg
        obtain ⟨hkey, rfl⟩ := Prod.mk.inj heq
        exact ⟨f, hf, hkey, hsame⟩
    have hbom : ∀ e ∈ entries, e.1.head? ≠ some '\uFEFF' := by
      intro e he
      refine no_bom_of_covered (fun k hk => ?_) e.1 (List.mem_map_of_mem he)
      obtain ⟨e, he, rfl⟩ := List.mem_map.mp hk
      obtain ⟨f, hf, hkey, -⟩ := hcovered e he
      exact ⟨f.1, List.mem_map_of_mem hf, hkey⟩
    rw [Value.Plain, Value.plainEntries_iff]
    intro e he
    obtain ⟨f, hf, hkey, hsame⟩ := hcovered e he
    rw [stripBom_of_ne (hbom f hf)] at hkey
    obtain rfl := List.inj_on_of_nodup_map hv.1 he hf hkey
    exact ⟨hbom e he, ih e he (hv.2 e he) hsame⟩

end Back

/-- The value comes back, its encoding does not depend on the order of its maps, and the encoding
passes its own check: exactly if nothing in the value is lost. -/
theorem codec_correct_iff (v : Value) (hv : v.Valid)
    (hfit : (CborCodec.encode v).length < 2 ^ 63) :
    ((∃ w, CborCodec.decode (CborCodec.encode v) = .ok w ∧ v.Same w) ∧
      (∀ w, v.Same w → CborCodec.encode w = CborCodec.encode v) ∧
      CborCodec.isDeterministic (CborCodec.encode v) = true) ↔ v.Plain := by
  have hdecode := decode_encode v hv hfit
  constructor
  · rintro ⟨⟨w, hw, hsame⟩, -, -⟩
    rw [hdecode] at hw
    rw [← Except.ok.inj hw] at hsame
    exact plain_of_same_decoded v hv hsame
  · intro hplain
    have hsame := same_decoded_of_plain v hv hplain
    refine ⟨⟨_, hdecode, hsame⟩, fun w hw => (writeValue_eq_of_same v w hv hw).symm, ?_⟩
    rw [CborCodec.isDeterministic, hdecode]
    exact decide_eq_true (writeValue_eq_of_same v _ hv hsame).symm

/-- A map with a list of bytes, a list and a negative number. -/
def sampleValue : Value :=
  .map [(['t', 's'], .ints [7, 255]), (['n'], .list [.int (-300), .null, .text ['é']])]

theorem codec_correct_sampleValue :
    (∃ w, CborCodec.decode (CborCodec.encode sampleValue) = .ok w ∧ sampleValue.Same w) ∧
      (∀ w, sampleValue.Same w → CborCodec.encode w = CborCodec.encode sampleValue) ∧
      CborCodec.isDeterministic (CborCodec.encode sampleValue) = true := by
  refine (codec_correct_iff sampleValue ?_ (by decide)).mpr ?_
  · simp [sampleValue, Value.Valid, Value.ValidEntries, Value.ValidItems]
  · simp [sampleValue, Value.Plain, Value.PlainEntries, Value.PlainItems]

/-- A `List<int>` with 300 in it comes back as the byte 44, and a text that begins with a byte order
mark without it; the encoding of that text does not pass the check of its own. -/
theorem codec_loses_numbers_and_marks :
    CborCodec.decode (CborCodec.encode (.ints [300])) = .ok (.bytes [44]) ∧
    ¬ (Value.ints [300]).Same (.bytes [44]) ∧
    CborCodec.decode (CborCodec.encode (.text ['\uFEFF', 'a'])) = .ok (.text ['a']) ∧
    ¬ (Value.text ['\uFEFF', 'a']).Same (.text ['a']) ∧
    CborCodec.isDeterministic (CborCodec.encode (.text ['\uFEFF', 'a'])) = false := by
  refine ⟨decode_encode (.ints [300]) trivial (by decide), ?_,
    decode_encode (.text ['\uFEFF', 'a']) trivial (by decide), ?_, by decide +kernel⟩
  · rw [Value.Same]
    rintro (h | ⟨bs, h, hns⟩)
    · cases h
    · obtain rfl := Value.bytes.inj h
      exact absurd hns (by decide)
  · rw [Value.Same, Value.text.injEq]
    decide

end ChessRecast.P2P
