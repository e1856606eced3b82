import ChessRecast.P2P.CborReading
import ChessRecast.P2P.CborTheorems
import ChessRecast.P2P.Frame

/-!
# The wire form of a frame

`Frame.encode` writes the five fields once each, in the order of their encoded keys, every integer
and length with its shortest head. `Frame.decode` also accepts other byte strings: it skips tags,
reads heads of any width, takes the entries in any order, lets a later entry replace an earlier
one, ignores unknown keys and takes a missing `ts` as 0. A frame is encoded to the bytes it was
decoded from exactly if these are in wire form (`encode_decode_iff`).
-/

namespace ChessRecast.P2P

open CborEncoder CborDecoder Outcome

/-! ## Shortest heads -/

/-- No head for the same argument is shorter, and the argument is a number of 63 bits. -/
structure ShortHead (major : ℕ) (bs : List UInt8) (n : ℕ) : Prop where
  head : Head major bs n
  shortest : ∀ bs', Head major bs' n → bs.length ≤ bs'.length
  lt : n < 2 ^ 63

section Heads

variable {major n : ℕ} {bs bs' : List UInt8}

theorem argWidth_inj {info info' w : ℕ} (h : argWidth info = some w) (h' : argWidth info' = some w)
    (hw : w ≠ 0) : info = info' := by
  unfold argWidth at h h'
  split_ifs at h <;> split_ifs at h'
  all_goals
    have hw := Option.some.inj h
    have hw' := Option.some.inj h'
    omega

theorem Head.eq_of_length_eq (h : Head major bs n) (h' : Head major bs' n)
    (hlen : bs.length = bs'.length) : bs = bs' := by
  obtain ⟨b, arg, rfl, hb, hwidth, hn⟩ := h.exists_arg
  obtain ⟨b', arg', rfl, hb', hwidth', hn'⟩ := h'.exists_arg
  have harg : arg.length = arg'.length := Nat.succ.inj hlen
  have hbyte : b.toNat % 32 = b'.toNat % 32 → b = b' :=
    fun hinfo => UInt8.toNat_inj.mp (by omega)
  by_cases hnil : arg = []
  · obtain rfl : arg' = [] := List.length_eq_zero_iff.mp (by rw [← harg, hnil]; rfl)
    rw [if_pos hnil] at hn
    rw [if_pos rfl] at hn'
    rw [hnil, hbyte (by omega)]
  · have hnil' : arg' ≠ [] := fun h => hnil (List.length_eq_zero_iff.mp (by rw [harg, h]; rfl))
    rw [if_neg hnil] at hn
    rw [if_neg hnil'] at hn'
    rw [← harg] at hwidth'
    rw [hbyte (argWidth_inj hwidth hwidth' fun h => hnil (List.length_eq_zero_iff.mp h)),
      Bytes.ofBE_inj harg (hn.symm.trans hn')]

theorem Head.arg_lt (h : Head major bs n) :
    bs.length = 1 ∧ n ≤ 23 ∨ bs.length = 2 ∧ n ≤ 0xff ∨ bs.length = 3 ∧ n ≤ 0xffff ∨
      bs.length = 5 ∧ n ≤ 0xffffffff ∨ bs.length = 9 := by
  obtain ⟨b, arg, rfl, -, hwidth, hn⟩ := h.exists_arg
  have hbound := Bytes.ofBE_lt arg
  rw [List.length_cons]
  unfold argWidth at hwidth
  split_ifs at hwidth with h0
  all_goals
    have hlen := Option.some.inj hwidth
    rw [← hlen] at hbound ⊢
  · rw [if_pos (List.length_eq_zero_iff.mp hlen.symm)] at hn
    omega
  all_goals
    rw [if_neg (fun hnil => by rw [hnil] at hlen; cases hlen)] at hn
    norm_num at hbound
    omega

theorem length_writeMajorInt_le (h : Head major bs n) :
    (writeMajorInt major n).length ≤ bs.length := by
  rw [length_writeMajorInt]
  have hgiven := h.arg_lt
  split_ifs <;> omega

theorem shortHead_iff (hmajor : major < 8) :
    ShortHead major bs n ↔ n < 2 ^ 63 ∧ bs = writeMajorInt major n := by
  constructor
  · rintro ⟨hhead, hshort, hlt⟩
    have hwritten : Head major (writeMajorInt major n) n := head_writeMajorInt hmajor (by omega)
    refine ⟨hlt, hhead.eq_of_length_eq hwritten (le_antisymm (hshort _ hwritten) ?_)⟩
    exact length_writeMajorInt_le hhead
  · rintro ⟨hlt, rfl⟩
    exact ⟨head_writeMajorInt hmajor (by omega),
      fun bs' h => length_writeMajorInt_le h, hlt⟩

end Heads

/-! ## Decoded values are Dart values -/

theorem int64_range (z : ℤ) : -2 ^ 63 ≤ int64 z ∧ int64 z < 2 ^ 63 := by
  unfold int64
  omega

theorem readArg_range {info : ℕ} {c d : Cursor} {n : ℤ} (hinfo : info < 32)
    (h : readArg info c = .ok (n, d)) : -2 ^ 63 ≤ n ∧ n < 2 ^ 63 := by
  rcases readArg_eq info c with ⟨w, -, -, hread⟩ | ⟨-, e, hread⟩
  · obtain ⟨rfl, -⟩ := Prod.mk.inj (Except.ok.inj (hread.symm.trans h))
    split_ifs
    · omega
    · exact int64_range _
  · cases hread.symm.trans h

theorem mapInsert_valid {map : List (List Char × Value)} {key : List Char} {v : Value}
    (hmap : (Value.map map).Valid) (hv : v.Valid) : (Value.map (mapInsert map key v)).Valid := by
  obtain ⟨hnodup, hvalid⟩ := hmap
  rw [Value.validEntries_iff] at hvalid
  unfold mapInsert
  split_ifs with hany
  · refine ⟨?_, Value.validEntries_iff.mpr fun e he => ?_⟩
    · have hkeys : (map.map fun e => if e.1 = key then (key, v) else e).map Prod.fst =
          map.map Prod.fst := by
        rw [List.map_map]
        refine List.map_congr_left fun e _ => ?_
        by_cases hkey : e.1 = key
        · simp [hkey]
        · simp [hkey]
      rwa [hkeys]
    · obtain ⟨e', he', rfl⟩ := List.mem_map.mp he
      split_ifs
      · exact hv
      · exact hvalid e' he'
  · refine ⟨?_, Value.validEntries_iff.mpr fun e he => ?_⟩
    · rw [List.map_append, List.map_singleton]
      refine List.nodup_append.mpr ⟨hnodup, List.nodup_singleton _, ?_⟩
      intro k hk k' hk' heq
      obtain ⟨e, he, rfl⟩ := List.mem_map.mp hk
      obtain rfl := List.mem_singleton.mp hk'
      exact hany (List.any_eq_true.mpr ⟨e, he, by simpa using heq⟩)
    · rcases List.mem_append.mp he with he | he
      · exact hvalid e he
      · rw [List.mem_singleton.mp he]
        exact hv

theorem valid_of_read (steps : ℕ) :
    (∀ c v c', readValue steps c = .ok (v, c') → v.Valid) ∧
    (∀ count c items c', readItems steps count c = .ok (items, c') →
      (Value.list items).Valid) ∧
    (∀ count map c m c', (Value.map map).Valid → readEntries steps count map c = .ok (m, c') →
      (Value.map m).Valid) := by
  -- a row that is not read
  have hitems0 : ∀ {steps count c items c'}, count ≤ 0 →
      readItems steps count c = .ok (items, c') → (Value.list items).Valid := by
    intro steps count c items c' hle h
    rw [readItems_of_nonpos hle] at h
    obtain ⟨rfl, -⟩ := Prod.mk.inj (Except.ok.inj h)
    trivial
  have hentries0 : ∀ {steps count map c m c'}, count ≤ 0 → (Value.map map).Valid →
      readEntries steps count map c = .ok (m, c') → (Value.map m).Valid := by
    intro steps count map c m c' hle hmap h
    rw [readEntries_of_nonpos hle] at h
    obtain ⟨rfl, -⟩ := Prod.mk.inj (Except.ok.inj h)
    exact hmap
  induction steps with
  | zero =>
    refine ⟨fun c v c' h => ?_, fun count c items c' h => ?_, fun count map c m c' hmap h => ?_⟩
    · cases h
    · by_cases hcount : count ≤ 0
      · exact hitems0 hcount h
      · rw [readItems, if_neg hcount] at h
        cases h
    · by_cases hcount : count ≤ 0
      · exact hentries0 hcount hmap h
      · rw [readEntries, if_neg hcount] at h
        cases h
  | succ steps ih =>
    obtain ⟨hvalue, hitems, hentries⟩ := ih
    refine ⟨fun c v c' h => ?_, fun count c items c' h => ?_, fun count map c m c' hmap h => ?_⟩
    · obtain ⟨b, rest, -, hread⟩ := readValue_ok h
      have hinfo : b.toNat % 32 < 32 := Nat.mod_lt _ (by norm_num)
      cases hread with
      | uint _ harg => exact readArg_range hinfo harg
      | nint _ harg =>
        have hrange := readArg_range hinfo harg
        exact ⟨by omega, by omega⟩
      | bytes => trivial
      | text => trivial
      | list _ _ h => exact hitems _ _ _ _ h
      | map _ _ h => exact hentries _ [] _ _ _ ⟨List.nodup_nil, trivial⟩ h
      | tag _ _ h => exact hvalue _ _ _ h
      | simple _ hv =>
        unfold simpleValue at hv
        split at hv
        · rw [← Option.some.inj hv]; trivial
        · rw [← Option.some.inj hv]; trivial
        · rw [← Option.some.inj hv]; trivial
        · cases hv
    · by_cases hcount : 0 < count
      · obtain ⟨v, d, items', hv, hrest, rfl⟩ := readItems_ok hcount h
        exact ⟨hvalue _ _ _ hv, hitems _ _ _ _ hrest⟩
      · exact hitems0 (by omega) h
    · by_cases hcount : 0 < count
      · obtain ⟨key, d, v, d', -, hv, hrest⟩ := readEntries_ok hcount h
        exact hentries _ _ _ _ _ (mapInsert_valid hmap (hvalue _ _ _ hv)) hrest
      · exact hentries0 (by omega) hmap h

theorem valid_of_decode {data : List UInt8} {v : Value} (h : CborCodec.decode data = .ok v) :
    v.Valid := by
  obtain ⟨⟨v', c⟩, hread, h⟩ := bind_eq_ok.mp h
  dsimp only at h
  split_ifs at h
  obtain rfl := Except.ok.inj h
  exact (valid_of_read _).1 _ _ _ hread

/-! ## The wire form -/

/-- An integer with its shortest head, of major type 0 or 1. -/
def IntBytes (bs : List UInt8) : Prop := ∃ n, ShortHead 0 bs n ∨ ShortHead 1 bs n

/-- The bytes of a frame: a map of the five keys in the order `n`, `p`, `t`, `v`, `ts`, with no tag
and nothing else in it, and every head the shortest one. -/
def WireForm (b : List UInt8) : Prop :=
  ∃ n hd p t v ts, IntBytes n ∧ ShortHead 2 hd p.length ∧ IntBytes t ∧ IntBytes v ∧ IntBytes ts ∧
    b = [0xa5] ++ ([0x61, 0x6e] ++ n ++ ([0x61, 0x70] ++ (hd ++ p) ++ ([0x61, 0x74] ++ t ++
      ([0x61, 0x76] ++ v ++ ([0x62, 0x74, 0x73] ++ ts)))))

theorem intBytes_iff {bs : List UInt8} :
    IntBytes bs ↔ ∃ n : ℤ, (-2 ^ 63 ≤ n ∧ n < 2 ^ 63) ∧ bs = writeValue (.int n) := by
  constructor
  · rintro ⟨n, h | h⟩
    · obtain ⟨hlt, rfl⟩ := (shortHead_iff (by norm_num)).mp h
      refine ⟨n, ⟨by omega, by omega⟩, ?_⟩
      rw [writeValue, if_pos (by omega), Int.toNat_natCast]
    · obtain ⟨hlt, rfl⟩ := (shortHead_iff (by norm_num)).mp h
      refine ⟨-1 - n, ⟨by omega, by omega⟩, ?_⟩
      rw [writeValue, if_neg (by omega), sub_sub_cancel, Int.toNat_natCast]
  · rintro ⟨n, ⟨hlow, hhigh⟩, rfl⟩
    rw [writeValue]
    split_ifs with hn
    · exact ⟨_, .inl ((shortHead_iff (by norm_num)).mpr ⟨by omega, rfl⟩)⟩
    · exact ⟨_, .inr ((shortHead_iff (by norm_num)).mpr ⟨by omega, rfl⟩)⟩

/-- The entries of a frame with these values, as `encode` lists them. -/
def fieldEntries (n p t ts v : Value) : List (List Char × Value) :=
  [(['n'], n), (['p'], p), (['t'], t), (['t', 's'], ts), (['v'], v)]

theorem sortByKey_fieldEntries (n p t ts v : Value) : sortByKey (fieldEntries n p t ts v) =
    [(['n'], n), (['p'], p), (['t'], t), (['v'], v), (['t', 's'], ts)] := by
  have hkeys : sortByKey [(['n'], (0 : Fin 5)), (['p'], 1), (['t'], 2), (['t', 's'], 3), (['v'], 4)] =
      [(['n'], 0), (['p'], 1), (['t'], 2), (['v'], 4), (['t', 's'], 3)] := by
    decide
  have hsort := sortByKey_map (fun i : Fin 5 => [n, p, t, ts, v].getD i .null)
    [(['n'], 0), (['p'], 1), (['t'], 2), (['t', 's'], 3), (['v'], 4)]
  rw [hkeys] at hsort
  exact hsort

theorem writeValue_fieldEntries (n p t ts v : Value) :
    writeValue (.map (fieldEntries n p t ts v)) =
      [0xa5] ++ ([0x61, 0x6e] ++ writeValue n ++ ([0x61, 0x70] ++ writeValue p ++
        ([0x61, 0x74] ++ writeValue t ++ ([0x61, 0x76] ++ writeValue v ++
          ([0x62, 0x74, 0x73] ++ writeValue ts))))) := by
  rw [writeValue_map, sortByKey_fieldEntries]
  simp only [List.flatMap_cons, List.flatMap_nil, List.append_nil]
  rfl

theorem encode_eq (f : Frame) : f.encode = writeValue (.map (fieldEntries (.int f.sequenceNum)
    (.bytes f.payload) (.int f.type.id) (.int f.wallClock) (.int f.version))) := rfl

theorem wireForm_iff {b : List UInt8} : WireForm b ↔ ∃ (n t v ts : ℤ) (p : List UInt8),
    (-2 ^ 63 ≤ n ∧ n < 2 ^ 63) ∧ (-2 ^ 63 ≤ t ∧ t < 2 ^ 63) ∧ (-2 ^ 63 ≤ v ∧ v < 2 ^ 63) ∧
      (-2 ^ 63 ≤ ts ∧ ts < 2 ^ 63) ∧ p.length < 2 ^ 63 ∧
      b = writeValue (.map (fieldEntries (.int n) (.bytes p) (.int t) (.int ts) (.int v))) := by
  constructor
  · rintro ⟨n, hd, p, t, v, ts, hn, hp, ht, hv, hts, rfl⟩
    obtain ⟨n, hn', rfl⟩ := intBytes_iff.mp hn
    obtain ⟨t, ht', rfl⟩ := intBytes_iff.mp ht
    obtain ⟨v, hv', rfl⟩ := intBytes_iff.mp hv
    obtain ⟨ts, hts', rfl⟩ := intBytes_iff.mp hts
    obtain ⟨hlen, rfl⟩ := (shortHead_iff (by norm_num)).mp hp
    refine ⟨n, t, v, ts, p, hn', ht', hv', hts', hlen, ?_⟩
    rw [writeValue_fieldEntries]
    rfl
  · rintro ⟨n, t, v, ts, p, hn, ht, hv, hts, hlen, rfl⟩
    exact ⟨_, _, p, _, _, _, intBytes_iff.mpr ⟨n, hn, rfl⟩,
      (shortHead_iff (by norm_num)).mpr ⟨hlen, rfl⟩, intBytes_iff.mpr ⟨t, ht, rfl⟩,
      intBytes_iff.mpr ⟨v, hv, rfl⟩, intBytes_iff.mpr ⟨ts, hts, rfl⟩,
      writeValue_fieldEntries _ _ _ _ _⟩

/-! ## Frames that were decoded -/

/-- What the fields of an accepted map were. -/
structure FieldsOf (m : List (List Char × Value)) (f : Frame) : Prop where
  version : mapGet m ['v'] = .int f.version
  type : mapGet m ['t'] = .int f.type.id
  sequenceNum : mapGet m ['n'] = .int f.sequenceNum
  wallClock : mapGet m ['t', 's'] = .null ∧ f.wallClock = 0 ∨
    mapGet m ['t', 's'] = .int f.wallClock
  payload : mapGet m ['p'] = .bytes f.payload ∨
    ∃ ns, mapGet m ['p'] = .ints ns ∧ f.payload = fromList ns

theorem requiredInt_cases (m : List (List Char × Value)) (key : List Char) :
    (∃ n, mapGet m key = .int n ∧ Frame.requiredInt m key = .ok n) ∨
      (∀ n, mapGet m key ≠ .int n) ∧ ∃ what, Frame.requiredInt m key = .error (.format what) := by
  unfold Frame.requiredInt
  cases mapGet m key with
  | int n => exact .inl ⟨n, rfl, rfl⟩
  | _ => exact .inr ⟨fun n h => (by cases h), _, rfl⟩

theorem requiredInt_ok {m : List (List Char × Value)} {key : List Char} {n : ℤ}
    (h : Frame.requiredInt m key = .ok n) : mapGet m key = .int n := by
  rcases requiredInt_cases m key with ⟨n', hget, hreq⟩ | ⟨-, what, hreq⟩
  · rw [hget, Except.ok.inj (hreq.symm.trans h)]
  · cases hreq.symm.trans h

theorem fieldsOf_ofMap {m : List (List Char × Value)} {f : Frame} (h : Frame.ofMap m = .ok f) :
    FieldsOf m f := by
  obtain ⟨v, hv, h⟩ := bind_eq_ok.mp h
  obtain ⟨t, ht, h⟩ := bind_eq_ok.mp h
  obtain ⟨n, hn, h⟩ := bind_eq_ok.mp h
  obtain ⟨ts, hts, h⟩ := bind_eq_ok.mp h
  split at h
  · cases h
  · cases htype : FrameType.fromId t with
    | none => rw [htype] at h; cases h
    | some frameType =>
      rw [htype] at h
      obtain ⟨payload, hpayload, h⟩ := bind_eq_ok.mp h
      obtain rfl := Except.ok.inj h
      refine ⟨requiredInt_ok hv, ?_, requiredInt_ok hn, ?_, ?_⟩
      · rw [requiredInt_ok ht, FrameType.id_of_fromId htype]
      · unfold Frame.castInt at hts
        split at hts
        · exact .inl ⟨‹_›, (Except.ok.inj hts).symm⟩
        · rw [← Except.ok.inj hts]
          exact .inr ‹_›
        · cases hts
      · unfold Frame.castBytes at hpayload
        split at hpayload
        · rw [← Except.ok.inj hpayload]
          exact .inl ‹_›
        · exact .inr ⟨_, ‹_›, (Except.ok.inj hpayload).symm⟩
        · cases hpayload

theorem decode_ok {b : List UInt8} {f : Frame} (h : Frame.decode b = .ok f) :
    ∃ m, CborCodec.decode b = .ok (.map m) ∧ FieldsOf m f := by
  obtain ⟨outer, houter, h⟩ := bind_eq_ok.mp h
  cases outer with
  | map m => exact ⟨m, houter, fieldsOf_ofMap h⟩
  | _ => cases h

theorem range_of_mapGet {m : List (List Char × Value)} {key : List Char} {n : ℤ}
    (hm : (Value.map m).Valid) (h : mapGet m key = .int n) : -2 ^ 63 ≤ n ∧ n < 2 ^ 63 := by
  unfold mapGet at h
  cases hfind : m.find? fun e => e.1 = key with
  | none => rw [hfind] at h; cases h
  | some e =>
    rw [hfind] at h
    have hvalid := Value.validEntries_iff.mp hm.2 e (List.mem_of_find?_eq_some hfind)
    rw [show e.2 = .int n from h] at hvalid
    exact hvalid

theorem decoded_fieldEntries (n t v ts : ℤ) (p : List UInt8) :
    decoded (.map (fieldEntries (.int n) (.bytes p) (.int t) (.int ts) (.int v))) =
      .map [(['n'], .int n), (['p'], .bytes p), (['t'], .int t), (['v'], .int v),
        (['t', 's'], .int ts)] := by
  have hentries : decodedEntries (fieldEntries (.int n) (.bytes p) (.int t) (.int ts) (.int v)) =
      fieldEntries (.int n) (.bytes p) (.int t) (.int ts) (.int v) := by
    rw [decodedEntries_eq]
    rfl
  rw [decoded, hentries, sortByKey_fieldEntries]
  rfl

/-- A Dart byte list. Its length is a small integer of the virtual machine. -/
structure Uint8List where
  bytes : List UInt8
  length_lt : bytes.length < 2 ^ 62

/-- A frame is encoded to the bytes it was decoded from exactly if they are in wire form. -/
theorem encode_decode_iff (b : Uint8List) (f : Frame) (h : Frame.decode b.bytes = .ok f) :
    f.encode = b.bytes ↔ WireForm b.bytes := by
  obtain ⟨b, hsize⟩ := b
  dsimp only at h ⊢
  obtain ⟨m, hm, hfields⟩ := decode_ok h
  constructor
  · intro hb
    have hvalid := valid_of_decode hm
    have hts : -2 ^ 63 ≤ f.wallClock ∧ f.wallClock < 2 ^ 63 := by
      rcases hfields.wallClock with ⟨-, h0⟩ | hget
      · rw [h0]
        norm_num
      · exact range_of_mapGet hvalid hget
    have hlen : f.payload.length < 2 ^ 63 := by
      rw [← hb, encode_eq, writeValue_fieldEntries] at hsize
      simp only [writeValue, writeBytes, List.length_append] at hsize
      omega
    exact wireForm_iff.mpr ⟨f.sequenceNum, f.type.id, f.version, f.wallClock, f.payload,
      range_of_mapGet hvalid hfields.sequenceNum, range_of_mapGet hvalid hfields.type,
      range_of_mapGet hvalid hfields.version, hts, hlen, by rw [← hb, encode_eq]⟩
  · intro hwire
    obtain ⟨n, t, v, ts, p, hn, ht, hv, hts, hlen, rfl⟩ := wireForm_iff.mp hwire
    have hvalid :
        (Value.map (fieldEntries (.int n) (.bytes p) (.int t) (.int ts) (.int v))).Valid := by
      refine ⟨?_, hn, trivial, ht, hts, hv, trivial⟩
      show [['n'], ['p'], ['t'], ['t', 's'], ['v']].Nodup
      decide
    -- the fields that were read are the fields that were written
    have hback := decode_encode _ hvalid (show _ < _ by rw [CborCodec.encode]; omega)
    rw [decoded_fieldEntries] at hback
    obtain rfl := Value.map.inj (Except.ok.inj (hm.symm.trans hback))
    obtain ⟨hv', ht', hn', hts', hp'⟩ := hfields
    have hpay : p = f.payload := by
      rcases hp' with hget | ⟨ns, hget, -⟩
      · exact Value.bytes.inj hget
      · cases hget
    have hclock : ts = f.wallClock := by
      rcases hts' with ⟨hget, -⟩ | hget
      · cases hget
      · exact Value.int.inj hget
    rw [encode_eq, ← Value.int.inj hn', ← Value.int.inj ht', ← Value.int.inj hv', ← hpay, ← hclock]

/-- A ping without payload, and its wire form. -/
def pingFrame : Frame := { type := .ping, sequenceNum := 0, payload := [] }

def pingBytes : Uint8List where
  bytes := [0xa5, 0x61, 0x6e, 0x00, 0x61, 0x70, 0x40, 0x61, 0x74, 0x18, 0x70, 0x61, 0x76, 0x01,
    0x62, 0x74, 0x73, 0x00]
  length_lt := by decide

theorem encode_decode_pingBytes : Frame.decode pingBytes.bytes = .ok pingFrame ∧
    pingFrame.encode = pingBytes.bytes ∧ WireForm pingBytes.bytes := by
  have hencode : pingFrame.encode = pingBytes.bytes := by decide
  exact ⟨by rfl, hencode, (encode_decode_iff pingBytes pingFrame (by rfl)).mp hencode⟩

/-- Bytes that are accepted as a frame and that the frame is not encoded to. -/
def OtherForm (f : Frame) (b : List UInt8) : Prop := Frame.decode b = .ok f ∧ f.encode ≠ b

/-- The same ping behind a tag, with a longer integer, in another order, with a key twice, with a
key that no frame has, and without `ts`. -/
theorem ping_has_other_forms :
    OtherForm pingFrame (0xc0 :: pingBytes.bytes) ∧
    OtherForm pingFrame ([0xa5, 0x61, 0x6e, 0x18, 0x00] ++ pingBytes.bytes.drop 4) ∧
    OtherForm pingFrame ([0xa5, 0x62, 0x74, 0x73, 0x00] ++ (pingBytes.bytes.drop 1).take 13) ∧
    OtherForm pingFrame ([0xa6, 0x61, 0x6e, 0x05] ++ pingBytes.bytes.drop 1) ∧
    OtherForm pingFrame ([0xa6, 0x61, 0x78, 0x05] ++ pingBytes.bytes.drop 1) ∧
    OtherForm pingFrame (0xa4 :: (pingBytes.bytes.drop 1).take 13) := by
  have hother : ∀ bs, Frame.decode bs = .ok pingFrame → pingBytes.bytes ≠ bs →
      OtherForm pingFrame bs := by
    intro bs hdecode hne
    have hencode : pingFrame.encode = pingBytes.bytes := by decide
    exact ⟨hdecode, hencode ▸ hne⟩
  exact ⟨hother _ (by decide +kernel) (by decide), hother _ (by decide +kernel) (by decide),
    hother _ (by decide +kernel) (by decide), hother _ (by decide +kernel) (by decide), hother _ (by decide +kernel) (by decide),
    hother _ (by decide +kernel) (by decide)⟩

end ChessRecast.P2P
