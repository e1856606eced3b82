import ChessRecast.Lib.Outcome
import ChessRecast.P2P.Cbor

/-!
# The data format

`Layout` says which byte strings are a data item, a row of items or a row of entries, with no
reader in it: a head carries its argument in any of its widths, a tag stands before an item, and a
map may repeat a key. The decoder accepts whatever is laid out so.
-/

namespace ChessRecast.P2P

open CborDecoder Outcome

namespace CborDecoder

theorem int64_eq {n : ℤ} (h : -2 ^ 63 ≤ n) (h' : n < 2 ^ 63) : int64 n = n := by
  unfold int64
  omega

end CborDecoder

/-- The values of major type 7. -/
def simpleValue : ℕ → Option Value
  | 20 => some (.bool false)
  | 21 => some (.bool true)
  | 22 => some .null
  | _ => none

/-- What a byte string stands for. -/
inductive Content where
  | value (v : Value)
  | items (items : List Value)
  | entries (entries : List (List Char × Value))

/-- The number of bytes behind a first byte with these low bits. -/
def argWidth (info : ℕ) : Option ℕ :=
  if info ≤ 23 then some 0
  else if info = 24 then some 1
  else if info = 25 then some 2
  else if info = 26 then some 4
  else if info = 27 then some 8
  else none

/-- The first byte of an item and its argument. -/
structure Head (major : ℕ) (bs : List UInt8) (n : ℕ) : Prop where
  exists_arg : ∃ b arg, bs = b :: arg ∧ b.toNat / 32 = major ∧
    argWidth (b.toNat % 32) = some arg.length ∧
    n = if arg = [] then b.toNat % 32 else Bytes.ofBE arg

/-- The entries of a map that is filled in this order. -/
def mapOf (entries : List (List Char × Value)) : List (List Char × Value) :=
  entries.foldl (fun m e => mapInsert m e.1 e.2) []

/-- The data format. Integers are those of 64 bits. -/
inductive Layout : List UInt8 → Content → Prop
  | uint {hd : List UInt8} {n : ℕ} (hhead : Head 0 hd n) : Layout hd (.value (.int (int64 n)))
  | nint {hd : List UInt8} {n : ℕ} (hhead : Head 1 hd n) :
      Layout hd (.value (.int (-1 - int64 n)))
  | bytes {hd bs : List UInt8} (hhead : Head 2 hd bs.length) :
      Layout (hd ++ bs) (.value (.bytes bs))
  | text {hd bs : List UInt8} {s : List Char} (hhead : Head 3 hd bs.length)
      (hs : utf8Decode bs = some s) : Layout (hd ++ bs) (.value (.text s))
  | list {hd bs : List UInt8} {items : List Value} (hhead : Head 4 hd items.length)
      (hitems : Layout bs (.items items)) : Layout (hd ++ bs) (.value (.list items))
  | map {hd bs : List UInt8} {entries : List (List Char × Value)}
      (hhead : Head 5 hd entries.length) (hentries : Layout bs (.entries entries)) :
      Layout (hd ++ bs) (.value (.map (mapOf entries)))
  | tag {hd bs : List UInt8} {n : ℕ} {v : Value} (hhead : Head 6 hd n)
      (hvalue : Layout bs (.value v)) : Layout (hd ++ bs) (.value v)
  | simple {b : UInt8} {v : Value} (hb : b.toNat / 32 = 7)
      (hv : simpleValue (b.toNat % 32) = some v) : Layout [b] (.value v)
  | noItems : Layout [] (.items [])
  | consItem {bs bs' : List UInt8} {v : Value} {items : List Value}
      (hvalue : Layout bs (.value v)) (hitems : Layout bs' (.items items)) :
      Layout (bs ++ bs') (.items (v :: items))
  | noEntries : Layout [] (.entries [])
  | consEntry {ks vs bs : List UInt8} {key : List Char} {v : Value}
      {entries : List (List Char × Value)} (hkey : Layout ks (.value (.text key)))
      (hvalue : Layout vs (.value v)) (hentries : Layout bs (.entries entries)) :
      Layout (ks ++ vs ++ bs) (.entries ((key, v) :: entries))

/-! ## Heads -/

section Heads

variable {c d : Cursor} {b : UInt8} {rest hd : List UInt8} {major m : ℕ} {n : ℤ}

theorem Head.length_pos (h : Head major hd m) : 0 < hd.length := by
  obtain ⟨b, arg, rfl, -⟩ := h.exists_arg
  exact Nat.succ_pos _

theorem readArg_eq (info : ℕ) (c : Cursor) :
    (∃ w, argWidth info = some w ∧ w ≤ c.rest.length ∧ readArg info c = .ok
      (if w = 0 then (info : ℤ) else int64 (Bytes.ofBE (c.rest.take w)), c.skip w)) ∨
    (∀ w, argWidth info = some w → c.rest.length < w) ∧ ∃ e, readArg info c = .error e := by
  have hwide : ∀ w what, 0 < w → argWidth info = some w → readArg info c = readWide w what c →
      (∃ w, argWidth info = some w ∧ w ≤ c.rest.length ∧ readArg info c = .ok
        (if w = 0 then (info : ℤ) else int64 (Bytes.ofBE (c.rest.take w)), c.skip w)) ∨
      (∀ w, argWidth info = some w → c.rest.length < w) ∧ ∃ e, readArg info c = .error e := by
    intro w what hw hwidth hread
    by_cases hlt : c.rest.length < w
    · right
      refine ⟨fun w' hw' => ?_, .format what, ?_⟩
      · rwa [← Option.some.inj (hwidth.symm.trans hw')]
      · rw [hread, readWide, if_pos hlt]
    · left
      refine ⟨w, hwidth, by omega, ?_⟩
      rw [hread, readWide, if_neg hlt, if_neg (by omega)]
  by_cases h0 : info ≤ 23
  · left
    refine ⟨0, if_pos h0, Nat.zero_le _, ?_⟩
    rw [readArg, if_pos h0, if_pos rfl]
    rfl
  by_cases h1 : info = 24
  · subst h1; exact hwide 1 _ (by norm_num) rfl rfl
  by_cases h2 : info = 25
  · subst h2; exact hwide 2 _ (by norm_num) rfl rfl
  by_cases h3 : info = 26
  · subst h3; exact hwide 4 _ (by norm_num) rfl rfl
  by_cases h4 : info = 27
  · subst h4; exact hwide 8 _ (by norm_num) rfl rfl
  · right
    constructor
    · intro w hw
      rw [argWidth, if_neg h0, if_neg h1, if_neg h2, if_neg h3, if_neg h4] at hw
      cases hw
    · rw [readArg, if_neg h0, if_neg h1, if_neg h2, if_neg h3, if_neg h4]
      exact ⟨_, rfl⟩

theorem readArg_of_head (h : Head major hd m) : ∃ b tail, hd = b :: tail ∧ b.toNat / 32 = major ∧
    ∀ pos rest, readArg (b.toNat % 32) ⟨pos, tail ++ rest⟩ =
      .ok (int64 m, ⟨pos + tail.length, rest⟩) := by
  obtain ⟨b, arg, rfl, hb, hwidth, hm⟩ := h.exists_arg
  refine ⟨b, arg, rfl, hb, fun pos rest => ?_⟩
  rcases readArg_eq (b.toNat % 32) ⟨pos, arg ++ rest⟩ with ⟨w, hw, -, hread⟩ | ⟨hshort, -⟩
  · obtain rfl := Option.some.inj (hwidth.symm.trans hw)
    rw [hread, Cursor.skip, List.take_left, List.drop_left, hm]
    by_cases hnil : arg = []
    · rw [if_pos hnil, if_pos (by rw [hnil]; rfl), int64_eq (by omega) (by omega)]
    · rw [if_neg hnil, if_neg (fun hlen => hnil (List.length_eq_zero_iff.mp hlen))]
  · have hlt : (arg ++ rest).length < arg.length := hshort _ hwidth
    rw [List.length_append] at hlt
    omega

end Heads

/-! ## Whatever is laid out so is accepted -/

theorem readBytes_append (bs : List UInt8) (what : String) (pos : ℕ) (rest : List UInt8)
    (hfit : pos + (bs ++ rest).length < 2 ^ 63) :
    readBytes bs.length what ⟨pos, bs ++ rest⟩ = .ok (bs, ⟨pos + bs.length, rest⟩) := by
  have hlen : (bs ++ rest).length = bs.length + rest.length := List.length_append
  have hstop : int64 ((pos : ℤ) + bs.length) = pos + bs.length := int64_eq (by omega) (by omega)
  have htotal : ((Cursor.total ⟨pos, bs ++ rest⟩ : ℕ) : ℤ) = pos + bs.length + rest.length := by
    rw [Cursor.total, hlen]
    push_cast
    ring
  have htake : ((pos : ℤ) + bs.length - pos).toNat = bs.length := by omega
  simp only [readBytes, hstop, htotal]
  rw [if_neg (by omega), if_neg (by omega), htake, List.take_left' rfl, Cursor.skip,
    List.drop_left' rfl]

/-- The number of items or entries. -/
def Content.size : Content → ℕ
  | .value _ => 1
  | .items vs => vs.length
  | .entries es => es.length

theorem Layout.size_le {bs : List UInt8} {k : Content} (h : Layout bs k) :
    k.size ≤ bs.length := by
  induction h with
  | uint hhead => exact hhead.length_pos
  | nint hhead => exact hhead.length_pos
  | bytes hhead | text hhead | list hhead | map hhead | tag hhead =>
    exact hhead.length_pos.trans_le (List.sublist_append_left _ _).length_le
  | simple => exact le_rfl
  | noItems => exact le_rfl
  | consItem _ _ hvalue hitems =>
    simp only [Content.size, List.length_append, List.length_cons] at hvalue hitems ⊢
    omega
  | noEntries => exact le_rfl
  | consEntry _ _ _ hkey hvalue hentries =>
    simp only [Content.size, List.length_append, List.length_cons] at hkey hvalue hentries ⊢
    omega

/-- The decoder reads the bytes, with anything behind them, as this content. -/
def Accepts (bs : List UInt8) : Content → Prop
  | .value v => ∀ (steps pos : ℕ) (rest : List UInt8), 2 * bs.length ≤ steps →
      pos + (bs ++ rest).length < 2 ^ 63 →
      readValue steps ⟨pos, bs ++ rest⟩ = .ok (v, ⟨pos + bs.length, rest⟩)
  | .items items => ∀ (steps pos : ℕ) (rest : List UInt8), 2 * bs.length < steps →
      pos + (bs ++ rest).length < 2 ^ 63 →
      readItems steps items.length ⟨pos, bs ++ rest⟩ = .ok (items, ⟨pos + bs.length, rest⟩)
  | .entries entries => ∀ (steps pos : ℕ) (map : List (List Char × Value)) (rest : List UInt8),
      2 * bs.length < steps → pos + (bs ++ rest).length < 2 ^ 63 →
      readEntries steps entries.length map ⟨pos, bs ++ rest⟩ =
        .ok (entries.foldl (fun m e => mapInsert m e.1 e.2) map, ⟨pos + bs.length, rest⟩)

theorem accepts_of_head {major n : ℕ} {hd bs : List UInt8} {v : Value} (hhead : Head major hd n)
    (hbody : ∀ (steps pos : ℕ) (rest : List UInt8) (b : UInt8) (tail : List UInt8) (c : Cursor),
      c.rest = b :: tail → b.toNat / 32 = major →
      readArg (b.toNat % 32) (c.skip 1) = .ok (int64 n, ⟨pos, bs ++ rest⟩) →
      2 * bs.length < steps → pos + (bs ++ rest).length < 2 ^ 63 →
      readValue (steps + 1) c = .ok (v, ⟨pos + bs.length, rest⟩)) :
    Accepts (hd ++ bs) (.value v) := by
  intro steps pos rest hsteps hfit
  obtain ⟨b, tail, rfl, hb, hread⟩ := readArg_of_head hhead
  simp only [List.length_append, List.length_cons] at hsteps hfit ⊢
  obtain ⟨steps, rfl⟩ : ∃ k, steps = k + 1 := ⟨steps - 1, by omega⟩
  rw [List.append_assoc,
    show pos + (tail.length + 1 + bs.length) = pos + 1 + tail.length + bs.length by omega]
  exact hbody steps (pos + 1 + tail.length) rest b _ _ rfl hb (hread (pos + 1) (bs ++ rest))
    (by omega) (by rw [List.length_append]; omega)

theorem Layout.accepted {bs : List UInt8} {k : Content} (h : Layout bs k) : Accepts bs k := by
  induction h with
  | @uint hd n hhead =>
    rw [← List.append_nil hd]
    apply accepts_of_head hhead
    intro steps pos rest b tail c hc hb hread _ _
    simp only [readValue, hc, hb, hread, ok_bind]
    rfl
  | @nint hd n hhead =>
    rw [← List.append_nil hd]
    apply accepts_of_head hhead
    intro steps pos rest b tail c hc hb hread _ _
    simp only [readValue, hc, hb, hread, ok_bind]
    rfl
  | @bytes hd bs hhead =>
    apply accepts_of_head hhead
    intro steps pos rest b tail c hc hb hread _ hfit
    have hbytes := readBytes_append bs "Byte string truncated" pos rest hfit
    rw [List.length_append] at hfit
    rw [int64_eq (by omega) (by omega)] at hread
    simp only [readValue, hc, hb, hread, ok_bind, hbytes]
    rfl
  | @text hd bs s hhead hs =>
    apply accepts_of_head hhead
    intro steps pos rest b tail c hc hb hread _ hfit
    have hbytes := readBytes_append bs "Text string truncated" pos rest hfit
    rw [List.length_append] at hfit
    rw [int64_eq (by omega) (by omega)] at hread
    simp only [readValue, hc, hb, hread, ok_bind, hbytes, hs]
    rfl
  | @list hd bs items hhead hlayout hitems =>
    apply accepts_of_head hhead
    intro steps pos rest b tail c hc hb hread hsteps hfit
    have hrow := hitems steps pos rest hsteps hfit
    have hsize : items.length ≤ bs.length := hlayout.size_le
    rw [List.length_append] at hfit
    rw [int64_eq (by omega) (by omega)] at hread
    simp only [readValue, hc, hb, hread, ok_bind, hrow]
    rfl
  | @map hd bs entries hhead hlayout hentries =>
    apply accepts_of_head hhead
    intro steps pos rest b tail c hc hb hread hsteps hfit
    have hrow := hentries steps pos [] rest hsteps hfit
    have hsize : entries.length ≤ bs.length := hlayout.size_le
    rw [List.length_append] at hfit
    rw [int64_eq (by omega) (by omega)] at hread
    simp only [readValue, hc, hb, hread, ok_bind, hrow]
    rfl
  | @tag hd bs n v hhead _ hvalue =>
    apply accepts_of_head hhead
    intro steps pos rest b tail c hc hb hread hsteps hfit
    have hinner := hvalue steps pos rest hsteps.le hfit
    simp only [readValue, hc, hb, hread, ok_bind, hinner]
  | @simple b v hb hv =>
    intro steps pos rest hsteps _
    obtain ⟨steps, rfl⟩ : ∃ k, steps = k + 1 := ⟨steps - 1, by
      rw [List.length_singleton] at hsteps
      omega⟩
    rw [List.cons_append, List.nil_append, readValue]
    simp only [hb]
    unfold simpleValue at hv
    split at hv
    · rename_i hinfo
      rw [hinfo, ← Option.some.inj hv]
      rfl
    · rename_i hinfo
      rw [hinfo, ← Option.some.inj hv]
      rfl
    · rename_i hinfo
      rw [hinfo, ← Option.some.inj hv]
      rfl
    · cases hv
  | noItems =>
    intro steps pos rest _ _
    cases steps <;> rfl
  | @consItem bs bs' v items hlayout _ hvalue hitems =>
    intro steps pos rest hsteps hfit
    have hsize : 1 ≤ bs.length := hlayout.size_le
    simp only [List.length_append] at hsteps hfit ⊢
    obtain ⟨steps, rfl⟩ : ∃ k, steps = k + 1 := ⟨steps - 1, by omega⟩
    have hv := hvalue steps pos (bs' ++ rest) (by omega)
      (by simp only [List.length_append]; omega)
    have hrow := hitems steps (pos + bs.length) rest (by omega)
      (by rw [List.length_append]; omega)
    have hcount : ((v :: items).length : ℤ) - 1 = items.length := by
      rw [List.length_cons]
      omega
    rw [List.append_assoc, readItems, if_neg (by rw [List.length_cons]; omega), hcount]
    simp only [hv, ok_bind, hrow, Nat.add_assoc]
    rfl
  | noEntries =>
    intro steps pos map rest _ _
    cases steps <;> rfl
  | @consEntry ks vs bs key v entries hlayout _ _ hkey hvalue hentries =>
    intro steps pos map rest hsteps hfit
    have hsize : 1 ≤ ks.length := hlayout.size_le
    simp only [List.length_append] at hsteps hfit ⊢
    obtain ⟨steps, rfl⟩ : ∃ k, steps = k + 1 := ⟨steps - 1, by omega⟩
    -- the key, its value, and the other entries
    have hk := hkey steps pos (vs ++ (bs ++ rest)) (by omega)
      (by simp only [List.length_append]; omega)
    have hv := hvalue steps (pos + ks.length) (bs ++ rest) (by omega)
      (by simp only [List.length_append]; omega)
    have hrow := hentries steps (pos + ks.length + vs.length) (mapInsert map key v) rest (by omega)
      (by rw [List.length_append]; omega)
    have hcount : (((key, v) :: entries).length : ℤ) - 1 = entries.length := by
      rw [List.length_cons]
      omega
    rw [List.append_assoc, List.append_assoc, readEntries,
      if_neg (by rw [List.length_cons]; omega), hcount]
    simp only [hk, ok_bind, hv, hrow, ← Nat.add_assoc]
    rfl

theorem Layout.decode_eq {data : List UInt8} {v : Value} (h : Layout data (.value v))
    (hfit : data.length < 2 ^ 63) : CborCodec.decode data = .ok v := by
  have hread := h.accepted (2 * data.length + 1) 0 [] (by omega)
    (by rw [List.append_nil]; omega)
  rw [List.append_nil, Nat.zero_add] at hread
  rw [CborCodec.decode, hread, ok_bind]
  exact if_neg (fun h => h rfl)

end ChessRecast.P2P
