import ChessRecast.P2P.CborGrammar

/-!
# What a successful read has done

What one call of `readValue` has done that returns is said once, by `ReadOk`, and for the two loops
by one rule for a round and one for their end.
-/

namespace ChessRecast.P2P

open CborDecoder Outcome

/-- What a call of `readValue` has done that returns, by the major type of its first byte. -/
inductive ReadOk (steps : ℕ) (c : Cursor) (b : UInt8) : Value → Cursor → Prop
  | uint {n : ℤ} {c' : Cursor} (hb : b.toNat / 32 = 0)
      (harg : readArg (b.toNat % 32) (c.skip 1) = .ok (n, c')) : ReadOk steps c b (.int n) c'
  | nint {n : ℤ} {c' : Cursor} (hb : b.toNat / 32 = 1)
      (harg : readArg (b.toNat % 32) (c.skip 1) = .ok (n, c')) : ReadOk steps c b (.int (-1 - n)) c'
  | bytes {len : ℤ} {d c' : Cursor} {bs : List UInt8} {what : String} (hb : b.toNat / 32 = 2)
      (harg : readArg (b.toNat % 32) (c.skip 1) = .ok (len, d))
      (hbytes : readBytes len what d = .ok (bs, c')) : ReadOk steps c b (.bytes bs) c'
  | text {len : ℤ} {d c' : Cursor} {bs : List UInt8} {what : String} {s : List Char}
      (hb : b.toNat / 32 = 3) (harg : readArg (b.toNat % 32) (c.skip 1) = .ok (len, d))
      (hbytes : readBytes len what d = .ok (bs, c')) (hs : utf8Decode bs = some s) :
      ReadOk steps c b (.text s) c'
  | list {count : ℤ} {d c' : Cursor} {items : List Value} (hb : b.toNat / 32 = 4)
      (harg : readArg (b.toNat % 32) (c.skip 1) = .ok (count, d))
      (hitems : readItems steps count d = .ok (items, c')) : ReadOk steps c b (.list items) c'
  | map {count : ℤ} {d c' : Cursor} {entries : List (List Char × Value)} (hb : b.toNat / 32 = 5)
      (harg : readArg (b.toNat % 32) (c.skip 1) = .ok (count, d))
      (hentries : readEntries steps count [] d = .ok (entries, c')) :
      ReadOk steps c b (.map entries) c'
  | tag {n : ℤ} {d c' : Cursor} {v : Value} (hb : b.toNat / 32 = 6)
      (harg : readArg (b.toNat % 32) (c.skip 1) = .ok (n, d))
      (hvalue : readValue steps d = .ok (v, c')) : ReadOk steps c b v c'
  | simple {v : Value} (hb : b.toNat / 32 = 7) (hv : simpleValue (b.toNat % 32) = some v) :
      ReadOk steps c b v (c.skip 1)

theorem readSimple_ok {info : ℕ} {c c' : Cursor} {v : Value}
    (h : readSimple info c = .ok (v, c')) : c' = c ∧ simpleValue info = some v := by
  unfold readSimple at h
  split_ifs at h with hfalse htrue hnull
  · obtain ⟨rfl, rfl⟩ := Prod.mk.inj (Except.ok.inj h)
    exact ⟨rfl, by rw [hfalse]; rfl⟩
  · obtain ⟨rfl, rfl⟩ := Prod.mk.inj (Except.ok.inj h)
    exact ⟨rfl, by rw [htrue]; rfl⟩
  · obtain ⟨rfl, rfl⟩ := Prod.mk.inj (Except.ok.inj h)
    exact ⟨rfl, by rw [hnull]; rfl⟩

theorem major_lt (b : UInt8) : b.toNat / 32 < 8 := by
  have := b.toNat_lt
  omega

theorem readValue_ok {steps : ℕ} {c c' : Cursor} {v : Value}
    (h : readValue (steps + 1) c = .ok (v, c')) :
    ∃ b rest, c.rest = b :: rest ∧ ReadOk steps c b v c' := by
  rw [readValue] at h
  cases hc : c.rest with
  | nil => rw [hc] at h; cases h
  | cons b rest =>
    rw [hc] at h
    refine ⟨b, rest, rfl, ?_⟩
    have hlt := major_lt b
    dsimp only at h
    generalize hb : b.toNat / 32 = major at h hlt
    interval_cases major
    · obtain ⟨⟨n, d⟩, harg, h⟩ := bind_eq_ok.mp h
      obtain ⟨rfl, rfl⟩ := Prod.mk.inj (Except.ok.inj h)
      exact .uint hb harg
    · obtain ⟨⟨n, d⟩, harg, h⟩ := bind_eq_ok.mp h
      obtain ⟨rfl, rfl⟩ := Prod.mk.inj (Except.ok.inj h)
      exact .nint hb harg
    · obtain ⟨⟨n, d⟩, harg, h⟩ := bind_eq_ok.mp h
      obtain ⟨⟨bs, d'⟩, hbytes, h⟩ := bind_eq_ok.mp h
      obtain ⟨rfl, rfl⟩ := Prod.mk.inj (Except.ok.inj h)
      exact .bytes hb harg hbytes
    · obtain ⟨⟨n, d⟩, harg, h⟩ := bind_eq_ok.mp h
      obtain ⟨⟨bs, d'⟩, hbytes, h⟩ := bind_eq_ok.mp h
      dsimp only at h
      split at h
      · rename_i hs
        obtain ⟨rfl, rfl⟩ := Prod.mk.inj (Except.ok.inj h)
        exact .text hb harg hbytes hs
      · cases h
    · obtain ⟨⟨n, d⟩, harg, h⟩ := bind_eq_ok.mp h
      obtain ⟨⟨items, d'⟩, hitems, h⟩ := bind_eq_ok.mp h
      obtain ⟨rfl, rfl⟩ := Prod.mk.inj (Except.ok.inj h)
      exact .list hb harg hitems
    · obtain ⟨⟨n, d⟩, harg, h⟩ := bind_eq_ok.mp h
      obtain ⟨⟨entries, d'⟩, hentries, h⟩ := bind_eq_ok.mp h
      obtain ⟨rfl, rfl⟩ := Prod.mk.inj (Except.ok.inj h)
      exact .map hb harg hentries
    · obtain ⟨⟨n, d⟩, harg, h⟩ := bind_eq_ok.mp h
      exact .tag hb harg h
    · obtain ⟨rfl, hv⟩ := readSimple_ok h
      exact .simple hb hv

/-! ## The loops -/

section Loops

variable {steps : ℕ} {count : ℤ} {c c' : Cursor} {map : List (List Char × Value)}

theorem readItems_of_nonpos (h : count ≤ 0) : readItems steps count c = .ok ([], c) := by
  cases steps <;> rw [readItems, if_pos h]

theorem readEntries_of_nonpos (h : count ≤ 0) : readEntries steps count map c = .ok (map, c) := by
  cases steps <;> rw [readEntries, if_pos h]

theorem readItems_ok {items : List Value} (hcount : 0 < count)
    (h : readItems (steps + 1) count c = .ok (items, c')) :
    ∃ v d rest, readValue steps c = .ok (v, d) ∧ readItems steps (count - 1) d = .ok (rest, c') ∧
      items = v :: rest := by
  rw [readItems, if_neg (by omega)] at h
  obtain ⟨⟨v, d⟩, hv, h⟩ := bind_eq_ok.mp h
  obtain ⟨⟨rest, d'⟩, hrest, h⟩ := bind_eq_ok.mp h
  obtain ⟨rfl, rfl⟩ := Prod.mk.inj (Except.ok.inj h)
  exact ⟨v, d, rest, hv, hrest, rfl⟩

theorem readEntries_ok {entries : List (List Char × Value)} (hcount : 0 < count)
    (h : readEntries (steps + 1) count map c = .ok (entries, c')) :
    ∃ key d v d', readValue steps c = .ok (.text key, d) ∧ readValue steps d = .ok (v, d') ∧
      readEntries steps (count - 1) (mapInsert map key v) d' = .ok (entries, c') := by
  rw [readEntries, if_neg (by omega)] at h
  obtain ⟨⟨key, d⟩, hkey, h⟩ := bind_eq_ok.mp h
  cases key with
  | text key =>
    obtain ⟨⟨v, d'⟩, hv, h⟩ := bind_eq_ok.mp h
    exact ⟨key, d, v, d', hkey, hv, h⟩
  | _ => cases h

end Loops

end ChessRecast.P2P
