import ChessRecast.Lib.Bytes
import ChessRecast.Lib.Utf8

/-!
# The CBOR codec (`frame.dart`, `CborCodec`)

A `Value` is a Dart value as the type tests of the encoder tell it apart. Strings are lists of
Unicode scalar values. Integers are those of the Dart VM: 64 bits, two's complement; `int64` is the
value that an operation leaves. The decoder keeps its position and the bytes from there on.

The recursion of the decoder is bounded by a number of steps, of which two for every byte are
enough; the bound is never reached.
-/

namespace ChessRecast.P2P

/-- The signed 64-bit integer that is left of a number. -/
def int64 (n : ℤ) : ℤ := (n + 2 ^ 63) % 2 ^ 64 - 2 ^ 63

/-- What `writeValue` can write: `ints` is a `List<int>` that is no `Uint8List`, `list` any other
list; the entries of a map stand in the order of their insertion. -/
inductive Value where
  | null
  | bool (b : Bool)
  | int (n : ℤ)
  | bytes (bs : List UInt8)
  | ints (ns : List ℤ)
  | text (s : List Char)
  | list (items : List Value)
  | map (entries : List (List Char × Value))
deriving Repr

/-! ## Encoding -/

namespace CborEncoder

def writeMajorInt (major value : ℕ) : List UInt8 :=
  let majorBit := major * 32
  if value ≤ 23 then [UInt8.ofNat (majorBit + value)]
  else if value ≤ 0xff then UInt8.ofNat (majorBit + 24) :: Bytes.toBE 1 value
  else if value ≤ 0xffff then UInt8.ofNat (majorBit + 25) :: Bytes.toBE 2 value
  else if value ≤ 0xffffffff then UInt8.ofNat (majorBit + 26) :: Bytes.toBE 4 value
  else UInt8.ofNat (majorBit + 27) :: Bytes.toBE 8 value

/-- `_buf.add` of a byte string behind its head. -/
def writeBytes (major : ℕ) (bs : List UInt8) : List UInt8 := writeMajorInt major bs.length ++ bs

/-- `writeValue` of a string, which is also `_encodeKey`. -/
def writeText (s : List Char) : List UInt8 := writeBytes 3 (Utf8.encode s)

/-- `Uint8List.fromList`: the low eight bits of each number. -/
def fromList (ns : List ℤ) : List UInt8 := ns.map fun n => UInt8.ofNat (n % 256).toNat

def lexCmp (a b : List UInt8) : ℤ := Bytes.lexCmp a b

/-- An encoded key comes before another one. -/
def KeyLE (a b : List UInt8 × List UInt8) : Prop := lexCmp a.1 b.1 ≤ 0

instance : DecidableRel KeyLE := fun a b => inferInstanceAs (Decidable (lexCmp a.1 b.1 ≤ 0))

/-- The encoded entries of a map in the order in which they are written. -/
def sortEntries (es : List (List UInt8 × List UInt8)) : List (List UInt8 × List UInt8) :=
  es.insertionSort KeyLE

mutual

/-- `writeValue`; a map is `_writeMap`. -/
def writeValue : Value → List UInt8
  | .null => [0xf6]
  | .bool b => [if b then 0xf5 else 0xf4]
  | .int n => if n ≥ 0 then writeMajorInt 0 n.toNat else writeMajorInt 1 (-1 - n).toNat
  | .bytes bs => writeBytes 2 bs
  | .ints ns => writeBytes 2 (fromList ns)
  | .text s => writeText s
  | .list items => writeMajorInt 4 items.length ++ writeItems items
  | .map entries =>
    writeMajorInt 5 entries.length ++
      (sortEntries (writeEntries entries)).flatMap fun e => e.1 ++ e.2

/-- The items of a list, one after the other. -/
def writeItems : List Value → List UInt8
  | [] => []
  | v :: items => writeValue v ++ writeItems items

/-- The entries of a map, each as its encoded key and its encoded value. -/
def writeEntries : List (List Char × Value) → List (List UInt8 × List UInt8)
  | [] => []
  | e :: entries => (writeText e.1, writeValue e.2) :: writeEntries entries

end

end CborEncoder

/-! ## Decoding -/

/-- What decoding throws: a `FormatException` with its message, `CborFloatRejectedError`, the
`RangeError` of `sublist`, or the `TypeError` of a cast. `steps` is the bound of the model. -/
inductive CborError where
  | format (message : String)
  | floatRejected
  | range
  | type
  | steps
deriving DecidableEq, Repr

/-- The decoder before `rest`, having read `pos` bytes. -/
structure Cursor where
  pos : ℕ
  rest : List UInt8
deriving DecidableEq, Repr

namespace Cursor

/-- `data.length` -/
def total (c : Cursor) : ℕ := c.pos + c.rest.length

/-- The cursor `n` bytes further. -/
def skip (c : Cursor) (n : ℕ) : Cursor := ⟨c.pos + n, c.rest.drop n⟩

end Cursor

/-- A text without the byte order mark at its beginning. -/
def stripBom (s : List Char) : List Char := if s.head? = some '\uFEFF' then s.tail else s

/-- `utf8.decode`, which drops a byte order mark at the beginning. -/
def utf8Decode (bs : List UInt8) : Option (List Char) := (Utf8.decode bs).map stripBom

/-- `map[key] = value` -/
def mapInsert (entries : List (List Char × Value)) (key : List Char) (v : Value) :
    List (List Char × Value) :=
  if entries.any fun e => e.1 = key then
    entries.map fun e => if e.1 = key then (key, v) else e
  else entries ++ [(key, v)]

namespace CborDecoder

/-- An argument of `width` bytes. -/
def readWide (width : ℕ) (what : String) (c : Cursor) : Except CborError (ℤ × Cursor) :=
  if c.rest.length < width then .error (.format what)
  else .ok (int64 (Bytes.ofBE (c.rest.take width)), c.skip width)

def readArg (info : ℕ) (c : Cursor) : Except CborError (ℤ × Cursor) :=
  if info ≤ 23 then .ok (info, c)
  else if info = 24 then readWide 1 "Truncated 1-byte arg" c
  else if info = 25 then readWide 2 "Truncated 2-byte arg" c
  else if info = 26 then readWide 4 "Truncated 4-byte arg" c
  else if info = 27 then readWide 8 "Truncated 8-byte arg" c
  else .error (.format s!"Indefinite-length CBOR is not allowed (info={info})")

/-- The contents of a string of `len` bytes; `pos + len` wraps, and `sublist` checks its end. -/
def readBytes (len : ℤ) (what : String) (c : Cursor) : Except CborError (List UInt8 × Cursor) :=
  let stop := int64 (c.pos + len)
  if stop > c.total then .error (.format what)
  else if stop < c.pos then .error .range
  else .ok (c.rest.take (stop - c.pos).toNat, c.skip (stop - c.pos).toNat)

/-- Major type 7. -/
def readSimple (info : ℕ) (c : Cursor) : Except CborError (Value × Cursor) :=
  if info = 20 then .ok (.bool false, c)
  else if info = 21 then .ok (.bool true, c)
  else if info = 22 then .ok (.null, c)
  else if info = 25 ∨ info = 26 ∨ info = 27 then .error .floatRejected
  else if info = 31 then .error (.format "Indefinite-length break code")
  else .error (.format s!"Unknown CBOR simple value: {info}")

mutual

def readValue : ℕ → Cursor → Except CborError (Value × Cursor)
  | 0, _ => .error .steps
  | steps + 1, c =>
    match c.rest with
    | [] => .error (.format "Unexpected end of CBOR data")
    | b :: _ => do
      let info := b.toNat % 32
      let c := c.skip 1
      match b.toNat / 32 with
      | 0 =>
        let (n, c) ← readArg info c
        return (.int n, c)
      | 1 =>
        let (n, c) ← readArg info c
        return (.int (-1 - n), c)
      | 2 =>
        let (len, c) ← readArg info c
        let (bs, c) ← readBytes len "Byte string truncated" c
        return (.bytes bs, c)
      | 3 =>
        let (len, c) ← readArg info c
        let (bs, c) ← readBytes len "Text string truncated" c
        match utf8Decode bs with
        | some s => return (.text s, c)
        | none => throw (.format "utf8")
      | 4 =>
        let (count, c) ← readArg info c
        let (items, c) ← readItems steps count c
        return (.list items, c)
      | 5 =>
        let (count, c) ← readArg info c
        let (entries, c) ← readEntries steps count [] c
        return (.map entries, c)
      | 6 =>
        -- a tag is skipped
        let (_, c) ← readArg info c
        readValue steps c
      | _ => readSimple info c

/-- The loop over the items of a list. -/
def readItems : ℕ → ℤ → Cursor → Except CborError (List Value × Cursor)
  | 0, count, c => if count ≤ 0 then .ok ([], c) else .error .steps
  | steps + 1, count, c =>
    if count ≤ 0 then .ok ([], c)
    else do
      let (v, c) ← readValue steps c
      let (items, c) ← readItems steps (count - 1) c
      return (v :: items, c)

/-- The loop over the entries of a map. -/
def readEntries : ℕ → ℤ → List (List Char × Value) → Cursor →
    Except CborError (List (List Char × Value) × Cursor)
  | 0, count, map, c => if count ≤ 0 then .ok (map, c) else .error .steps
  | steps + 1, count, map, c =>
    if count ≤ 0 then .ok (map, c)
    else do
      let (key, c) ← readValue steps c
      match key with
      | .text key =>
        let (v, c) ← readValue steps c
        readEntries steps (count - 1) (mapInsert map key v) c
      | _ => throw (.format "Map key must be a text string")

end

end CborDecoder

namespace CborCodec

def encode (v : Value) : List UInt8 := CborEncoder.writeValue v

def decode (data : List UInt8) : Except CborError Value := do
  let (v, c) ← CborDecoder.readValue (2 * data.length + 1) ⟨0, data⟩
  if c.pos ≠ data.length then
    throw (.format s!"Trailing bytes at position {c.pos} of {data.length}")
  else return v

def isDeterministic (original : List UInt8) : Bool :=
  match decode original with
  | .ok v => encode v = original
  | .error _ => false

end CborCodec

end ChessRecast.P2P
