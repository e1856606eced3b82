import ChessRecast.P2P.Cbor

/-!
# Frames (`frame.dart`, `FrameType` and `Frame`)

A frame travels as a CBOR map with the keys `n`, `p`, `t`, `ts` and `v`. `Frame.decode` reads the
five fields out of whatever map the bytes decode to.
-/

namespace ChessRecast.P2P

inductive FrameType where
  | hello
  | helloAck
  | helloConfirm
  | move
  | moveAck
  | syncReq
  | syncResp
  | drawOffer
  | drawResponse
  | resign
  | takebackReq
  | takebackResponse
  | chat
  | ping
  | pong
  | bye
  | byePart
  | byeFinal
  | mismatch
  | colorFlipCommit
  | colorFlipReveal
  | clockOffsetReq
  | clockOffsetResp
  | kciMac
deriving DecidableEq, Repr

namespace FrameType

def id : FrameType → ℤ
  | hello => 0x01
  | helloAck => 0x02
  | helloConfirm => 0x03
  | move => 0x10
  | moveAck => 0x11
  | syncReq => 0x20
  | syncResp => 0x21
  | drawOffer => 0x30
  | drawResponse => 0x31
  | resign => 0x40
  | takebackReq => 0x50
  | takebackResponse => 0x51
  | chat => 0x60
  | ping => 0x70
  | pong => 0x71
  | bye => 0x80
  | byePart => 0x81
  | byeFinal => 0x82
  | mismatch => 0x90
  | colorFlipCommit => 0xa0
  | colorFlipReveal => 0xa1
  | clockOffsetReq => 0xb0
  | clockOffsetResp => 0xb1
  | kciMac => 0xc0

def values : List FrameType :=
  [hello, helloAck, helloConfirm, move, moveAck, syncReq, syncResp, drawOffer, drawResponse,
    resign, takebackReq, takebackResponse, chat, ping, pong, bye, byePart, byeFinal, mismatch,
    colorFlipCommit, colorFlipReveal, clockOffsetReq, clockOffsetResp, kciMac]

def fromId (id : ℤ) : Option FrameType := values.find? fun t => t.id = id

theorem id_of_fromId {n : ℤ} {t : FrameType} (h : fromId n = some t) : t.id = n := by
  simpa using List.find?_some h

end FrameType

structure Frame where
  type : FrameType
  sequenceNum : ℤ
  payload : List UInt8
  version : ℤ := 1
  wallClock : ℤ := 0
deriving DecidableEq, Repr

/-- `map[key]`; an absent key gives `null`. -/
def mapGet (m : List (List Char × Value)) (key : List Char) : Value :=
  ((m.find? fun e => e.1 = key).map Prod.snd).getD .null

/-- `toRadixString(16)` -/
def radix16 (n : ℤ) : List Char :=
  if n < 0 then '-' :: Nat.toDigits 16 n.natAbs else Nat.toDigits 16 n.toNat

namespace Frame

/-- The map that `encode` writes. -/
def toMap (f : Frame) : List (List Char × Value) :=
  [(['n'], .int f.sequenceNum), (['p'], .bytes f.payload), (['t'], .int f.type.id),
    (['t', 's'], .int f.wallClock), (['v'], .int f.version)]

def encode (f : Frame) : List UInt8 := CborCodec.encode (.map f.toMap)

def requiredInt (m : List (List Char × Value)) (key : List Char) : Except CborError ℤ :=
  match mapGet m key with
  | .null => .error (.format ("Missing frame field: " ++ String.ofList key))
  | .int n => .ok n
  | _ => .error (.format ("Frame field " ++ String.ofList key ++ " must be an int"))

/-- `outer['ts'] as int? ?? 0` -/
def castInt (v : Value) : Except CborError ℤ :=
  match v with
  | .null => .ok 0
  | .int n => .ok n
  | _ => .error .type

/-- `p is Uint8List ? p : Uint8List.fromList(p as List<int>)` -/
def castBytes (p : Value) : Except CborError (List UInt8) :=
  match p with
  | .bytes bs => .ok bs
  | .ints ns => .ok (CborEncoder.fromList ns)
  | _ => .error .type

/-- The fields of a decoded map. -/
def ofMap (outer : List (List Char × Value)) : Except CborError Frame := do
  let v ← requiredInt outer ['v']
  let t ← requiredInt outer ['t']
  let n ← requiredInt outer ['n']
  let ts ← castInt (mapGet outer ['t', 's'])
  match mapGet outer ['p'] with
  | .null => throw (.format "Missing frame field: p")
  | p =>
    match FrameType.fromId t with
    | none => throw (.format ("Unknown frame type: 0x" ++ String.ofList (radix16 t)))
    | some frameType => do
      let payloadBytes ← castBytes p
      return { version := v, type := frameType, sequenceNum := n, wallClock := ts,
               payload := payloadBytes }

def decode (data : List UInt8) : Except CborError Frame := do
  let outer ← CborCodec.decode data
  match outer with
  | .map m => ofMap m
  | _ => throw (.format "Frame must be a CBOR map")

end Frame

end ChessRecast.P2P
