import ChessRecast.App.Orchestrator
import ChessRecast.Engine.Fen

/-!
# Handing a Dart position to the C engine (`native.dart`, `bridge.c`)

`_findBestMoveRawSync` passes the FEN text, the mod and a few flags; `engine_find_move` sets up
its board from them. Two arguments are shared: `truce_active` carries the unlocked flag of
Kings' Battle, and `truce_frozen` the moved pieces of Friendly Fire.
-/

namespace ChessRecast.Bridge

open App Engine

def getHasMovedBitboard (d : ChessBoard) : BitVec 64 :=
  d.pieces.foldl (fun bb p =>
    if p.hasMoved then bb ||| (1#64 <<< ChessBoard.squareIndex p.position) else bb) 0

/-- The `truceActive` argument. -/
def truceActiveArg (d : ChessBoard) : Bool :=
  match d.gameType with
  | .truce => d.isTruceActive
  | .kingsBattle => d.isPhase2Unlocked
  | _ => false

/-- The `truceFrozen` argument. -/
def truceFrozenArg (d : ChessBoard) : BitVec 64 :=
  match d.gameType with
  | .truce => d.getTruceFrozenBitboard
  | .friendlyFire => getHasMovedBitboard d
  | _ => 0

/-- What `engine_find_move` sets on the board that `board_set_fen` has filled. -/
def engineSetUp (b : Board) (mod : Mod) (heirWp heirBp truceActive : Bool)
    (truceFrozen : BitVec 64) : Board :=
  { b with
    mod := mod
    heirPromoted := fun c => match c with
      | .white => heirWp
      | .black => heirBp
    truceActive := if mod = .kingsBattle then false else truceActive
    truceFrozen := if mod = .friendlyFire then 0 else truceFrozen
    ffMoved := if mod = .friendlyFire then truceFrozen else 0
    kbUnlocked := if mod = .kingsBattle then truceActive else false }

/-- The C board for a Dart position; the text ends with a terminator. -/
def handOver (d : ChessBoard) : Board :=
  engineSetUp (boardSetFen (d.toNativeFEN ++ ['\x00'])) d.gameType d.whiteHasPromotedKing
    d.blackHasPromotedKing (truceActiveArg d) (truceFrozenArg d)

/-- The C board for the starting position of a mod. -/
def startBoard (mod : Mod) : Board := handOver (ChessBoard.initial mod)

end ChessRecast.Bridge
