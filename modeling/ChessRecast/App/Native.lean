import ChessRecast.App.Orchestrator

/-!
# Results of the native engine (`native.dart`)

`_parseResult` turns the integers that C returns into a move of the Dart board. It tries a chain
of fallbacks; each of them is a definition here. A Dart loop that keeps the first match is a
`find?`, `a ??= b` is `Option.or`.
-/

namespace ChessRecast.App

structure EngineResultNative where
  fromRow : ℤ
  fromCol : ℤ
  toRow : ℤ
  toCol : ℤ
  score : ℤ
  depth : ℤ
  nodes : ℤ
  isCastling : ℤ
  isEnPassant : ℤ
  isPromotion : ℤ
  promoType : ℤ
deriving DecidableEq, Repr

namespace EngineResultNative

/-- `from` -/
def fromPos (r : EngineResultNative) : Position := ⟨r.fromRow, r.fromCol⟩

/-- `to` -/
def toPos (r : EngineResultNative) : Position := ⟨r.toRow, r.toCol⟩

end EngineResultNative

namespace ChessBoard

/-! ## The move as the engine describes it -/

end ChessBoard

end ChessRecast.App
