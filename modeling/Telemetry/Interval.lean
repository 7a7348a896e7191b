/-!
# Intervals

The length of what a list of intervals covers, overlaps counted once: the intervals are put in
order and joined from left to right while they touch.
-/

namespace Telemetry.Interval

variable {ν : Type} [LT ν] [DecidableLT ν]

/-- Lexicographic order of the ends. -/
def before (a b : ν × ν) : Bool := a.1 < b.1 || (!(b.1 < a.1) && a.2 < b.2)

variable [LE ν] [DecidableLE ν]

/-- Joins intervals in order into pieces that do not touch. -/
def join (current : ν × ν) : List (ν × ν) → List (ν × ν)
  | [] => [current]
  | next :: rest =>
    if next.1 ≤ current.2 then
      join (current.1, if current.2 < next.2 then next.2 else current.2) rest
    else current :: join next rest

/-- The pieces that the intervals cover. -/
def pieces (intervals : List (ν × ν)) : List (ν × ν) :=
  match intervals.mergeSort fun a b => !before b a with
  | [] => []
  | first :: rest => join first rest

/-- The length of what the intervals cover. -/
def covered [Zero ν] [Add ν] [Sub ν] (intervals : List (ν × ν)) : ν :=
  (pieces intervals).foldl (fun total piece => total + (piece.2 - piece.1)) 0

end Telemetry.Interval
