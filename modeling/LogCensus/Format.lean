import LogCensus.Entry
import LogCensus.Text.Escaped

/-!
Log formats. A format recognises lines and reads them as entries; one with a framing may need
several lines for an entry and tells on which lines entries start.
-/

namespace LogCensus

structure Refusal where
  format : String
  reason : String
  deriving DecidableEq

def Refusal.display (refusal : Refusal) : String := refusal.format ++ ": " ++ refusal.reason

/-- What comes of reading. A reader that crashes takes the work on the whole file with it. -/
inductive Outcome where
  | entry (entry : Entry)
  | refused (refusal : Refusal)
  | crashed

def Outcome.ofExcept : Except Refusal Entry → Outcome
  | .ok found => .entry found
  | .error refusal => .refused refusal

structure Framing where
  starts : String → Bool
  read : List String → Outcome

structure Format where
  kind : String
  title : String
  probe : String → Bool
  read : String → Outcome
  framing : Option Framing := none

def Format.describe (format : Format) : String :=
  (if format.framing.isSome then "MultiLine" else "SingleLine")
    ++ " \x7b type: " ++ Text.escaped format.kind ++ " \x7d"

end LogCensus
