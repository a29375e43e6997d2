import LogCensus.Decimal.Binary64

/-!
Lengths of time in whole seconds and nanoseconds.
-/

namespace LogCensus.Time

structure Duration where
  seconds : UInt64
  nanos : Nat
  nanos_lt : nanos < 1000000000 := by decide
  deriving DecidableEq

namespace Duration

def none : Duration := ⟨0, 0, by decide⟩

instance : Inhabited Duration := ⟨none⟩

/-- A number of nanoseconds beyond a second is carried over, unless the seconds overflow. -/
def ofParts? (seconds : UInt64) (nanos : Nat) : Option Duration :=
  let total := seconds.toNat + nanos / 1000000000
  if total < UInt64.size then
    some ⟨total.toUInt64, nanos % 1000000000, Nat.mod_lt _ (by decide)⟩
  else Option.none

def milliseconds (duration : Duration) : Nat :=
  duration.seconds.toNat * 1000 + duration.nanos / 1000000

/-- The seconds as a double: whole and fractional part are rounded before they are added. -/
def inSeconds (duration : Duration) : Binary64 :=
  Binary64.ofWord duration.seconds + Binary64.ofNat duration.nanos / Binary64.ofNat 1000000000

end Duration

end LogCensus.Time
