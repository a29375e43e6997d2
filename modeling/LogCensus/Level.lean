import LogCensus.SortedMap
import LogCensus.Text.Blank

/-!
Severities of log entries. Vendors spell them in many ways; `Level.ofSpelling` knows the common
ones, `Level.ofName?` only the six names themselves.
-/

namespace LogCensus

/-- From least to most severe; an unknown severity comes last. -/
inductive Level where
  | debug
  | info
  | warning
  | error
  | fatal
  | unknown
  deriving DecidableEq, Repr, Inhabited

namespace Level

def severity : Level → Nat
  | debug => 0
  | info => 1
  | warning => 2
  | error => 3
  | fatal => 4
  | unknown => 5

theorem severity_injective {one other : Level} (same : one.severity = other.severity) :
    one = other := by
  cases one <;> cases other <;> simp_all [severity]

def all : List Level := [debug, info, warning, error, fatal, unknown]

instance : Ord Level := ⟨compareOn severity⟩

instance : Std.TransOrd Level := inferInstanceAs (Std.TransCmp (compareOn severity))

instance : Std.LawfulEqOrd Level where
  compare_self := Std.ReflCmp.compare_self
  eq_of_compare same := severity_injective (Nat.compare_eq_eq.1 same)

instance : Key Level where

def name : Level → String
  | debug => "debug"
  | info => "info"
  | warning => "warning"
  | error => "error"
  | fatal => "fatal"
  | unknown => "unknown"

def names : List (String × Level) := all.map fun level => (level.name, level)

def ofName? (text : String) : Option Level :=
  all.find? fun level => Text.sameLetters level.name.toList text.toList

def spellings : List (String × Level) :=
  [("trace", debug), ("debug", debug), ("dbg", debug), ("verbose", debug),
    ("info", info), ("information", info), ("notice", info),
    ("warn", warning), ("warning", warning),
    ("error", error), ("err", error), ("severe", error),
    ("fatal", fatal), ("critical", fatal), ("crit", fatal), ("panic", fatal), ("emerg", fatal),
    ("emergency", fatal), ("alert", fatal)]

def ofSpelling (text : List Char) : Level :=
  (spellings.lookup (String.ofList (Text.lowered (Text.trim text)))).getD unknown

def isError : Level → Bool
  | error | fatal => true
  | _ => false

def ofStatus (status : Nat) : Level :=
  if 500 ≤ status then error else if 400 ≤ status then warning else info

end Level

end LogCensus
