import LogCensus.Json.Print
import LogCensus.Text.Utf8

/-!
Writing to a sink that may be full. What is to be written is a plan of steps, each of which hands
some octets on or stops; a sink takes the octets of a step all or none.
-/

namespace LogCensus

inductive Medium where
  | plain
  | json
  | csv
  deriving DecidableEq, Repr

inductive WriteStep where
  | write (medium : Medium) (octets : List UInt8)
  | unwritable
  deriving DecidableEq, Repr

inductive WriteFault where
  | full (medium : Medium)
  | unwritable
  deriving DecidableEq, Repr

namespace WriteFault

def medium : WriteFault → Medium
  | full medium => medium
  | unwritable => .json

def reason : WriteFault → String
  | full _ => "sink is full"
  | unwritable => "path contains invalid UTF-8 characters"

def message (fault : WriteFault) : String :=
  (match fault.medium with
    | .plain => "Write failed: "
    | .json => "JSON encoding failed: "
    | .csv => "CSV encoding failed: ") ++ fault.reason

end WriteFault

structure Sink where
  capacity : Option Nat := none

namespace Sink

def takes (sink : Sink) (held count : Nat) : Bool :=
  match sink.capacity with
  | none => true
  | some capacity => count = 0 || held + count ≤ capacity

def run (sink : Sink) : (held : Nat) → List WriteStep → List UInt8 × Option WriteFault
  | _, [] => ([], none)
  | _, .unwritable :: _ => ([], some .unwritable)
  | held, .write medium octets :: rest =>
    if sink.takes held octets.length then
      let (taken, fault) := run sink (held + octets.length) rest
      (octets ++ taken, fault)
    else ([], some (.full medium))

def unlimited : Sink := {}

end Sink

namespace WriteStep

def plainText (text : String) : WriteStep := .write .plain (Text.Utf8.encodeString text)

def ofPiece : Json.Piece → WriteStep
  | .text characters => .write .json (Text.Utf8.encode characters)
  | .stop => .unwritable

end WriteStep

end LogCensus
