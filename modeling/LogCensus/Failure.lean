import LogCensus.Entry
import LogCensus.Text.Search

/-!
Failures confined to one file, and their text form `path: stage: cause`. Reading the text form
takes the first stage name that stands between two colons.
-/

namespace LogCensus

/-- Where the work on a file stopped, in the order in which the stages come. -/
inductive Stage where
  | open
  | detect
  | seek
  | read
  | worker
  deriving DecidableEq, Repr

namespace Stage

def name : Stage → String
  | .open => "open"
  | detect => "detect"
  | seek => "seek"
  | read => "read"
  | worker => "worker"

def all : List Stage := [.open, detect, seek, read, worker]

def names : List (String × Stage) := all.map fun stage => (stage.name, stage)

def rank : Stage → Nat
  | .open => 0
  | detect => 1
  | seek => 2
  | read => 3
  | worker => 4

def ofName? (text : String) : Option Stage := names.lookup text

end Stage

structure Failure where
  path : Path
  stage : Stage
  cause : String
  deriving DecidableEq

namespace Failure

def separator : List Char := [':', ' ']

def display (failure : Failure) : String :=
  failure.path.display ++ ": " ++ failure.stage.name ++ ": " ++ failure.cause

inductive Tail where
  | found (stage : Stage) (cause : List Char)
  /-- No stage stands here, but there are separators to come. -/
  | later
  | none

def tailOf (text : List Char) : Tail :=
  match Text.cut? separator text with
  | some (name, cause) =>
    match Stage.ofName? (String.ofList name) with
    | some stage => .found stage cause
    | none => .later
  | none => .none

/-- The parts of a text form; `front` holds, in reverse, the characters already passed. -/
def partsFrom? (front : List Char) : List Char → Option (List Char × Stage × List Char)
  | [] => none
  | c :: rest =>
    match Text.dropPrefix? separator (c :: rest) with
    | some behind =>
      match tailOf behind with
      | .found stage cause => some (front.reverse, stage, cause)
      | .later => partsFrom? (c :: front) rest
      | .none => none
    | none => partsFrom? (c :: front) rest

def notAFailure (text : String) : String := "not a file error: '" ++ text ++ "'"

def ofText (text : String) : Except String Failure :=
  match partsFrom? [] text.toList with
  | some (path, stage, cause) =>
    .ok ⟨Path.ofString (String.ofList path), stage, String.ofList cause⟩
  | none => .error (notAFailure text)

def same (one other : Failure) : Bool :=
  one.path.same other.path && one.stage == other.stage && one.cause == other.cause

def toJson (failure : Failure) : Json := .string failure.display

def read : Json.Reader Failure := Json.readTextThen ofText

end Failure

end LogCensus
