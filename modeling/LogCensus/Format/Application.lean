import LogCensus.Format
import LogCensus.Text.Search
import LogCensus.Time.Strict

/-!
Application logs: `2024-01-01 10:00:00.123 ERROR [worker-1] message`, with the lines of an
exception below. A line is recognised by its shape; only then has its time to be a valid one.
-/

namespace LogCensus.Format.Application

structure StartLine where
  stamp : List Char
  level : List Char
  thread : Option (List Char)
  message : List Char
  deriving DecidableEq

def takeNumerals? (count : Nat) (text : List Char) : Option (List Char × List Char) :=
  let numerals := text.take count
  if numerals.length = count ∧ numerals.all Text.isNumeral then some (numerals, text.drop count)
  else none

def takeOneOf? (allowed : List Char) : List Char → Option (List Char × List Char)
  | [] => none
  | c :: rest => if c ∈ allowed then some ([c], rest) else none

inductive ShapePart where
  | numerals (count : Nat)
  | oneOf (allowed : List Char)

def ShapePart.take? : ShapePart → List Char → Option (List Char × List Char)
  | numerals count => takeNumerals? count
  | oneOf allowed => takeOneOf? allowed

def takeShape? : List ShapePart → List Char → Option (List Char × List Char)
  | [], text => some ([], text)
  | part :: parts, text => do
    let (front, rest) ← part.take? text
    let (more, rest) ← takeShape? parts rest
    some (front ++ more, rest)

def secondsShape : List ShapePart :=
  [.numerals 4, .oneOf ['-'], .numerals 2, .oneOf ['-'], .numerals 2, .oneOf [' ', 'T'],
    .numerals 2, .oneOf [':'], .numerals 2, .oneOf [':'], .numerals 2]

def takeFraction? (text : List Char) : Option (List Char × List Char) :=
  match text with
  | c :: rest =>
    if c = '.' ∨ c = ',' then
      let numerals := rest.takeWhile Text.isNumeral
      if 1 ≤ numerals.length ∧ numerals.length ≤ 9 then
        some (c :: numerals, rest.dropWhile Text.isNumeral)
      else none
    else some ([], text)
  | [] => some ([], text)

def dropBlanks? : List Char → Option (List Char)
  | [] => none
  | c :: rest => if Text.isBlank c then some (Text.trimLeft rest) else none

def dropOptional (optional : Char) : List Char → List Char
  | [] => []
  | c :: rest => if c = optional then rest else c :: rest

def levelWords : List (List Char) :=
  ["TRACE", "DEBUG", "INFO", "NOTICE", "WARN", "WARNING", "ERROR", "SEVERE", "FATAL",
    "CRITICAL"].map String.toList

def takeLevel? (text : List Char) : Option (List Char × List Char) :=
  let text := dropOptional '[' text
  levelWords.findSome? fun word => do
    let rest ← Text.dropPrefix? word text
    let rest ← dropBlanks? (dropOptional ']' rest)
    some (word, rest)

def takeThread? : List Char → Option (List Char × List Char)
  | '[' :: rest =>
    let name := rest.takeWhile (· != ']')
    if name.isEmpty then none
    else (dropBlanks? (rest.drop (name.length + 1))).map fun behind => (name, behind)
  | _ => none

def StartLine.ofText? (text : List Char) : Option StartLine := do
  let (seconds, rest) ← takeShape? secondsShape text
  let (fraction, rest) ← takeFraction? rest
  let rest ← dropBlanks? rest
  let (level, rest) ← takeLevel? rest
  let (thread, message) :=
    match takeThread? rest with
    | some (name, behind) => (some name, behind)
    | none => (none, rest)
  if message.contains '\n' then none
  else some { stamp := seconds ++ fraction, level, thread, message }

def pointed (stamp : List Char) : List Char :=
  stamp.map fun c => if c = ',' then '.' else c

/-- The instant of a stamp in UTC, if its digits are ASCII and name a date and a time. -/
def instant? (stamp : List Char) : Option Time.Instant :=
  match Time.Strict.takeDateTime? (pointed stamp) with
  | some (fields, []) => fields.instant.toOption
  | _ => none

def kind : String := "app"

def refusal (reason : String) : Refusal := ⟨kind, reason⟩

def readStart (line : String) : Except Refusal Entry :=
  match StartLine.ofText? line.toList with
  | none => .error (refusal "line does not start an entry")
  | some start =>
    match instant? start.stamp with
    | none =>
      .error (refusal ("bad timestamp '" ++ String.ofList (pointed start.stamp) ++ "'"))
    | some instant =>
      let entry : Entry := {
        timestamp := some instant
        level := Level.ofSpelling start.level
        kind := "application"
        message := String.ofList start.message
        raw := line }
      .ok (match start.thread with
        | some name => entry.withField "thread" (String.ofList name)
        | none => entry)

def starts (line : String) : Bool := (StartLine.ofText? line.toList).isSome

/-- The class name in front of the first colon of a line, if it looks like that of an exception:
one word that ends in `Exception` or `Error`. -/
def exceptionName? (line : String) : Option String :=
  let head := Text.trim ((Text.trim line.toList).takeWhile (· != ':'))
  let ends (ending : String) : Bool := ending.toList.isSuffixOf head
  if head ≠ [] ∧ !head.contains ' ' ∧ (ends "Exception" || ends "Error") then
    some (String.ofList head)
  else none

def readGroup : List String → Except Refusal Entry
  | [] => .error (refusal "empty entry")
  | first :: rest => do
    let entry ← readStart first
    match rest with
    | [] => .ok entry
    | second :: _ =>
      let labels :=
        match exceptionName? second with
        | some name => entry.labels.insert "exception" name
        | none => entry.labels
      .ok { entry with
        kind := "exception"
        labels
        fields := entry.fields.insert "stack_trace" ("\n".intercalate rest)
        raw := "\n".intercalate (first :: rest) }

end Application

def application : Format where
  kind := Application.kind
  title := "Application log"
  probe := Application.starts
  read line := .ofExcept (Application.readStart line)
  framing := some { starts := Application.starts, read := fun lines => .ofExcept (Application.readGroup lines) }

end LogCensus.Format
