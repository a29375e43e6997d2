import LogCensus.Text.Numeral
import LogCensus.Text.Search

/-!
The arguments of the command line. An option that waits for its value is settled by what comes
next: a value is checked only then, and only if what comes next is known at all.
-/

namespace LogCensus.CommandLine

inductive Layout where
  | text
  | json
  | csv
  deriving DecidableEq, Repr

def Layout.names : List (String × Layout) := [("text", .text), ("json", .json), ("csv", .csv)]

inductive Scope where
  | top
  | analyze
  | formats
  deriving DecidableEq, Repr

inductive Setting where
  | verbose
  | help
  | version
  | format
  | lower
  | upper
  | workers
  | limit
  | layout
  | output
  deriving DecidableEq, Repr

namespace Setting

def long : Setting → String
  | verbose => "verbose"
  | help => "help"
  | version => "version"
  | format => "type"
  | lower => "from"
  | upper => "to"
  | workers => "workers"
  | limit => "limit"
  | layout => "format"
  | output => "output"

def short? : Setting → Option Char
  | verbose => some 'v'
  | help => some 'h'
  | version => some 'V'
  | format => some 't'
  | lower => none
  | upper => none
  | workers => some 'w'
  | limit => some 'l'
  | layout => some 'f'
  | output => some 'o'

def valueName? : Setting → Option String
  | verbose => none
  | help => none
  | version => none
  | format => some "PARSER_TYPE"
  | lower => some "FROM"
  | upper => some "TO"
  | workers => some "WORKERS"
  | limit => some "LIMIT"
  | layout => some "FORMAT"
  | output => some "OUTPUT"

def shown (setting : Setting) : String :=
  "--" ++ setting.long ++
    match setting.valueName? with
    | some name => " <" ++ name ++ ">"
    | none => if setting = verbose then "..." else ""

end Setting

def Scope.settings : Scope → List Setting
  | .top => [.verbose, .help, .version]
  | .analyze =>
    [.format, .verbose, .lower, .upper, .workers, .limit, .layout, .output, .help]
  | .formats => [.verbose, .help]

inductive UsageFault where
  | noArguments
  | missingCommand
  | unknownCommand (name : String)
  | unexpectedArgument (shown : String)
  | unexpectedValue (value : String) (setting : Setting)
  | invalidValue (value : String) (setting : Setting) (reason : String)
  | unknownLayout (value : String)
  | missingValue (setting : Setting)
  | repeated (setting : Setting)
  | missingPatterns
  deriving DecidableEq, Repr

structure Request where
  patterns : List String
  format : Option String
  lower : Option String
  upper : Option String
  workers : UInt64
  limit : Option UInt64
  layout : Layout
  output : Option String

inductive Command where
  | analyze (request : Request)
  | formats
  | version
  | help (scope : Scope)

/-! ### Numbers -/

def emptyNumber : String := "cannot parse integer from empty string"
def invalidDigit : String := "invalid digit found in string"
def tooLarge : String := "number too large to fit in target type"

def readDigits (value : Nat) : List Char → Except String UInt64
  | [] => .ok value.toUInt64
  | c :: rest =>
    if !Text.isDigit c then .error invalidDigit
    else
      let value := value * 10 + Text.digitValue c
      if UInt64.size ≤ value then .error tooLarge else readDigits value rest

def readNumber (text : String) : Except String UInt64 :=
  match text.toList with
  | [] => .error emptyNumber
  | '+' :: c :: rest => readDigits 0 (c :: rest)
  | digits => readDigits 0 digits

/-! ### Arguments -/

structure Draft where
  verbosity : Nat := 0
  patterns : List String := []
  format : Option String := none
  lower : Option String := none
  upper : Option String := none
  workers : Option UInt64 := none
  limit : Option UInt64 := none
  layout : Option Layout := none
  output : Option String := none
  /-- A setting that waits for its value or, with a value, to be settled. -/
  waiting : Option (Setting × Option String) := none
  verbatim : Bool := false

namespace Draft

def request (draft : Draft) : Request where
  patterns := draft.patterns
  format := draft.format
  lower := draft.lower
  upper := draft.upper
  workers := draft.workers.getD 0
  limit := draft.limit
  layout := draft.layout.getD .text
  output := draft.output

def isSet (draft : Draft) : Setting → Bool
  | .verbose => false
  | .help => false
  | .version => false
  | .format => draft.format.isSome
  | .lower => draft.lower.isSome
  | .upper => draft.upper.isSome
  | .workers => draft.workers.isSome
  | .limit => draft.limit.isSome
  | .layout => draft.layout.isSome
  | .output => draft.output.isSome

def assign (draft : Draft) (setting : Setting) (value : String) : Except UsageFault Draft :=
  if draft.isSet setting then .error (.repeated setting)
  else
    match setting with
    | .verbose => .ok draft
    | .help => .ok draft
    | .version => .ok draft
    | .format => .ok { draft with format := some value }
    | .lower => .ok { draft with lower := some value }
    | .upper => .ok { draft with upper := some value }
    | .workers =>
      match readNumber value with
      | .ok count => .ok { draft with workers := some count }
      | .error reason => .error (.invalidValue value setting reason)
    | .limit =>
      match readNumber value with
      | .ok count => .ok { draft with limit := some count }
      | .error reason => .error (.invalidValue value setting reason)
    | .layout =>
      match Layout.names.lookup value with
      | some layout => .ok { draft with layout := some layout }
      | none => .error (.unknownLayout value)
    | .output =>
      if value = "" then .error (.missingValue setting)
      else .ok { draft with output := some value }

def settle (draft : Draft) : Except UsageFault Draft :=
  match draft.waiting with
  | none => .ok draft
  | some (setting, none) => .error (.missingValue setting)
  | some (setting, some value) => { draft with waiting := none }.assign setting value

end Draft

inductive Step where
  | next (draft : Draft)
  | stop (command : Command)

def Draft.name (scope : Scope) (draft : Draft) (setting : Setting) (value : Option String) :
    Except UsageFault Step := do
  let draft ← draft.settle
  match setting, value with
  | .verbose, _ => .ok (.next { draft with verbosity := draft.verbosity + 1 })
  | .help, _ => .ok (.stop (.help scope))
  | .version, _ => .ok (.stop .version)
  | _, none => .ok (.next { draft with waiting := some (setting, none) })
  | _, some value => (draft.assign setting value).map .next

def Draft.takeLong (scope : Scope) (draft : Draft) (text : List Char) : Except UsageFault Step :=
  let (name, value) :=
    match Text.cut? ['='] text with
    | some (name, value) => (name, some (String.ofList value))
    | none => (text, none)
  match scope.settings.find? fun setting => setting.long.toList == name with
  | none => .error (.unexpectedArgument ("--" ++ String.ofList name))
  | some setting =>
    match setting.valueName?, value with
    | none, some value => .error (.unexpectedValue value setting)
    | _, value => draft.name scope setting value

/-- Options of one letter each behind a dash. The value of the last one may follow at once, also
behind an equals sign. -/
def Draft.takeShort (scope : Scope) (draft : Draft) : List Char → Except UsageFault Step
  | [] => .ok (.next draft)
  | c :: rest =>
    match scope.settings.find? fun setting => setting.short? == some c with
    | none => .error (.unexpectedArgument (String.ofList ['-', c]))
    | some setting =>
      if setting.valueName?.isSome then
        draft.name scope setting
          (match rest with
            | [] => none
            | '=' :: value => some (String.ofList value)
            | value => some (String.ofList value))
      else
        match draft.name scope setting none with
        | .ok (.next draft) => draft.takeShort scope rest
        | other => other

def commandNames : List String := ["analyze", "parsers", "help"]

def helpOn : List String → Except UsageFault Command
  | [] => .ok (.help .top)
  | "analyze" :: rest => rest.head?.elim (.ok (.help .analyze)) (.error ∘ .unknownCommand)
  | "parsers" :: rest => rest.head?.elim (.ok (.help .formats)) (.error ∘ .unknownCommand)
  | "help" :: rest => rest.head?.elim (.ok (.help .top)) (.error ∘ .unknownCommand)
  | name :: _ => .error (.unknownCommand name)

def Draft.finish (scope : Scope) (draft : Draft) : Except UsageFault Command := do
  let draft ← draft.settle
  match scope with
  | .top => .error (if draft.verbosity = 0 then .noArguments else .missingCommand)
  | .formats => .ok .formats
  | .analyze =>
    if draft.patterns.isEmpty then .error .missingPatterns else .ok (.analyze draft.request)

inductive Form where
  | dashes
  | long (text : List Char)
  | short (letters : List Char)
  | bare

def formOf (argument : String) : Form :=
  match argument.toList with
  | ['-', '-'] => .dashes
  | '-' :: '-' :: text => .long text
  | '-' :: c :: letters => .short (c :: letters)
  | _ => .bare

def readFrom (scope : Scope) (draft : Draft) : List String → Except UsageFault Command
  | [] => draft.finish scope
  | argument :: rest =>
    match if draft.verbatim then .bare else formOf argument with
    | .dashes => readFrom scope { draft with verbatim := true } rest
    | .long text =>
      match draft.takeLong scope text with
      | .error fault => .error fault
      | .ok (.stop command) => .ok command
      | .ok (.next draft) => readFrom scope draft rest
    | .short letters =>
      match draft.takeShort scope letters with
      | .error fault => .error fault
      | .ok (.stop command) => .ok command
      | .ok (.next draft) => readFrom scope draft rest
    | .bare =>
      match draft.waiting, draft.verbatim with
      | some (setting, none), false =>
        readFrom scope { draft with waiting := some (setting, some argument) } rest
      | _, _ =>
        match scope, draft.settle with
        | _, .error fault => .error fault
        | .analyze, .ok draft =>
          readFrom .analyze { draft with patterns := draft.patterns ++ [argument] } rest
        | .formats, .ok _ => .error (.unexpectedArgument argument)
        | .top, .ok draft =>
          if draft.verbatim then
            .error (if commandNames.contains argument then .unexpectedArgument argument
              else .unknownCommand argument)
          else if argument = "analyze" then readFrom .analyze draft rest
          else if argument = "parsers" then readFrom .formats draft rest
          else if argument = "help" then helpOn rest
          else .error (.unknownCommand argument)

def read (arguments : List String) : Except UsageFault Command := readFrom .top {} arguments

end LogCensus.CommandLine
