import LogCensus.Format
import LogCensus.Format.Application
import LogCensus.Time.Reading

/-!
Access logs of web servers: address, identity, user, time in brackets, request in quotes, status,
size, and in the longer form referer and user agent in quotes. Anything may follow.
-/

namespace LogCensus.Format.AccessLog

structure Line where
  address : List Char
  user : List Char
  time : List Char
  request : List Char
  status : List Char
  bytes : List Char
  /-- Referer and user agent. -/
  client : Option (List Char × List Char)
  deriving DecidableEq

def takeWord? (text : List Char) : Option (List Char × List Char) :=
  let word := text.takeWhile fun c => !Text.isBlank c
  match text.drop word.length with
  | ' ' :: rest => if word.isEmpty then none else some (word, rest)
  | _ => none

def takeUntil? (closing : Char) (text : List Char) : Option (List Char × List Char) :=
  let inside := text.takeWhile (· != closing)
  match text.drop inside.length with
  | [] => none
  | _ :: rest => some (inside, rest)

def takeQuoted? : List Char → Option (List Char × List Char)
  | '"' :: rest => takeUntil? '"' rest
  | _ => none

def takeBytes? (text : List Char) : Option (List Char × List Char) :=
  match text with
  | '-' :: rest => some (['-'], rest)
  | _ =>
    let numerals := text.takeWhile Text.isNumeral
    if numerals.isEmpty then none else some (numerals, text.drop numerals.length)

def takeClient? (text : List Char) : Option (List Char × List Char) := do
  let rest ← Text.dropPrefix? [' '] text
  let (referer, rest) ← takeQuoted? rest
  let rest ← Text.dropPrefix? [' '] rest
  let (agent, _) ← takeQuoted? rest
  some (referer, agent)

def Line.ofText? (text : List Char) : Option Line := do
  let (address, rest) ← takeWord? text
  let (_, rest) ← takeWord? rest
  let (user, rest) ← takeWord? rest
  let rest ← Text.dropPrefix? ['['] rest
  let (time, rest) ← takeUntil? ']' rest
  if time.isEmpty then none
  else
    let rest ← Text.dropPrefix? [' '] rest
    let (request, rest) ← takeQuoted? rest
    let rest ← Text.dropPrefix? [' '] rest
    let (status, rest) ← Application.takeNumerals? 3 rest
    let rest ← Text.dropPrefix? [' '] rest
    let (bytes, rest) ← takeBytes? rest
    some { address, user, time, request, status, bytes, client := takeClient? rest }

def kind : String := "nginx"

def refusal (reason : String) : Refusal := ⟨kind, reason⟩

/-- Method, path and protocol of a request: what stands before the first blank, between the first
and the second, and behind it. A request without blanks has none of them. -/
inductive RequestParts where
  | none
  | two (method path : List Char)
  | three (method path protocol : List Char)

def RequestParts.ofText (request : List Char) : RequestParts :=
  match Text.cut? [' '] request with
  | Option.none => .none
  | some (method, rest) =>
    match Text.cut? [' '] rest with
    | Option.none => .two method rest
    | some (path, protocol) => .three method path protocol

def withRequest (entry : Entry) : RequestParts → Entry
  | .none => entry
  | .two method path =>
    ((entry.withField "method" (.ofList method)).withField "path" (.ofList path)).withLabel
      "method" (.ofList method)
  | .three method path protocol =>
    (((entry.withField "method" (.ofList method)).withField "path" (.ofList path)).withField
      "protocol" (.ofList protocol)).withLabel "method" (.ofList method)

def withKnown (entry : Entry) (name : String) (value : List Char) : Entry :=
  if value = ['-'] then entry else entry.withField name (.ofList value)

def withClient (entry : Entry) : Option (List Char × List Char) → Entry
  | none => entry
  | some (referer, agent) =>
    (withKnown entry "referer" referer).withField "user_agent" (.ofList agent)

def entryOf (text : String) (line : Line) (instant : Time.Instant) (status : Nat) : Entry :=
  let entry : Entry := {
    timestamp := some instant
    level := Level.ofStatus status
    kind := "access"
    message := .ofList line.request
    raw := text }
  let entry := entry.withField "remote_addr" (.ofList line.address)
  let entry := entry.withField "status" (Text.ofNat status)
  let entry := entry.withField "bytes" (.ofList line.bytes)
  let entry := entry.withLabel "status_class" (Text.ofNat (status / 100) ++ "xx")
  let entry := withRequest entry (.ofText line.request)
  withClient (withKnown entry "remote_user" line.user) line.client

def readLine (text : String) : Except Refusal Entry :=
  match Line.ofText? text.toList with
  | none => .error (refusal "line does not match access log format")
  | some line =>
    match Time.readInstant Time.accessLogPattern line.time with
    | .error fault =>
      .error (refusal ("bad timestamp '" ++ .ofList line.time ++ "': " ++ fault.message))
    | .ok instant =>
      match Text.natural? line.status with
      | none => .error (refusal "bad status code")
      | some status => .ok (entryOf text line instant status)

end AccessLog

def accessLog : Format where
  kind := AccessLog.kind
  title := "Nginx access log"
  probe text := (AccessLog.Line.ofText? text.toList).isSome
  read text := .ofExcept (AccessLog.readLine text)

end LogCensus.Format
