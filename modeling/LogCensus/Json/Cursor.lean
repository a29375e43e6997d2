import LogCensus.Text.Numeral
import LogCensus.Text.Utf8

/-!
Places in a text. A cursor holds the characters ahead and the number of octets behind; a fault
says what is wrong and at which octet; `lineColumn` gives the place its line and its column.
-/

namespace LogCensus.Json

inductive Cause where
  | endInValue
  | endInObject
  | endInList
  | endInString
  | expectedIdent
  | expectedValue
  | expectedObjectEnd
  | expectedListEnd
  | expectedColon
  | keyNotString
  | trailingComma
  | trailingCharacters
  | invalidNumber
  | numberRange
  | invalidEscape
  | hexEscapeEnd
  | loneSurrogate
  | controlCharacter
  | tooDeep
  deriving DecidableEq, Repr

def Cause.message : Cause → String
  | endInValue => "EOF while parsing a value"
  | endInObject => "EOF while parsing an object"
  | endInList => "EOF while parsing a list"
  | endInString => "EOF while parsing a string"
  | expectedIdent => "expected ident"
  | expectedValue => "expected value"
  | expectedObjectEnd => "expected `,` or `\x7d`"
  | expectedListEnd => "expected `,` or `]`"
  | expectedColon => "expected `:`"
  | keyNotString => "key must be a string"
  | trailingComma => "trailing comma"
  | trailingCharacters => "trailing characters"
  | invalidNumber => "invalid number"
  | numberRange => "number out of range"
  | invalidEscape => "invalid escape"
  | hexEscapeEnd => "unexpected end of hex escape"
  | loneSurrogate => "lone leading surrogate in hex escape"
  | controlCharacter => "control character (\\u0000-\\u001F) found while parsing a string"
  | tooDeep => "recursion limit exceeded"

structure Fault where
  cause : Cause
  offset : Nat
  deriving DecidableEq, Repr

structure Cursor where
  ahead : List Char
  offset : Nat
  deriving DecidableEq, Repr

namespace Cursor

def ofText (text : List Char) : Cursor := ⟨text, 0⟩

def next (cursor : Cursor) : Cursor :=
  match cursor.ahead with
  | [] => cursor
  | c :: rest => ⟨rest, cursor.offset + c.utf8Size⟩

/-- A fault at the octet that comes next, or at the end of the text. -/
def faultAhead (cursor : Cursor) (cause : Cause) : Fault :=
  ⟨cause, if cursor.ahead.isEmpty then cursor.offset else cursor.offset + 1⟩

/-- A fault at the octet read last. -/
def faultHere (cursor : Cursor) (cause : Cause) : Fault := ⟨cause, cursor.offset⟩

def skipWhile (test : Char → Bool) (cursor : Cursor) : Cursor :=
  ⟨cursor.ahead.dropWhile test,
    cursor.offset + Text.Utf8.byteCount (cursor.ahead.takeWhile test)⟩

def isSpace (c : Char) : Bool := c == ' ' || c == '\n' || c == '\t' || c == '\r'

def skipSpace (cursor : Cursor) : Cursor := cursor.skipWhile isSpace

end Cursor

def lineStart : (text : List Char) → (offset lines start limit : Nat) → Nat × Nat
  | [], _, lines, start, _ => (lines, start)
  | c :: rest, offset, lines, start, limit =>
    if limit ≤ offset then (lines, start)
    else if c = '\n' then lineStart rest (offset + 1) (lines + 1) (offset + 1) limit
    else lineStart rest (offset + c.utf8Size) lines start limit

def lineColumn (text : List Char) (offset : Nat) : Nat × Nat :=
  let (lines, start) := lineStart text 0 0 0 offset
  (lines + 1, offset - start)

def located (text : List Char) (message : String) (offset : Nat) : String :=
  let (line, column) := lineColumn text offset
  message ++ " at line " ++ Text.ofNat line ++ " column " ++ Text.ofNat column

def Fault.describe (fault : Fault) (text : List Char) : String :=
  located text fault.cause.message fault.offset

end LogCensus.Json
