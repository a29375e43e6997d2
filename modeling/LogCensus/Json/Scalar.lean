import LogCensus.Json.Cursor
import LogCensus.Json.Value

/-!
Strings and numbers of JSON texts, each read in two ways: `read…` gives the value and refuses what
has none, `skip…` only finds the end. A skipped string may hold escapes of lone surrogates, and a
skipped number may be out of range.
-/

namespace LogCensus.Json

/-! ### Strings -/

def hexValue? (c : Char) : Option Nat :=
  if '0' ≤ c ∧ c ≤ '9' then some (c.toNat - 48)
  else if 'a' ≤ c ∧ c ≤ 'f' then some (c.toNat - 87)
  else if 'A' ≤ c ∧ c ≤ 'F' then some (c.toNat - 55)
  else none

def hexQuad? : List Char → Option Nat
  | a :: b :: c :: d :: _ => do
    let a ← hexValue? a
    let b ← hexValue? b
    let c ← hexValue? c
    let d ← hexValue? d
    some (((a * 16 + b) * 16 + c) * 16 + d)
  | _ => none

def hexFault (ahead : List Char) (offset : Nat) : Fault :=
  let octets := Text.Utf8.byteCount (ahead.take 4)
  if octets < 4 then ⟨.endInString, offset + octets⟩ else ⟨.invalidEscape, offset + 4⟩

def simpleEscape? (c : Char) : Option Char :=
  match c with
  | '"' => some '"'
  | '\\' => some '\\'
  | '/' => some '/'
  | 'b' => some (Char.ofNat 8)
  | 'f' => some (Char.ofNat 12)
  | 'n' => some '\n'
  | 'r' => some '\r'
  | 't' => some '\t'
  | _ => none

def isTrailing (unit : Nat) : Bool := 0xDC00 ≤ unit && unit ≤ 0xDFFF
def isLeading (unit : Nat) : Bool := 0xD800 ≤ unit && unit ≤ 0xDBFF

def pairFault (ahead : List Char) (offset : Nat) : Fault :=
  if ahead.isEmpty then ⟨.endInString, offset⟩ else ⟨.hexEscapeEnd, offset + 1⟩

def consChar (c : Char) (rest : Except Fault (List Char × Cursor)) :
    Except Fault (List Char × Cursor) :=
  rest.map fun (text, cursor) => (c :: text, cursor)

def readString : (ahead : List Char) → (offset : Nat) → Except Fault (List Char × Cursor)
  | [], offset => .error ⟨.endInString, offset⟩
  | '"' :: rest, offset => .ok ([], ⟨rest, offset + 1⟩)
  | '\\' :: [], offset => .error ⟨.endInString, offset + 1⟩
  | '\\' :: 'u' :: rest, offset =>
    match rest, hexQuad? rest with
    | _ :: _ :: _ :: _ :: behind, some unit =>
      if isTrailing unit then .error ⟨.loneSurrogate, offset + 6⟩
      else if isLeading unit then
        match behind with
        | '\\' :: 'u' :: second =>
          match second, hexQuad? second with
          | _ :: _ :: _ :: _ :: behind, some other =>
            if isTrailing other then
              let code := 0x10000 + (unit - 0xD800) * 0x400 + (other - 0xDC00)
              consChar (Char.ofNat code) (readString behind (offset + 12))
            else .error ⟨.loneSurrogate, offset + 12⟩
          | _, _ => .error (hexFault second (offset + 8))
        | '\\' :: other => .error (pairFault other (offset + 7))
        | other => .error (pairFault other (offset + 6))
      else consChar (Char.ofNat unit) (readString behind (offset + 6))
    | _, _ => .error (hexFault rest (offset + 2))
  | '\\' :: c :: rest, offset =>
    match simpleEscape? c with
    | some meant => consChar meant (readString rest (offset + 2))
    | none => .error ⟨.invalidEscape, offset + 2⟩
  | c :: rest, offset =>
    if c.toNat < 32 then .error ⟨.controlCharacter, offset + 1⟩
    else consChar c (readString rest (offset + c.utf8Size))

def skipString : (ahead : List Char) → (offset : Nat) → Except Fault Cursor
  | [], offset => .error ⟨.endInString, offset⟩
  | '"' :: rest, offset => .ok ⟨rest, offset + 1⟩
  | '\\' :: [], offset => .error ⟨.endInString, offset + 1⟩
  | '\\' :: 'u' :: rest, offset =>
    match rest, hexQuad? rest with
    | _ :: _ :: _ :: _ :: behind, some _ => skipString behind (offset + 6)
    | _, _ => .error (hexFault rest (offset + 2))
  | '\\' :: c :: rest, offset =>
    match simpleEscape? c with
    | some _ => skipString rest (offset + 2)
    | none => .error ⟨.invalidEscape, offset + 2⟩
  | c :: rest, offset =>
    if c.toNat < 32 then .error ⟨.controlCharacter, offset⟩
    else skipString rest (offset + c.utf8Size)

/-! ### Numbers -/

def greatestWord : Nat := 0xFFFFFFFFFFFFFFFF

/-- The longest front part of the digits that, appended to `value`, still fits 64 bits: the number
it makes, its length, and the digits behind it. -/
def fitDigits (value : Nat) : List Char → Nat × Nat × List Char
  | [] => (value, 0, [])
  | digit :: rest =>
    let longer := value * 10 + Text.digitValue digit
    if greatestWord < longer then (value, 0, digit :: rest)
    else
      let (fitted, count, behind) := fitDigits longer rest
      (fitted, count + 1, behind)

/-- `value * 10 ^ exponent` where the value is rounded to a double before it is scaled, and where
an exponent below -308 is applied in steps. -/
def scaleDown : (steps : Nat) → Binary64 → (exponent : Int) → Binary64
  | 0, value, _ => value
  | steps + 1, value, exponent =>
    if -308 ≤ exponent then value / Binary64.powerOfTen (-exponent).toNat
    else scaleDown steps (value / Binary64.powerOfTen 308) (exponent + 308)

def realOfParts? (value : Nat) (exponent : Int) : Option Binary64 :=
  let number := Binary64.ofNat value
  if number.isZero then some number
  else if exponent < 0 then some (scaleDown 4 number exponent)
  else if 308 < exponent then none
  else
    let product := number * Binary64.powerOfTen exponent.toNat
    if product.isInfinite then none else some product

def greatestScale : Nat := 2147483647

/-- How many of the digits have been read when the number they make passes `greatestScale`. -/
def overflowAt? (value count : Nat) : List Char → Option Nat
  | [] => none
  | digit :: rest =>
    let longer := value * 10 + Text.digitValue digit
    if greatestScale < longer then some (count + 1) else overflowAt? longer (count + 1) rest

structure Lexeme where
  whole : List Char
  places : Option (List Char)
  scale : Option (Bool × List Char)
  scaleStart : Cursor
  stop : Cursor

inductive Lack where
  | ended (fault : Fault)
  | other (fault : Fault)

def Lack.strict : Lack → Fault
  | ended fault => fault
  | other fault => fault

def Lack.lenient : Lack → Fault
  | ended fault => { fault with cause := .invalidNumber }
  | other fault => fault

def isScaleMark (c : Char) : Bool := c == 'e' || c == 'E'

def scalePart (cursor : Cursor) : Except Lack (Option (Bool × List Char) × Cursor × Cursor) :=
  match cursor.ahead with
  | mark :: _ =>
    if isScaleMark mark then
      let signed := cursor.next
      let (negative, start) :=
        match signed.ahead with
        | '-' :: _ => (true, signed.next)
        | '+' :: _ => (false, signed.next)
        | _ => (false, signed)
      match start.ahead with
      | [] => .error (.ended (start.faultHere .endInValue))
      | c :: _ =>
        if Text.isDigit c then
          .ok (some (negative, start.ahead.takeWhile Text.isDigit), start,
            start.skipWhile Text.isDigit)
        else .error (.other ⟨.invalidNumber, start.offset + 1⟩)
    else .ok (none, cursor, cursor)
  | [] => .ok (none, cursor, cursor)

def placesPart (cursor : Cursor) : Except Lack (Option (List Char) × Cursor) :=
  match cursor.ahead with
  | '.' :: _ =>
    let start := cursor.next
    match start.ahead with
    | [] => .error (.ended (start.faultAhead .endInValue))
    | c :: _ =>
      if Text.isDigit c then
        .ok (some (start.ahead.takeWhile Text.isDigit), start.skipWhile Text.isDigit)
      else .error (.other (start.faultAhead .invalidNumber))
  | _ => .ok (none, cursor)

def wholePart (cursor : Cursor) : Except Lack (List Char × Cursor) :=
  match cursor.ahead with
  | [] => .error (.ended (cursor.faultHere .endInValue))
  | '0' :: rest =>
    match rest with
    | c :: _ =>
      if Text.isDigit c then .error (.other (cursor.next.faultAhead .invalidNumber))
      else .ok (['0'], cursor.next)
    | [] => .ok (['0'], cursor.next)
  | c :: _ =>
    if Text.isDigit c then
      .ok (cursor.ahead.takeWhile Text.isDigit, cursor.skipWhile Text.isDigit)
    else .error (.other ⟨.invalidNumber, cursor.offset + 1⟩)

def takeLexeme (cursor : Cursor) : Except Lack Lexeme := do
  let (whole, cursor) ← wholePart cursor
  let (places, cursor) ← placesPart cursor
  let (scale, scaleStart, stop) ← scalePart cursor
  .ok { whole, places, scale, scaleStart, stop }

def withSign (negative : Bool) (value : Binary64) : Binary64 :=
  if negative then -value else value

/-- A whole number, as long as it fits; a negative zero is a double. -/
def wholeNumber (negative : Bool) (value : Nat) : Number :=
  if negative then
    if value = 0 ∨ 0x8000000000000000 < value then .real (-Binary64.ofNat value) else .negative (-(value : Int))
  else .natural value.toUInt64

def Lexeme.value (lexeme : Lexeme) (negative : Bool) : Except Fault Number :=
  let (front, _, uncounted) := fitDigits 0 lexeme.whole
  if uncounted.isEmpty ∧ lexeme.places.isNone ∧ lexeme.scale.isNone then
    .ok (wholeNumber negative front)
  else
    let (value, counted, _) := fitDigits front (lexeme.places.getD [])
    let base : Int := uncounted.length - counted
    let real (scale : Int) : Except Fault Number :=
      match realOfParts? value (base + scale) with
      | some size => .ok (.real (withSign negative size))
      | none => .error (lexeme.stop.faultHere .numberRange)
    match lexeme.scale with
    | none => real 0
    | some (down, digits) =>
      match overflowAt? 0 0 digits with
      | none =>
        let size : Int := Text.digitsValue digits
        real (if down then -size else size)
      | some count =>
        if value ≠ 0 ∧ !down then .error ⟨.numberRange, lexeme.scaleStart.offset + count⟩
        else .ok (.real (withSign negative (Binary64.zeroOf false)))

def takeNumber (cursor : Cursor) : Bool × Except Lack Lexeme :=
  match cursor.ahead with
  | '-' :: _ => (true, takeLexeme cursor.next)
  | _ => (false, takeLexeme cursor)

end LogCensus.Json
