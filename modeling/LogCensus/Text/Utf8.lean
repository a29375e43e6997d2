/-!
UTF-8. `encode` writes characters as octets. `decode?` reads octets that are well formed,
`decodeLossy` reads any octets and puts U+FFFD for each longest ill-formed piece. Both run one
machine that takes an octet at a time.
-/

namespace LogCensus.Text.Utf8

def encodeChar (c : Char) : List UInt8 :=
  let code := c.toNat
  if code < 0x80 then [code.toUInt8]
  else if code < 0x800 then [(0xC0 + code / 0x40).toUInt8, (0x80 + code % 0x40).toUInt8]
  else if code < 0x10000 then
    [(0xE0 + code / 0x1000).toUInt8, (0x80 + code / 0x40 % 0x40).toUInt8,
      (0x80 + code % 0x40).toUInt8]
  else
    [(0xF0 + code / 0x40000).toUInt8, (0x80 + code / 0x1000 % 0x40).toUInt8,
      (0x80 + code / 0x40 % 0x40).toUInt8, (0x80 + code % 0x40).toUInt8]

def encode (text : List Char) : List UInt8 :=
  text.flatMap encodeChar

def encodeString (text : String) : List UInt8 :=
  encode text.toList

/-- What an unfinished character still needs: the number of octets owed after the next one, the
least and the greatest next octet, and the bits read so far. -/
structure Unfinished where
  owed : Nat
  least : Nat
  greatest : Nat
  bits : Nat
  deriving DecidableEq, Repr

inductive Lead where
  | ascii (c : Char)
  | more (pending : Unfinished)
  | stray
  deriving DecidableEq, Repr

def lead (octet : UInt8) : Lead :=
  let b := octet.toNat
  if b < 0x80 then .ascii (Char.ofNat b)
  else if b < 0xC2 then .stray
  else if b < 0xE0 then .more ⟨0, 0x80, 0xBF, b - 0xC0⟩
  else if b = 0xE0 then .more ⟨1, 0xA0, 0xBF, 0⟩
  else if b = 0xED then .more ⟨1, 0x80, 0x9F, 0xD⟩
  else if b < 0xF0 then .more ⟨1, 0x80, 0xBF, b - 0xE0⟩
  else if b = 0xF0 then .more ⟨2, 0x90, 0xBF, 0⟩
  else if b < 0xF4 then .more ⟨2, 0x80, 0xBF, b - 0xF0⟩
  else if b = 0xF4 then .more ⟨2, 0x80, 0x8F, 4⟩
  else .stray

inductive Taken where
  | done (c : Char)
  | more (pending : Unfinished)
  | refused
  deriving DecidableEq, Repr

def Unfinished.take (pending : Unfinished) (octet : UInt8) : Taken :=
  let b := octet.toNat
  if pending.least ≤ b ∧ b ≤ pending.greatest then
    let bits := pending.bits * 0x40 + b % 0x40
    match pending.owed with
    | 0 => .done (Char.ofNat bits)
    | owed + 1 => .more ⟨owed, 0x80, 0xBF, bits⟩
  else .refused

def replacement : Char := Char.ofNat 0xFFFD

def decodeFrom : Option Unfinished → List UInt8 → List Char
  | none, [] => []
  | some _, [] => [replacement]
  | none, octet :: rest =>
    match lead octet with
    | .ascii c => c :: decodeFrom none rest
    | .more pending => decodeFrom (some pending) rest
    | .stray => replacement :: decodeFrom none rest
  | some pending, octet :: rest =>
    match pending.take octet with
    | .done c => c :: decodeFrom none rest
    | .more pending => decodeFrom (some pending) rest
    | .refused =>
      replacement ::
        match lead octet with
        | .ascii c => c :: decodeFrom none rest
        | .more pending => decodeFrom (some pending) rest
        | .stray => replacement :: decodeFrom none rest

/-- Each longest piece that cannot be continued to a character becomes one U+FFFD. -/
def decodeLossy (octets : List UInt8) : List Char :=
  decodeFrom none octets

def decodeStrictFrom : Option Unfinished → List UInt8 → Option (List Char)
  | none, [] => some []
  | some _, [] => none
  | none, octet :: rest =>
    match lead octet with
    | .ascii c => (decodeStrictFrom none rest).map (c :: ·)
    | .more pending => decodeStrictFrom (some pending) rest
    | .stray => none
  | some pending, octet :: rest =>
    match pending.take octet with
    | .done c => (decodeStrictFrom none rest).map (c :: ·)
    | .more pending => decodeStrictFrom (some pending) rest
    | .refused => none

def decode? (octets : List UInt8) : Option (List Char) :=
  decodeStrictFrom none octets

def byteCount (text : List Char) : Nat :=
  (encode text).length

end LogCensus.Text.Utf8
