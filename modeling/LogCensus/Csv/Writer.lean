import LogCensus.Sink

/-!
Comma-separated tables. A field with a comma, a quote or a line break stands in quotes, with each
quote inside written twice; a record of one empty field is written as two quotes. Records are
gathered in a buffer, which is handed on when something does not fit any more, or on demand.
-/

namespace LogCensus.Csv

def comma : UInt8 := 44
def quote : UInt8 := 34
def lineFeed : UInt8 := 10
def carriageReturn : UInt8 := 13

def needsQuotes (field : List UInt8) : Bool :=
  field.any fun octet =>
    octet == comma || octet == quote || octet == lineFeed || octet == carriageReturn

/-- Octets that are not split between two buffers. -/
abbrev Atom := List UInt8

def quotedAtom (octet : UInt8) : Atom :=
  if octet = quote then [quote, quote] else [octet]

def fieldAtoms (field : List UInt8) : List Atom :=
  if needsQuotes field then [quote] :: field.map quotedAtom ++ [[quote]]
  else field.map fun octet => [octet]

def joinedAtoms : List (List UInt8) → List Atom
  | [] => []
  | [field] => fieldAtoms field
  | field :: rest => fieldAtoms field ++ [comma] :: joinedAtoms rest

def recordAtoms (fields : List (List UInt8)) : List Atom :=
  let atoms := joinedAtoms fields
  (if atoms.isEmpty then [[quote, quote]] else atoms) ++ [[lineFeed]]

def recordOctets (fields : List (List UInt8)) : List UInt8 := (recordAtoms fields).flatten

def bufferSize : Nat := 8192

/-- Octets that wait to be handed on, in reverse. -/
structure Buffer where
  waiting : List UInt8 := []
  count : Nat := 0

def Buffer.flushed (buffer : Buffer) (medium : Medium) : WriteStep :=
  .write medium buffer.waiting.reverse

/-- The buffer with an atom more, and the step in front of it if there was no room. -/
def Buffer.add (buffer : Buffer) (atom : Atom) : Buffer × List WriteStep :=
  if bufferSize < buffer.count + atom.length then
    (⟨atom.reverse, atom.length⟩, [buffer.flushed .csv])
  else (⟨atom.reverse ++ buffer.waiting, buffer.count + atom.length⟩, [])

def Buffer.addAll (buffer : Buffer) : List Atom → Buffer × List WriteStep
  | [] => (buffer, [])
  | atom :: rest =>
    let (buffer, steps) := buffer.add atom
    let (buffer, more) := buffer.addAll rest
    (buffer, steps ++ more)

inductive Command where
  | record (fields : List String)
  | flush

def stepsFrom (buffer : Buffer) : List Command → List WriteStep
  | [] => []
  | .record fields :: rest =>
    let (buffer, steps) := buffer.addAll (recordAtoms (fields.map Text.Utf8.encodeString))
    steps ++ stepsFrom buffer rest
  | .flush :: rest => buffer.flushed .plain :: stepsFrom {} rest

def steps (commands : List Command) : List WriteStep := stepsFrom {} commands

end LogCensus.Csv
