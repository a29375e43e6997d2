import LogCensus.Csv.Writer

/-!
Reading comma-separated tables. A line break ends a record unless it stands in quotes, two quotes
inside quotes are one, and lines without anything on them are no records. Octets that are no such
table are refused. A record of a single field is the title of what follows it.
-/

namespace LogCensus.Csv

inductive Place where
  | front
  | bare
  | quoted
  /-- Behind a quote in quotes: the last one, or half of a doubled one. -/
  | behindQuote
  | behindReturn
  deriving DecidableEq, Repr

/-- How far a reader has got. The newest octet, field and record come first. -/
structure Reader where
  records : List (List (List UInt8)) := []
  fields : List (List UInt8) := []
  field : List UInt8 := []
  place : Place := .front

namespace Reader

def push (reader : Reader) (octet : UInt8) (place : Place) : Reader :=
  { reader with field := octet :: reader.field, place }

def endField (reader : Reader) : Reader :=
  { reader with fields := reader.field.reverse :: reader.fields, field := [], place := .front }

def endRecord (reader : Reader) : Reader :=
  { records := (reader.field.reverse :: reader.fields).reverse :: reader.records }

def isBlank (reader : Reader) : Bool :=
  reader.place = .front && reader.fields.isEmpty

def endLine (reader : Reader) : Reader :=
  if reader.isBlank then reader else reader.endRecord

def readPlain (reader : Reader) (octet : UInt8) : Option Reader :=
  if octet = comma then some reader.endField
  else if octet = lineFeed then some reader.endLine
  else if octet = carriageReturn then some { reader.endLine with place := .behindReturn }
  else none

def read? (reader : Reader) (octet : UInt8) : Option Reader :=
  match reader.place with
  | .front =>
    if octet = quote then some { reader with place := .quoted }
    else (reader.readPlain octet).or (some (reader.push octet .bare))
  | .bare =>
    if octet = quote then none
    else (reader.readPlain octet).or (some (reader.push octet .bare))
  | .quoted =>
    if octet = quote then some { reader with place := .behindQuote }
    else some (reader.push octet .quoted)
  | .behindQuote =>
    if octet = quote then some (reader.push quote .quoted) else reader.readPlain octet
  | .behindReturn => if octet = lineFeed then some { reader with place := .front } else none

def readAll? (reader : Reader) : List UInt8 → Option Reader
  | [] => some reader
  | octet :: rest => (reader.read? octet).bind fun reader => reader.readAll? rest

def finish? (reader : Reader) : Option (List (List (List UInt8))) :=
  match reader.place with
  | .quoted | .behindReturn => none
  | _ => some reader.endLine.records.reverse

end Reader

def records? (octets : List UInt8) : Option (List (List (List UInt8))) :=
  (Reader.readAll? {} octets).bind Reader.finish?

/-! ### Tables of text -/

def text? (field : List UInt8) : Option String := (Text.Utf8.decode? field).map String.ofList

def table? (octets : List UInt8) : Option (List (List String)) :=
  (records? octets).bind fun records => records.mapM fun fields => fields.mapM text?

/-- A table cut before each record of a single field. -/
def parts (table : List (List String)) : List (List (List String)) :=
  table.splitBy fun _ next => next.length != 1

end LogCensus.Csv
