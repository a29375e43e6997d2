import LogCensus.Text.Blank
import LogCensus.Text.Utf8

/-!
Lines of a file, each with the octets of its end. The text of a line is decoded without that end,
and what is no UTF-8 shows as U+FFFD.
-/

namespace LogCensus

structure Line where
  octets : List UInt8
  deriving DecidableEq

namespace Line

def lineFeed : UInt8 := 10
def carriageReturn : UInt8 := 13

def isEnd (octet : UInt8) : Bool := octet == lineFeed || octet == carriageReturn

/-- The lines of octets, the first of which has begun with the octets `front`, newest first. -/
def listFrom (front : List UInt8) : List UInt8 → List Line
  | [] => if front.isEmpty then [] else [⟨front.reverse⟩]
  | octet :: rest =>
    if octet = lineFeed then ⟨(octet :: front).reverse⟩ :: listFrom [] rest
    else listFrom (octet :: front) rest

def list (content : List UInt8) : List Line := listFrom [] content

def body (line : Line) : List UInt8 := (line.octets.reverse.dropWhile isEnd).reverse

def text (line : Line) : String := String.ofList (Text.Utf8.decodeLossy line.body)

end Line

end LogCensus
