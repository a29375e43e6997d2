import LogCensus.Glob.Basic

/-!
Whether a pattern stands for a text. Each piece maps the places that the pieces before it may have
reached to the places that it may reach; a place is the text that is left.
-/

namespace LogCensus.Glob

open LogCensus.Path (slash)

def beyondMany : List UInt8 → List (List UInt8)
  | [] => [[]]
  | octet :: rest => (octet :: rest) :: if octet = slash then [] else beyondMany rest

def behindSlashes : List UInt8 → List (List UInt8)
  | [] => []
  | octet :: rest => if octet = slash then rest :: behindSlashes rest else behindSlashes rest

def places : List UInt8 → List (List UInt8)
  | [] => [[]]
  | octet :: rest => (octet :: rest) :: places rest

def behindOctet (wanted : UInt8 → Bool) : List UInt8 → List (List UInt8)
  | [] => []
  | octet :: rest => if wanted octet then [rest] else []

def behindText : List UInt8 → List UInt8 → List (List UInt8)
  | [], text => [text]
  | _ :: _, [] => []
  | wanted :: more, octet :: rest => if octet = wanted then behindText more rest else []

mutual

def Piece.reach : Piece → List UInt8 → List (List UInt8)
  | .literal c, text => behindText (Text.Utf8.encodeChar c) text
  | .one, text => behindOctet (· != slash) text
  | .many, text => beyondMany text
  | .leading, text => text :: behindSlashes text
  | .inner, text => if text.head? = some slash then behindSlashes text else []
  | .trailing, text => (behindOctet (· == slash) text).flatMap places
  | .oneOf negated ranges, text => behindOctet (inClass negated ranges) text
  | .choice branches, text => if branches.isEmpty then [text] else reachAny branches text

def reachInTurn : List Piece → List (List UInt8) → List (List UInt8)
  | [], texts => texts
  | piece :: pieces, texts => reachInTurn pieces (texts.flatMap piece.reach).eraseDups

def reachAny : List (List Piece) → List UInt8 → List (List UInt8)
  | [], _ => []
  | branch :: branches, text => reachInTurn branch [text] ++ reachAny branches text

end

def covers (glob : Glob) (text : List UInt8) : Bool := (reachInTurn glob.pieces [text]).contains []

end LogCensus.Glob
