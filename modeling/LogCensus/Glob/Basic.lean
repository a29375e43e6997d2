import LogCensus.Path

/-!
Patterns for paths, and the texts that they stand for. Texts are octets, not characters: `?` and a
character class stand for one octet each.
-/

namespace LogCensus

inductive Glob.Piece where
  | literal (c : Char)
  /-- `?`, any octet but a slash. -/
  | one
  /-- `*`, octets without a slash. -/
  | many
  /-- `**/` in front: nothing, or anything up to a slash. -/
  | leading
  /-- `/**/` in the middle: a slash, or anything between two of them. -/
  | inner
  /-- `/**` at the end: a slash and anything. -/
  | trailing
  | oneOf (negated : Bool) (ranges : List (Char × Char))
  /-- Alternatives in braces. Without any it stands for nothing at all. -/
  | choice (branches : List (List Piece))

structure Glob where
  pieces : List Glob.Piece

namespace Glob

open LogCensus.Path (slash)

/-- The octets from the first to the last one of a range in a class. A range between characters of
several octets counts by the octets: those of the first character but the last one, the ones from
there to the first one of the second character, and the others of that. -/
def inRange (octet : UInt8) (range : Char × Char) : Bool :=
  let low := Text.Utf8.encodeChar range.1
  if range.1 = range.2 then low.contains octet
  else
    match Text.Utf8.encodeChar range.2 with
    | [] => false
    | high :: rest =>
      low.dropLast.contains octet || rest.contains octet ||
        (low.getLast?.elim false fun last => last ≤ octet && octet ≤ high)

def inClass (negated : Bool) (ranges : List (Char × Char)) (octet : UInt8) : Bool :=
  ranges.any (inRange octet) != negated

/-! What a piece stands for, and what pieces in a row stand for. -/

mutual

inductive Piece.Spans : Piece → List UInt8 → Prop
  | literal (c : Char) : Piece.Spans (.literal c) (Text.Utf8.encodeChar c)
  | one (octet : UInt8) (inside : octet ≠ slash) : Piece.Spans .one [octet]
  | many (text : List UInt8) (inside : slash ∉ text) : Piece.Spans .many text
  | leadingNone : Piece.Spans .leading []
  | leading (text : List UInt8) : Piece.Spans .leading (text ++ [slash])
  | innerNone : Piece.Spans .inner [slash]
  | inner (text : List UInt8) : Piece.Spans .inner (slash :: text ++ [slash])
  | trailing (text : List UInt8) : Piece.Spans .trailing (slash :: text)
  | oneOf (negated : Bool) (ranges : List (Char × Char)) (octet : UInt8)
      (member : inClass negated ranges octet = true) : Piece.Spans (.oneOf negated ranges) [octet]
  | choiceNone : Piece.Spans (.choice []) []
  | choice (branches : List (List Piece)) (branch : List Piece) (member : branch ∈ branches)
      (text : List UInt8) (spanned : SpansInTurn branch text) : Piece.Spans (.choice branches) text

inductive SpansInTurn : List Piece → List UInt8 → Prop
  | none : SpansInTurn [] []
  | more (piece : Piece) (pieces : List Piece) (front rest : List UInt8)
      (spanned : piece.Spans front) (later : SpansInTurn pieces rest) :
      SpansInTurn (piece :: pieces) (front ++ rest)

end

def Spans (glob : Glob) (text : List UInt8) : Prop := SpansInTurn glob.pieces text

end Glob

end LogCensus
