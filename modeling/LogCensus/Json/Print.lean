import LogCensus.Json.Value

/-!
JSON text in pieces, in the order in which a writer hands them on: each bracket, comma, run of
unescaped characters, escape and step of indentation is one piece. The text is their
concatenation.
-/

namespace LogCensus.Json

inductive Style where
  | compact
  /-- Every element and member on a line of its own, two blanks for each level. -/
  | indented
  deriving DecidableEq, Repr

inductive Piece where
  | text (characters : List Char)
  | stop
  deriving DecidableEq, Repr

def hexDigit (value : Nat) : Char :=
  if value < 10 then Char.ofNat (48 + value) else Char.ofNat (87 + value)

def escape? (c : Char) : Option (List Char) :=
  if c = '"' then some ['\\', '"']
  else if c = '\\' then some ['\\', '\\']
  else if c.toNat = 8 then some ['\\', 'b']
  else if c.toNat = 9 then some ['\\', 't']
  else if c.toNat = 10 then some ['\\', 'n']
  else if c.toNat = 12 then some ['\\', 'f']
  else if c.toNat = 13 then some ['\\', 'r']
  else if c.toNat < 32 then
    some ['\\', 'u', '0', '0', hexDigit (c.toNat / 16), hexDigit (c.toNat % 16)]
  else none

def runPiece (run : List Char) : List Piece :=
  if run.isEmpty then [] else [.text run.reverse]

/-- The characters of a string; `run` holds, in reverse, those not yet handed on. -/
def stringPieces (run : List Char) : List Char → List Piece
  | [] => runPiece run
  | c :: rest =>
    match escape? c with
    | some escaped => runPiece run ++ .text escaped :: stringPieces [] rest
    | none => stringPieces (c :: run) rest

def quotedPieces (text : String) : List Piece :=
  .text ['"'] :: stringPieces [] text.toList ++ [.text ['"']]

def lineBreak (opening : List Char) (level : Nat) : List Piece :=
  .text (opening ++ ['\n']) :: List.replicate level (.text [' ', ' '])

def separator (style : Style) (level : Nat) (first : Bool) : List Piece :=
  match style with
  | .compact => if first then [] else [.text [',']]
  | .indented => lineBreak (if first then [] else [',']) level

def closing (style : Style) (level : Nat) (empty : Bool) : List Piece :=
  match style with
  | .compact => []
  | .indented => if empty then [] else lineBreak [] level

def colon : Style → List Char
  | .compact => [':']
  | .indented => [':', ' ']

mutual

def pieces (style : Style) (level : Nat) : Json → List Piece
  | .null => [.text "null".toList]
  | .bool true => [.text "true".toList]
  | .bool false => [.text "false".toList]
  | .number value => [.text value.text]
  | .string text => quotedPieces text
  | .array elements =>
    .text ['['] :: elementPieces style (level + 1) true elements
      ++ closing style level elements.isEmpty ++ [.text [']']]
  | .object members =>
    .text ['{'] :: memberPieces style (level + 1) true members
      ++ closing style level members.isEmpty ++ [.text ['}']]
  | .unwritable => [.stop]

def elementPieces (style : Style) (level : Nat) (first : Bool) : List Json → List Piece
  | [] => []
  | element :: rest =>
    separator style level first ++ pieces style level element
      ++ elementPieces style level false rest

def memberPieces (style : Style) (level : Nat) (first : Bool) :
    List (String × Json) → List Piece
  | [] => []
  | (key, value) :: rest =>
    separator style level first ++ quotedPieces key ++ .text (colon style)
      :: pieces style level value ++ memberPieces style level false rest

end

def textOfPieces? : List Piece → Option (List Char)
  | [] => some []
  | .text characters :: rest => (textOfPieces? rest).map (characters ++ ·)
  | .stop :: _ => none

def text? (style : Style) (value : Json) : Option String :=
  (textOfPieces? (pieces style 0 value)).map String.ofList

end LogCensus.Json
