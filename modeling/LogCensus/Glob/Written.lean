import LogCensus.Glob.Basic

/-!
The written form of patterns: `?`, `*`, `**`, classes in brackets, alternatives in braces, and a
backslash before a character that stands for itself. `**` spans directories only where it stands
between slashes, or at an end; elsewhere it is two single stars.
-/

namespace LogCensus.Glob

inductive Fault where
  | unclosedClass
  | emptyRange (low high : Char)
  | unopenedChoice
  | unclosedChoice
  | danglingEscape
  deriving DecidableEq, Repr

def Fault.message : Fault → String
  | unclosedClass => "unclosed character class; missing ']'"
  | emptyRange low high =>
    "invalid range; '" ++ low.toString ++ "' > '" ++ high.toString ++ "'"
  | unopenedChoice =>
    "unopened alternate group; missing '\x7b' (maybe escape '\x7d' with '[\x7d]'?)"
  | unclosedChoice =>
    "unclosed alternate group; missing '\x7d' (maybe escape '\x7b' with '[\x7b]'?)"
  | danglingEscape => "dangling '\\'"

/-- Braces that are open: the pieces in front of them, and the alternatives read so far, both with
the newest first. -/
structure Frame where
  front : List Piece
  branches : List (List Piece)

/-- The pieces of the alternative at hand, newest first, and the braces around it, innermost
first. -/
structure Draft where
  here : List Piece := []
  around : List Frame := []

namespace Draft

def push (draft : Draft) (piece : Piece) : Draft := { draft with here := piece :: draft.here }

def pushStars (draft : Draft) : Draft := (draft.push .many).push .many

def openBrace (draft : Draft) : Draft := { here := [], around := ⟨draft.here, []⟩ :: draft.around }

def comma (draft : Draft) : Draft :=
  match draft.around with
  | [] => draft.push (.literal ',')
  | frame :: around =>
    { here := [], around := { frame with branches := draft.here :: frame.branches } :: around }

def isVoid : Piece → Bool
  | .choice [] => true
  | _ => false

/-- Alternatives, newest first and with their pieces newest first, as one piece. Those that can
only stand for nothing at all are left out. -/
def choiceOf (branches : List (List Piece)) : Piece :=
  .choice ((branches.filter fun branch => !branch.all isVoid).map List.reverse).reverse

def closeBrace (draft : Draft) : Except Fault Draft :=
  match draft.around with
  | [] => .error .unopenedChoice
  | frame :: around =>
    .ok { here := choiceOf (draft.here :: frame.branches) :: frame.front, around }

def finish (draft : Draft) : Except Fault Glob :=
  match draft.around with
  | [] => .ok ⟨draft.here.reverse⟩
  | _ :: _ => .error .unclosedChoice

def spanning (piece : Piece) : List Piece → List Piece
  | [] => [piece]
  | .leading :: front => .leading :: front
  | .trailing :: front => .trailing :: front
  | _ :: front => piece :: front

/-- The draft with a double star that spans directories, if the one between the characters
`previous` and `next` does. Together with it a slash that follows is read. -/
def pushSpanning? (draft : Draft) (previous next : Option Char) : Option Draft :=
  let inBraces := !draft.around.isEmpty
  if draft.here.isEmpty then
    if next = none ∨ next = some '/' then some (draft.push .leading) else none
  else if previous = some '/' ∨ inBraces ∧ (previous = some ',' ∨ previous = some '\x7b') then
    if next = some '/' then some { draft with here := spanning .inner draft.here }
    else if next = none ∨ inBraces ∧ (next = some ',' ∨ next = some '\x7d') then
      some { draft with here := spanning .trailing draft.here }
    else none
  else none

end Draft

/-- A class that is being read: its ranges, newest first, and whether a `-` waits for the other
end of the newest one. -/
structure ClassDraft where
  negated : Bool
  ranges : List (Char × Char) := []
  waiting : Bool := false

namespace ClassDraft

def single (draft : ClassDraft) (c : Char) : ClassDraft :=
  { draft with ranges := (c, c) :: draft.ranges, waiting := false }

def take (draft : ClassDraft) (c : Char) : Except Fault ClassDraft :=
  match draft.waiting, draft.ranges with
  | true, (low, _) :: ranges =>
    if c < low then .error (.emptyRange low c)
    else .ok { draft with ranges := (low, c) :: ranges, waiting := false }
  | _, _ => .ok (draft.single c)

def finish (draft : ClassDraft) : Piece :=
  .oneOf draft.negated (if draft.waiting then draft.single '-' else draft).ranges.reverse

end ClassDraft

/-! `readFrom` reads the rest of a pattern behind the character `previous`, `readClass` the rest of
a pattern inside of a class. -/

mutual

def readFrom (previous : Option Char) (draft : Draft) : List Char → Except Fault Glob
  | [] => draft.finish
  | '?' :: rest => readFrom (some '?') (draft.push .one) rest
  | '*' :: '*' :: '/' :: rest =>
    match draft.pushSpanning? previous (some '/') with
    | some draft => readFrom (some '/') draft rest
    | none => readFrom (some '/') (draft.pushStars.push (.literal '/')) rest
  | '*' :: '*' :: rest =>
    readFrom (some '*') ((draft.pushSpanning? previous rest.head?).getD draft.pushStars) rest
  | '*' :: rest => readFrom (some '*') (draft.push .many) rest
  | '[' :: '!' :: rest => readClass draft { negated := true } rest
  | '[' :: '^' :: rest => readClass draft { negated := true } rest
  | '[' :: rest => readClass draft { negated := false } rest
  | '\x7b' :: rest => readFrom (some '\x7b') draft.openBrace rest
  | '\x7d' :: rest =>
    match draft.closeBrace with
    | .ok draft => readFrom (some '\x7d') draft rest
    | .error fault => .error fault
  | ',' :: rest => readFrom (some ',') draft.comma rest
  | ['\\'] => .error .danglingEscape
  | '\\' :: c :: rest => readFrom (some c) (draft.push (.literal c)) rest
  | c :: rest => readFrom (some c) (draft.push (.literal c)) rest

def readClass (outside : Draft) (draft : ClassDraft) : List Char → Except Fault Glob
  | [] => .error .unclosedClass
  | c :: rest =>
    if draft.ranges.isEmpty then readClass outside (draft.single c) rest
    else if c = ']' then readFrom (some ']') (outside.push draft.finish) rest
    else if c = '-' ∧ !draft.waiting then readClass outside { draft with waiting := true } rest
    else
      match draft.take c with
      | .ok draft => readClass outside draft rest
      | .error fault => .error fault

end

def ofText (text : List Char) : Except Fault Glob := readFrom none {} text

end LogCensus.Glob
