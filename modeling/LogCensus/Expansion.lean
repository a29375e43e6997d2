import LogCensus.FileSystem
import LogCensus.Glob.Match
import LogCensus.Glob.Written
import LogCensus.Text.Blank

/-!
The files that patterns name. A pattern without a wildcard names one file; any other one names the
files below its literal front whose paths it stands for. Relative patterns start at the current
directory.
-/

namespace LogCensus

inductive ExpansionFault where
  | noCurrentDirectory
  | invalidPattern (pattern : String) (fault : Glob.Fault)

def ExpansionFault.message : ExpansionFault → String
  | noCurrentDirectory => "I/O error at .: " ++ AccessFault.missing.message
  | invalidPattern pattern fault =>
    "Invalid pattern '" ++ pattern ++ "': " ++ fault.message

namespace Expansion

def wildcards : List UInt8 := [42, 63, 91, 123]

def hasWildcard (octets : List UInt8) : Bool := octets.any wildcards.contains

def hasDoubleStar : List UInt8 → Bool
  | [] => false
  | [_] => false
  | a :: b :: rest => (a == 42 && b == 42) || hasDoubleStar (b :: rest)

/-- The steps of a pattern from the root; those of a relative one start at the current directory. -/
def steps (current : Location) (pattern : List UInt8) : List (List UInt8) :=
  let own := (Path.pieces pattern).filter fun piece => piece != [] && piece != [Path.dot]
  if pattern.head? = some Path.slash then own else current ++ own

def literalFront (steps : List (List UInt8)) : List (List UInt8) :=
  steps.takeWhile fun step => !hasWildcard step

/-- The number of steps behind the literal front, unless a double star may stand for any number. -/
def depth (steps : List (List UInt8)) : Option Nat :=
  let rest := steps.dropWhile fun step => !hasWildcard step
  if rest.any hasDoubleStar then none else some rest.length

def matching (files : FileSystem) (steps : List (List UInt8)) (glob : Glob) : List Location :=
  let front := literalFront steps
  match files.locate (Location.path front) with
  | .error _ => []
  | .ok base =>
    if files.tree.isFile base then []
    else
      ((files.tree.filesBelow base (depth steps)).filter fun way =>
        glob.covers (Location.octets (front ++ way))).map (base ++ ·)

def named (files : FileSystem) (steps : List (List UInt8)) : List Location :=
  match files.locate (Location.path steps) with
  | .ok location => if files.tree.isFile location then [location] else []
  | .error _ => []

def ofPattern (files : FileSystem) (current : Location) (pattern : String) :
    Except ExpansionFault (List Location) :=
  let trimmed := Text.trim pattern.toList
  if trimmed.isEmpty then .ok []
  else
    let octets := Text.Utf8.encode trimmed
    let steps := steps current octets
    if hasWildcard octets then
      match Glob.ofText (Text.Utf8.decodeLossy (Location.octets steps)) with
      | .ok glob => .ok (matching files steps glob)
      | .error fault => .error (.invalidPattern (String.ofList trimmed) fault)
    else .ok (named files steps)

end Expansion

def FileSystem.expand (files : FileSystem) (patterns : List String) :
    Except ExpansionFault (List Location) :=
  match files.current? with
  | none => .error .noCurrentDirectory
  | some current => do
    let found ← patterns.mapM (Expansion.ofPattern files current)
    let set : SortedMap Location Unit :=
      found.flatten.foldl (fun set location => set.insert location ()) ∅
    .ok set.keys

end LogCensus
