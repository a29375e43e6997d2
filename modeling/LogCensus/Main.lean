import LogCensus.CommandLine.Run
import Std.Time.DateTime.Timestamp

/-!
The program. It looks at the files that its arguments can reach, leaves all decisions to the
library, and says and writes what comes of them.
-/

namespace LogCensus.Main

def octetsOf (text : String) : List UInt8 := Text.Utf8.encodeString text

def textOf (location : Location) : String := location.path.display

def stepsOf (text : String) : Location := Expansion.steps [] (octetsOf text)

def placed (tree : FileTree) (location : Location) (node : FileTree.Node) : FileTree :=
  (tree.place? location node).getD tree

/-- What stands under a name in a directory, a link itself rather than where it leads. -/
def kindOf? (parent : Location) (name : List UInt8) : IO (Option IO.FS.FileType) := do
  try
    let directory ← IO.FS.realPath (textOf parent)
    let entry : IO.FS.DirEntry := { root := directory, fileName := (Path.mk name).display }
    return some (← entry.path.symlinkMetadata).type
  catch _ => return none

partial def lookAlong (tree : FileTree) (here : Location) :
    List (List UInt8) → IO (FileTree × Option Location)
  | [] => return (tree, some here)
  | name :: rest => do
    if name == [Path.dot, Path.dot] then lookAlong tree here.dropLast rest
    else
      match ← kindOf? here name with
      | some .dir => lookAlong (placed tree (here ++ [name]) .directory) (here ++ [name]) rest
      | some .file => return (placed tree (here ++ [name]) (.file []), none)
      | some .symlink =>
        try
          let target := (← IO.FS.realPath (textOf (here ++ [name]))).toString
          let tree := placed tree (here ++ [name]) (.link (Path.ofString target))
          lookAlong tree [] (stepsOf target ++ rest)
        catch _ => return (tree, none)
      | _ => return (tree, none)

partial def lookBelow (tree : FileTree) (here : Location) (depth : Option Nat) : IO FileTree := do
  if depth == some 0 then return tree
  try
    let mut seen := tree
    for entry in ← (← IO.FS.realPath (textOf here)).readDir do
      let location := here ++ [octetsOf entry.fileName]
      match ← kindOf? here (octetsOf entry.fileName) with
      | some .dir =>
        seen ← lookBelow (placed seen location .directory) location (depth.map (· - 1))
      | some .file => seen := placed seen location (.file [])
      | _ => pure ()
    return seen
  catch _ => return tree

def lookFor (current : Location) (tree : FileTree) (pattern : String) : IO FileTree := do
  let octets := octetsOf (Text.trimmed pattern)
  let steps := Expansion.steps current octets
  if Expansion.hasWildcard octets then
    let (tree, reached) ← lookAlong tree [] (Expansion.literalFront steps)
    match reached with
    | some base => lookBelow tree base (Expansion.depth steps)
    | none => return tree
  else return (← lookAlong tree [] steps).1

def filled (files : FileSystem) (patterns : List String) : IO FileSystem := do
  let mut full := files
  for location in (files.expand patterns).toOption.getD [] do
    try
      full := full.write location (← IO.FS.readBinFile (textOf location)).toList
    catch _ => pure ()
  return full

/-- The current directory; a place that is in no tree if it has been removed. -/
def current : IO Location := do
  try return stepsOf (← IO.currentDir).toString
  catch _ => return [[]]

def filesFor (request : CommandLine.Request) : IO FileSystem := do
  let current ← current
  let mut tree := (← lookAlong .bare [] current).1
  for pattern in request.patterns do
    tree ← lookFor current tree pattern
  match request.output with
  | some output => tree := (← lookAlong tree [] (Expansion.steps current (octetsOf output))).1
  | none => pure ()
  filled { tree, current } request.patterns

def zone : IO Time.Zone := do
  return (← IO.getEnv "TZ").elim .utc Time.Zone.ofRule

def now : IO Time.Instant := do
  let nanos := (← Std.Time.Timestamp.now).toNanosecondsSinceUnixEpoch.val
  return (Time.Instant.ofParts? (nanos / 1000000000) (nanos % 1000000000).toNat).getD .epoch

def duration (nanos : Nat) : Time.Duration := (Time.Duration.ofParts? 0 nanos).getD .none

def analyze (request : CommandLine.Request) : IO CommandLine.Conclusion := do
  let here : CommandLine.Surroundings := { files := ← filesFor request, zone := ← zone }
  let started ← now
  let begun ← IO.monoNanosNow
  match ← IO.lazyPure fun _ => CommandLine.find here request with
  | .error conclusion => return conclusion
  | .ok findings =>
    let elapsed := duration ((← IO.monoNanosNow) - begun)
    return findings.conclude here.files { started, finished := ← now, elapsed }

def conclude (arguments : List String) : IO CommandLine.Conclusion := do
  match CommandLine.read arguments with
  | .ok (.analyze request) => analyze request
  | .ok command =>
    return command.run { files := { tree := .bare, current := [] } } {}
  | .error fault => return CommandLine.misused fault

def complain (causes : List String) : IO Unit := do
  IO.eprintln "Error:"
  for (cause, index) in causes.zipIdx do
    IO.eprintln ("   " ++ Text.ofNat index ++ ": " ++ cause)

def say (conclusion : CommandLine.Conclusion) : IO Unit := do
  for notice in conclusion.notices do
    IO.eprintln notice
  match conclusion.misuse with
  | some fault => IO.eprint fault.text
  | none => if !conclusion.causes.isEmpty then complain conclusion.causes
  (← IO.getStdout).write ⟨conclusion.out.toArray⟩

def settle (conclusion : CommandLine.Conclusion) : IO CommandLine.Conclusion := do
  match conclusion.written with
  | none => return conclusion
  | some (location, content) =>
    try
      IO.FS.writeBinFile (textOf location) ⟨content.toArray⟩
      return conclusion
    catch error =>
      return CommandLine.failed (conclusion.notices.take 1)
        ["Cannot create " ++ textOf location, toString error]

end LogCensus.Main

def main (arguments : List String) : IO UInt32 := do
  let conclusion ← LogCensus.Main.settle (← LogCensus.Main.conclude arguments)
  LogCensus.Main.say conclusion
  return conclusion.code.toUInt32
