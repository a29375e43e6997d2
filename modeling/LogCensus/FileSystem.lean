import LogCensus.FileTree

/-!
A tree of files and the directory that relative paths start from. Paths are followed piece by
piece; symbolic links on the way are followed too, but only so many of them.
-/

namespace LogCensus

inductive AccessFault where
  | missing
  | notDirectory
  | isDirectory
  | nameTooLong
  | tooManyLinks
  | zeroOctet
  deriving DecidableEq, Repr

def AccessFault.message : AccessFault → String
  | missing => "No such file or directory (os error 2)"
  | notDirectory => "Not a directory (os error 20)"
  | isDirectory => "Is a directory (os error 21)"
  | nameTooLong => "File name too long (os error 36)"
  | tooManyLinks => "Too many levels of symbolic links (os error 40)"
  | zeroOctet => "file name contained an unexpected NUL byte"

/-- The current directory need not be in the tree: it may have been removed. Then it is empty. -/
structure FileSystem where
  tree : FileTree
  current : Location

namespace FileSystem

def linkLimit : Nat := 40

inductive Goal where
  | place (location : Location)
  /-- The directory holds nothing of that name; beyond it there are more pieces. -/
  | gap (parent : Location) (name : List UInt8) (beyond : List (List UInt8))

inductive Leg where
  | goal (goal : Goal)
  | link (parent : Location) (target : Path) (beyond : List (List UInt8))
  | fault (fault : AccessFault)

def leg (tree : FileTree) (here : Location) : List (List UInt8) → Leg
  | [] => .goal (.place here)
  | piece :: rest =>
    if tree.isFile here then .fault .notDirectory
    else if piece = [] ∨ piece = [Path.dot] then leg tree here rest
    else if piece = [Path.dot, Path.dot] then leg tree here.dropLast rest
    else if nameLimit < piece.length then .fault .nameTooLong
    else
      match tree.node? (here ++ [piece]) with
      | none => .goal (.gap here piece rest)
      | some (.link target) => .link here target rest
      | some _ => leg tree (here ++ [piece]) rest

def follow (tree : FileTree) : Nat → Location → List (List UInt8) → Except AccessFault Goal
  | links, here, pieces =>
    match leg tree here pieces, links with
    | .goal goal, _ => .ok goal
    | .fault fault, _ => .error fault
    | .link _ _ _, 0 => .error .tooManyLinks
    | .link parent target beyond, links + 1 =>
      follow tree links (if target.isAbsolute then [] else parent)
        (Path.pieces target.octets ++ beyond)

def goal (files : FileSystem) (path : Path) (pieces : List (List UInt8)) :
    Except AccessFault Goal :=
  if path.octets.contains 0 then .error .zeroOctet
  else if path.octets.isEmpty then .error .missing
  else if pathLimit ≤ path.octets.length then .error .nameTooLong
  else follow files.tree linkLimit (if path.isAbsolute then [] else files.current) pieces

def locate (files : FileSystem) (path : Path) : Except AccessFault Location :=
  match files.goal path (Path.pieces path.octets) with
  | .ok (.place location) => .ok location
  | .ok (.gap _ _ _) => .error .missing
  | .error fault => .error fault

def isFile (files : FileSystem) (path : Path) : Bool :=
  match files.locate path with
  | .ok location => files.tree.isFile location
  | .error _ => false

def isDirectory (files : FileSystem) (path : Path) : Bool :=
  match files.locate path with
  | .ok location => !files.tree.isFile location
  | .error _ => false

def contentAt (files : FileSystem) (location : Location) : Except AccessFault (List UInt8) :=
  match files.tree.node? location with
  | some (.file content) => .ok content
  | _ => .error .isDirectory

/-- The location of the file that is written under a path, whether there has been one or not. -/
def writable (files : FileSystem) (path : Path) : Except AccessFault Location :=
  let pieces := Path.pieces path.octets
  let ended := pieces.getLast? = some []
  let pieces := (pieces.reverse.dropWhile List.isEmpty).reverse
  match files.goal path pieces with
  | .ok (.place location) =>
    if ended ∨ !files.tree.isFile location then .error .isDirectory else .ok location
  | .ok (.gap parent name []) =>
    if ended then .error .isDirectory
    else if IsShort (parent ++ [name]) then .ok (parent ++ [name])
    else .error .nameTooLong
  | .ok (.gap _ _ _) => .error .missing
  | .error fault => .error fault

def write (files : FileSystem) (location : Location) (content : List UInt8) : FileSystem :=
  { files with tree := (files.tree.place? location (.file content)).getD files.tree }

def current? (files : FileSystem) : Option Location :=
  if files.tree.node? files.current = some .directory then some files.current else none

end FileSystem

end LogCensus
