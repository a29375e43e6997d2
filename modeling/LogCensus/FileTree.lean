import LogCensus.Path
import LogCensus.SortedMap

/-!
Trees of files. A location is the way from the root, name by name; whatever the tree holds at a
location lies in a directory that the tree holds as well. Names and paths are as short as a system
takes them: beyond that no path leads to anything.
-/

namespace LogCensus

/-- The names on the way from the root, without a symbolic link among them. -/
abbrev Location := List (List UInt8)

instance : Key Location where

def Location.octets (location : Location) : List UInt8 :=
  match location with
  | [] => [Path.slash]
  | name :: rest => (name :: rest).flatMap (Path.slash :: ·)

def Location.path (location : Location) : Path := ⟨Location.octets location⟩

namespace FileSystem

def nameLimit : Nat := 255

/-- One more than the greatest number of octets in a path. -/
def pathLimit : Nat := 4096

def IsShort (location : Location) : Prop :=
  (∀ name ∈ location, name.length ≤ nameLimit) ∧ (Location.octets location).length < pathLimit

instance (location : Location) : Decidable (IsShort location) :=
  @instDecidableAnd _ _ (List.decidableBAll _ location) (Nat.decLt _ _)

end FileSystem

namespace FileTree

inductive Node where
  | directory
  | file (content : List UInt8)
  | link (target : Path)
  deriving DecidableEq

def isName (name : List UInt8) : Bool :=
  !name.isEmpty && name != [Path.dot] && name != [Path.dot, Path.dot] && !name.contains Path.slash
    && !name.contains 0

end FileTree

structure FileTree where
  nodes : SortedMap Location FileTree.Node
  root_directory : nodes.get? [] = some .directory
  parent_directory : ∀ (parent : Location) (name : List UInt8) (node : FileTree.Node),
    nodes.get? (parent ++ [name]) = some node → nodes.get? parent = some .directory
  names : ∀ (parent : Location) (name : List UInt8) (node : FileTree.Node),
    nodes.get? (parent ++ [name]) = some node → FileTree.isName name = true
  short : ∀ (location : Location) (node : FileTree.Node),
    nodes.get? location = some node → FileSystem.IsShort location

namespace FileTree

def bare : FileTree where
  nodes := SortedMap.empty.insert [] .directory
  root_directory := SortedMap.get?_insert_self ..
  parent_directory parent name node found := by
    rw [SortedMap.get?_insert_of_ne _ (by simp)] at found
    cases found
  names parent name node found := by
    rw [SortedMap.get?_insert_of_ne _ (by simp)] at found
    cases found
  short location node found := by
    by_cases root : location = []
    · exact root ▸ by decide
    · rw [SortedMap.get?_insert_of_ne _ root] at found
      cases found

instance : Inhabited FileTree := ⟨bare⟩

def node? (tree : FileTree) (location : Location) : Option Node := tree.nodes.get? location

def isFile (tree : FileTree) (location : Location) : Bool :=
  match tree.node? location with
  | some (.file _) => true
  | _ => false

/-- The tree with something put into a directory, in place of what had that name; a directory
stays where it is. -/
def put? (tree : FileTree) (parent : Location) (name : List UInt8) (node : Node) :
    Option FileTree :=
  if valid : (isName name = true ∧ FileSystem.IsShort (parent ++ [name])) ∧
      tree.nodes.get? parent = some .directory ∧
      tree.nodes.get? (parent ++ [name]) ≠ some .directory then
    some {
      nodes := tree.nodes.insert (parent ++ [name]) node
      root_directory := by
        rw [SortedMap.get?_insert_of_ne _ (by simp)]
        exact tree.root_directory
      parent_directory := fun upper lower found held => by
        have inside : tree.nodes.get? upper = some .directory := by
          by_cases same : upper ++ [lower] = parent ++ [name]
          · rw [(List.append_inj' same rfl).1]
            exact valid.2.1
          · rw [SortedMap.get?_insert_of_ne _ same] at held
            exact tree.parent_directory upper lower found held
        have differ : upper ≠ parent ++ [name] := fun same => valid.2.2 (same ▸ inside)
        rw [SortedMap.get?_insert_of_ne _ differ]
        exact inside
      names := fun upper lower found held => by
        by_cases same : upper ++ [lower] = parent ++ [name]
        · have names := (List.append_inj' same rfl).2
          rw [List.cons.inj names |>.1]
          exact valid.1.1
        · rw [SortedMap.get?_insert_of_ne _ same] at held
          exact tree.names upper lower found held
      short := fun location found held => by
        by_cases same : location = parent ++ [name]
        · exact same ▸ valid.1.2
        · rw [SortedMap.get?_insert_of_ne _ same] at held
          exact tree.short location found held }
  else none

def withDirectories? (tree : FileTree) (front : Location) : Location → Option FileTree
  | [] => some tree
  | name :: rest =>
    match tree.node? (front ++ [name]) with
    | some .directory => tree.withDirectories? (front ++ [name]) rest
    | some _ => none
    | none =>
      (tree.put? front name .directory).bind fun tree =>
        tree.withDirectories? (front ++ [name]) rest

def place? (tree : FileTree) (location : Location) (node : Node) : Option FileTree :=
  match location.getLast? with
  | none => none
  | some name =>
    (tree.withDirectories? [] location.dropLast).bind fun tree =>
      tree.put? location.dropLast name node

def below? : Location → Location → Option Location
  | [], location => some location
  | _ :: _, [] => none
  | name :: base, other :: rest => if name = other then below? base rest else none

/-- The files below a directory, as ways from there, at most so many names long as `depth` says.
Links count neither as files nor as directories. -/
def filesBelow (tree : FileTree) (base : Location) (depth : Option Nat) : List Location :=
  tree.nodes.toList.filterMap fun (location, node) =>
    match node, below? base location with
    | .file _, some way => if depth.all (way.length ≤ ·) then some way else none
    | _, _ => none

end FileTree

end LogCensus
