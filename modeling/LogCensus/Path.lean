import LogCensus.Text.Utf8

/-!
File paths as octets. Paths are the same, and ordered, by their components: repeated slashes and
inner `.` components do not count.
-/

namespace LogCensus

structure Path where
  octets : List UInt8
  deriving DecidableEq, Inhabited

namespace Path

def ofString (text : String) : Path := ⟨Text.Utf8.encodeString text⟩

/-- The path for readers: what is no UTF-8 shows as U+FFFD. -/
def display (path : Path) : String := String.ofList (Text.Utf8.decodeLossy path.octets)

def text? (path : Path) : Option String := (Text.Utf8.decode? path.octets).map String.ofList

/-- One step of a path. `here` stands only in front. -/
inductive Component where
  | root
  | here
  | parent
  | name (octets : List UInt8)
  deriving DecidableEq

def slash : UInt8 := 47
def dot : UInt8 := 46

def pieces : List UInt8 → List (List UInt8)
  | [] => [[]]
  | octet :: rest =>
    if octet = slash then [] :: pieces rest
    else
      match pieces rest with
      | [] => [[octet]]
      | piece :: more => (octet :: piece) :: more

def componentOf? (piece : List UInt8) : Option Component :=
  if piece = [] ∨ piece = [dot] then none
  else if piece = [dot, dot] then some .parent
  else some (.name piece)

def isAbsolute (path : Path) : Bool := path.octets.head? == some slash

def components (path : Path) : List Component :=
  let parts := pieces path.octets
  let inner := parts.filterMap componentOf?
  if path.isAbsolute then .root :: inner
  else if parts.head? = some [dot] then .here :: inner
  else inner

/-- The same path up to repeated slashes and inner `.` components. -/
def same (one other : Path) : Bool := one.components == other.components

namespace Component

def rank : Component → Nat
  | root => 0
  | here => 1
  | parent => 2
  | name _ => 3

def octets : Component → List UInt8
  | name octets => octets
  | _ => []

end Component

def compareOctets : List UInt8 → List UInt8 → Ordering
  | [], [] => .eq
  | [], _ :: _ => .lt
  | _ :: _, [] => .gt
  | a :: as, b :: bs => (compare a.toNat b.toNat).then (compareOctets as bs)

def Component.compare (one other : Component) : Ordering :=
  (Ord.compare one.rank other.rank).then (compareOctets one.octets other.octets)

def compareComponents : List Component → List Component → Ordering
  | [], [] => .eq
  | [], _ :: _ => .lt
  | _ :: _, [] => .gt
  | a :: as, b :: bs => (a.compare b).then (compareComponents as bs)

def order (one other : Path) : Ordering := compareComponents one.components other.components

def atMost (one other : Path) : Bool := one.order other != .gt

end Path

end LogCensus
