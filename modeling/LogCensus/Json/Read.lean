import LogCensus.Json.Node
import LogCensus.Text.Escaped

/-!
Reading typed values from JSON. A reader walks the tree of a text and stops at the first thing
that is wrong, be it a fault of the text or a value of another type than the wanted one. The same
readers read JSON values, of which no place is known.
-/

namespace LogCensus.Json

structure Issue where
  message : String
  offset : Option Nat := none

/-- Whether nodes stand for a text or for values; a few messages differ. -/
inductive Origin where
  | text
  | value
  deriving DecidableEq

abbrev Reader (α : Type) := Origin → Node → Except Issue α

def Fault.issue (fault : Fault) : Issue := ⟨fault.cause.message, some fault.offset⟩

def Issue.at (issue : Issue) (offset : Nat) : Issue :=
  { issue with offset := some (issue.offset.getD offset) }

def placedAt {α : Type} (offset : Nat) : Except Issue α → Except Issue α
  | .ok value => .ok value
  | .error issue => .error (issue.at offset)

def quoted (name : String) : String := "`" ++ name ++ "`"

def Scalar.describe : Scalar → String
  | null => "null"
  | bool value => "boolean " ++ quoted (if value then "true" else "false")
  | number (.real value) => "floating point " ++ quoted (String.ofList (Number.real value).text)
  | number value => "integer " ++ quoted (String.ofList value.text)
  | string text => "string " ++ Text.escaped text

def wrongType (found expected : String) : String :=
  "invalid type: " ++ found ++ ", expected " ++ expected

def wrongValue (found expected : String) : String :=
  "invalid value: " ++ found ++ ", expected " ++ expected

def wrongLength (length : Nat) (expected : String) : String :=
  "invalid length " ++ Text.ofNat length ++ ", expected " ++ expected

def Node.mismatch (expected : String) : Node → Issue
  | .scalar (.ok content) stop => ⟨wrongType content.describe expected, some stop⟩
  | .scalar (.error fault) _ => fault.issue
  | .array start _ => ⟨wrongType "sequence" expected, some start⟩
  | .object start _ => ⟨wrongType "map" expected, some start⟩
  | .broken faults => faults.wanted.issue

/-- The node at the front of a text, where the text is as wide as the words the value fits. -/
def readWord (name : String) (limit : Nat) : Reader UInt64 := fun _ node =>
  match node with
  | .scalar (.ok (.number (.natural value))) stop =>
    if value.toNat ≤ limit then .ok value
    else .error ⟨wrongValue (Scalar.describe (.number (.natural value))) name, some stop⟩
  | .scalar (.ok (.number (.negative value))) stop =>
    .error ⟨wrongValue (Scalar.describe (.number (.negative value))) name, some stop⟩
  | other => .error (other.mismatch name)

def readCount : Reader UInt64 := readWord "u64" 0xFFFFFFFFFFFFFFFF
def readSize : Reader UInt64 := readWord "usize" 0xFFFFFFFFFFFFFFFF
def readHalfWord : Reader UInt64 := readWord "u32" 0xFFFFFFFF
def readQuarterWord : Reader UInt64 := readWord "u16" 0xFFFF

def readReal : Reader Binary64 := fun _ node =>
  match node with
  | .scalar (.ok (.number (.natural value))) _ => .ok (Binary64.ofWord value)
  | .scalar (.ok (.number (.negative value))) _ => .ok (Binary64.ofInt value)
  | .scalar (.ok (.number (.real value))) _ => .ok value
  | other => .error (other.mismatch "f64")

def readTextAs {α : Type} (expected : String) (convert : String → Except String α) :
    Reader α := fun _ node =>
  match node with
  | .scalar (.ok (.string text)) stop =>
    match convert text with
    | .ok value => .ok value
    | .error message => .error ⟨message, some stop⟩
  | other => .error (other.mismatch expected)

def readText : Reader String := readTextAs "a string" .ok

/-- A string that is made a value of when all of it has been read, so that an issue of the value
belongs to what the string stands in. -/
def readTextThen {α : Type} (convert : String → Except String α) : Reader α := fun origin node =>
  match readText origin node with
  | .error issue => .error issue
  | .ok text =>
    match convert text with
    | .ok value => .ok value
    | .error message => .error ⟨message, none⟩

def readOptional {α : Type} (reader : Reader α) : Reader (Option α) := fun origin node =>
  match node with
  | .scalar (.ok .null) _ => .ok none
  | other => (reader origin other).map some

def readItems {α : Type} (reader : Node → Except Issue α) : Items → Except Issue (List α)
  | .close _ => .ok []
  | .item _ value mark rest =>
    match reader value with
    | .error issue => .error (issue.at mark)
    | .ok value => (readItems reader rest).map (value :: ·)
  | .broken faults => .error faults.wanted.issue

def readList {α : Type} (reader : Reader α) : Reader (List α) := fun origin node =>
  match node with
  | .array _ items => readItems (reader origin) items
  | other => .error (other.mismatch "a sequence")

def readEntries {κ ν : Type} [Key κ] (key : String → Except String κ)
    (reader : Node → Except Issue ν) (known : SortedMap κ ν) :
    Members → Except Issue (SortedMap κ ν)
  | .close _ => .ok known
  | .member name keyStop _ value rest =>
    match name with
    | .error fault => .error fault.issue
    | .ok name =>
      match key name with
      | .error message => .error ⟨message, some keyStop⟩
      | .ok key' =>
        match reader value with
        | .error issue => .error issue
        | .ok value => readEntries key reader (known.insert key' value) rest
  | .broken faults => .error faults.wanted.issue

/-- An object as a map; of two members with one key the later counts. -/
def readMap {κ ν : Type} [Key κ] (key : String → Except String κ) (reader : Reader ν) :
    Reader (SortedMap κ ν) := fun origin node =>
  match node with
  | .object _ members => readEntries key (reader origin) .empty members
  | other => .error (other.mismatch "a map")

/-! ### Choices of names -/

def nameList (names : List String) : String :=
  ", ".intercalate (names.map quoted)

def unknownVariant (name : String) (names : List String) : String :=
  "unknown variant " ++ quoted name ++ ", expected one of " ++ nameList names

def chosen {α : Type} (choices : List (String × α)) (name : String) : Except String α :=
  match choices.lookup name with
  | some value => .ok value
  | none => .error (unknownVariant name (choices.map Prod.fst))

/-- A name as a string, or as the key of an object whose only member is `null`. -/
def readChoice {α : Type} (choices : List (String × α)) : Reader α := fun origin node =>
  match node with
  | .scalar (.ok (.string name)) stop => placedAt stop ((chosen choices name).mapError (⟨·, none⟩))
  | .scalar (.error fault) _ => .error fault.issue
  | .object start (.member (.ok name) keyStop _ value rest) =>
    match chosen choices name with
    | .error message => .error ⟨message, some keyStop⟩
    | .ok choice =>
      match value, rest with
      | .scalar (.ok .null) _, .close _ => .ok choice
      | .scalar (.ok .null) _, _ =>
        .error ⟨if origin = .text then Cause.expectedValue.message
          else wrongValue "map" "map with a single key", some start⟩
      | other, _ => .error (other.mismatch "unit")
  | .object _ (.broken faults) => .error faults.wanted.issue
  | .broken faults => .error faults.wanted.issue
  | .scalar (.ok content) stop =>
    match origin with
    | .value => .error ((Node.scalar (.ok content) stop).mismatch "string or map")
    | .text => .error ⟨Cause.expectedValue.message, some stop⟩
  | .array start items =>
    match origin with
    | .value => .error ((Node.array start items).mismatch "string or map")
    | .text => .error ⟨Cause.expectedValue.message, some (start + 1)⟩
  | .object start _ =>
    match origin with
    | .value => .error ⟨wrongValue "map" "map with a single key", none⟩
    | .text => .error ⟨Cause.expectedValue.message, some (start + 2)⟩

/-! ### Records -/

inductive Presence where
  | required
  /-- It may be missing in an object, but not in an array. -/
  | optional
  | defaulted
  deriving DecidableEq

structure Member (ρ : Type) where
  name : String
  presence : Presence
  read : Origin → Node → ρ → Except Issue ρ

/-- A record: what is read, in which order its members stand in an array, and what is made of
them. -/
structure Record (ρ α : Type) where
  name : String
  members : List (Member ρ)
  blank : ρ
  closed : Bool := false
  /-- Whether the wrong length of an array is told with the right one. -/
  tellsLength : Bool := true
  finish : ρ → Except String α

namespace Record

variable {ρ α : Type}

def unknownMember (spec : Record ρ α) (name : String) : String :=
  "unknown field " ++ quoted name ++ ", expected "
    ++ " or ".intercalate (spec.members.map fun member => quoted member.name)

def missing? (spec : Record ρ α) (seen : List String) : Option String :=
  (spec.members.find? fun member =>
    member.presence == .required && !seen.contains member.name).map Member.name

def readMembers (spec : Record ρ α) (origin : Origin) (seen : List String) (record : ρ) :
    Members → Except Issue (List String × ρ × Nat)
  | .close stop => .ok (seen, record, stop)
  | .broken faults => .error faults.wanted.issue
  | .member key _ mark value rest =>
    match key with
    | .error fault => .error fault.issue
    | .ok key =>
      match spec.members.find? fun member => member.name == key with
      | none =>
        if spec.closed then .error ⟨spec.unknownMember key, some mark⟩
        else
          match value.skip with
          | .error fault => .error fault.issue
          | .ok () => readMembers spec origin seen record rest
      | some member =>
        if seen.contains key then .error ⟨"duplicate field " ++ quoted key, some mark⟩
        else
          match member.read origin value record with
          | .error issue => .error issue
          | .ok record => readMembers spec origin (key :: seen) record rest

def surplus? : Items → Option Fault
  | .close _ => none
  | .item start _ _ _ => some ⟨.trailingCharacters, start + 1⟩
  | .broken faults =>
    match faults.wanted.cause with
    | .expectedListEnd | .endInValue => some { faults.wanted with cause := .trailingCharacters }
    | _ => some faults.wanted

def itemCount : Items → Nat
  | .item _ _ _ rest => itemCount rest + 1
  | _ => 0

def stopOf : Items → Nat
  | .close stop => stop
  | .item _ _ mark _ => mark
  | .broken _ => 0

def expectedLength (spec : Record ρ α) : String :=
  if spec.tellsLength then
    spec.name ++ " with " ++ Text.ofNat spec.members.length
      ++ (if spec.members.length = 1 then " element" else " elements")
  else spec.name

def readElements (spec : Record ρ α) (origin : Origin) :
    (members : List (Member ρ)) → (count : Nat) → ρ → Items → Except Issue (ρ × Items)
  | [], _, record, items => .ok (record, items)
  | member :: members, count, record, .item _ value mark rest =>
    match member.read origin value record with
    | .error issue => .error (issue.at mark)
    | .ok record => readElements spec origin members (count + 1) record rest
  | _ :: _, _, _, .broken faults => .error faults.wanted.issue
  | member :: members, count, record, .close stop =>
    if member.presence == .defaulted then
      readElements spec origin members (count + 1) record (.close stop)
    else .error ⟨wrongLength count spec.expectedLength, some stop⟩

def read (spec : Record ρ α) : Reader α := fun origin node =>
  match node with
  | .object _ members =>
    match spec.readMembers origin [] spec.blank members with
    | .error issue => .error issue
    | .ok (seen, record, stop) =>
      match spec.missing? seen with
      | some name => .error ⟨"missing field " ++ quoted name, some stop⟩
      | none => placedAt stop ((spec.finish record).mapError (⟨·, none⟩))
  | .array _ items =>
    match spec.readElements origin spec.members 0 spec.blank items with
    | .error issue => .error issue
    | .ok (record, left) =>
      match spec.finish record, surplus? left with
      | .error message, _ => .error ⟨message, some (stopOf left)⟩
      | .ok value, none => .ok value
      | .ok _, some fault =>
        match origin with
        | .text => .error fault.issue
        | .value =>
          .error ⟨wrongLength (itemCount items) "fewer elements in array", none⟩
  | other => .error (other.mismatch spec.name)

end Record

/-! ### Whole texts and values -/

def readWhole {α : Type} (reader : Reader α) (text : String) : Except String α :=
  let characters := text.toList
  let (node, trailing) := Node.ofText characters
  match reader .text node, trailing with
  | .error issue, _ =>
    .error (match issue.offset with
      | some offset => located characters issue.message offset
      | none => issue.message)
  | .ok _, some fault => .error (fault.describe characters)
  | .ok value, none => .ok value

mutual

/-- A value as a tree whose places mean nothing. -/
def nodeOf : Json → Node
  | .null | .unwritable => .scalar (.ok .null) 0
  | .bool value => .scalar (.ok (.bool value)) 0
  | .number value => .scalar (.ok (.number value)) 0
  | .string text => .scalar (.ok (.string text)) 0
  | .array elements => .array 0 (itemsOf elements)
  | .object members => .object 0 (membersOf members)

def itemsOf : List Json → Items
  | [] => .close 0
  | element :: rest => .item 0 (nodeOf element) 0 (itemsOf rest)

def membersOf : List (String × Json) → Members
  | [] => .close 0
  | (key, value) :: rest => .member (.ok key) 0 0 (nodeOf value) (membersOf rest)

end

def readValue {α : Type} (reader : Reader α) (json : Json) : Except String α :=
  (reader .value (nodeOf json)).mapError Issue.message

end LogCensus.Json
