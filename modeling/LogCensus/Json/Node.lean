import LogCensus.Json.Scalar
import LogCensus.SortedMap

/-!
A JSON text as a tree of what stands where. Reading a text to a tree never fails: the place where
the text stops making sense is a node of the tree, and a scalar that has an end but no value
carries the fault instead. Whoever walks the tree meets the faults in the order of the text and
can stop at what matters to them: `Node.value` wants every value, `Node.skip` only the end.
-/

namespace LogCensus.Json

inductive Scalar where
  | null
  | bool (value : Bool)
  | number (value : Number)
  | string (text : String)

/-- The fault met by a reader that wants the value, and the one met by a reader that skips it. -/
structure Faults where
  wanted : Fault
  skipped : Fault

def Faults.same (fault : Fault) : Faults := ⟨fault, fault⟩

mutual

inductive Node where
  | scalar (content : Except Fault Scalar) (stop : Nat)
  | array (start : Nat) (items : Items)
  | object (start : Nat) (members : Members)
  | broken (faults : Faults)

inductive Items where
  | close (stop : Nat)
  /-- An element at octet `start`; `mark` is the octet reached when the array is left behind it. -/
  | item (start : Nat) (value : Node) (mark : Nat) (rest : Items)
  | broken (faults : Faults)

inductive Members where
  | close (stop : Nat)
  | member (key : Except Fault String) (keyStop mark : Nat) (value : Node) (rest : Members)
  | broken (faults : Faults)

end

/-- A node, and the cursor behind it unless the text is broken there. -/
abbrev Parsed (α : Type) := α × Option Cursor

def takeWord : (letters : List Char) → (scalar : Scalar) → Cursor → Parsed Node
  | [], scalar, cursor => (.scalar (.ok scalar) cursor.offset, some cursor)
  | letter :: letters, scalar, cursor =>
    match cursor.ahead with
    | [] => (.broken (.same (cursor.faultHere .endInValue)), none)
    | c :: _ =>
      if c = letter then takeWord letters scalar cursor.next
      else (.broken (.same ⟨.expectedIdent, cursor.offset + 1⟩), none)

def takeString (cursor : Cursor) : Except Faults (Except Fault String × Cursor) :=
  let inside := cursor.next
  match readString inside.ahead inside.offset with
  | .ok (text, behind) => .ok (.ok (String.ofList text), behind)
  | .error wanted =>
    match skipString inside.ahead inside.offset with
    | .ok behind => .ok (.error wanted, behind)
    | .error skipped => .error ⟨wanted, skipped⟩

def stringNode (cursor : Cursor) : Parsed Node :=
  match takeString cursor with
  | .ok (text, behind) => (.scalar (text.map .string) behind.offset, some behind)
  | .error faults => (.broken faults, none)

def numberNode (cursor : Cursor) : Parsed Node :=
  match takeNumber cursor with
  | (negative, .ok lexeme) =>
    (.scalar ((lexeme.value negative).map .number) lexeme.stop.offset, some lexeme.stop)
  | (_, .error lack) => (.broken ⟨lack.strict, lack.lenient⟩, none)

def Items.markAt (cursor : Cursor) : Nat :=
  let reached := cursor.skipSpace
  match reached.ahead with
  | ']' :: _ => reached.offset + 1
  | ',' :: _ => reached.next.skipSpace.offset
  | _ => reached.offset

def Members.markAt (cursor : Cursor) : Nat :=
  let reached := cursor.skipSpace
  match reached.ahead with
  | '}' :: _ => reached.offset + 1
  | _ => reached.offset

mutual

/-- The value at a cursor, blanks in front ignored. Each call costs one unit of fuel. -/
def parseNode : (fuel : Nat) → Cursor → Parsed Node
  | 0, cursor => (.broken (.same (cursor.faultAhead .tooDeep)), none)
  | fuel + 1, cursor =>
    let cursor := cursor.skipSpace
    match cursor.ahead with
    | [] => (.broken (.same (cursor.faultAhead .endInValue)), none)
    | 'n' :: _ => takeWord "ull".toList .null cursor.next
    | 't' :: _ => takeWord "rue".toList (.bool true) cursor.next
    | 'f' :: _ => takeWord "alse".toList (.bool false) cursor.next
    | '"' :: _ => stringNode cursor
    | '[' :: _ =>
      let (items, behind) := parseItems fuel true cursor.next
      (.array cursor.offset items, behind)
    | '{' :: _ =>
      let (members, behind) := parseMembers fuel true cursor.next
      (.object cursor.offset members, behind)
    | c :: _ =>
      if c = '-' ∨ Text.isDigit c then numberNode cursor
      else (.broken (.same (cursor.faultAhead .expectedValue)), none)

def parseItems : (fuel : Nat) → (first : Bool) → Cursor → Parsed Items
  | 0, _, cursor => (.broken (.same (cursor.faultAhead .tooDeep)), none)
  | fuel + 1, first, cursor =>
    let cursor := cursor.skipSpace
    match cursor.ahead with
    | [] => (.broken (.same (cursor.faultAhead .endInList)), none)
    | ']' :: _ => (.close (cursor.offset + 1), some cursor.next)
    | c :: _ =>
      if first then parseItem fuel cursor
      else if c = ',' then
        let cursor := cursor.next.skipSpace
        match cursor.ahead with
        | [] => (.broken (.same (cursor.faultAhead .endInValue)), none)
        | ']' :: _ =>
          (.broken ⟨cursor.faultAhead .trailingComma, cursor.faultAhead .expectedValue⟩, none)
        | _ => parseItem fuel cursor
      else (.broken (.same (cursor.faultAhead .expectedListEnd)), none)

def parseItem : (fuel : Nat) → Cursor → Parsed Items
  | 0, cursor => (.broken (.same (cursor.faultAhead .tooDeep)), none)
  | fuel + 1, cursor =>
    match parseNode fuel cursor with
    | (value, some behind) =>
      let (rest, last) := parseItems fuel false behind
      (.item cursor.offset value (Items.markAt behind) rest, last)
    | (value, none) =>
      (.item cursor.offset value 0 (.close 0), none)

def parseMembers : (fuel : Nat) → (first : Bool) → Cursor → Parsed Members
  | 0, _, cursor => (.broken (.same (cursor.faultAhead .tooDeep)), none)
  | fuel + 1, first, cursor =>
    let cursor := cursor.skipSpace
    match cursor.ahead with
    | [] => (.broken (.same (cursor.faultAhead .endInObject)), none)
    | '}' :: _ => (.close (cursor.offset + 1), some cursor.next)
    | c :: _ =>
      if first then
        if c = '"' then parseMember fuel cursor
        else (.broken (.same (cursor.faultAhead .keyNotString)), none)
      else if c = ',' then
        let cursor := cursor.next.skipSpace
        match cursor.ahead with
        | [] => (.broken ⟨cursor.faultAhead .endInValue, cursor.faultAhead .endInObject⟩, none)
        | '"' :: _ => parseMember fuel cursor
        | '}' :: _ =>
          (.broken ⟨cursor.faultAhead .trailingComma, cursor.faultAhead .keyNotString⟩, none)
        | _ => (.broken (.same (cursor.faultAhead .keyNotString)), none)
      else (.broken (.same (cursor.faultAhead .expectedObjectEnd)), none)

def parseMember : (fuel : Nat) → Cursor → Parsed Members
  | 0, cursor => (.broken (.same (cursor.faultAhead .tooDeep)), none)
  | fuel + 1, cursor =>
    match takeString cursor with
    | .error faults => (.broken faults, none)
    | .ok (key, behindKey) =>
      let keyStop := behindKey.offset
      let mark := Members.markAt behindKey
      let colon := behindKey.skipSpace
      match colon.ahead with
      | ':' :: _ =>
        match parseNode fuel colon.next with
        | (value, some behind) =>
          let (rest, last) := parseMembers fuel false behind
          (.member key keyStop mark value rest, last)
        | (value, none) => (.member key keyStop mark value (.close 0), none)
      | [] =>
        (.member key keyStop mark (.broken (.same (colon.faultAhead .endInObject))) (.close 0), none)
      | _ =>
        (.member key keyStop mark (.broken (.same (colon.faultAhead .expectedColon))) (.close 0), none)

end

/-- More calls than any text of this length needs. -/
def fuelFor (text : List Char) : Nat := 3 * text.length + 3

def Node.ofText (text : List Char) : Node × Option Fault :=
  match parseNode (fuelFor text) (.ofText text) with
  | (node, none) => (node, none)
  | (node, some behind) =>
    let reached := behind.skipSpace
    (node, if reached.ahead.isEmpty then none else some (reached.faultAhead .trailingCharacters))

/-- How many arrays and objects may be open at once, plus one. -/
def depthLimit : Nat := 128

mutual

/-- The value of a node below which `depth` arrays and objects may still be opened, less one. Of
two members with one key the later counts, and members stand in the order of their keys. -/
def Node.value : (depth : Nat) → Node → Except Fault Json
  | _, .scalar content _ =>
    content.map fun
      | .null => .null
      | .bool value => .bool value
      | .number value => .number value
      | .string text => .string text
  | depth, .array start items =>
    if depth ≤ 1 then .error ⟨.tooDeep, start + 1⟩
    else (Items.values (depth - 1) items).map .array
  | depth, .object start members =>
    if depth ≤ 1 then .error ⟨.tooDeep, start + 1⟩
    else (Members.values (depth - 1) [] members).map .object
  | _, .broken faults => .error faults.wanted

def Items.values : (depth : Nat) → Items → Except Fault (List Json)
  | _, .close _ => .ok []
  | depth, .item _ value _ rest =>
    match value.value depth with
    | .error fault => .error fault
    | .ok value => (rest.values depth).map (value :: ·)
  | _, .broken faults => .error faults.wanted

def Members.values : (depth : Nat) → (known : List (String × Json)) → Members →
    Except Fault (List (String × Json))
  | _, known, .close _ => .ok known
  | depth, known, .member key _ _ value rest =>
    match key with
    | .error fault => .error fault
    | .ok key =>
      match value.value depth with
      | .error fault => .error fault
      | .ok value => rest.values depth (SortedMap.placed key (fun _ => value) known)
  | _, _, .broken faults => .error faults.wanted

end

mutual

def Node.skip : Node → Except Fault Unit
  | .scalar _ _ => .ok ()
  | .array _ items => items.skip
  | .object _ members => members.skip
  | .broken faults => .error faults.skipped

def Items.skip : Items → Except Fault Unit
  | .close _ => .ok ()
  | .item _ value _ rest =>
    match value.skip with
    | .error fault => .error fault
    | .ok () => rest.skip
  | .broken faults => .error faults.skipped

def Members.skip : Members → Except Fault Unit
  | .close _ => .ok ()
  | .member _ _ _ value rest =>
    match value.skip with
    | .error fault => .error fault
    | .ok () => rest.skip
  | .broken faults => .error faults.skipped

end

def ofText (text : List Char) : Except Fault Json :=
  let (node, trailing) := Node.ofText text
  match node.value depthLimit, trailing with
  | .error fault, _ => .error fault
  | .ok _, some fault => .error fault
  | .ok value, none => .ok value

end LogCensus.Json
