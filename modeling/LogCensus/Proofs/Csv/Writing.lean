import LogCensus.Proofs.Csv.Reading
import LogCensus.Proofs.Sink

/-!
A writer of tables hands on the octets of its records, wherever its buffer splits them, as soon as it
is told to hand on all it has; and a reader makes the same table of them again.
-/

namespace LogCensus.Csv

/-! ### Writing -/

/-- Steps between two states of a buffer that hand on the octets, but for those that wait. -/
def Gathers (buffer : Buffer) (octets : List UInt8) (steps : List WriteStep) (next : Buffer) :
    Prop :=
  ∃ handed, Hands steps handed ∧ handed ++ next.waiting.reverse = buffer.waiting.reverse ++ octets

theorem gathers_nil (buffer : Buffer) : Gathers buffer [] [] buffer :=
  ⟨[], hands_nil, (List.append_nil _).symm⟩

theorem Gathers.append {buffer middle next : Buffer} {octets more : List UInt8}
    {steps later : List WriteStep} (first : Gathers buffer octets steps middle)
    (second : Gathers middle more later next) :
    Gathers buffer (octets ++ more) (steps ++ later) next := by
  obtain ⟨front, frontHands, frontSame⟩ := first
  obtain ⟨back, backHands, backSame⟩ := second
  refine ⟨front ++ back, frontHands.append backHands, ?_⟩
  calc front ++ back ++ next.waiting.reverse
      = front ++ (middle.waiting.reverse ++ more) := by rw [List.append_assoc, backSame]
    _ = buffer.waiting.reverse ++ (octets ++ more) := by
      rw [← List.append_assoc, frontSame, List.append_assoc]

theorem hands_flushed (buffer : Buffer) (medium : Medium) :
    Hands [buffer.flushed medium] buffer.waiting.reverse := by
  have hands := hands_nil.cons medium buffer.waiting.reverse
  rwa [List.append_nil] at hands

theorem gathers_add (buffer : Buffer) (atom : Atom) :
    Gathers buffer atom (buffer.add atom).2 (buffer.add atom).1 := by
  unfold Buffer.add
  split
  · exact ⟨_, hands_flushed buffer .csv, by rw [List.reverse_reverse]⟩
  · exact ⟨[], hands_nil, by rw [List.nil_append, List.reverse_append, List.reverse_reverse]⟩

theorem gathers_addAll (buffer : Buffer) (atoms : List Atom) :
    Gathers buffer atoms.flatten (buffer.addAll atoms).2 (buffer.addAll atoms).1 := by
  induction atoms generalizing buffer with
  | nil => exact gathers_nil buffer
  | cons atom atoms ih => exact (gathers_add buffer atom).append (ih _)

def encoded (fields : List String) : List (List UInt8) := fields.map Text.Utf8.encodeString

def tableOctets (table : List (List String)) : List UInt8 :=
  table.flatMap fun fields => recordOctets (encoded fields)

theorem tableOctets_append (table more : List (List String)) :
    tableOctets (table ++ more) = tableOctets table ++ tableOctets more :=
  List.flatMap_append

theorem hands_stepsFrom (buffer : Buffer) (table : List (List String)) :
    Hands (stepsFrom buffer (table.map .record ++ [.flush]))
      (buffer.waiting.reverse ++ tableOctets table) := by
  induction table generalizing buffer with
  | nil =>
    rw [tableOctets, List.flatMap_nil, List.append_nil]
    exact hands_flushed buffer .plain
  | cons fields table ih =>
    obtain ⟨handed, hands, same⟩ := gathers_addAll buffer (recordAtoms (encoded fields))
    have whole := hands.append (ih (buffer.addAll (recordAtoms (encoded fields))).1)
    rw [← List.append_assoc, same, List.append_assoc] at whole
    exact whole

theorem hands_steps (table : List (List String)) :
    Hands (steps (table.map .record ++ [.flush])) (tableOctets table) :=
  hands_stepsFrom {} table

/-! ### A table comes back -/

theorem mapM_map {α β : Type} {back : β → Option α} {forth : α → β} (values : List α)
    (undone : ∀ value, back (forth value) = some value) :
    (values.map forth).mapM back = some values := by
  induction values with
  | nil => rfl
  | cons value values ih => simp [undone, ih]

theorem text?_encodeString (text : String) : text? (Text.Utf8.encodeString text) = some text := by
  rw [text?, Text.Utf8.encodeString, Text.Utf8.decode?_encode, Option.map_some, String.ofList_toList]

theorem Tells.table?_eq {octets : List UInt8} {table : List (List String)}
    (tells : Tells octets (table.map encoded)) : table? octets = some table := by
  rw [table?, tells.records?_eq, Option.bind_some]
  exact mapM_map table fun fields => mapM_map fields text?_encodeString

-- Tables of other writers, too: line breaks of two characters, and lines with nothing on them.
example : table? (Text.Utf8.encodeString "x,\"say \"\"a,b\"\"\r\nc\"\r\n\r\n\n# y\n") =
    some [["x", "say \"a,b\"\r\nc"], ["# y"]] := by
  decide

/-- The octets of a table tell its records, none of which may be without fields. -/
theorem tells_tableOctets {table : List (List String)} (some : ∀ fields ∈ table, fields ≠ []) :
    Tells (tableOctets table) (table.map encoded) := by
  rw [tableOctets, ← List.flatMap_map]
  refine tells_records fun fields member => ?_
  obtain ⟨texts, inside, rfl⟩ := List.mem_map.1 member
  simpa [encoded] using some texts inside

end LogCensus.Csv
