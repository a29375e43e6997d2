import LogCensus.Export
import LogCensus.Proofs.Json.Reading
import LogCensus.Proofs.Sink

/-!
Exports to a sink without bounds. A stream is its plan run as a whole: that each entry is handed on
before the next one is taken changes nothing of what the sink takes.
-/

namespace LogCensus.Export

open Text.Utf8 (encodeString)

theorem run_of_hands {steps : List WriteStep} {octets : List UInt8} (hands : Hands steps octets) :
    run .unlimited steps = (octets, .ok ()) := by
  rw [run, hands.run]

theorem hands_jsonSteps {style : Json.Style} {json : Json} {text : List Char}
    (writes : Json.Writes (Json.pieces style 0 json) text) :
    Hands (jsonSteps style json) (Text.Utf8.encode text) :=
  hands_pieces writes

theorem gap_lineBreak : Json.Gap ['\n'] := by
  simp [Json.Gap, Json.Cursor.isSpace]

/-- What a reader gives of a value, it gives of the text that is written of it. -/
theorem exists_readWhole {α : Type} {reader : Json.Reader α} {json : Json} {results : α → Prop}
    (back : Json.Reads reader json results) :
    ∃ (text : String) (result : α), results result ∧
      run .unlimited (jsonSteps .indented json ++ [.plainText "\n"]) =
        (encodeString text, .ok ()) ∧
      Json.readWhole reader text = .ok result := by
  obtain ⟨text, writes, value⟩ := Json.exists_valueText .indented 0 json back.readable
  obtain ⟨result, right, read⟩ := back.readWhole value gap_lineBreak
  have hands := (hands_jsonSteps writes).append (hands_plainText "\n")
  refine ⟨String.ofList (text ++ ['\n']), result, right, ?_, read⟩
  rw [run_of_hands hands, Text.Utf8.encodeString_ofList (text ++ ['\n']), Text.Utf8.encode_append]
  rfl

section Streams

variable {α : Type} (sink : Sink) (form : Form)

theorem runThen_append (held : Nat) (steps more : List WriteStep)
    (next : Nat → List UInt8 × Except WriteFault α) :
    runThen sink held (steps ++ more) next =
      runThen sink held steps fun held => runThen sink held more next := by
  unfold runThen
  rw [Sink.run_append]
  cases first : sink.run held steps with
  | mk taken fault =>
    cases fault with
    | some fault => rfl
    | none =>
      simp only
      cases second : sink.run (held + taken.length) more with
      | mk later fault =>
        cases fault with
        | some fault => rfl
        | none => simp only [List.append_assoc, List.length_append, Nat.add_assoc]

theorem streamFrom_eq (first : Bool) (written : UInt64) (held : Nat) (entries : List Entry) :
    streamFrom sink form first written held entries =
      runThen sink held (streamedSteps form first entries) fun _ =>
        ([], .ok (written + UInt64.ofNat entries.length)) := by
  induction entries generalizing first written held with
  | nil => simp [streamFrom, streamedSteps]
  | cons entry rest ih =>
    have count : written + 1 + UInt64.ofNat rest.length =
        written + UInt64.ofNat (entry :: rest).length := by
      rw [List.length_cons, UInt64.ofNat_add, UInt64.ofNat_one, UInt64.add_assoc,
        UInt64.add_comm 1]
    simp only [streamFrom, streamedSteps, runThen_append, ih, count]

/-- A stream comes to the same as its plan, and counts all entries if the plan does not fail. -/
theorem stream_eq (entries : List Entry) :
    stream sink form entries =
      ((run sink (streamSteps form entries)).1,
        (run sink (streamSteps form entries)).2.map fun _ => UInt64.ofNat entries.length) := by
  have whole : stream sink form entries =
      runThen sink 0 (streamSteps form entries) fun _ =>
        ([], .ok (UInt64.ofNat entries.length)) := by
    rw [stream, streamSteps, runThen_append]
    simp only [streamFrom_eq, UInt64.zero_add]
  rw [whole, runThen, run]
  cases sink.run 0 (streamSteps form entries) with
  | mk taken fault =>
    cases fault with
    | some fault => rfl
    | none => simp only [List.append_nil, Except.map]

theorem stream_of_hands {entries : List Entry} {octets : List UInt8}
    (hands : Hands (streamSteps form entries) octets) :
    stream .unlimited form entries = (octets, .ok (UInt64.ofNat entries.length)) := by
  rw [stream_eq, run_of_hands hands]
  rfl

end Streams

end LogCensus.Export
