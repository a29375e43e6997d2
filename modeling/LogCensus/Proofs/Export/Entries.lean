import LogCensus.Proofs.Export.Run
import LogCensus.Proofs.Json.Compact
import LogCensus.Proofs.Json.Forms

/-!
Entries come back from their JSON, be it written at once or as a stream, in which each entry has a
line of its own.
-/

namespace LogCensus

open Json
open Text.Utf8 (encode encodeString)

/-! ### An entry -/

/-- An entry may hold any texts, but its source has to be text. -/
theorem Entry.readsAs_toJson {entry : Entry}
    (source : ∀ path ∈ entry.source, ∃ text, path = Path.ofString text) :
    ReadsAs Entry.read entry.toJson entry := by
  apply reads_record (by decide)
  simp only [record, List.append_assoc]
  refine .as (readsAs_optionalInstant _) (.as (readsAs_level _) ?_)
  refine .as (readsAs_text _) (.as (readsAs_text _) ?_)
  -- without this the records under construction stay nested and grow too large
  dsimp only
  refine .asTexts rfl (.asTexts rfl (.as (readsAs_text _) ?_))
  dsimp only
  have back := readsAs_optionalPath source
  cases found : entry.source with
  | none =>
    refine .omitted nofun (.as (readsAs_count _) (.done ⟨entry, rfl, ?_⟩))
    rw [← found]
  | some path =>
    rw [found] at back
    refine .as back (.as (readsAs_count _) (.done ⟨entry, rfl, ?_⟩))
    rw [← found]

namespace Export

/-! ### Lines -/

def textOfLines (lines : List String) : List Char :=
  lines.flatMap fun line => line.toList ++ ['\n']

/-- The lines of elements: two blanks in front of each, and a comma behind all but the last. -/
def elementLines : List String → List String
  | [] => []
  | [text] => ["  " ++ text]
  | text :: rest => ("  " ++ text ++ ",") :: elementLines rest

def arrayLines (texts : List String) : List String := "[" :: elementLines texts ++ ["]"]

def listing (first : Bool) : List (List Char) → List Char
  | [] => []
  | text :: rest =>
    (if first then [] else [',']) ++ ['\n', ' ', ' '] ++ text ++ listing false rest

theorem lineBreak_elementLines (text : List Char) (rest : List (List Char)) :
    '\n' :: textOfLines (elementLines ((text :: rest).map String.ofList)) =
      listing true (text :: rest) ++ ['\n'] := by
  induction rest generalizing text with
  | nil => simp [textOfLines, elementLines, listing]
  | cons next rest ih =>
    calc '\n' :: textOfLines (elementLines ((text :: next :: rest).map String.ofList))
        = ['\n', ' ', ' '] ++ text ++
            ',' :: '\n' :: textOfLines (elementLines ((next :: rest).map String.ofList)) := by
          simp [textOfLines, elementLines]
      _ = listing true (text :: next :: rest) ++ ['\n'] := by
          rw [ih next]
          simp [listing]

theorem textOfLines_arrayLines (texts : List (List Char)) :
    textOfLines (arrayLines (texts.map String.ofList)) =
      '[' :: listing true texts ++ ['\n', ']', '\n'] := by
  cases texts with
  | nil => rfl
  | cons text rest =>
    calc textOfLines (arrayLines ((text :: rest).map String.ofList))
        = '[' :: '\n' :: textOfLines (elementLines ((text :: rest).map String.ofList)) ++
            [']', '\n'] := by
          simp [textOfLines, arrayLines]
      _ = '[' :: listing true (text :: rest) ++ ['\n', ']', '\n'] := by
          rw [lineBreak_elementLines]
          simp

example : arrayLines ["{}", "[]"] = ["[", "  {},", "  []", "]"] := by decide

/-! ### A stream -/

structure Shows (entry : Entry) (text : List Char) : Prop where
  writes : Writes (pieces .compact 0 entry.toJson) text
  value : ValueText entry.toJson text
  visible : Visible text

theorem exists_shows {entries : List Entry}
    (readable : ∀ entry ∈ entries, entry.toJson.Readable) :
    ∃ texts, List.Forall₂ Shows entries texts := by
  induction entries with
  | nil => exact ⟨[], .nil⟩
  | cons entry rest ih =>
    have mine := readable entry List.mem_cons_self
    obtain ⟨text, writes, value⟩ := exists_valueText .compact 0 entry.toJson mine
    obtain ⟨texts, shows⟩ := ih fun other member => readable other (List.mem_cons_of_mem _ member)
    exact ⟨text :: texts, .cons ⟨writes, value, visible_of_writes mine writes⟩ shows⟩

section Stream

variable {entries : List Entry} {texts : List (List Char)}

theorem mapM_text? (shows : List.Forall₂ Shows entries texts) :
    entries.mapM (fun entry => Json.text? .compact entry.toJson) =
      some (texts.map String.ofList) := by
  induction shows with
  | nil => rfl
  | cons shown _ ih =>
    have text : Json.text? .compact _ = some _ := congrArg (Option.map String.ofList) shown.writes
    simp [text, ih]

theorem visible_of_mem (shows : List.Forall₂ Shows entries texts) : ∀ text ∈ texts, Visible text := by
  induction shows with
  | nil => simp
  | cons shown _ ih => exact List.forall_mem_cons.2 ⟨shown.visible, ih⟩

theorem elementsText_listing (shows : List.Forall₂ Shows entries texts) (first : Bool) :
    ElementsText first (entries.map Entry.toJson) (listing first texts) := by
  induction shows generalizing first with
  | nil => exact elementsText_nil first
  | cons shown _ ih =>
    exact elementsText_cons (by simp [Gap, Cursor.isSpace]) shown.value (ih false)

theorem hands_streamedJson (shows : List.Forall₂ Shows entries texts) (first : Bool) :
    Hands (streamedSteps .json first entries)
      (encode (listing first texts ++ ['\n', ']', '\n'])) := by
  induction shows generalizing first with
  | nil => exact hands_plainText "\n]\n"
  | cons shown _ ih =>
    have mark := hands_plainText (if first then "\n  " else ",\n  ")
    have whole := (mark.append (hands_jsonSteps shown.writes)).append (ih false)
    rw [encodeString, ← Text.Utf8.encode_append, ← Text.Utf8.encode_append] at whole
    rw [listing, List.append_assoc]
    cases first with
    | true => exact whole
    | false => exact whole

end Stream

/-- The JSON of entries reads back, be it written at once or as a stream. A stream has a line for
each entry, with two blanks and its compact text, between the lines of the brackets. -/
theorem entries_json_reads_back {entries : List Entry}
    (sources : ∀ entry ∈ entries, ∀ path ∈ entry.source, ∃ text, path = Path.ofString text) :
    ∃ atOnce streamed lines,
      run .unlimited (entriesSteps .json entries) = (encodeString atOnce, .ok ()) ∧
      readWhole (readList Entry.read) atOnce = .ok entries ∧
      stream .unlimited .json entries =
        (encodeString streamed, .ok (UInt64.ofNat entries.length)) ∧
      readWhole (readList Entry.read) streamed = .ok entries ∧
      streamed.toList = textOfLines (arrayLines lines) ∧
      entries.mapM (fun entry => Json.text? .compact entry.toJson) = some lines ∧
      ∀ line ∈ lines, '\n' ∉ line.toList := by
  have back : ReadsAs (readList Entry.read) (.array (entries.map Entry.toJson)) entries :=
    readsAs_list fun entry member => Entry.readsAs_toJson (sources entry member)
  obtain ⟨atOnce, _, rfl, written, read⟩ := exists_readWhole back
  obtain ⟨texts, shows⟩ := exists_shows fun entry member =>
    (Entry.readsAs_toJson (sources entry member)).readable
  have value := valueText_array (elementsText_listing shows true) gap_lineBreak
  obtain ⟨_, rfl, streamedRead⟩ := back.readWhole value gap_lineBreak
  have hands := (hands_plainText "[").append (hands_streamedJson shows true)
  refine ⟨atOnce, _, _, written, read, ?_, streamedRead, ?_, mapM_text? shows, ?_⟩
  · have whole : encodeString (String.ofList ('[' :: listing true texts ++ ['\n'] ++ [']'] ++
        ['\n'])) = encodeString "[" ++ encode (listing true texts ++ ['\n', ']', '\n']) := by
      simp [encodeString, ← Text.Utf8.encode_append]
    rw [stream_of_hands .json hands, whole]
  · simp [textOfLines_arrayLines]
  · intro line member
    obtain ⟨text, inside, rfl⟩ := List.mem_map.1 member
    rw [String.toList_ofList]
    exact fun lineBreak => absurd (visible_of_mem shows text inside _ lineBreak) (by decide)

/-- A message of two lines and a source, in front of an entry about which nothing is known. -/
theorem entries_json_reads_back_sample :
    let known : Entry :=
      { timestamp := some Time.Instant.epoch, level := .error, kind := "app",
        message := "first \"line\"\nsecond", fields := SortedMap.empty.insert "code" "\t7",
        source := some (.ofString "log 1.txt"), line := 3 }
    let entries := [known, {}]
    ∃ atOnce streamed lines,
      run .unlimited (entriesSteps .json entries) = (encodeString atOnce, .ok ()) ∧
      readWhole (readList Entry.read) atOnce = .ok entries ∧
      stream .unlimited .json entries = (encodeString streamed, .ok 2) ∧
      readWhole (readList Entry.read) streamed = .ok entries ∧
      streamed.toList = textOfLines (arrayLines lines) ∧
      entries.mapM (fun entry => Json.text? .compact entry.toJson) = some lines ∧
      ∀ line ∈ lines, '\n' ∉ line.toList := by
  apply entries_json_reads_back
  rintro entry member path known
  simp only [List.mem_cons, List.not_mem_nil, or_false] at member
  rcases member with rfl | rfl
  · cases known
    exact ⟨"log 1.txt", rfl⟩
  · cases known

end Export

end LogCensus
