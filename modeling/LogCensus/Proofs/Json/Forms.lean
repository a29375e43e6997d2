import LogCensus.Proofs.Failure
import LogCensus.Proofs.Json.Reading
import LogCensus.Proofs.Time.Reading

/-!
The JSON forms that records share read back: instants, paths, counts by key and lengths of time.
-/

namespace LogCensus.Json

open Time (Instant Duration)

theorem readsAs_instant (instant : Instant) : ReadsAs readInstant (ofInstant instant) instant := by
  apply readsAs_textAs
  rw [instant.readInstant_zuluText]
  rfl

theorem readsAs_optionalInstant (instant : Option Instant) :
    ReadsAs (readOptional readInstant) (ofOption ofInstant instant) instant :=
  readsAs_optional (fun _ _ written => nomatch written) fun inner _ => readsAs_instant inner

theorem readsAs_path (text : String) :
    ReadsAs readPath (ofPath (Path.ofString text)) (Path.ofString text) := by
  rw [ofPath, Path.text?_ofString]
  exact readsAs_textAs "path string" rfl

theorem readsAs_optionalPath {path : Option Path}
    (text : ∀ inner ∈ path, ∃ text, inner = Path.ofString text) :
    ReadsAs (readOptional readPath) (ofOption ofPath path) path := by
  refine readsAs_optional (fun inner known => ?_) fun inner known => ?_
  · obtain ⟨shown, rfl⟩ := text inner known
    rw [ofPath, Path.text?_ofString]
    nofun
  · obtain ⟨shown, rfl⟩ := text inner known
    exact readsAs_path shown

theorem readsAs_choice {α : Type} {choices : List (String × α)} {name : String} {value : α}
    (named : chosen choices name = .ok value) :
    ReadsAs (readChoice choices) (.string name) value where
  readable := trivial
  reads := by
    rintro origin node (_ | _ | _ | ⟨_, stop⟩)
    refine ⟨value, rfl, ?_⟩
    rw [readChoice, named]
    rfl

theorem chosen_name (level : Level) : chosen Level.names level.name = .ok level := by
  cases level <;> decide

theorem readsAs_level (level : Level) : ReadsAs readLevel (.string level.name) level :=
  readsAs_choice (chosen_name level)

theorem readsAs_texts (map : SortedMap String String) : ReadsAs readTexts (ofTexts map) map :=
  readsAs_map (fun _ => rfl) readsAs_text map

/-- A map without entries may be left out if the record holds such a map. -/
theorem Fills.asTexts {ρ : Type} {name : String}
    {store : ρ → SortedMap String String → ρ} {map : SortedMap String String}
    {members : List (Member ρ)} {fields : List (String × Json)} {record : ρ} {results : ρ → Prop}
    (blank : store record ∅ = record) (later : Fills members fields (store record map) results) :
    Fills (Json.member name .defaulted readTexts store :: members)
      ((if map.isEmpty then [] else [(name, ofTexts map)]) ++ fields) record results := by
  by_cases empty : map.isEmpty = true
  · rw [SortedMap.eq_empty_of_isEmpty empty, blank] at later
    rw [if_pos empty]
    exact .omitted nofun later
  · rw [if_neg empty]
    exact .as (readsAs_texts map) later

theorem readsAs_counts {κ : Type} [Key κ] {key : String → Except String κ} {name : κ → String}
    (named : ∀ entry, key (name entry) = .ok entry) (counts : SortedMap κ UInt64) :
    ReadsAs (readMap key readCount) (ofCounts name counts) counts :=
  readsAs_map named readsAs_count counts

theorem readsAs_levelCounts (counts : SortedMap Level UInt64) :
    ReadsAs readLevelCounts (ofCounts Level.name counts) counts :=
  readsAs_counts chosen_name counts

theorem readsAs_kindCounts (counts : SortedMap String UInt64) :
    ReadsAs readKindCounts (ofCounts id counts) counts :=
  readsAs_counts (fun _ => rfl) counts

theorem toNat_nanos (duration : Duration) : duration.nanos.toUInt64.toNat = duration.nanos := by
  have below := duration.nanos_lt
  simp only [Nat.toUInt64_eq, UInt64.toNat_ofNat']
  omega

theorem ofParts?_self (duration : Duration) :
    Duration.ofParts? duration.seconds duration.nanos = some duration := by
  obtain ⟨seconds, nanos, below⟩ := duration
  have whole : nanos / 1000000000 = 0 := Nat.div_eq_of_lt below
  have part : nanos % 1000000000 = nanos := Nat.mod_eq_of_lt below
  have fits := seconds.toNat_lt
  simp [Duration.ofParts?, whole, part, fits, UInt64.size]

theorem readsAs_duration (duration : Duration) :
    ReadsAs readDuration (ofDuration duration) duration := by
  apply reads_record (by decide)
  refine .as (readsAs_count _) (.as (readsAs_word "u32" ?_) (.done ⟨duration, rfl, ?_⟩))
  · have below := duration.nanos_lt
    rw [toNat_nanos]
    omega
  · simp only [durationRecord, toNat_nanos, ofParts?_self]

end LogCensus.Json
