import LogCensus.Proofs.Inspection
import LogCensus.Proofs.Registry

/-!
Which format a word finds. Kinds are told apart by their exact spelling where formats are registered,
while a word finds a kind in any case of its letters: of all kinds that it may stand for, the one that
was registered first. So a kind finds its own format unless another spelling of it came earlier.
-/

namespace LogCensus

namespace Registry

/-- The first of some kinds that a word stands for. -/
def meant? (kinds : List String) (word : String) : Option String :=
  kinds.find? fun kind => Text.sameLetters kind.toList word.toList

variable {formats : List Format} {registry : Registry} {kinds : List String} {kind word : String}

theorem find?_eraseDups (items : List String) (test : String → Bool) :
    items.eraseDups.find? test = items.find? test := by
  induction items using List.reverseRecOn with
  | nil => rfl
  | append_singleton items last ih =>
    by_cases known : last ∈ items
    · rw [eraseDups_concat_of_mem known, ih, List.find?_append]
      -- what the last item could be found for, the same item was found for before
      cases found : items.find? test with
      | some item => rfl
      | none =>
        have refused := List.find?_eq_none.1 found last known
        rw [List.find?_cons_of_neg refused, List.find?_nil, Option.none_or]
    · rw [eraseDups_concat_of_notMem known, List.find?_append, List.find?_append, ih]

/-- A word finds the format that was registered last under the kind that it stands for. -/
theorem Holds.get?_eq (holds : registry.Holds formats) (word : String) :
    registry.get? word = (meant? (formats.map Format.kind) word).bind (lastOf? formats) := by
  have meant : meant? (formats.map Format.kind) word = (registry.get? word).map Format.kind := by
    rw [meant?, ← find?_eraseDups, ← holds.order, kinds, List.find?_map]
    rfl
  rw [meant]
  cases found : registry.get? word with
  | none => rfl
  | some format => exact (holds.newest format (List.mem_of_find?_eq_some found)).symm

theorem isSome_lastOf?_iff : (lastOf? formats kind).isSome ↔ kind ∈ formats.map Format.kind := by
  simp [lastOf?]

theorem kind_of_lastOf? {format : Format} (last : lastOf? formats kind = some format) :
    format.kind = kind := by
  simpa using List.find?_some last

theorem meant?_eq_none :
    meant? kinds word = none ↔ ∀ kind ∈ kinds, Text.sameLetters kind.toList word.toList = false := by
  simp only [meant?, List.find?_eq_none, Bool.not_eq_true]

theorem of_meant? (meant : meant? kinds word = some kind) :
    kind ∈ kinds ∧ Text.sameLetters kind.toList word.toList = true := by
  have alike := List.find?_some meant
  exact ⟨List.mem_of_find?_eq_some meant, alike⟩

/-- A kind stands for itself unless another spelling of it comes in front of it. -/
theorem meant?_self_iff (known : kind ∈ kinds) :
    meant? kinds kind = some kind ↔
      ∀ other ∈ kinds.takeWhile (· ≠ kind), Text.sameLetters other.toList kind.toList = false := by
  induction kinds with
  | nil => cases known
  | cons head rest ih =>
    by_cases own : head = kind
    · subst own
      simp [meant?, Text.sameLetters_refl]
    · have later := ih ((List.mem_cons.1 known).resolve_left (Ne.symm own))
      have passed : decide (head ≠ kind) = true := decide_eq_true own
      rw [List.takeWhile_cons, if_pos passed, List.forall_mem_cons, ← later, meant?]
      cases alike : Text.sameLetters head.toList kind.toList with
      | true => simp [alike, own]
      | false => simp [alike, meant?]

end Registry

namespace Inspection

variable {registry : Registry} {settings : Settings} {format : Format} {word : String}

/-- A file with a line that is not blank is scanned in the format that was asked for. -/
theorem scanContent_of_asked (asked : settings.format = some word)
    (found : registry.get? word = some format) (cancelled : String → Scan → Bool) (path : Path)
    {content : List UInt8} (lines : (sample? (Line.list content)).isSome = true) :
    scanContent registry settings cancelled path content =
      .ok (format, Scan.run (terms settings cancelled format) path format (Line.list content)) := by
  obtain ⟨sample, first⟩ := Option.isSome_iff_exists.1 lines
  simp only [scanContent, first, format?, asked, found]
  rfl

end Inspection

namespace Registry

open Inspection (sample? scanContent terms)

/-- After any registrations a word finds nothing exactly if no kind was registered that is the word
up to the case of its letters. Otherwise it finds the first such kind, in the order of first
registrations, and of it the format that was registered last under exactly this spelling. A kind that
was registered finds the last format of its own spelling if and only if no other spelling of it was
registered before it first was. Where a format is found for the word that an analysis asks for, every
file is scanned in this format. -/
theorem found_by_first_spelling (registrations : List Registration) :
    let formats := registrations.map Registration.format
    let kinds := formats.map Format.kind
    let registry := ofRegistrations registrations
    (∀ word, registry.get? word = none ↔
      ∀ kind ∈ kinds, Text.sameLetters kind.toList word.toList = false) ∧
    (∀ word format, registry.get? word = some format ↔
      meant? kinds word = some format.kind ∧ lastOf? formats format.kind = some format) ∧
    (∀ kind ∈ kinds, ∃ format, lastOf? formats kind = some format ∧
      (registry.get? kind = some format ↔
        ∀ other ∈ kinds.takeWhile (· ≠ kind), Text.sameLetters other.toList kind.toList = false)) ∧
    ∀ settings word format, settings.format = some word → registry.get? word = some format →
      ∀ cancelled path content, (sample? (Line.list content)).isSome = true →
        scanContent registry settings cancelled path content =
          .ok (format, Scan.run (terms settings cancelled format) path format
            (Line.list content)) := by
  intro formats kinds registry
  have holds : registry.Holds formats := holds_ofRegistrations registrations
  have found (word : String) (format : Format) : registry.get? word = some format ↔
      meant? kinds word = some format.kind ∧ lastOf? formats format.kind = some format := by
    rw [holds.get?_eq, Option.bind_eq_some_iff]
    constructor
    · rintro ⟨kind, meant, last⟩
      obtain rfl := kind_of_lastOf? last
      exact ⟨meant, last⟩
    · rintro ⟨meant, last⟩
      exact ⟨_, meant, last⟩
  refine ⟨fun word => ?_, found, fun kind known => ?_, ?_⟩
  · rw [holds.get?_eq, ← meant?_eq_none]
    cases meant : meant? kinds word with
    | none => exact iff_of_true rfl rfl
    | some kind =>
      have there := isSome_lastOf?_iff.2 (of_meant? meant).1
      refine iff_of_false (fun none => ?_) nofun
      rw [Option.bind_some] at none
      rw [none] at there
      cases there
  · obtain ⟨format, last⟩ := Option.isSome_iff_exists.1 (isSome_lastOf?_iff.2 known)
    have own := kind_of_lastOf? last
    refine ⟨format, last, ?_⟩
    rw [found, own, and_iff_left last]
    exact meant?_self_iff known
  · intro settings word format asked found cancelled path content lines
    exact Inspection.scanContent_of_asked asked found cancelled path lines

def namesakes : List Registration :=
  [.lines .jsonLines, .lines { Format.accessLog with kind := "JSON" }]

theorem found_by_first_spelling_sample :
    ((ofRegistrations namesakes).get? "Json").map Format.title = some "JSON lines" ∧
      ((ofRegistrations namesakes).get? "json").map Format.title = some "JSON lines" ∧
      (ofRegistrations namesakes).get? "app" = none ∧
      (scanContent (ofRegistrations namesakes) { format := some "Json" } (fun _ _ => false) ⟨[]⟩
        [97]).toOption.map (fun scanned => scanned.1.title) = some "JSON lines" := by
  obtain ⟨missing, found, own, scanned⟩ := found_by_first_spelling namesakes
  have first : (ofRegistrations namesakes).get? "Json" = some .jsonLines :=
    (found _ _).2 ⟨by decide, rfl⟩
  obtain ⟨format, last, exact⟩ := own "json" (by decide)
  have known : lastOf? (namesakes.map Registration.format) "json" = some .jsonLines := rfl
  rw [known] at last
  cases last
  refine ⟨by rw [first]; rfl, ?_, (missing "app").2 (by decide), ?_⟩
  · rw [exact.2 (by decide)]
    rfl
  · rw [scanned _ "Json" _ rfl first _ _ _ (by decide)]
    rfl

/-- The later of two spellings finds the format of the earlier one, not its own. -/
theorem earlier_spelling_hides_later :
    "JSON" ∈ (namesakes.map Registration.format).map Format.kind ∧
      (lastOf? (namesakes.map Registration.format) "JSON").map Format.title =
        some "Nginx access log" ∧
      ((ofRegistrations namesakes).get? "JSON").map Format.title = some "JSON lines" ∧
      (ofRegistrations namesakes).get? "JSON" ≠
        lastOf? (namesakes.map Registration.format) "JSON" := by
  have own : (lastOf? (namesakes.map Registration.format) "JSON").map Format.title =
      some "Nginx access log" := rfl
  have found : ((ofRegistrations namesakes).get? "JSON").map Format.title = some "JSON lines" := rfl
  refine ⟨by decide, own, found, fun same => ?_⟩
  rw [same, own] at found
  exact absurd found (by decide)

end Registry

end LogCensus
