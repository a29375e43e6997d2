import LogCensus.Proofs.Expansion.Union
import LogCensus.Proofs.Glob.Braces
import LogCensus.Proofs.Glob.Relocated

/-!
Patterns that start at the current directory. They find the files below that directory whose paths
from there they stand for, as long as the path of the directory has no character that means something
in a pattern: it is put in front of the pattern and read with it.
-/

namespace LogCensus.Expansion

open LogCensus.Path (slash pieces dot)
open Location (rooted octets joined)
open Text.Utf8 (encode)
open FileSystem (IsStep)

/-- A pattern that starts at the current directory, of literal text, stars, question marks and
braces, without steps that lead up. -/
structure StartsHere (pattern : List Char) : Prop where
  relative : pattern.head? ≠ some '/'
  plain : Glob.IsPlain pattern
  straight : [dot, dot] ∉ pieces (encode pattern)

def relativeForm (pattern : String) : List Char :=
  Text.Utf8.decodeLossy (joined (ownSteps (encode (Text.trim pattern.toList))))

/-- Whether the path of a directory is a text that stands for itself in a pattern. -/
def IsInertPath (current : Location) : Prop :=
  ∃ text, encode text = octets current ∧ ∀ c ∈ text, Glob.IsInert c

/-! ### Texts of steps -/

variable {files : FileSystem} {current location : Location} {parts front : List (List Char)}
  {glob : Glob}

theorem written_eq (parts : List (List Char)) : written parts = '/' :: ['/'].intercalate parts := by
  cases parts with
  | nil => rfl
  | cons part parts =>
    rw [written, if_neg (List.cons_ne_nil _ _)]
    induction parts generalizing part with
    | nil => simp [List.intercalate]
    | cons next parts ih =>
      rw [List.flatMap_cons, ih next]
      simp [List.intercalate]

theorem encode_intercalate (parts : List (List Char)) :
    encode (['/'].intercalate parts) = joined (parts.map encode) := by
  have same := encode_written parts
  rw [written_eq, Location.octets_eq_joined] at same
  exact (List.cons.inj same).2

theorem written_append (front : List (List Char)) (some : parts ≠ []) :
    written (front ++ parts) = front.flatMap ('/' :: ·) ++ '/' :: ['/'].intercalate parts := by
  rw [written, if_neg (List.append_ne_nil_of_right_ne_nil front some), List.flatMap_append,
    ← written_eq, written, if_neg some]

theorem isPlain_intercalate (down : LeadDown parts) : Glob.IsPlain (['/'].intercalate parts) := by
  have plain := down.isPlain_written
  rw [written_eq] at plain
  exact plain.behind ['/']

/-- The text of steps does not end in a slash, as no step is empty or has one. -/
theorem getLast?_intercalate (down : LeadDown parts) :
    (['/'].intercalate parts).getLast? ≠ some '/' := by
  intro ends
  obtain ⟨more, same⟩ := List.getLast?_eq_some_iff.1 ends
  have some : parts.map encode ≠ [] := by
    intro none
    rw [List.map_eq_nil_iff.1 none] at ends
    cases ends
  have whole : rooted (parts.map encode) = slash :: encode more ++ slash :: [] := by
    rw [← Location.octets_of_ne_nil some, Location.octets_eq_joined, ← encode_intercalate, same,
      Text.Utf8.encode_append]
    rfl
  have split : [] :: parts.map encode = ([] :: pieces (encode more)) ++ [[]] := by
    rw [← Location.pieces_rooted down.free, whole, Path.pieces_append_slash]
    rfl
  have empty : [] ∈ parts.map encode := by
    rw [(List.cons.inj split).2]
    exact List.mem_append_right _ (List.mem_singleton_self _)
  exact (down.isStep [] empty).1 rfl

theorem filter_isBrace_intercalate (parts : List (List Char)) :
    (['/'].intercalate parts).filter Glob.isBrace =
      parts.flatMap fun part => part.filter Glob.isBrace := by
  have same := congrArg (List.filter Glob.isBrace) (written_eq parts)
  rw [List.filter_cons_of_neg (by decide)] at same
  rw [← same, written]
  split_ifs with none
  · rw [none]
    rfl
  · exact List.filter_flatMap

theorem flatMap_filter {keep : List Char → Bool} {taken : List Char → List Char}
    (nothing : ∀ part, keep part = false → taken part = []) (parts : List (List Char)) :
    (parts.filter keep).flatMap taken = parts.flatMap taken := by
  induction parts with
  | nil => rfl
  | cons part parts ih =>
    cases known : keep part with
    | true => rw [List.filter_cons_of_pos known, List.flatMap_cons, List.flatMap_cons, ih]
    | false =>
      rw [List.filter_cons_of_neg (Bool.eq_false_iff.1 known), List.flatMap_cons, nothing part known,
        List.nil_append, ih]

/-- The steps of a pattern have the braces of the pattern: what is left out has none. -/
theorem filter_isBrace_relativeForm (pattern : String) :
    (relativeForm pattern).filter Glob.isBrace =
      (Text.trim pattern.toList).filter Glob.isBrace := by
  obtain ⟨parts, same, -⟩ := Path.pieces_encode (Text.trim pattern.toList)
  let keep (part : List Char) : Bool := encode part != [] && encode part != [dot]
  have form : relativeForm pattern = ['/'].intercalate (parts.filter keep) := by
    have own : ownSteps (encode (Text.trim pattern.toList)) = (parts.filter keep).map encode := by
      rw [ownSteps, same, List.filter_map]
      rfl
    rw [relativeForm, own, ← encode_intercalate, Text.Utf8.decodeLossy_encode]
  have whole : ['/'].intercalate parts = Text.trim pattern.toList := by
    have joins := Location.rooted_pieces (encode (Text.trim pattern.toList))
    rw [← Location.octets_of_ne_nil (Path.pieces_ne_nil _), Location.octets_eq_joined, same,
      ← encode_intercalate] at joins
    exact Text.Utf8.encode_injective (List.cons.inj joins).2
  have nothing (part : List Char) (dropped : keep part = false) :
      part.filter Glob.isBrace = [] := by
    rcases Bool.and_eq_false_iff.1 dropped with empty | single
    · have blank : part = [] := Text.Utf8.encode_injective (bne_eq_false_iff_eq.1 empty)
      rw [blank]
      rfl
    · have stop : part = ['.'] := Text.Utf8.encode_injective (bne_eq_false_iff_eq.1 single)
      rw [stop]
      rfl
  rw [form, ← whole, filter_isBrace_intercalate, filter_isBrace_intercalate,
    flatMap_filter nothing]

/-- The names of a directory whose path is inert are inert texts. -/
theorem IsInertPath.exists_parts (inert : IsInertPath current)
    (free : ∀ name ∈ current, slash ∉ name) :
    ∃ front : List (List Char), current = front.map encode ∧
      ∀ part ∈ front, ∀ c ∈ part, Glob.IsInert c := by
  obtain ⟨text, same, each⟩ := inert
  obtain ⟨texts, split, inside⟩ := Path.pieces_encode text
  by_cases top : current = []
  · exact ⟨[], top, by simp⟩
  · rw [same, Location.octets_of_ne_nil top, Location.pieces_rooted free] at split
    cases texts with
    | nil => cases split
    | cons first front =>
      refine ⟨front, (List.cons.inj split).2, fun part member c known => each c ?_⟩
      exact inside part (List.mem_cons_of_mem _ member) c known

/-! ### Patterns with wildcards -/

theorem octets_below (front : List (List Char)) {way : Location} (below : way ≠ []) :
    octets (front.map encode ++ way) =
      encode (front.flatMap ('/' :: ·)) ++ slash :: joined way := by
  rw [Location.octets_of_ne_nil (List.append_ne_nil_of_right_ne_nil _ below), rooted,
    List.flatMap_append, ← rooted, ← rooted, encode_flatMap, ← Location.octets_eq_joined,
    Location.octets_of_ne_nil below]

/-- A pattern with a wildcard behind an inert directory finds the files below the directory whose
paths from there it stands for by itself. -/
theorem mem_matching_relative (free : files.tree.WithoutLinks)
    (directory : files.tree.node? (front.map encode) = some .directory)
    (inert : ∀ part ∈ front, ∀ c ∈ part, Glob.IsInert c) (down : LeadDown parts)
    (wild : (parts.map encode).any hasWildcard = true)
    (read : Glob.ofText (['/'].intercalate parts) = .ok glob) :
    ∃ moved, Glob.ofText (written (front ++ parts)) = .ok moved ∧
      ∀ location, location ∈ matching files ((front ++ parts).map encode) moved ↔
        ∃ way, location = front.map encode ++ way ∧ files.tree.isFile location = true ∧
          glob.Names (joined way) := by
  have some : parts ≠ [] := by
    rintro rfl
    cases wild
  have frontNames : ∀ name ∈ front.map encode, IsStep name := fun name member =>
    FileSystem.isStep_of_isName (FileTree.isName_of_mem directory name member)
  have chars : ∀ c ∈ front.flatMap ('/' :: ·), Glob.IsInert c := by
    intro c member
    obtain ⟨part, known, inside⟩ := List.mem_flatMap.1 member
    rcases List.mem_cons.1 inside with rfl | inside
    · decide
    · exact inert part known c inside
  have allDown : LeadDown (front ++ parts) := by
    constructor
    · intro part member
      rcases List.mem_append.1 member with inside | inside
      · exact frontNames _ (List.mem_map_of_mem inside)
      · exact down.steps part inside
    · intro part member c known
      rcases List.mem_append.1 member with inside | inside
      · have literal := (inert part inside c known).1
        simp only [Glob.IsLiteral, List.mem_cons, List.not_mem_nil, or_false, not_or] at literal
        exact ⟨literal.2.2.1, literal.2.2.2.2⟩
      · exact down.plain part inside c known
  have allWild : ((front ++ parts).map encode).any hasWildcard = true := by
    rw [List.map_append, List.any_append, wild, Bool.or_true]
  have plain := isPlain_intercalate down
  obtain ⟨moved, known, spans⟩ :=
    Glob.exists_relocated chars plain (getLast?_intercalate down) read
  have whole : Glob.ofText (written (front ++ parts)) = .ok moved := by
    rw [written_append front some, known]
  refine ⟨moved, whole, fun location => ?_⟩
  rw [mem_matching free allDown allWild whole]
  constructor
  · rintro ⟨held, spanned⟩
    obtain ⟨more, below⟩ := Glob.spans_literal_front (fun c member => (chars c member).1) plain
      known spanned
    obtain ⟨own, freeNames⟩ := octets_of_isFile held
    rw [own, encode_flatMap] at below
    have split := Location.of_rooted_append (fun name member => (frontNames name member).2.2.2)
      freeNames below
    have nonempty := Path.pieces_ne_nil more
    refine ⟨pieces more, split, held, ?_⟩
    rw [← spans, ← octets_below front nonempty, ← split]
    exact spanned
  · rintro ⟨way, rfl, held, names⟩
    have below : way ≠ [] := by
      rintro rfl
      rw [List.append_nil, FileTree.isFile_of_directory directory] at held
      cases held
    have spanned : moved.Spans (octets (front.map encode ++ way)) := by
      rw [octets_below front below, spans]
      exact names
    exact ⟨held, spanned⟩

/-! ### Patterns without wildcards -/

theorem mem_named_steps {steps : List (List UInt8)} (free : files.tree.WithoutLinks)
    (down : ∀ step ∈ steps, IsStep step) :
    location ∈ named files steps ↔ files.tree.isFile location = true ∧ location = steps := by
  constructor
  · intro member
    unfold named at member
    split at member
    next base found =>
      obtain rfl := FileSystem.eq_of_locate_path free down found
      split_ifs at member with held
      · rw [List.mem_singleton.1 member]
        exact ⟨held, rfl⟩
      · cases member
    next => cases member
  · rintro ⟨held, rfl⟩
    unfold named
    rw [FileSystem.locate_path_of_isFile held]
    dsimp only
    rw [if_pos held]
    exact List.mem_singleton_self _

theorem names_iff_of_literal (down : LeadDown parts)
    (literal : (parts.map encode).any hasWildcard = false)
    (read : Glob.ofText (['/'].intercalate parts) = .ok glob) {text : List UInt8} :
    glob.Names text ↔ text = joined (parts.map encode) := by
  have all : ∀ c ∈ ['/'].intercalate parts, Glob.IsLiteral c := fun c member =>
    isLiteral_of_mem_written down literal c (written_eq parts ▸ List.mem_cons_of_mem _ member)
  have several : glob.pieces ≠ [.leading] := by
    rw [Glob.pieces_of_literals all read]
    intro alone
    obtain ⟨c, -, same⟩ := List.map_eq_singleton_iff.1 alone
    cases same
  rw [Glob.Names, or_iff_right several, Glob.spans_iff_of_literals all read, encode_intercalate]

/-- A pattern without wildcards finds the file below the directory whose path from there it is. -/
theorem mem_named_relative (free : files.tree.WithoutLinks)
    (directory : files.tree.node? current = some .directory) (down : LeadDown parts)
    (literal : (parts.map encode).any hasWildcard = false)
    (read : Glob.ofText (['/'].intercalate parts) = .ok glob) :
    location ∈ named files (current ++ parts.map encode) ↔
      ∃ way, location = current ++ way ∧ files.tree.isFile location = true ∧
        glob.Names (joined way) := by
  have steps : ∀ step ∈ current ++ parts.map encode, IsStep step := by
    intro step member
    rcases List.mem_append.1 member with inside | inside
    · exact FileSystem.isStep_of_isName (FileTree.isName_of_mem directory step inside)
    · exact down.isStep step inside
  rw [mem_named_steps free steps]
  constructor
  · rintro ⟨held, rfl⟩
    exact ⟨parts.map encode, rfl, held, (names_iff_of_literal down literal read).2 rfl⟩
  · rintro ⟨way, rfl, held, names⟩
    rw [names_iff_of_literal down literal read] at names
    obtain ⟨content, node⟩ := FileTree.isFile_iff.1 held
    have wayNames : ∀ name ∈ way, IsStep name := fun name member =>
      FileSystem.isStep_of_isName
        (FileTree.isName_of_mem node name (List.mem_append_right _ member))
    have same : way = parts.map encode :=
      Location.octets_inj (fun name member => ⟨(wayNames name member).1, (wayNames name member).2.2.2⟩)
        (fun name member => ⟨(down.isStep name member).1, (down.isStep name member).2.2.2⟩)
        (by rw [Location.octets_eq_joined, Location.octets_eq_joined, names])
    exact ⟨held, congrArg (current ++ ·) same⟩

/-! ### Patterns -/

variable {pattern : String}

theorem steps_of_startsHere {text : List Char} (here : StartsHere text) (current : Location) :
    steps current (encode text) = current ++ ownSteps (encode text) := by
  have head : (encode text).head? ≠ some slash := by
    cases text with
    | nil => exact fun first => by cases first
    | cons c text =>
      intro first
      have inside : slash ∈ Text.Utf8.encodeChar c := by
        have whole : encode (c :: text) = Text.Utf8.encodeChar c ++ encode text := rfl
        rw [whole, List.head?_append_of_ne_nil _ (Text.Utf8.encodeChar_ne_nil c)] at first
        exact List.mem_of_mem_head? first
      have same := (Text.Utf8.of_mem_encodeChar (by decide) inside).1
      exact here.relative (congrArg some (Char.toNat_inj.1 same.symm))
  rw [steps, if_neg head, ownSteps]

/-- A blank pattern names what the directory itself is: no file. -/
theorem named_directory (free : files.tree.WithoutLinks)
    (directory : files.tree.node? current = some .directory) : named files current = [] := by
  refine List.eq_nil_iff_forall_not_mem.2 fun location member => ?_
  have steps : ∀ step ∈ current, IsStep step := fun step inside =>
    FileSystem.isStep_of_isName (FileTree.isName_of_mem directory step inside)
  obtain ⟨held, rfl⟩ := (mem_named_steps free steps).1 member
  rw [FileTree.isFile_of_directory directory] at held
  cases held

theorem mem_ofPattern_relative (directory : files.tree.node? current = some .directory)
    (free : files.tree.WithoutLinks) (here : StartsHere (Text.trim pattern.toList))
    (inert : hasWildcard (encode (Text.trim pattern.toList)) = true → IsInertPath current)
    (read : Glob.ofText (relativeForm pattern) = .ok glob) :
    ∃ found, ofPattern files current pattern = .ok found ∧ ∀ location, location ∈ found ↔
      ∃ way, location = current ++ way ∧ files.tree.isFile location = true ∧
        glob.Names (joined way) := by
  obtain ⟨parts, own, down⟩ := exists_ownSteps here.plain here.straight
  have wild := any_hasWildcard_ownSteps (encode (Text.trim pattern.toList))
  have steps := steps_of_startsHere here current
  rw [relativeForm, own, ← encode_intercalate, Text.Utf8.decodeLossy_encode] at read
  rw [own] at wild steps
  unfold ofPattern
  dsimp only
  rw [steps]
  cases known : hasWildcard (encode (Text.trim pattern.toList)) with
  | true =>
    have apart : ∀ name ∈ current, slash ∉ name := fun name member =>
      (FileSystem.isStep_of_isName (FileTree.isName_of_mem directory name member)).2.2.2
    obtain ⟨front, rfl, each⟩ := (inert known).exists_parts apart
    obtain ⟨moved, whole, member⟩ :=
      mem_matching_relative free directory each down (wild.trans known) read
    have text : Text.Utf8.decodeLossy (octets (front.map encode ++ parts.map encode)) =
        written (front ++ parts) := by
      rw [← List.map_append, ← encode_written, Text.Utf8.decodeLossy_encode]
    have some : (Text.trim pattern.toList).isEmpty = false := by
      rw [Bool.eq_false_iff, ne_eq, List.isEmpty_iff]
      intro blank
      cases known.symm.trans (hasWildcard_of_trim_eq_nil blank)
    rw [some, if_neg Bool.false_ne_true, if_pos rfl, text, whole]
    dsimp only
    rw [← List.map_append]
    exact ⟨_, rfl, member⟩
  | false =>
    have member (location : Location) : location ∈ named files (current ++ parts.map encode) ↔ _ :=
      mem_named_relative free directory down (wild.trans known) read
    rw [if_neg Bool.false_ne_true]
    split_ifs with blank
    · have nothing : ownSteps (encode (Text.trim pattern.toList)) = [] := by
        rw [List.isEmpty_iff.1 blank]
        rfl
      refine ⟨[], rfl, fun location => ?_⟩
      rw [← member location, ← own, nothing, List.append_nil, named_directory free directory]
    · exact ⟨_, rfl, member⟩

/-- A pattern can be read as it is written if and only if the text of its steps can be. -/
theorem isOk_relativeForm (here : StartsHere (Text.trim pattern.toList)) :
    (Glob.ofText (relativeForm pattern)).isOk =
      (Glob.ofText (Text.trim pattern.toList)).isOk := by
  obtain ⟨parts, own, down⟩ := exists_ownSteps here.plain here.straight
  have plain : Glob.IsPlain (relativeForm pattern) := by
    rw [relativeForm, own, ← encode_intercalate, Text.Utf8.decodeLossy_encode]
    exact isPlain_intercalate down
  exact Glob.isOk_ofText_congr plain here.plain (filter_isBrace_relativeForm pattern)

/-- A relative pattern that can be read finds the files below the current directory whose paths from
there it stands for, all of them, each one once and in the order of their paths. What is matched is
the text of its steps; and if it has a wildcard, the path of the directory has to be one that stands
for itself. -/
theorem expand_relative (present : files.current? = some current)
    (free : files.tree.WithoutLinks) (here : StartsHere (Text.trim pattern.toList))
    (inert : hasWildcard (encode (Text.trim pattern.toList)) = true → IsInertPath current)
    (valid : (Glob.ofText (Text.trim pattern.toList)).isOk = true) :
    ∃ glob found, Glob.ofText (relativeForm pattern) = .ok glob ∧
      files.expand [pattern] = .ok found ∧
      (∀ location, location ∈ found ↔
        ∃ way, location = current ++ way ∧ files.tree.isFile location = true ∧
          glob.Names (joined way)) ∧
      found.Pairwise fun one other =>
        (Location.path one).order (Location.path other) = .lt := by
  obtain ⟨glob, read⟩ : ∃ glob, Glob.ofText (relativeForm pattern) = .ok glob := by
    rw [← isOk_relativeForm here] at valid
    cases known : Glob.ofText (relativeForm pattern) with
    | ok glob => exact ⟨glob, rfl⟩
    | error fault =>
      rw [known] at valid
      cases valid
  have directory : files.tree.node? current = some .directory := by
    unfold FileSystem.current? at present
    split_ifs at present with held
    exact Option.some.inj present ▸ held
  obtain ⟨single, reads, member⟩ := mem_ofPattern_relative directory free here inert read
  have all : ∀ one ∈ [pattern], IsValid current one :=
    List.forall_mem_singleton.2 ((exists_ofPattern_iff files).1 ⟨single, reads⟩)
  obtain ⟨found, expanded⟩ := (exists_expand_iff present).2 all
  refine ⟨glob, found, read, expanded, fun location => ?_, pairwise_expand present expanded⟩
  rw [← member location, mem_of_expand present expanded]
  simp only [List.mem_singleton, exists_eq_left, reads, Except.ok.injEq, exists_eq_left']

/-- The files `/a/b.log` and `/a/c/d.log`, with `/a` as the current directory. -/
def localFiles : FileSystem := { sampleFiles with current := [[97]] }

/-- Files in the current directory and in one below it. -/
theorem expand_relative_sample :
    let pattern : String := " **/./*.log"
    let glob : Glob :=
      ⟨[.leading, .many, .literal '.', .literal 'l', .literal 'o', .literal 'g']⟩
    localFiles.current? = some [[97]] ∧ localFiles.tree.WithoutLinks ∧
      StartsHere (Text.trim pattern.toList) ∧ IsInertPath [[97]] ∧
      (Glob.ofText (Text.trim pattern.toList)).isOk = true ∧
      Glob.ofText (relativeForm pattern) = .ok glob ∧
      ∃ found, localFiles.expand [pattern] = .ok found ∧
        [[97], [98, 46, 108, 111, 103]] ∈ found ∧
        [[97], [99], [100, 46, 108, 111, 103]] ∈ found := by
  intro pattern glob
  have present : localFiles.current? = some [[97]] := by decide
  have trimmed : Text.trim pattern.toList = "**/./*.log".toList := by decide
  have here : StartsHere (Text.trim pattern.toList) := by
    rw [trimmed]
    exact ⟨by decide, by decide, by decide⟩
  have inert : IsInertPath [[97]] := ⟨['/', 'a'], rfl,
    List.forall_mem_cons.2 ⟨by decide, List.forall_mem_singleton.2 (by decide)⟩⟩
  have valid : (Glob.ofText (Text.trim pattern.toList)).isOk = true := by
    rw [trimmed]
    rfl
  have text : relativeForm pattern = "**/*.log".toList := by
    unfold relativeForm
    rw [trimmed]
    decide
  have read : Glob.ofText (relativeForm pattern) = .ok glob := by
    rw [text]
    rfl
  obtain ⟨known, found, reads, expanded, member, -⟩ :=
    expand_relative present sampleFiles_withoutLinks here (fun _ => inert) valid
  have same : known = glob := Except.ok.inj (reads.symm.trans read)
  rw [same] at member
  refine ⟨present, sampleFiles_withoutLinks, here, inert, valid, read, found, expanded, ?_, ?_⟩
  · exact (member _).2 ⟨[[98, 46, 108, 111, 103]], rfl, by decide,
      .inr ((Glob.covers_iff ..).1 (by decide))⟩
  · exact (member _).2 ⟨[[99], [100, 46, 108, 111, 103]], rfl, by decide,
      .inr ((Glob.covers_iff ..).1 (by decide))⟩

/-- The files of `localFiles` and `/[a]/b`, with `/[a]` as the current directory. -/
def bracketFiles : FileSystem :=
  ⟨(sampleFiles.tree.place? [[91, 97, 93], [98]] (.file [])).getD .bare, [[91, 97, 93]]⟩

theorem bracketFiles_withoutLinks : bracketFiles.tree.WithoutLinks := by
  intro location target held
  have member := SortedMap.mem_toList.2 held
  have known : bracketFiles.tree.nodes.toList = [([], .directory), ([[91, 97, 93]], .directory),
      ([[91, 97, 93], [98]], .file []), ([[97]], .directory),
      ([[97], [98, 46, 108, 111, 103]], .file []), ([[97], [99]], .directory),
      ([[97], [99], [100, 46, 108, 111, 103]], .file [])] := by decide
  rw [known] at member
  simp at member

theorem expand_eq_of_toOption {patterns : List String} {found : List Location}
    (result : (files.expand patterns).toOption = some found) :
    files.expand patterns = .ok found := by
  cases known : files.expand patterns with
  | ok other =>
    rw [known] at result
    exact congrArg Except.ok (Option.some.inj result)
  | error fault =>
    rw [known] at result
    cases result

/-- A relative pattern is not taken as it is written: with a slash written twice it still finds
files. Nor is the current directory, if its path has brackets: files elsewhere are found then. -/
theorem relative_patterns_not_as_written :
    (¬∀ (files : FileSystem) (current : Location) (pattern : String) (glob : Glob)
      (found : List Location), files.current? = some current → files.tree.WithoutLinks →
      StartsHere pattern.toList → IsInertPath current → Glob.ofText pattern.toList = .ok glob →
      files.expand [pattern] = .ok found →
      ∀ location, location ∈ found ↔
        ∃ way, location = current ++ way ∧ files.tree.isFile location = true ∧
          glob.Names (joined way)) ∧
    ¬∀ (files : FileSystem) (current : Location) (pattern : String) (glob : Glob)
      (found : List Location), files.current? = some current → files.tree.WithoutLinks →
      StartsHere pattern.toList → Glob.ofText pattern.toList = .ok glob →
      relativeForm pattern = pattern.toList → files.expand [pattern] = .ok found →
      ∀ location ∈ found, ∃ way, location = current ++ way := by
  constructor
  · intro as_written
    let pattern : String := "a//*.log"
    let glob : Glob := ⟨[.literal 'a', .literal '/', .literal '/', .many, .literal '.',
      .literal 'l', .literal 'o', .literal 'g']⟩
    let location : Location := [[97], [98, 46, 108, 111, 103]]
    have here : StartsHere pattern.toList := ⟨by decide, by decide, by decide⟩
    have inert : IsInertPath [] := ⟨['/'], rfl, List.forall_mem_singleton.2 (by decide)⟩
    have read : Glob.ofText "a//*.log".toList = .ok glob := by rfl
    have expanded : sampleFiles.expand [pattern] = .ok [location] :=
      expand_eq_of_toOption (by decide +kernel)
    obtain ⟨way, same, -, names⟩ := (as_written sampleFiles [] pattern glob [location] (by decide)
      sampleFiles_withoutLinks here inert read expanded location).1 List.mem_cons_self
    rcases names with alone | spanned
    · cases alone
    · obtain rfl : way = location := same.symm
      exact absurd ((Glob.covers_iff ..).2 spanned) (by decide)
  · intro below
    let pattern : String := "*.log"
    let glob : Glob := ⟨[.many, .literal '.', .literal 'l', .literal 'o', .literal 'g']⟩
    let location : Location := [[97], [98, 46, 108, 111, 103]]
    have here : StartsHere pattern.toList := ⟨by decide, by decide, by decide⟩
    have read : Glob.ofText "*.log".toList = .ok glob := by rfl
    have expanded : bracketFiles.expand [pattern] = .ok [location] :=
      expand_eq_of_toOption (by decide +kernel)
    obtain ⟨way, outside⟩ := below bracketFiles [[91, 97, 93]] pattern glob [location] (by decide)
      bracketFiles_withoutLinks here read (by decide) expanded location List.mem_cons_self
    exact absurd (List.cons.inj outside).1 (by decide)

end LogCensus.Expansion
