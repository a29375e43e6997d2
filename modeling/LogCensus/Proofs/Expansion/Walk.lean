import LogCensus.Proofs.Expansion.Steps
import Mathlib.Data.List.TakeWhile

/-!
The walk below the literal front of a pattern. It starts where the steps without a wildcard lead and
goes no deeper than the pattern has steps, unless stars stand together; yet it finds every file of
the tree whose path the pattern stands for.
-/

namespace LogCensus.Expansion

open LogCensus.Path (slash pieces dot)
open Location (rooted octets)
open Text.Utf8 (encode)
open FileSystem (IsStep)

variable {files : FileSystem} {parts : List (List Char)} {glob : Glob} {location : Location}

theorem octets_of_isFile (held : files.tree.isFile location = true) :
    octets location = rooted location ∧ ∀ name ∈ location, slash ∉ name := by
  obtain ⟨content, node⟩ := FileTree.isFile_iff.1 held
  constructor
  · apply Location.octets_of_ne_nil
    rintro rfl
    have root : files.tree.node? [] = some .directory := files.tree.root_directory
    rw [root] at node
    cases node
  · exact fun name member =>
      (FileSystem.isStep_of_isName (FileTree.isName_of_mem node name member)).2.2.2

/-- Steps with a wildcard among them, parted in front of the first one that has one. -/
theorem exists_literalFront (wild : (parts.map encode).any hasWildcard = true) :
    ∃ front first rest, parts = front ++ first :: rest ∧
      literalFront (parts.map encode) = front.map encode ∧
      ∀ part ∈ front, hasWildcard (encode part) = false := by
  let literal (part : List Char) : Bool := !hasWildcard (encode part)
  have split : parts.takeWhile literal ++ parts.dropWhile literal = parts :=
    List.takeWhile_append_dropWhile
  have front : ∀ part ∈ parts.takeWhile literal, hasWildcard (encode part) = false := by
    intro part member
    have kept : (!hasWildcard (encode part)) = true :=
      List.all_eq_true.1 List.all_takeWhile part member
    rwa [Bool.not_eq_true'] at kept
  have same : literalFront (parts.map encode) = (parts.takeWhile literal).map encode := by
    rw [literalFront, List.takeWhile_map]
    rfl
  cases rest_eq : parts.dropWhile literal with
  | nil =>
    rw [rest_eq, List.append_nil] at split
    rw [List.any_map, List.any_eq_true] at wild
    obtain ⟨part, member, double⟩ := wild
    rw [Function.comp_apply, front part (split.symm ▸ member)] at double
    cases double
  | cons first rest => exact ⟨_, first, rest, (rest_eq ▸ split).symm, same, front⟩

/-- A file whose path a pattern stands for lies below the literal front of the pattern. -/
theorem below_literalFront (down : LeadDown parts)
    (wild : (parts.map encode).any hasWildcard = true)
    (read : Glob.ofText (written parts) = .ok glob) (held : files.tree.isFile location = true)
    (spanned : glob.Spans (octets location)) :
    ∃ way, way ≠ [] ∧ location = literalFront (parts.map encode) ++ way := by
  obtain ⟨own, free⟩ := octets_of_isFile held
  obtain ⟨front, first, rest, rfl, same, literal⟩ := exists_literalFront wild
  have text : written (front ++ first :: rest) = front.flatMap ('/' :: ·) ++
      '/' :: (first ++ rest.flatMap ('/' :: ·)) := by
    rw [written, if_neg (by simp), List.flatMap_append, List.flatMap_cons]
    rfl
  have plain : Glob.IsPlain ('/' :: (first ++ rest.flatMap ('/' :: ·))) :=
    (text ▸ down.isPlain_written).behind (front.flatMap ('/' :: ·))
  obtain ⟨more, below⟩ := Glob.spans_literal_front (isLiteral_of_mem_flatMap down.front literal)
    (plain.behind ['/']) (text ▸ read) spanned
  rw [own, encode_flatMap] at below
  rw [same]
  exact ⟨pieces more, Path.pieces_ne_nil more,
    Location.of_rooted_append down.front.free free below⟩

/-- A file whose path a pattern stands for lies no deeper than the pattern has steps, unless stars
stand together. -/
theorem length_le_of_depth (down : LeadDown parts) (nonempty : parts ≠ [])
    (read : Glob.ofText (written parts) = .ok glob) (held : files.tree.isFile location = true)
    (spanned : glob.Spans (octets location)) {most : Nat}
    (bounded : depth (parts.map encode) = some most) :
    location.length ≤ (literalFront (parts.map encode)).length + most := by
  obtain ⟨own, free⟩ := octets_of_isFile held
  obtain ⟨single, sum⟩ := of_depth_eq_some bounded
  have text : encode (written parts) = rooted (parts.map encode) := by
    rw [encode_written, Location.octets_of_ne_nil (by simpa using nonempty)]
  have apart : ¬['*', '*'] <:+: written parts := by
    intro stars
    have double := hasDoubleStar_of_infix stars
    rw [text, hasDoubleStar_rooted, single] at double
    cases double
  have few := Glob.slashesAtMost_of_ofText down.isPlain_written apart read _ spanned
  rw [own, text, Location.count_slash_rooted free, Location.count_slash_rooted down.free] at few
  omega

theorem mem_matching (free : files.tree.WithoutLinks) (down : LeadDown parts)
    (wild : (parts.map encode).any hasWildcard = true)
    (read : Glob.ofText (written parts) = .ok glob) :
    location ∈ matching files (parts.map encode) glob ↔
      files.tree.isFile location = true ∧ glob.Spans (octets location) := by
  have frontSteps : ∀ name ∈ literalFront (parts.map encode), IsStep name := fun name member =>
    down.isStep name ((List.takeWhile_prefix _).subset member)
  constructor
  · intro member
    unfold matching at member
    dsimp only at member
    split at member
    next => cases member
    next base found =>
      obtain rfl := FileSystem.eq_of_locate_path free frontSteps found
      split_ifs at member
      · cases member
      · obtain ⟨way, inside, rfl⟩ := List.mem_map.1 member
        obtain ⟨below, covered⟩ := List.mem_filter.1 inside
        exact ⟨(FileTree.mem_filesBelow.1 below).1, (Glob.covers_iff ..).1 covered⟩
  · rintro ⟨held, spanned⟩
    obtain ⟨way, nonempty, rfl⟩ := below_literalFront down wild read held spanned
    obtain ⟨content, node⟩ := FileTree.isFile_iff.1 held
    have directory := FileTree.directory_of_below nonempty node
    have near : (depth (parts.map encode)).all (way.length ≤ ·) = true := by
      cases bounded : depth (parts.map encode) with
      | none => rfl
      | some most =>
        have some : parts ≠ [] := by
          rintro rfl
          cases wild
        have le := length_le_of_depth down some read held spanned bounded
        rw [List.length_append] at le
        exact decide_eq_true (by omega)
    unfold matching
    dsimp only
    rw [FileSystem.locate_path directory nofun]
    dsimp only
    rw [FileTree.isFile_of_directory directory, if_neg Bool.false_ne_true]
    exact List.mem_map.2 ⟨way, List.mem_filter.2
      ⟨FileTree.mem_filesBelow.2 ⟨held, near⟩, (Glob.covers_iff ..).2 spanned⟩, rfl⟩

/-! ### Patterns without wildcards -/

theorem isLiteral_of_mem_written (down : LeadDown parts)
    (literal : (parts.map encode).any hasWildcard = false) :
    ∀ c ∈ written parts, Glob.IsLiteral c := by
  have each : ∀ part ∈ parts, hasWildcard (encode part) = false := fun part member =>
    Bool.eq_false_iff.2 (List.any_eq_false.1 literal (encode part) (List.mem_map_of_mem member))
  unfold written
  split_ifs
  · intro c member
    rw [List.mem_singleton.1 member]
    decide
  · exact isLiteral_of_mem_flatMap down each

theorem spans_iff_of_literal (down : LeadDown parts)
    (literal : (parts.map encode).any hasWildcard = false)
    (read : Glob.ofText (written parts) = .ok glob) {text : List UInt8} :
    glob.Spans text ↔ text = octets (parts.map encode) := by
  rw [Glob.spans_iff_of_literals (isLiteral_of_mem_written down literal) read, encode_written]

theorem mem_named (free : files.tree.WithoutLinks) (down : LeadDown parts)
    (literal : (parts.map encode).any hasWildcard = false)
    (read : Glob.ofText (written parts) = .ok glob) :
    location ∈ named files (parts.map encode) ↔
      files.tree.isFile location = true ∧ glob.Spans (octets location) := by
  rw [spans_iff_of_literal down literal read]
  constructor
  · intro member
    unfold named at member
    split at member
    next base found =>
      obtain rfl := FileSystem.eq_of_locate_path free down.isStep found
      split_ifs at member with held
      · rw [List.mem_singleton.1 member]
        exact ⟨held, rfl⟩
      · cases member
    next => cases member
  · rintro ⟨held, same⟩
    obtain ⟨content, node⟩ := FileTree.isFile_iff.1 held
    have names : ∀ name ∈ location, IsStep name := fun name member =>
      FileSystem.isStep_of_isName (FileTree.isName_of_mem node name member)
    obtain rfl := Location.octets_inj
      (fun name member => ⟨(names name member).1, (names name member).2.2.2⟩)
      (fun name member => ⟨(down.isStep name member).1, (down.isStep name member).2.2.2⟩) same
    unfold named
    rw [FileSystem.locate_path_of_isFile held]
    dsimp only
    rw [if_pos held]
    exact List.mem_singleton_self _

/-! ### Patterns -/

def stepsOf (current : Location) (pattern : String) : List (List UInt8) :=
  steps current (encode (Text.trim pattern.toList))

/-- The text of the steps of a pattern, which is what the pattern is read from. -/
def normalForm (current : Location) (pattern : String) : List Char :=
  Text.Utf8.decodeLossy (octets (stepsOf current pattern))

/-- A pattern names the files of the tree whose paths it stands for. -/
theorem mem_ofPattern {current : Location} {pattern : String} (free : files.tree.WithoutLinks)
    (descends : Descends (Text.trim pattern.toList))
    (read : Glob.ofText (normalForm current pattern) = .ok glob) :
    ∃ found, ofPattern files current pattern = .ok found ∧ ∀ location, location ∈ found ↔
      files.tree.isFile location = true ∧ glob.Spans (octets location) := by
  obtain ⟨parts, same, down⟩ := steps_of_descends descends current
  have wild := any_hasWildcard_ownSteps (encode (Text.trim pattern.toList))
  rw [← steps_eq descends current] at wild
  have nonempty : (Text.trim pattern.toList).isEmpty = false := by
    have absolute := descends.absolute
    cases known : Text.trim pattern.toList with
    | nil =>
      rw [known] at absolute
      cases absolute
    | cons c rest => rfl
  have text : Text.Utf8.decodeLossy (octets (parts.map encode)) = written parts := by
    rw [← encode_written, Text.Utf8.decodeLossy_encode]
  unfold normalForm stepsOf at read
  unfold ofPattern
  rw [same] at wild read
  dsimp only
  rw [nonempty, if_neg Bool.false_ne_true, same, read]
  rw [text] at read
  dsimp only
  cases known : hasWildcard (encode (Text.trim pattern.toList)) with
  | true =>
    rw [if_pos rfl]
    rw [known] at wild
    exact ⟨_, rfl, fun location => mem_matching free down wild read⟩
  | false =>
    rw [if_neg Bool.false_ne_true]
    rw [known] at wild
    exact ⟨_, rfl, fun location => mem_named free down wild read⟩

/-- A pattern from the root on finds the files of the tree whose paths it stands for, all of them, each
one once and in the order of their paths. -/
theorem expand_finds_all {current : Location} {pattern : String}
    (present : files.current? = some current) (free : files.tree.WithoutLinks)
    (descends : Descends (Text.trim pattern.toList))
    (read : Glob.ofText (normalForm current pattern) = .ok glob) :
    ∃ found, files.expand [pattern] = .ok found ∧
      (∀ location, location ∈ found ↔
        files.tree.isFile location = true ∧ glob.Spans (octets location)) ∧
      found.Pairwise fun one other =>
        (Location.path one).order (Location.path other) = .lt := by
  obtain ⟨named, reads, member⟩ := mem_ofPattern free descends read
  let set : SortedMap Location Unit :=
    [named].flatten.foldl (fun set location => set.insert location ()) ∅
  have expanded : files.expand [pattern] = .ok set.keys := by
    unfold FileSystem.expand
    simp only [present, List.mapM_cons, List.mapM_nil, reads]
    rfl
  have keys (location : Location) : location ∈ set.keys ↔
      files.tree.isFile location = true ∧ glob.Spans (octets location) := by
    rw [SortedMap.mem_keys_foldl_insert, List.flatten_singleton, ← member location]
    exact or_iff_right List.not_mem_nil
  have names (location : Location) (known : location ∈ set.keys) :
      ∀ name ∈ location, FileTree.isName name = true := by
    obtain ⟨content, node⟩ := FileTree.isFile_iff.1 ((keys location).1 known).1
    exact FileTree.isName_of_mem node
  refine ⟨set.keys, expanded, keys, ?_⟩
  exact set.pairwise_keys.imp_of_mem fun {one other} known knownOther before =>
    (Location.order_path (names one known) (names other knownOther)).trans before

/-- A tree with the files `/a/b.log` and `/a/c/d.log`. -/
def sampleFiles : FileSystem :=
  let locations : List Location :=
    [[[97], [98, 46, 108, 111, 103]], [[97], [99], [100, 46, 108, 111, 103]]]
  ⟨locations.foldl (fun tree location => (tree.place? location (.file [])).getD tree) .bare, []⟩

theorem sampleFiles_withoutLinks : sampleFiles.tree.WithoutLinks := by
  intro location target held
  have member := SortedMap.mem_toList.2 held
  have known : sampleFiles.tree.nodes.toList = [([], .directory), ([[97]], .directory),
      ([[97], [98, 46, 108, 111, 103]], .file []), ([[97], [99]], .directory),
      ([[97], [99], [100, 46, 108, 111, 103]], .file [])] := by decide
  rw [known] at member
  simp at member

/-- Files in a directory and in one below it. -/
theorem expand_finds_all_sample :
    let pattern : String := " /a//\x7b*,c/./*\x7d.log"
    let glob : Glob := ⟨[.literal '/', .literal 'a', .literal '/',
      .choice [[.many], [.literal 'c', .literal '/', .many]], .literal '.', .literal 'l',
      .literal 'o', .literal 'g']⟩
    sampleFiles.current? = some [] ∧ sampleFiles.tree.WithoutLinks ∧
      Descends (Text.trim pattern.toList) ∧ Glob.ofText (normalForm [] pattern) = .ok glob ∧
      ∃ found, sampleFiles.expand [pattern] = .ok found ∧
        [[97], [98, 46, 108, 111, 103]] ∈ found ∧
        [[97], [99], [100, 46, 108, 111, 103]] ∈ found := by
  intro pattern glob
  have present : sampleFiles.current? = some [] := by decide
  have trimmed : Text.trim pattern.toList = "/a//\x7b*,c/./*\x7d.log".toList := by decide
  have descends : Descends (Text.trim pattern.toList) := by
    rw [trimmed]
    exact ⟨rfl, by decide, by decide⟩
  have text : normalForm [] pattern = "/a/\x7b*,c/*\x7d.log".toList := by
    unfold normalForm stepsOf
    rw [trimmed]
    decide
  have read : Glob.ofText (normalForm [] pattern) = .ok glob := by
    rw [text]
    rfl
  obtain ⟨found, expanded, member, -⟩ :=
    expand_finds_all present sampleFiles_withoutLinks descends read
  refine ⟨present, sampleFiles_withoutLinks, descends, read, found, expanded, ?_, ?_⟩
  · exact (member _).2 ⟨by decide, (Glob.covers_iff ..).1 (by decide)⟩
  · exact (member _).2 ⟨by decide, (Glob.covers_iff ..).1 (by decide)⟩

/-- What is matched is the text of the steps: with a slash written twice a pattern still finds
files, though no path has two slashes in a row. -/
theorem expand_matches_normalForm :
    ¬∀ (files : FileSystem) (current : Location) (pattern : String) (glob : Glob)
      (found : List Location), files.current? = some current → files.tree.WithoutLinks →
      Descends pattern.toList → Glob.ofText pattern.toList = .ok glob →
      files.expand [pattern] = .ok found →
      ∀ location, location ∈ found ↔
        files.tree.isFile location = true ∧ glob.Spans (octets location) := by
  intro matches_raw
  let pattern : String := "/a//*.log"
  let glob : Glob := ⟨[.literal '/', .literal 'a', .literal '/', .literal '/', .many, .literal '.',
    .literal 'l', .literal 'o', .literal 'g']⟩
  let location : Location := [[97], [98, 46, 108, 111, 103]]
  have descends : Descends pattern.toList :=
    ⟨by decide, by decide, by decide⟩
  have read : Glob.ofText "/a//*.log".toList = .ok glob := by rfl
  have result : (sampleFiles.expand [pattern]).toOption = some [location] := by decide +kernel
  have expanded : sampleFiles.expand [pattern] = .ok [location] := by
    cases known : sampleFiles.expand [pattern] with
    | ok found =>
      rw [known] at result
      exact congrArg Except.ok (Option.some.inj result)
    | error fault =>
      rw [known] at result
      cases result
  have spanned := ((matches_raw sampleFiles [] pattern glob [location] (by decide)
    sampleFiles_withoutLinks descends read expanded location).1 List.mem_cons_self).2
  exact absurd ((Glob.covers_iff ..).2 spanned) (by decide)

end LogCensus.Expansion
