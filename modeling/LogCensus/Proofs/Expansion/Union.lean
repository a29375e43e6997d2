import LogCensus.Proofs.Expansion.Walk
import LogCensus.Proofs.Text.Blank

/-!
Several patterns together. Their expansion is the union of the expansions of the single patterns, so
it is settled by which patterns there are apart from blanks around them, and the paths of the files
found are patterns for the same files.
-/

namespace LogCensus.Expansion

open LogCensus.Path (slash pieces dot)
open Location (rooted octets)
open Text.Utf8 (encode encodeString)

/-! ### Reading one after the other -/

section Reading

variable {α β ε : Type} {read : α → Except ε β} {item : α} {items front : List α}

theorem mapM_cons_eq_ok {results : List β} : (item :: items).mapM read = .ok results ↔
    ∃ first more, read item = .ok first ∧ items.mapM read = .ok more ∧ results = first :: more := by
  rw [List.mapM_cons]
  cases read item with
  | error fault => simp [bind, Except.bind]
  | ok first =>
    cases items.mapM read with
    | error fault => simp [bind, Except.bind]
    | ok more => simp [bind, Except.bind, pure, Except.pure, eq_comm]

theorem exists_mapM_iff : (∃ results, items.mapM read = .ok results) ↔
    ∀ item ∈ items, ∃ result, read item = .ok result := by
  induction items with
  | nil => exact iff_of_true ⟨[], rfl⟩ (by simp)
  | cons item items ih =>
    rw [List.forall_mem_cons, ← ih]
    constructor
    · rintro ⟨results, whole⟩
      obtain ⟨first, more, head, tail, -⟩ := mapM_cons_eq_ok.1 whole
      exact ⟨⟨first, head⟩, more, tail⟩
    · rintro ⟨⟨first, head⟩, more, tail⟩
      exact ⟨first :: more, mapM_cons_eq_ok.2 ⟨first, more, head, tail, rfl⟩⟩

/-- The first item that cannot be read ends it, whatever follows. -/
theorem mapM_eq_error {bad : α} {fault : ε}
    (readable : ∀ item ∈ front, ∃ result, read item = .ok result)
    (unreadable : read bad = .error fault) (rest : List α) :
    (front ++ bad :: rest).mapM read = .error fault := by
  induction front with
  | nil =>
    rw [List.nil_append, List.mapM_cons, unreadable]
    rfl
  | cons item front ih =>
    obtain ⟨⟨first, head⟩, others⟩ := List.forall_mem_cons.1 readable
    rw [List.cons_append, List.mapM_cons, head, ih others]
    rfl

theorem mem_flatten_of_mapM {γ : Type} {read : α → Except ε (List γ)} {results : List (List γ)}
    (whole : items.mapM read = .ok results) {value : γ} :
    value ∈ results.flatten ↔
      ∃ item ∈ items, ∃ result, read item = .ok result ∧ value ∈ result := by
  induction items generalizing results with
  | nil =>
    cases whole
    simp
  | cons item items ih =>
    obtain ⟨first, more, head, tail, rfl⟩ := mapM_cons_eq_ok.1 whole
    rw [List.flatten_cons, List.mem_append, ih tail]
    simp only [List.mem_cons, exists_eq_or_imp, head, Except.ok.injEq, exists_eq_left']

end Reading

/-! ### Sets of locations -/

def collected (locations : List Location) : List Location :=
  let set : SortedMap Location Unit :=
    locations.foldl (fun set location => set.insert location ()) ∅
  set.keys

theorem mem_collected {locations : List Location} {location : Location} :
    location ∈ collected locations ↔ location ∈ locations := by
  rw [collected, SortedMap.mem_keys_foldl_insert]
  exact or_iff_right List.not_mem_nil

theorem collected_congr {one other : List Location}
    (same : ∀ location, location ∈ one ↔ location ∈ other) : collected one = collected other := by
  apply congrArg SortedMap.keys
  apply SortedMap.ext_keys
  intro location
  rw [SortedMap.mem_keys_foldl_insert, SortedMap.mem_keys_foldl_insert, same]

theorem collected_collected (locations : List Location) :
    collected (collected locations) = collected locations :=
  collected_congr fun _ => mem_collected

theorem pairwise_collected {locations : List Location}
    (names : ∀ location ∈ locations, ∀ name ∈ location, FileTree.isName name = true) :
    (collected locations).Pairwise fun one other =>
      (Location.path one).order (Location.path other) = .lt :=
  (SortedMap.pairwise_keys _).imp_of_mem fun {one other} known knownOther before =>
    (Location.order_path (names one (mem_collected.1 known))
      (names other (mem_collected.1 knownOther))).trans before

/-! ### Single patterns -/

variable {files : FileSystem} {current : Location} {pattern other : String}
  {single found : List Location} {location : Location}

/-- Whether a pattern can be read: with a wildcard in it, it has to be a glob from the root on. -/
def IsValid (current : Location) (pattern : String) : Prop :=
  hasWildcard (encode (Text.trim pattern.toList)) = true →
    ∃ glob, Glob.ofText (normalForm current pattern) = .ok glob

theorem hasWildcard_of_trim_eq_nil (blank : Text.trim pattern.toList = []) :
    hasWildcard (encode (Text.trim pattern.toList)) = false := by
  rw [blank]
  rfl

theorem trim_eq_of_trimmed_eq (same : Text.trimmed pattern = Text.trimmed other) :
    Text.trim pattern.toList = Text.trim other.toList := by
  have texts := congrArg String.toList same
  rwa [Text.trimmed, Text.trimmed, String.toList_ofList, String.toList_ofList] at texts

theorem ofPattern_congr (same : Text.trimmed pattern = Text.trimmed other) :
    ofPattern files current pattern = ofPattern files current other := by
  unfold ofPattern
  rw [trim_eq_of_trimmed_eq same]

theorem ofPattern_blank (blank : Text.trimmed pattern = "") :
    ofPattern files current pattern = .ok [] := by
  have none : Text.trim pattern.toList = [] := by
    have texts := congrArg String.toList blank
    rwa [Text.trimmed, String.toList_ofList] at texts
  unfold ofPattern
  rw [none]
  rfl

/-- A pattern that can be read finds locations, any other one names its fault. -/
theorem ofPattern_verdict (files : FileSystem) (current : Location) (pattern : String) :
    (IsValid current pattern ∧ ∃ single, ofPattern files current pattern = .ok single) ∨
      (¬IsValid current pattern ∧ ∃ fault, Glob.ofText (normalForm current pattern) = .error fault ∧
        ofPattern files current pattern =
          .error (.invalidPattern (Text.trimmed pattern) fault)) := by
  unfold IsValid normalForm stepsOf ofPattern
  dsimp only
  split_ifs with blank wild
  · refine .inl ⟨fun wild => ?_, [], rfl⟩
    rw [hasWildcard_of_trim_eq_nil (List.isEmpty_iff.1 blank)] at wild
    cases wild
  · cases Glob.ofText (Text.Utf8.decodeLossy
      (octets (steps current (encode (Text.trim pattern.toList))))) with
    | ok glob => exact .inl ⟨fun _ => ⟨glob, rfl⟩, _, rfl⟩
    | error fault =>
      refine .inr ⟨fun valid => ?_, fault, rfl, rfl⟩
      obtain ⟨glob, read⟩ := valid wild
      cases read
  · exact .inl ⟨fun found => absurd found wild, _, rfl⟩

theorem exists_ofPattern_iff (files : FileSystem) :
    (∃ single, ofPattern files current pattern = .ok single) ↔ IsValid current pattern := by
  rcases ofPattern_verdict files current pattern with ⟨valid, found⟩ | ⟨invalid, fault, -, failed⟩
  · exact iff_of_true found valid
  · refine iff_of_false ?_ invalid
    rintro ⟨single, found⟩
    cases failed.symm.trans found

theorem isFile_of_mem_ofPattern (found : ofPattern files current pattern = .ok single)
    (member : location ∈ single) : files.tree.isFile location = true := by
  unfold ofPattern at found
  dsimp only at found
  split_ifs at found
  · cases found
    exact absurd member List.not_mem_nil
  · split at found
    next glob read =>
      cases found
      unfold matching at member
      dsimp only at member
      split at member
      next => exact absurd member List.not_mem_nil
      next base known =>
        split_ifs at member
        · exact absurd member List.not_mem_nil
        · obtain ⟨way, inside, rfl⟩ := List.mem_map.1 member
          exact (FileTree.mem_filesBelow.1 (List.mem_filter.1 inside).1).1
    next => cases found
  · cases found
    unfold named at member
    split at member
    next known =>
      split_ifs at member with held
      · exact List.mem_singleton.1 member ▸ held
      · exact absurd member List.not_mem_nil
    next => exact absurd member List.not_mem_nil

/-! ### Paths as patterns -/

/-- The steps of the path of a location are its names. -/
theorem steps_octets (held : files.tree.isFile location = true) (current : Location) :
    steps current (octets location) = location := by
  obtain ⟨own, free⟩ := octets_of_isFile held
  obtain ⟨content, node⟩ := FileTree.isFile_iff.1 held
  have head : (octets location).head? = some slash := by cases location <;> rfl
  have kept : location.filter (fun piece => piece != [] && piece != [dot]) = location := by
    refine List.filter_eq_self.2 fun name member => ?_
    obtain ⟨nonempty, here, -⟩ := Location.isName_iff.1 (FileTree.isName_of_mem node name member)
    rw [Bool.and_eq_true, bne_iff_ne, bne_iff_ne]
    exact ⟨nonempty, here⟩
  rw [steps, if_pos head, own, Location.pieces_rooted free, List.filter_cons_of_neg (by simp), kept]

/-- The path of a location is a pattern for that location, without blanks at its end and without
wildcards. -/
theorem ofPattern_path (held : files.tree.isFile location = true)
    (text : Path.ofString pattern = Location.path location)
    (literal : hasWildcard (encodeString pattern) = false)
    (solid : ∀ c ∈ pattern.toList.getLast?, Text.isBlank c = false) :
    ofPattern files current pattern = .ok [location] := by
  have same : encode pattern.toList = octets location := congrArg Path.octets text
  have head : (octets location).head? = some slash := by cases location <;> rfl
  have first : pattern.toList.head? = some '/' := by
    cases known : pattern.toList with
    | nil =>
      rw [known] at same
      cases location <;> cases same
    | cons c rest =>
      have inside : slash ∈ Text.Utf8.encodeChar c := by
        have ahead : (Text.Utf8.encodeChar c).head? = some slash := by
          have whole : encode (c :: rest) = Text.Utf8.encodeChar c ++ encode rest := rfl
          rwa [← same, known, whole,
            List.head?_append_of_ne_nil _ (Text.Utf8.encodeChar_ne_nil c)] at head
        exact List.mem_of_mem_head? ahead
      exact congrArg some (Char.toNat_inj.1 (Text.Utf8.of_mem_encodeChar (by decide) inside).1.symm)
  have trimmed : Text.trim pattern.toList = pattern.toList := by
    refine Text.trim_solid (fun c member => ?_) solid
    rw [first] at member
    cases member
    decide
  have nonempty : pattern.toList.isEmpty = false := by
    rw [Bool.eq_false_iff, ne_eq, List.isEmpty_iff]
    intro none
    rw [none] at first
    cases first
  unfold ofPattern
  dsimp only
  rw [trimmed, nonempty, if_neg Bool.false_ne_true, ← encodeString, literal,
    if_neg Bool.false_ne_true, encodeString, same, steps_octets held, named,
    FileSystem.locate_path_of_isFile held]
  dsimp only
  rw [if_pos held]

/-! ### Several patterns -/

variable {patterns others : List String}

theorem expand_eq_ok (present : files.current? = some current) :
    files.expand patterns = .ok found ↔ ∃ each,
      patterns.mapM (ofPattern files current) = .ok each ∧ found = collected each.flatten := by
  unfold FileSystem.expand
  rw [present]
  dsimp only
  cases patterns.mapM (ofPattern files current) with
  | error fault => simp [bind, Except.bind]
  | ok each =>
    simp only [bind, Except.bind, Except.ok.injEq, exists_eq_left', eq_comm (b := found)]
    rfl

theorem exists_expand_iff (present : files.current? = some current) :
    (∃ found, files.expand patterns = .ok found) ↔
      ∀ pattern ∈ patterns, IsValid current pattern := by
  simp only [expand_eq_ok present, ← exists_ofPattern_iff files, ← exists_mapM_iff]
  constructor
  · rintro ⟨found, each, whole, -⟩
    exact ⟨each, whole⟩
  · rintro ⟨each, whole⟩
    exact ⟨_, each, whole, rfl⟩

theorem mem_of_expand (present : files.current? = some current)
    (expanded : files.expand patterns = .ok found) :
    location ∈ found ↔ ∃ pattern ∈ patterns, ∃ single,
      ofPattern files current pattern = .ok single ∧ location ∈ single := by
  obtain ⟨each, whole, rfl⟩ := (expand_eq_ok present).1 expanded
  rw [mem_collected, mem_flatten_of_mapM whole]

/-- Patterns that find the same locations are expanded to the same list. -/
theorem expand_congr (present : files.current? = some current)
    (expanded : files.expand patterns = .ok found)
    (valid : ∀ pattern ∈ others, IsValid current pattern)
    (same : ∀ location, (∃ pattern ∈ others, ∃ single,
      ofPattern files current pattern = .ok single ∧ location ∈ single) ↔ location ∈ found) :
    files.expand others = .ok found := by
  obtain ⟨known, alike⟩ := (exists_expand_iff present).2 valid
  obtain ⟨each, whole, rfl⟩ := (expand_eq_ok present).1 expanded
  obtain ⟨otherEach, otherWhole, rfl⟩ := (expand_eq_ok present).1 alike
  rw [alike, ← collected_collected each.flatten]
  apply congrArg Except.ok
  apply collected_congr
  intro location
  rw [mem_flatten_of_mapM otherWhole, same]

theorem mem_expand_iff_single (present : files.current? = some current)
    (expanded : files.expand patterns = .ok found) :
    location ∈ found ↔ ∃ pattern ∈ patterns, ∃ single,
      files.expand [pattern] = .ok single ∧ location ∈ single := by
  rw [mem_of_expand present expanded]
  refine exists_congr fun pattern => and_congr_right fun member => ?_
  constructor
  · rintro ⟨single, own, inside⟩
    have valid : ∀ one ∈ [pattern], IsValid current one :=
      List.forall_mem_singleton.2 ((exists_ofPattern_iff files).1 ⟨single, own⟩)
    obtain ⟨alone, alike⟩ := (exists_expand_iff present).2 valid
    exact ⟨alone, alike, (mem_of_expand present alike).2 ⟨pattern, by simp, single, own, inside⟩⟩
  · rintro ⟨alone, alike, inside⟩
    obtain ⟨one, single, found, known⟩ := (mem_of_expand present alike).1 inside
    rw [List.mem_singleton] at single
    exact single ▸ ⟨found, known⟩

/-- Patterns are taken without the blanks around them, and blank ones do not count. -/
theorem expand_of_same_trimmed (present : files.current? = some current)
    (expanded : files.expand patterns = .ok found)
    (same : ∀ text ≠ "", (∃ pattern ∈ others, Text.trimmed pattern = text) ↔
      ∃ pattern ∈ patterns, Text.trimmed pattern = text) : files.expand others = .ok found := by
  have readable := (exists_expand_iff present).1 ⟨found, expanded⟩
  refine expand_congr present expanded (fun other member => ?_) fun location => ?_
  · rw [← exists_ofPattern_iff files]
    by_cases blank : Text.trimmed other = ""
    · exact ⟨[], ofPattern_blank blank⟩
    · obtain ⟨pattern, known, alike⟩ := (same _ blank).1 ⟨other, member, rfl⟩
      rw [← ofPattern_congr alike]
      exact (exists_ofPattern_iff files).2 (readable pattern known)
  · -- one direction for each of the two lists: a pattern that finds something is not blank
    rw [mem_of_expand present expanded]
    have carried {some more : List String} (covered : ∀ text ≠ "",
        (∃ pattern ∈ some, Text.trimmed pattern = text) →
          ∃ pattern ∈ more, Text.trimmed pattern = text)
        (finds : ∃ pattern ∈ some, ∃ single, ofPattern files current pattern = .ok single ∧
          location ∈ single) : ∃ pattern ∈ more, ∃ single,
            ofPattern files current pattern = .ok single ∧ location ∈ single := by
      obtain ⟨pattern, member, single, own, inside⟩ := finds
      by_cases blank : Text.trimmed pattern = ""
      · rw [ofPattern_blank blank] at own
        cases own
        exact absurd inside List.not_mem_nil
      · obtain ⟨other, known, alike⟩ := covered _ blank ⟨pattern, member, rfl⟩
        exact ⟨other, known, single, (ofPattern_congr alike).trans own, inside⟩
    exact ⟨carried fun text solid => (same text solid).1,
      carried fun text solid => (same text solid).2⟩

theorem isFile_of_mem_expand (present : files.current? = some current)
    (expanded : files.expand patterns = .ok found) (member : location ∈ found) :
    files.tree.isFile location = true := by
  obtain ⟨pattern, -, single, own, inside⟩ := (mem_of_expand present expanded).1 member
  exact isFile_of_mem_ofPattern own inside

/-- The paths of the files that are found are patterns for these files. -/
theorem expand_paths (present : files.current? = some current)
    (expanded : files.expand patterns = .ok found)
    (paths : others.map Path.ofString = found.map Location.path)
    (plain : ∀ path ∈ others, hasWildcard (encodeString path) = false ∧
      ∀ c ∈ path.toList.getLast?, Text.isBlank c = false) : files.expand others = .ok found := by
  have reads {path : String} (member : path ∈ others) :
      ∃ location ∈ found, ofPattern files current path = .ok [location] := by
    have known : Path.ofString path ∈ found.map Location.path := paths ▸ List.mem_map_of_mem member
    obtain ⟨location, inside, same⟩ := List.mem_map.1 known
    have held := isFile_of_mem_expand present expanded inside
    obtain ⟨literal, solid⟩ := plain path member
    exact ⟨location, inside, ofPattern_path held same.symm literal solid⟩
  refine expand_congr present expanded (fun path member => ?_) fun location =>
    ⟨?_, fun inside => ?_⟩
  · obtain ⟨location, -, own⟩ := reads member
    exact (exists_ofPattern_iff files).1 ⟨_, own⟩
  · rintro ⟨path, member, single, own, inside⟩
    obtain ⟨other, known, alone⟩ := reads member
    cases own.symm.trans alone
    exact List.mem_singleton.1 inside ▸ known
  · have known : Location.path location ∈ others.map Path.ofString :=
      paths ▸ List.mem_map_of_mem inside
    obtain ⟨path, member, same⟩ := List.mem_map.1 known
    have held := isFile_of_mem_expand present expanded inside
    obtain ⟨literal, solid⟩ := plain path member
    exact ⟨path, member, _, ofPattern_path held same literal solid,
      List.mem_singleton_self location⟩

/-- The first pattern that cannot be read is named, whatever the others find. -/
theorem expand_eq_error {front rest : List String} {bad : String}
    (present : files.current? = some current)
    (valid : ∀ pattern ∈ front, IsValid current pattern) (invalid : ¬IsValid current bad) :
    ∃ fault, Glob.ofText (normalForm current bad) = .error fault ∧
      files.expand (front ++ bad :: rest) =
        .error (.invalidPattern (Text.trimmed bad) fault) := by
  rcases ofPattern_verdict files current bad with ⟨readable, -⟩ | ⟨-, fault, read, failed⟩
  · exact absurd readable invalid
  · have ended := mapM_eq_error
      (fun pattern member => (exists_ofPattern_iff files).2 (valid pattern member)) failed rest
    refine ⟨fault, read, ?_⟩
    unfold FileSystem.expand
    rw [present]
    dsimp only
    rw [ended]
    rfl

theorem pairwise_expand (present : files.current? = some current)
    (expanded : files.expand patterns = .ok found) :
    found.Pairwise fun one other => (Location.path one).order (Location.path other) = .lt := by
  have names : ∀ location ∈ found, ∀ name ∈ location, FileTree.isName name = true := by
    intro location member
    obtain ⟨content, node⟩ :=
      FileTree.isFile_iff.1 (isFile_of_mem_expand present expanded member)
    exact FileTree.isName_of_mem node
  obtain ⟨each, whole, rfl⟩ := (expand_eq_ok present).1 expanded
  exact pairwise_collected fun location member => names location (mem_collected.2 member)

/-- Patterns are expanded exactly if each of them can be read; otherwise the first one that cannot
be is named, whatever the others find. What is found is in the order of the paths, each one the path
of a file that leads to it without a link, and it is the union of what the single patterns find. So
it is the same for any patterns that are those apart from blanks around them and from blank ones, in
any order and number, and for the paths that are found if these are without wildcards and without
blanks at their ends. -/
theorem expand_is_union (present : files.current? = some current) :
    (∀ patterns, (∃ found, files.expand patterns = .ok found) ↔
      ∀ pattern ∈ patterns, IsValid current pattern) ∧
    (∀ front bad rest, (∀ pattern ∈ front, IsValid current pattern) → ¬IsValid current bad →
      ∃ fault, Glob.ofText (normalForm current bad) = .error fault ∧
        files.expand (front ++ bad :: rest) =
          .error (.invalidPattern (Text.trimmed bad) fault)) ∧
    ∀ patterns found, files.expand patterns = .ok found →
      (found.Pairwise fun one other =>
        (Location.path one).order (Location.path other) = .lt) ∧
      (∀ location ∈ found, files.tree.isFile location = true ∧
        files.locate (Location.path location) = .ok location) ∧
      (∀ location, location ∈ found ↔ ∃ pattern ∈ patterns, ∃ single,
        files.expand [pattern] = .ok single ∧ location ∈ single) ∧
      (∀ others : List String, (∀ text ≠ "", (∃ pattern ∈ others, Text.trimmed pattern = text) ↔
        ∃ pattern ∈ patterns, Text.trimmed pattern = text) → files.expand others = .ok found) ∧
      ∀ paths : List String, paths.map Path.ofString = found.map Location.path →
        (∀ path ∈ paths, hasWildcard (encodeString path) = false ∧
          ∀ c ∈ path.toList.getLast?, Text.isBlank c = false) →
        files.expand paths = .ok found := by
  refine ⟨fun patterns => exists_expand_iff present,
    fun front bad rest valid invalid => expand_eq_error present valid invalid,
    fun patterns found expanded => ⟨pairwise_expand present expanded, fun location member => ?_,
      fun location => mem_expand_iff_single present expanded,
      fun others => expand_of_same_trimmed present expanded,
      fun paths => expand_paths present expanded⟩⟩
  have held := isFile_of_mem_expand present expanded member
  exact ⟨held, FileSystem.locate_path_of_isFile held⟩

/-- The files `/a/b.log` and `/a/c/d.log`, a link `/l` to the directory of the first one, and that
directory as the current one. -/
def linkedFiles : FileSystem :=
  ⟨(sampleFiles.tree.place? [[108]] (.link (Path.ofString "a"))).getD .bare, [[97]]⟩

/-- A file is found once, by a glob, through a link and by a relative path, and by its own path. -/
theorem expand_is_union_sample :
    let patterns := [" /a/*.log ", "/l/./b.log", "", "c/d.log", "b.log"]
    let found : List Location :=
      [[[97], [98, 46, 108, 111, 103]], [[97], [99], [100, 46, 108, 111, 103]]]
    linkedFiles.current? = some [[97]] ∧ linkedFiles.expand patterns = .ok found ∧
      linkedFiles.expand ["c/d.log", "/a/*.log", "/l/./b.log", "\tb.log", "c/d.log"] = .ok found ∧
      linkedFiles.expand ["/a/b.log", "/a/c/d.log"] = .ok found := by
  intro patterns found
  have present : linkedFiles.current? = some [[97]] := by decide
  have result : (linkedFiles.expand patterns).toOption = some found := by decide +kernel
  have expanded : linkedFiles.expand patterns = .ok found := by
    cases known : linkedFiles.expand patterns with
    | ok other =>
      rw [known] at result
      exact congrArg Except.ok (Option.some.inj result)
    | error fault =>
      rw [known] at result
      cases result
  obtain ⟨-, -, -, others, paths⟩ := (expand_is_union present).2.2 _ _ expanded
  have plain : ∀ path ∈ ["/a/b.log", "/a/c/d.log"], hasWildcard (encodeString path) = false ∧
      ∀ c ∈ path.toList.getLast?, Text.isBlank c = false := by
    have ends : ∀ path ∈ ["/a/b.log", "/a/c/d.log"], hasWildcard (encodeString path) = false ∧
        path.toList.getLast? = some 'g' := by decide
    intro path member
    obtain ⟨literal, last⟩ := ends path member
    refine ⟨literal, fun c known => ?_⟩
    rw [last] at known
    cases known
    decide
  refine ⟨present, expanded, others _ fun text solid => ?_, paths _ (by decide) plain⟩
  have once : patterns.map Text.trimmed =
      ["/a/*.log", "/l/./b.log", "", "c/d.log", "b.log"] := by decide
  have again : ["c/d.log", "/a/*.log", "/l/./b.log", "\tb.log", "c/d.log"].map Text.trimmed =
      ["c/d.log", "/a/*.log", "/l/./b.log", "b.log", "c/d.log"] := by decide
  have alike (a b c d : String) :
      (text = a ∨ text = b ∨ text = c ∨ text = d ∨ text = a) ↔
        text = b ∨ text = c ∨ text = a ∨ text = d := by
    simp only [or_comm, or_left_comm, or_self_left]
  rw [← List.mem_map, ← List.mem_map, once, again]
  simp only [List.mem_cons, List.not_mem_nil, or_false, solid, false_or]
  exact alike _ _ _ _

end LogCensus.Expansion
