import LogCensus.Proofs.Scan.Groups

/-!
The loop that reads lines in groups does what is told of it without a loop. It hands over a group
only when it meets the next one, so where it stops early it has read one line more than it needed.
-/

namespace LogCensus.Scan

variable {terms : ScanTerms} {framing : Framing} {path : Path} {kind : String} {format : Format}
  {lines rest : List Line} {scan next : Scan} {group : List String} {ending : Option ScanEnd}

/-- The groups that are left to hand over when one of them is. -/
theorem consumedAfter_take {read : List String → Outcome}
    (ledger : Ledger terms read path kind lines scan) (wants : Wants terms read scan)
    (taken : scan.take terms group (read group) = (next, ending)) (groups : List (List String)) :
    consumedAfter terms read (scan.accepted terms read).length (group :: groups) =
        (group :: if ending.isSome then []
          else consumedAfter terms read (next.accepted terms read).length groups) ∧
      (ending = some .crashed ↔ crashes read group = true) := by
  have number := congrArg List.length (accepted_take terms read group scan)
  have verdict := take_ending ledger wants group
  rw [taken] at number verdict
  dsimp only at number verdict
  rw [List.length_append] at number
  rw [consumedAfter_cons wants, ← number, ← verdict]
  refine ⟨rfl, ?_⟩
  rw [verdict, endingAt, crashes]
  cases crash : (read group).isCrash with
  | true => simp
  | false => simp

theorem texts_append (lines more : List Line) :
    texts (lines ++ more) = texts lines ++ texts more := by
  rw [texts, List.filter_append, List.map_append]
  rfl

theorem isFull_eq_false {line : Line} (blank : Text.allBlank line.text.toList = true) :
    isFull line = false := by
  simp [isFull, blank]

theorem isFull_eq_true {line : Line} (full : ¬Text.allBlank line.text.toList = true) :
    isFull line = true := by
  simp [isFull, full]

theorem texts_cons_blank {line : Line} (blank : Text.allBlank line.text.toList = true) :
    texts (line :: rest) = texts rest := by
  have skipped : ¬isFull line = true := by simp [isFull_eq_false blank]
  rw [texts, texts, List.filter_cons_of_neg skipped]

theorem texts_cons_full {line : Line} (full : ¬Text.allBlank line.text.toList = true) :
    texts (line :: rest) = line.text :: texts rest := by
  rw [texts, texts, List.filter_cons_of_pos (isFull_eq_true full), List.map_cons]

theorem texts_readLine_blank {line : Line} (ahead : lines.drop scan.lines = line :: rest)
    (blank : Text.allBlank line.text.toList = true) :
    texts (lines.take (scan.readLine line).lines) = texts (lines.take scan.lines) := by
  rw [take_readLine ahead, texts_append, texts_cons_blank blank]
  exact List.append_nil _

theorem texts_readLine_full {line : Line} (ahead : lines.drop scan.lines = line :: rest)
    (full : ¬Text.allBlank line.text.toList = true) :
    texts (lines.take (scan.readLine line).lines) =
      texts (lines.take scan.lines) ++ [line.text] := by
  rw [take_readLine ahead, texts_append, texts_cons_full full]
  rfl

/-- The groups that the loop hands over from some point on. -/
theorem grouped_handed (calm : ∀ scan, terms.cancelled scan = false)
    (ledger : Ledger terms framing.read path kind lines scan)
    (wants : Wants terms framing.read scan) (ahead : lines.drop scan.lines = rest)
    (group : List String) :
    (grouped terms framing scan group rest).1.handed.reverse =
        scan.handed.reverse ++
          consumedAfter terms framing.read (scan.accepted terms framing.read).length
            (groupsFrom framing group (texts rest)) ∧
      ((grouped terms framing scan group rest).2 = .crashed ↔
        ∃ last ∈ consumedAfter terms framing.read (scan.accepted terms framing.read).length
            (groupsFrom framing group (texts rest)), crashes framing.read last = true) := by
  induction rest generalizing scan group with
  | nil =>
    have none : texts [] = [] := rfl
    unfold grouped
    rw [calm scan, none, groupsFrom]
    by_cases empty : group.isEmpty = true
    · rw [if_pos empty, if_pos empty, consumedAfter_nil]
      simp
    · rw [if_neg empty, if_neg empty]
      simp only [Bool.false_eq_true, if_false]
      cases taken : scan.take terms group.reverse (framing.read group.reverse) with
      | mk final ending =>
        obtain ⟨used, crash⟩ := consumedAfter_take ledger wants taken []
        obtain ⟨_, _, _, handed⟩ := ledger.took wants group.reverse taken
        rw [used, consumedAfter_nil, ite_self, handed, List.reverse_cons]
        refine ⟨rfl, ?_⟩
        cases ending with
        | none => simpa using crash
        | some ending => simpa using crash
  | cons line rest ih =>
    have more := ledger.readLine ahead
    have behind := drop_readLine ahead
    unfold grouped
    rw [calm scan]
    simp only [Bool.false_eq_true, if_false]
    by_cases blank : Text.allBlank line.text.toList = true
    · rw [if_pos blank, texts_cons_blank blank]
      exact ih more wants behind _
    · rw [if_neg blank, texts_cons_full blank, groupsFrom]
      by_cases cut : (framing.starts line.text && !group.isEmpty) = true
      · rw [if_pos cut, if_pos cut]
        split
        next final ending taken =>
          obtain ⟨used, crash⟩ := consumedAfter_take more wants taken
            (groupsFrom framing [line.text] (texts rest))
          obtain ⟨_, _, _, handed⟩ := more.took wants group.reverse taken
          rw [accepted_readLine, Option.isSome_some, if_pos rfl] at used
          rw [used, handed, handed_readLine, List.reverse_cons]
          refine ⟨rfl, ?_⟩
          simpa using crash
        next following taken =>
          obtain ⟨used, crash⟩ := consumedAfter_take more wants taken
            (groupsFrom framing [line.text] (texts rest))
          obtain ⟨after, wanting, reached, handed⟩ := more.took wants group.reverse taken
          obtain ⟨inner, verdict⟩ := ih after (wanting rfl) (reached ▸ behind) [line.text]
          have sound : crashes framing.read group.reverse = false := by simpa using crash
          simp only [accepted_readLine, Option.isSome_none, Bool.false_eq_true, if_false] at used
          rw [used, inner, handed, handed_readLine, List.reverse_cons, List.append_assoc]
          refine ⟨rfl, verdict.trans ?_⟩
          simp [sound]
      · rw [if_neg cut, if_neg cut]
        exact ih more wants behind _

/-! ### The lines read -/

theorem length_texts (lines : List Line) : (texts lines).length = lines.countP isFull := by
  rw [texts, List.length_map, List.countP_eq_length_filter]

theorem groupsFrom_ne_nil (text : String) (group texts : List String) :
    groupsFrom framing (text :: group) texts ≠ [] := by
  induction texts generalizing text group with
  | nil => simp [groupsFrom]
  | cons next rest ih =>
    unfold groupsFrom
    split
    · exact List.cons_ne_nil _ _
    · exact ih next (text :: group)

/-- The lines that the loop has read when it ends. -/
theorem grouped_lines (calm : ∀ scan, terms.cancelled scan = false)
    (ahead : lines.drop scan.lines = rest)
    (covered : texts (lines.take scan.lines) = scan.handed.reverse.flatten ++ group.reverse)
    (cut : groupsOf framing (texts lines) =
      scan.handed.reverse ++ groupsFrom framing group (texts rest)) :
    lines.take (grouped terms framing scan group rest).1.lines =
      linesRead framing lines (grouped terms framing scan group rest).1.handed.reverse := by
  induction rest generalizing scan group with
  | nil =>
    have none : texts [] = [] := rfl
    have whole : lines.take scan.lines = lines :=
      List.take_of_length_le (List.drop_eq_nil_iff.1 ahead)
    rw [none, groupsFrom] at cut
    unfold grouped linesRead
    rw [calm scan]
    by_cases empty : group.isEmpty = true
    · rw [if_pos empty, List.append_nil] at cut
      simp [empty, cut, whole]
    · rw [if_neg empty] at cut
      simp [empty, cut, whole, take_handed, take_lines]
  | cons line rest ih =>
    have behind := drop_readLine ahead
    have longer := take_readLine ahead
    unfold grouped
    rw [calm scan]
    simp only [Bool.false_eq_true, if_false]
    by_cases blank : Text.allBlank line.text.toList = true
    · rw [if_pos blank]
      rw [texts_cons_blank blank] at cut
      exact ih behind ((texts_readLine_blank ahead blank).trans covered) cut
    · have more := texts_readLine_full ahead blank
      rw [covered] at more
      rw [if_neg blank]
      rw [texts_cons_full blank, groupsFrom] at cut
      by_cases starts : (framing.starts line.text && !group.isEmpty) = true
      · rw [if_pos starts] at cut ⊢
        split
        next final ending taken =>
          -- The line that was read starts the next group, which is not handed over any more.
          obtain ⟨handed, reached⟩ := handed_of_take taken
          rw [handed_readLine] at handed
          have apart : final.handed.reverse ≠ groupsOf framing (texts lines) := by
            rw [cut, handed, List.reverse_cons, ne_eq, List.append_cancel_left_eq,
              List.cons_eq_cons, not_and]
            exact fun _ done => groupsFrom_ne_nil line.text [] (texts rest) done.symm
          have number : (lines.take scan.lines).countP isFull =
              final.handed.reverse.flatten.length := by
            rw [← length_texts, covered, handed, List.reverse_cons, List.flatten_append,
              List.flatten_singleton]
          have full := isFull_eq_true blank
          dsimp only
          rw [linesRead, if_neg apart, ← number, reached, longer]
          have parts : lines = lines.take scan.lines ++ line :: rest := by
            rw [← ahead, List.take_append_drop]
          have stop := through_append_cons (lines.take scan.lines) rest full
          rw [← parts] at stop
          exact stop.symm
        next following taken =>
          obtain ⟨handed, reached⟩ := handed_of_take taken
          rw [handed_readLine] at handed
          apply ih (reached ▸ behind)
          · rw [reached, more, handed, List.reverse_cons, List.flatten_append,
              List.flatten_singleton]
            rfl
          · rw [cut, handed, List.reverse_cons, List.append_assoc]
            rfl
      · rw [if_neg starts] at cut ⊢
        apply ih behind _ cut
        rw [more, handed_readLine, List.reverse_cons, List.append_assoc]

theorem octets_listFrom (front content : List UInt8) :
    (Line.listFrom front content).flatMap Line.octets = front.reverse ++ content := by
  induction content generalizing front with
  | nil =>
    unfold Line.listFrom
    cases front with
    | nil => rfl
    | cons octet front => simp
  | cons octet rest ih =>
    unfold Line.listFrom
    split
    · rw [List.flatMap_cons, ih]
      simp
    · rw [ih]
      simp

/-- The lines of a file take up all of it. -/
theorem octetsOf_list (content : List UInt8) : octetsOf (Line.list content) = content.length := by
  rw [octetsOf, Line.list, octets_listFrom]
  rfl

theorem run_framed (framed : format.framing = some framing) :
    run terms path format lines = grouped terms framing (.ofFile path format) [] lines := by
  simp only [run, framed]

theorem readGroup_framed (framed : format.framing = some framing) :
    format.readGroup = framing.read := by
  funext group
  simp only [Format.readGroup, framed]

/-- The groups that a scan that is never cancelled hands over. -/
theorem run_handed (calm : ∀ scan, terms.cancelled scan = false) (sound : terms.limit ≠ some 0)
    (framed : format.framing = some framing) (path : Path) (lines : List Line) :
    (run terms path format lines).1.handed.reverse =
        consumed terms framing.read (groupsOf framing (texts lines)) ∧
      ((run terms path format lines).2 = .crashed ↔
        ∃ group ∈ consumed terms framing.read (groupsOf framing (texts lines)),
          crashes framing.read group = true) := by
  have first := ledger_ofFile terms framing.read path format lines
  have wants := wants_ofFile framing.read path format sound
  have ahead : lines.drop (Scan.ofFile path format).lines = lines := rfl
  have whole := grouped_handed calm first wants ahead []
  rw [groupsFrom_nil] at whole
  rw [run_framed framed]
  exact whole

/-- The lines that it reads. -/
theorem run_lines (calm : ∀ scan, terms.cancelled scan = false)
    (framed : format.framing = some framing) (path : Path) (lines : List Line) :
    lines.take (run terms path format lines).1.lines =
      linesRead framing lines (run terms path format lines).1.handed.reverse := by
  rw [run_framed framed]
  apply grouped_lines calm rfl rfl
  rw [groupsFrom_nil]
  rfl

/-- A scan in groups that is never cancelled. The texts that are not blank are cut into groups, a
prefix of the groups is handed over in order, and the tally is that of the entries in it. If the
format does not crash, the prefix ends with the entry that makes up the limit, and the file is read
to its end or through the line after the prefix that shows its last group to be complete. -/
theorem grouped_follows_reference (filter : Filter) (limit : Option UInt64)
    (sound : limit ≠ some 0) (path : Path) (format : Format) (framing : Framing)
    (framed : format.framing = some framing) (content : List UInt8) :
    let terms : ScanTerms := { filter, limit }
    let lines := Line.list content
    let groups := groupsOf framing (texts lines)
    let used := consumed terms framing.read groups
    let scan := (run terms path format lines).1
    let octets := if used = groups then content.length
      else octetsOf (through isFull (used.flatten.length + 1) lines)
    IsCut framing (texts lines) groups ∧ used <+: groups ∧ scan.handed.reverse = used ∧
    scan.tally = .ofEntries path format.kind (acceptedOf filter framing.read used)
      (unreadableOf framing.read used) octets ∧
    ((run terms path format lines).2 = .crashed ↔
      ∃ group ∈ used, crashes framing.read group = true) ∧
    ((run terms path format lines).2 ≠ .crashed →
      used = upToLimit terms framing.read groups ∧
      scan.tally.entries =
        UInt64.ofNat (capped limit (groups.countP (accepts terms framing.read)))) := by
  intro terms lines groups used scan octets
  have calm (scan : Scan) : terms.cancelled scan = false := rfl
  obtain ⟨handed, crash⟩ := run_handed calm sound framed path lines
  have ledger := run_ledger terms sound path format lines
  rw [readGroup_framed framed] at ledger
  have counted : octetsOf (lines.take scan.lines) = octets := by
    rw [run_lines calm framed path lines, handed, linesRead]
    change octetsOf (if used = groups then lines else _) = if used = groups then _ else _
    by_cases whole : used = groups
    · rw [if_pos whole, if_pos whole, octetsOf_list]
    · rw [if_neg whole, if_neg whole]
  have tally : scan.tally = .ofEntries path format.kind (acceptedOf filter framing.read used)
      (unreadableOf framing.read used) octets := by
    rw [ledger.tally, accepted, handed, counted]
  refine ⟨isCut_groupsOf, consumed_isPrefix groups, handed, tally, crash, ?_⟩
  intro complete
  have whole (group : List String) (member : group ∈ used) :
      crashes framing.read group = false := by
    by_contra crashed
    exact complete (crash.2 ⟨group, member, by simpa using crashed⟩)
  have reached := consumed_of_sound whole
  refine ⟨reached, ?_⟩
  change _ = UInt64.ofNat (capped terms.limit (groups.countP (accepts terms framing.read)))
  rw [tally, ← countP_upToLimit, ← reached, ← length_acceptedOf]
  rfl

def sampleFraming : Framing where
  starts text := text == "e"
  read group := .entry { level := .error, kind := "sample", raw := "".intercalate group }

def sampleFormat : Format where
  kind := "sample"
  title := "Sample"
  probe _ := true
  read text := sampleFraming.read [text]
  framing := some sampleFraming

/-- An entry of two lines, a blank line, and two entries of one line. -/
def sampleContent : List UInt8 := [101, 10, 120, 10, 10, 101, 10, 101, 10]

theorem grouped_follows_reference_sample :
    some 1 ≠ some (0 : UInt64) ∧ sampleFormat.framing = some sampleFraming ∧
      (run { limit := some 1 } ⟨[]⟩ sampleFormat (Line.list sampleContent)).1.handed.reverse =
        [["e", "x"]] ∧
      (run { limit := some 1 } ⟨[]⟩ sampleFormat
        (Line.list sampleContent)).1.tally.bytesRead = 7 := by
  obtain ⟨_, _, handed, tally, _⟩ := grouped_follows_reference {} (some 1) (by decide) ⟨[]⟩
    sampleFormat sampleFraming rfl sampleContent
  exact ⟨by decide, rfl, handed.trans (by decide),
    (congrArg Tally.bytesRead tally).trans (by decide)⟩

end LogCensus.Scan
