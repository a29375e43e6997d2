import LogCensus.Proofs.Scan.Single

/-!
Scanning a file that was cut in two. Where the first part ends with a line and no entry goes on
behind the cut, the tally of the whole is the sum of the tallies of its parts, so nothing that is
counted shows when a log was rotated.
-/

namespace LogCensus

/-! ### Lines of joined contents -/

namespace Line

theorem listFrom_append {front content : List UInt8} (more : List UInt8)
    (ended : content.getLast? = some lineFeed) :
    listFrom front (content ++ more) = listFrom front content ++ list more := by
  induction content generalizing front with
  | nil => cases ended
  | cons octet rest ih =>
    by_cases last : rest = []
    · subst last
      obtain rfl : octet = lineFeed := by simpa using ended
      rfl
    · rw [List.getLast?_cons_of_ne_nil last] at ended
      rw [List.cons_append, listFrom, listFrom]
      split
      · rw [ih ended, List.cons_append]
      · rw [ih ended]

/-- A content that is empty or ends with a line feed leaves the lines behind it as they are. -/
theorem list_append {content : List UInt8} (more : List UInt8)
    (ended : content = [] ∨ content.getLast? = some lineFeed) :
    list (content ++ more) = list content ++ list more := by
  rcases ended with rfl | ended
  · rfl
  · exact listFrom_append more ended

end Line

/-! ### Sums of tallies -/

namespace Tally

def plus (tally other : Tally) : Tally :=
  { tally with
    bytesRead := tally.bytesRead + other.bytesRead
    entries := tally.entries + other.entries
    errors := tally.errors + other.errors
    unreadable := tally.unreadable + other.unreadable
    byLevel := tally.byLevel.union other.byLevel
    byKind := tally.byKind.union other.byKind
    first := tally.first.merge min other.first
    last := tally.last.merge max other.last }

theorem ofEntries_append (path : Path) (format : String) (entries more : List Entry)
    (unreadable refused octets length : Nat) :
    ofEntries path format (entries ++ more) (unreadable + refused) (octets + length) =
      (ofEntries path format entries unreadable octets).plus
        (ofEntries path format more refused length) := by
  simp only [ofEntries, plus, UInt64.ofNat_add, List.length_append, List.countP_append,
    List.map_append, Counts.ofKeys_append, DateRange.earliestOf_eq, DateRange.latestOf_eq,
    mergeAll_append]

end Tally

namespace Scan

variable {format : Format}

/-! ### Scans without a limit -/

def handedGroups (format : Format) (lines : List Line) : List (List String) :=
  match format.framing with
  | none => (texts lines).map ([·])
  | some framing => groupsOf framing (texts lines)

/-- A scan without a limit goes through all lines, unless the format crashes at one of the groups. -/
theorem run_unlimited (filter : Filter) (path : Path) (format : Format) (lines : List Line) :
    let outcome := run { filter } path format lines
    let groups := handedGroups format lines
    (outcome.2 = .crashed ↔ ∃ group ∈ groups, crashes format.readGroup group = true) ∧
    (outcome.2 ≠ .crashed →
      outcome.1.tally = .ofEntries path format.kind (acceptedOf filter format.readGroup groups)
        (unreadableOf format.readGroup groups) (octetsOf lines)) := by
  intro outcome groups
  let terms : ScanTerms := { filter }
  have calm (scan : Scan) : terms.cancelled scan = false := rfl
  have sound : terms.limit ≠ some 0 := Option.some_ne_none 0 |>.symm
  have ledger : outcome.1.tally = _ := (run_ledger terms sound path format lines).tally
  cases framed : format.framing with
  | none =>
    have groups_eq : groups = (texts lines).map ([·]) := by simp only [groups, handedGroups, framed]
    obtain ⟨crash, reached⟩ := run_lines_singly calm sound framed path lines
    have whole : reaching terms.limit (gives terms.filter format.read) 0 lines = lines := rfl
    rw [whole] at crash reached
    rw [groups_eq, readGroup_unframed framed]
    refine ⟨?_, fun complete => ?_⟩
    · rw [crash]
      simp [texts, breaks, crashes, single, and_assoc]
    · have handed := run_handed_singly terms framed path lines
      rw [reached complete] at handed
      rw [ledger, accepted, handed, reached complete, readGroup_unframed framed]
  | some framing =>
    have groups_eq : groups = groupsOf framing (texts lines) := by
      simp only [groups, handedGroups, framed]
    obtain ⟨handed, crash⟩ := run_handed calm sound framed path lines
    have unlimited : consumed terms framing.read groups = through (crashes framing.read) 1 groups :=
      rfl
    rw [← groups_eq, unlimited] at handed crash
    rw [readGroup_framed framed]
    refine ⟨crash.trans exists_mem_through_one, fun complete => ?_⟩
    have unbroken : ∀ group ∈ through (crashes framing.read) 1 groups,
        crashes framing.read group = false := by
      intro group member
      by_contra crashed
      exact complete (crash.2 ⟨group, member, by simpa using crashed⟩)
    rw [through_one_eq_self unbroken] at handed
    have reached := run_lines calm framed path lines
    rw [handed, linesRead, if_pos groups_eq] at reached
    rw [ledger, accepted, handed, reached, readGroup_framed framed]

/-! ### Both parts -/

/-- No entry goes on in lines that come behind others. -/
def Detached (format : Format) (lines : List Line) : Prop :=
  ∀ framing, format.framing = some framing →
    ∀ text, (texts lines).head? = some text → framing.starts text = true

theorem handedGroups_append (lines more : List Line)
    (detached : Detached format more) :
    handedGroups format (lines ++ more) = handedGroups format lines ++ handedGroups format more := by
  unfold handedGroups
  rw [texts_append]
  cases framed : format.framing with
  | none => exact List.map_append
  | some framing =>
    apply List.splitBy_append
    intro last _ first opening
    rw [detached framing framed first opening]
    rfl

theorem octetsOf_append (lines more : List Line) :
    octetsOf (lines ++ more) = octetsOf lines + octetsOf more := by
  rw [octetsOf, List.flatMap_append, List.length_append]
  rfl

/-- A log that is cut behind a line and, if its entries may have several lines, in front of one
that starts an entry: without a limit the scan of the whole counts what the scans of both parts
count, and it crashes if and only if one of them does. -/
theorem rotation_keeps_counts (filter : Filter) (path : Path) (format : Format)
    (older newer : List UInt8) (ended : older = [] ∨ older.getLast? = some Line.lineFeed)
    (detached : Detached format (Line.list newer)) :
    let scan := fun content => run { filter } path format (Line.list content)
    ((scan (older ++ newer)).2 = .crashed ↔
      (scan older).2 = .crashed ∨ (scan newer).2 = .crashed) ∧
    ((scan (older ++ newer)).2 ≠ .crashed →
      (scan (older ++ newer)).1.tally = (scan older).1.tally.plus (scan newer).1.tally) := by
  intro scan
  have lines := Line.list_append newer ended
  have groups := handedGroups_append (Line.list older) (Line.list newer) detached
  obtain ⟨crash, tally⟩ := run_unlimited filter path format (Line.list (older ++ newer))
  obtain ⟨crashOlder, tallyOlder⟩ := run_unlimited filter path format (Line.list older)
  obtain ⟨crashNewer, tallyNewer⟩ := run_unlimited filter path format (Line.list newer)
  rw [lines, groups] at crash tally
  have either : (scan (older ++ newer)).2 = .crashed ↔
      (scan older).2 = .crashed ∨ (scan newer).2 = .crashed := by
    simp only [scan, lines]
    rw [crash, crashOlder, crashNewer]
    simp only [List.mem_append, or_and_right, exists_or]
  refine ⟨either, fun complete => ?_⟩
  have sound := not_or.1 (mt either.2 complete)
  simp only [scan, lines] at complete ⊢
  rw [tally complete, tallyOlder sound.1, tallyNewer sound.2, octetsOf_append, acceptedOf,
    unreadableOf, List.filterMap_append, List.countP_append]
  exact Tally.ofEntries_append ..

/-- Two entries, the first one of two lines, and a cut between them: a group is read at the end of
the older file that the whole file reads when it meets the next one. -/
theorem rotation_keeps_counts_sample :
    Detached sampleFormat (Line.list [101, 13, 10]) ∧
      (run {} ⟨[]⟩ sampleFormat (Line.list ([101, 10, 120, 10] ++ [101, 13, 10]))).1.tally =
        (run {} ⟨[]⟩ sampleFormat (Line.list [101, 10, 120, 10])).1.tally.plus
          (run {} ⟨[]⟩ sampleFormat (Line.list [101, 13, 10])).1.tally := by
  have detached : Detached sampleFormat (Line.list [101, 13, 10]) := by
    intro framing framed text first
    obtain rfl : sampleFraming = framing := Option.some.inj framed
    obtain rfl : "e" = text := Option.some.inj first
    rfl
  obtain ⟨_, sum⟩ := rotation_keeps_counts {} ⟨[]⟩ sampleFormat [101, 10, 120, 10] [101, 13, 10]
    (.inr rfl) detached
  exact ⟨detached, sum (by decide)⟩

end Scan

end LogCensus
