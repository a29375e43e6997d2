import LogCensus.Proofs.Scan.Cancelled

/-!
One format scanned in two ways. Where every line that is not blank starts an entry, a scan in groups
hands over the same lines as a scan line by line, only each of them when it meets the next one. Both
count the same, and the scan in groups has read further only where it stops early.
-/

namespace LogCensus

/-- The same format without its framing: each line is read by itself. -/
def Format.lineByLine (format : Format) : Format := { format with framing := none }

namespace Scan

variable {terms : ScanTerms} {framing : Framing} {read : String → Outcome} {path : Path}
  {format : Format} {scan next : Scan} {group : List String} {ending : Option ScanEnd}

/-- Texts that all start an entry, and that read the same by themselves as in a group of one. -/
structure Separate (framing : Framing) (read : String → Outcome) (texts : List String) : Prop where
  starts : ∀ text ∈ texts, framing.starts text = true
  reads : ∀ text ∈ texts, framing.read [text] = read text

theorem Separate.tail {text : String} {texts : List String}
    (separate : Separate framing read (text :: texts)) : Separate framing read texts :=
  ⟨fun other member => separate.starts other (List.mem_cons_of_mem text member),
    fun other member => separate.reads other (List.mem_cons_of_mem text member)⟩

/-- An outcome of a scan that has done the same work as another one and has read at least as far;
just as far if that one came to the end of the file. -/
structure Outruns (further other : Scan × ScanEnd) : Prop where
  ending : further.2 = other.2
  handed : further.1.handed = other.1.handed
  tally : further.1.tally = { other.1.tally with bytesRead := further.1.tally.bytesRead }
  lines : other.1.lines ≤ further.1.lines
  whole : other.2 = .complete → further = other

theorem Outruns.refl (outcome : Scan × ScanEnd) : Outruns outcome outcome :=
  ⟨rfl, rfl, rfl, Nat.le_refl _, fun _ => rfl⟩

/-- A scan that stops before the end of the file may have read a line more. -/
theorem Outruns.readLine (scan : Scan) (line : Line) {ending : ScanEnd}
    (stopped : ending ≠ .complete) : Outruns (scan.readLine line, ending) (scan, ending) :=
  ⟨rfl, rfl, rfl, Nat.le_succ _, fun complete => absurd complete stopped⟩

theorem Outruns.trans {one two three : Scan × ScanEnd} (more : Outruns one two)
    (less : Outruns two three) : Outruns one three where
  ending := more.ending.trans less.ending
  handed := more.handed.trans less.handed
  tally := by
    rw [more.tally, less.tally]
  lines := less.lines.trans more.lines
  whole complete := (more.whole (less.ending.trans complete)).trans (less.whole complete)

/-! ### One line ahead -/

/-- Whether a line is read before or after a group is handed over makes no difference. -/
theorem take_after_readLine (terms : ScanTerms) (scan : Scan) (line : Line) (group : List String)
    (outcome : Outcome) :
    (scan.readLine line).take terms group outcome =
      ((scan.take terms group outcome).1.readLine line, (scan.take terms group outcome).2) := by
  unfold take
  cases outcome with
  | entry entry =>
    dsimp only
    split <;> rfl
  | refused | crashed => rfl

/-- A scan line by line that has a text to hand over before it reads on. -/
def handOver (terms : ScanTerms) (read : String → Outcome) (scan : Scan) (text : String)
    (rest : List Line) : Scan × ScanEnd :=
  match scan.take terms [text] (read text) with
  | (scan, some ending) => (scan, ending)
  | (scan, none) => singly terms read scan rest

theorem handOver_ended {text : String} {ending : ScanEnd} {rest : List Line}
    (taken : scan.take terms [text] (read text) = (next, some ending)) :
    handOver terms read scan text rest = (next, ending) := by
  rw [handOver, taken]

theorem handOver_goesOn {text : String} {rest : List Line}
    (taken : scan.take terms [text] (read text) = (next, none)) :
    handOver terms read scan text rest = singly terms read next rest := by
  rw [handOver, taken]

theorem singly_cons_blank (calm : ∀ scan, terms.cancelled scan = false) {line : Line}
    (blank : Text.allBlank line.text.toList = true) (scan : Scan) (rest : List Line) :
    singly terms read scan (line :: rest) = singly terms read (scan.readLine line) rest := by
  rw [singly, calm scan, if_pos blank]
  rfl

theorem singly_cons_full (calm : ∀ scan, terms.cancelled scan = false) {line : Line}
    (full : ¬Text.allBlank line.text.toList = true) (scan : Scan) (rest : List Line) :
    singly terms read scan (line :: rest) =
      handOver terms read (scan.readLine line) line.text rest := by
  rw [singly, calm scan, if_neg full]
  rfl

/-- A blank line may be read before the text at hand is handed over. -/
theorem handOver_blank (calm : ∀ scan, terms.cancelled scan = false) {line : Line}
    (blank : Text.allBlank line.text.toList = true) (scan : Scan) (text : String)
    (rest : List Line) :
    Outruns (handOver terms read (scan.readLine line) text rest)
      (handOver terms read scan text (line :: rest)) := by
  have later := take_after_readLine terms scan line [text] (read text)
  cases taken : scan.take terms [text] (read text) with
  | mk next ending =>
    rw [taken] at later
    cases ending with
    | none =>
      rw [handOver_goesOn taken, handOver_goesOn later, singly_cons_blank calm blank]
      exact .refl _
    | some ending =>
      rw [handOver_ended taken, handOver_ended later]
      exact .readLine next line (not_complete_of_take taken)

/-- The group at hand is the line that the scan line by line is about to hand over. -/
theorem grouped_outruns_handOver (calm : ∀ scan, terms.cancelled scan = false)
    {rest : List Line} (separate : Separate framing read (texts rest)) {text : String}
    (reads : framing.read [text] = read text) (scan : Scan) :
    Outruns (grouped terms framing scan [text] rest) (handOver terms read scan text rest) := by
  induction rest generalizing scan text with
  | nil =>
    have last : grouped terms framing scan [text] [] = handOver terms read scan text [] := by
      unfold grouped handOver
      rw [calm scan, List.reverse_singleton, reads]
      cases taken : scan.take terms [text] (read text) with
      | mk next ending => cases ending <;> rfl
    rw [last]
    exact .refl _
  | cons line rest ih =>
    unfold grouped
    rw [calm scan, List.reverse_singleton, reads]
    simp only [Bool.false_eq_true, if_false]
    by_cases blank : Text.allBlank line.text.toList = true
    · rw [texts_cons_blank blank] at separate
      rw [if_pos blank]
      exact (ih separate reads (scan.readLine line)).trans (handOver_blank calm blank scan text rest)
    · rw [texts_cons_full blank] at separate
      have starts := separate.starts line.text List.mem_cons_self
      have later := take_after_readLine terms scan line [text] (read text)
      rw [if_neg blank, if_pos (by simp [starts]), later]
      cases taken : scan.take terms [text] (read text) with
      | mk next ending =>
        cases ending with
        | none =>
          rw [handOver_goesOn taken, singly_cons_full calm blank]
          exact ih separate.tail (separate.reads line.text List.mem_cons_self) (next.readLine line)
        | some ending =>
          rw [handOver_ended taken]
          exact .readLine next line (not_complete_of_take taken)

theorem grouped_outruns_singly (calm : ∀ scan, terms.cancelled scan = false)
    {rest : List Line} (separate : Separate framing read (texts rest)) (scan : Scan) :
    Outruns (grouped terms framing scan [] rest) (singly terms read scan rest) := by
  induction rest generalizing scan with
  | nil =>
    unfold grouped singly
    rw [calm scan]
    exact .refl _
  | cons line rest ih =>
    unfold grouped
    rw [calm scan]
    simp only [Bool.false_eq_true, if_false]
    by_cases blank : Text.allBlank line.text.toList = true
    · rw [texts_cons_blank blank] at separate
      rw [if_pos blank, singly_cons_blank calm blank]
      exact ih separate (scan.readLine line)
    · rw [texts_cons_full blank] at separate
      rw [if_neg blank, if_neg (by simp), singly_cons_full calm blank]
      exact grouped_outruns_handOver calm separate.tail
        (separate.reads line.text List.mem_cons_self) (scan.readLine line)

/-! ### Whole files -/

/-- Why a scan line by line ends that is not cancelled. -/
theorem singly_ending (calm : ∀ scan, terms.cancelled scan = false) (scan : Scan)
    (rest : List Line) :
    let outcome := singly terms read scan rest
    outcome.2 = .complete ∨
      (outcome.2 = .limited ∧ isEnough terms.limit outcome.1.tally.entries = true) ∨
      outcome.2 = .crashed := by
  intro outcome
  fun_induction singly terms read scan rest with
  | case1 scan => exact .inl rfl
  | case2 scan line rest cancelled =>
    rw [calm scan] at cancelled
    cases cancelled
  | case3 scan line rest going text blank ih => exact ih
  | case4 scan line rest going text full final ending taken =>
    rcases ending_of_take taken with none | ⟨limited, enough⟩ | crashed
    · cases none
    · exact .inr (.inl ⟨Option.some.inj limited, enough⟩)
    · exact .inr (.inr (Option.some.inj crashed))
  | case5 scan line rest going text full following taken ih => exact ih

theorem bytesRead_mono {lines : List Line} {less more : Nat} (further : less ≤ more)
    (small : octetsOf lines < 2 ^ 64) :
    UInt64.ofNat (octetsOf (lines.take less)) ≤ UInt64.ofNat (octetsOf (lines.take more)) := by
  have whole := octetsOf_take_le (Nat.le_max_left more lines.length) lines
  rw [List.take_of_length_le (Nat.le_max_right more lines.length)] at whole
  exact word_le_of_le (octetsOf_take_le further lines) (whole.trans_lt small)

/-- A format with a framing, and a file of which each line that is not blank starts an entry and
reads the same in a group of one. The scan in groups and the scan line by line hand over the same
lines, end for the same reason and count the same. The scan in groups reads no less of the file, and
just as much where the limit is not reached. -/
theorem separate_lines_count_alike (filter : Filter) (limit : Option UInt64) (path : Path)
    (format : Format) (framing : Framing) (framed : format.framing = some framing)
    (content : List UInt8)
    (separate : Separate framing format.read (texts (Line.list content))) :
    let grouped := run { filter, limit } path format (Line.list content)
    let single := run { filter, limit } path format.lineByLine (Line.list content)
    grouped.2 = single.2 ∧ grouped.1.handed = single.1.handed ∧
    grouped.1.tally = { single.1.tally with bytesRead := grouped.1.tally.bytesRead } ∧
    single.1.lines ≤ grouped.1.lines ∧
    (content.length < 2 ^ 64 → single.1.tally.bytesRead ≤ grouped.1.tally.bytesRead) ∧
    (single.2 ≠ .crashed → (∀ most, limit = some most → single.1.tally.entries < most) →
      grouped.1.tally = single.1.tally) := by
  intro grouped single
  let terms : ScanTerms := { filter, limit }
  have calm (scan : Scan) : terms.cancelled scan = false := rfl
  have outruns : Outruns grouped single := by
    have loops := grouped_outruns_singly calm separate (.ofFile path format)
    rwa [← run_framed framed] at loops
  refine ⟨outruns.ending, outruns.handed, outruns.tally, outruns.lines, fun small => ?_,
    fun sound short => ?_⟩
  · rw [← octetsOf_list] at small
    rw [bytesRead_run, bytesRead_run]
    exact bytesRead_mono outruns.lines small
  · rcases singly_ending calm (.ofFile path format.lineByLine) (Line.list content) with
      complete | ⟨_, enough⟩ | crashed
    · rw [outruns.whole complete]
    · obtain ⟨most, limited, reached⟩ := (Option.any_eq_true _ _).1 enough
      have below := short most limited
      exact absurd (of_decide_eq_true reached) (UInt64.not_le.2 below)
    · exact absurd crashed sound

/-- An entry, a blank line and another entry. -/
def sampleSeparateContent : List UInt8 := [101, 10, 32, 10, 101, 10]

/-- With a limit of one the scan in groups reads up to the second entry before it counts the first. -/
theorem separate_lines_count_alike_sample :
    sampleFormat.framing = some sampleFraming ∧
      Separate sampleFraming sampleFormat.read (texts (Line.list sampleSeparateContent)) ∧
      (run { limit := some 1 } ⟨[]⟩ sampleFormat (Line.list sampleSeparateContent)).1.tally =
        { (run { limit := some 1 } ⟨[]⟩ sampleFormat.lineByLine
            (Line.list sampleSeparateContent)).1.tally with bytesRead := 6 } ∧
      (run { limit := some 1 } ⟨[]⟩ sampleFormat.lineByLine
        (Line.list sampleSeparateContent)).1.tally.bytesRead = 2 := by
  have separate :
      Separate sampleFraming sampleFormat.read (texts (Line.list sampleSeparateContent)) :=
    ⟨by decide, fun _ _ => rfl⟩
  obtain ⟨_, _, tally, _⟩ := separate_lines_count_alike {} (some 1) ⟨[]⟩ sampleFormat sampleFraming
    rfl sampleSeparateContent separate
  have bytes : (run { limit := some 1 } ⟨[]⟩ sampleFormat
      (Line.list sampleSeparateContent)).1.tally.bytesRead = 6 := by decide
  rw [bytes] at tally
  exact ⟨rfl, separate, tally, by decide⟩

end Scan

end LogCensus
