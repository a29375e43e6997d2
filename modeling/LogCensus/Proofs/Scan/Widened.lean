import LogCensus.Proofs.Scan.Cancelled

/-!
One file scanned with two filters, the second of which leaves more room. As long as both scans go on
they read the same lines and hand over the same groups, and whatever the narrower filter admits the
wider one admits too. The two part only where the wider filter makes up the limit first.
-/

namespace LogCensus

open Time (Instant)

namespace Filter

/-- A filter with no more room than another one: each bound of the other one it has as well, at the
same instant or further in. -/
structure Within (filter wider : Filter) : Prop where
  lower : ∀ bound, wider.lower = some bound → ∃ own, filter.lower = some own ∧ bound ≤ own
  upper : ∀ bound, wider.upper = some bound → ∃ own, filter.upper = some own ∧ own ≤ bound

variable {filter wider : Filter}

/-- A timestamp that is missing comes before every lower bound, so only a filter without one admits
it. -/
theorem lower_eq_none (admitted : filter.admits none = true) : filter.lower = none := by
  unfold admits passesLower at admitted
  cases bounded : filter.lower with
  | none => rfl
  | some bound =>
    rw [bounded] at admitted
    cases admitted

theorem Within.admits (within : filter.Within wider) {timestamp : Option Instant}
    (admitted : filter.admits timestamp = true) : wider.admits timestamp = true := by
  unfold Filter.admits
  rw [Bool.and_eq_true]
  constructor
  · cases bounded : wider.lower with
    | none => simp only [passesLower, bounded]
    | some bound =>
      obtain ⟨own, narrower, before⟩ := within.lower bound bounded
      cases timestamp with
      | none =>
        rw [lower_eq_none admitted] at narrower
        cases narrower
      | some instant =>
        simp only [passesLower, bounded]
        exact Time.Instant.atMost_iff.2 (before.trans (lower_le admitted narrower))
  · cases bounded : wider.upper with
    | none => simp only [passesUpper, bounded]
    | some bound =>
      obtain ⟨own, narrower, after⟩ := within.upper bound bounded
      cases timestamp with
      | none => simp only [passesUpper, bounded]
      | some instant =>
        simp only [passesUpper, bounded]
        exact Time.Instant.atMost_iff.2 ((le_upper admitted narrower).trans after)

end Filter

theorem Outcome.accepted?_of_within {filter wider : Filter} (within : filter.Within wider)
    {outcome : Outcome} {entry : Entry} (accepted : outcome.accepted? filter = some entry) :
    outcome.accepted? wider = some entry := by
  cases outcome with
  | entry found =>
    simp only [accepted?, Option.ite_none_right_eq_some] at accepted ⊢
    exact ⟨within.admits accepted.1, accepted.2⟩
  | refused | crashed => cases accepted

namespace Scan

variable {filter wider : Filter} {limit : Option UInt64} {read : List String → Outcome}
  {framing : Framing} {path : Path} {kind : String} {lines rest : List Line} {line : Line}
  {narrow wide next other : Scan} {ending otherEnding : Option ScanEnd}

theorem acceptedOf_sublist (within : filter.Within wider) (read : List String → Outcome)
    (groups : List (List String)) :
    (acceptedOf filter read groups).Sublist (acceptedOf wider read groups) := by
  induction groups with
  | nil => exact .slnil
  | cons group groups ih =>
    unfold acceptedOf at ih ⊢
    rw [List.filterMap_cons, List.filterMap_cons]
    cases kept : (read group).accepted? filter with
    | some entry =>
      rw [Outcome.accepted?_of_within within kept]
      exact ih.cons_cons entry
    | none =>
      cases (read group).accepted? wider with
      | none => exact ih
      | some entry => exact ih.cons entry

/-! ### Side by side -/

structure Abreast (scan other : Scan) : Prop where
  handed : scan.handed = other.handed
  lines : scan.lines = other.lines

structure Joint (filter wider : Filter) (limit : Option UInt64) (read : List String → Outcome)
    (path : Path) (kind : String) (lines : List Line) (narrow wide : Scan) : Prop where
  abreast : Abreast narrow wide
  ledger : Ledger { filter, limit } read path kind lines narrow
  wideLedger : Ledger { filter := wider, limit } read path kind lines wide
  wants : Wants { filter, limit } read narrow
  wideWants : Wants { filter := wider, limit } read wide

/-- What becomes of the two: they end alike, or the wider filter has made up the limit. -/
def EndsNoEarlier (limit : Option UInt64) (narrow wide : Scan × ScanEnd) : Prop :=
  (Abreast narrow.1 wide.1 ∧ narrow.2 = wide.2) ∨
    (wide.2 = .limited ∧ isEnough limit wide.1.tally.entries = true)

theorem accepted_sublist (limit : Option UInt64) (read : List String → Outcome)
    (within : filter.Within wider) (abreast : Abreast narrow wide) :
    (narrow.accepted { filter, limit } read).Sublist
      (wide.accepted { filter := wider, limit } read) := by
  unfold accepted
  rw [abreast.handed]
  exact acceptedOf_sublist within read _

theorem Joint.readLine (joint : Joint filter wider limit read path kind lines narrow wide)
    (ahead : lines.drop narrow.lines = line :: rest) :
    Joint filter wider limit read path kind lines (narrow.readLine line) (wide.readLine line) where
  abreast := ⟨joint.abreast.handed, congrArg (· + 1) joint.abreast.lines⟩
  ledger := joint.ledger.readLine ahead
  wideLedger := joint.wideLedger.readLine (joint.abreast.lines ▸ ahead)
  wants := joint.wants
  wideWants := joint.wideWants

/-- A group handed over by both. Where the narrower filter makes up the limit, the wider one has
accepted no less before it, and accepts the entry of this group too. -/
theorem Joint.take (within : filter.Within wider)
    (joint : Joint filter wider limit read path kind lines narrow wide) {group : List String}
    (taken : narrow.take { filter, limit } group (read group) = (next, ending))
    (wideTaken : wide.take { filter := wider, limit } group (read group) = (other, otherEnding)) :
    (Abreast next other ∧ ending = otherEnding ∧
        (ending = none → Joint filter wider limit read path kind lines next other)) ∨
      (otherEnding = some .limited ∧ isEnough limit other.tally.entries = true) := by
  obtain ⟨ledger, wants, reached, handed⟩ := joint.ledger.took joint.wants group taken
  obtain ⟨wideLedger, wideWants, wideReached, wideHanded⟩ :=
    joint.wideLedger.took joint.wideWants group wideTaken
  have abreast : Abreast next other :=
    ⟨by rw [handed, wideHanded, joint.abreast.handed],
      by rw [reached, wideReached, joint.abreast.lines]⟩
  have verdict := take_ending joint.ledger joint.wants group
  have wideVerdict := take_ending joint.wideLedger joint.wideWants group
  rw [taken] at verdict
  rw [wideTaken] at wideVerdict
  dsimp only at verdict wideVerdict
  cases crash : (read group).isCrash with
  | true =>
    rw [endingAt, if_pos crash] at verdict wideVerdict
    refine .inl ⟨abreast, verdict.trans wideVerdict.symm, fun goesOn => ?_⟩
    rw [verdict] at goesOn
    cases goesOn
  | false =>
    rcases ending_of_take wideTaken with goesOn | limited | crashed
    · have going : ending = none := by
        by_contra stopped
        rw [verdict, endingAt, if_neg (by simp [crash]), ite_eq_right_iff,
          Classical.not_imp] at stopped
        obtain ⟨most, limited, number⟩ := Option.map_eq_some_iff.1 stopped.1.2
        have fewer := (accepted_sublist limit read within abreast).length_le
        have room := wideWants goesOn most limited
        omega
      exact .inl ⟨abreast, going.trans goesOn.symm,
        fun _ => ⟨abreast, ledger, wideLedger, wants going, wideWants goesOn⟩⟩
    · exact .inr limited
    · rw [crashed, endingAt, if_neg (by simp [crash])] at wideVerdict
      split_ifs at wideVerdict
      cases wideVerdict

theorem singly_endsNoEarlier {read : String → Outcome} (within : filter.Within wider)
    (joint : Joint filter wider limit (single read) path kind lines narrow wide)
    (ahead : lines.drop narrow.lines = rest) :
    EndsNoEarlier limit (singly { filter, limit } read narrow rest)
      (singly { filter := wider, limit } read wide rest) := by
  induction rest generalizing narrow wide with
  | nil => exact .inl ⟨joint.abreast, rfl⟩
  | cons line rest ih =>
    have more := joint.readLine ahead
    have behind := drop_readLine ahead
    unfold singly
    simp only [Bool.false_eq_true, if_false]
    by_cases blank : Text.allBlank line.text.toList = true
    · rw [if_pos blank, if_pos blank]
      exact ih more behind
    · rw [if_neg blank, if_neg blank]
      cases taken : (narrow.readLine line).take { filter, limit } [line.text] (read line.text) with
      | mk next ending =>
        cases wideTaken : (wide.readLine line).take { filter := wider, limit } [line.text]
            (read line.text) with
        | mk other otherEnding =>
          rcases more.take within taken wideTaken with ⟨abreast, same, goesOn⟩ | ⟨limited, enough⟩
          · subst same
            cases ending with
            | none => exact ih (goesOn rfl) ((handed_of_take taken).2 ▸ behind)
            | some ending => exact .inl ⟨abreast, rfl⟩
          · subst limited
            exact .inr ⟨rfl, enough⟩

theorem grouped_endsNoEarlier (within : filter.Within wider)
    (joint : Joint filter wider limit framing.read path kind lines narrow wide)
    (ahead : lines.drop narrow.lines = rest) (group : List String) :
    EndsNoEarlier limit (grouped { filter, limit } framing narrow group rest)
      (grouped { filter := wider, limit } framing wide group rest) := by
  induction rest generalizing narrow wide group with
  | nil =>
    unfold grouped
    simp only [Bool.false_eq_true, if_false]
    by_cases empty : group.isEmpty = true
    · rw [if_pos empty, if_pos empty]
      exact .inl ⟨joint.abreast, rfl⟩
    · rw [if_neg empty, if_neg empty]
      cases taken : narrow.take { filter, limit } group.reverse (framing.read group.reverse) with
      | mk next ending =>
        cases wideTaken : wide.take { filter := wider, limit } group.reverse
            (framing.read group.reverse) with
        | mk other otherEnding =>
          rcases joint.take within taken wideTaken with ⟨abreast, same, -⟩ | ⟨limited, enough⟩
          · exact .inl ⟨abreast, congrArg (·.getD .complete) same⟩
          · exact .inr ⟨by rw [limited]; rfl, enough⟩
  | cons line rest ih =>
    have more := joint.readLine ahead
    have behind := drop_readLine ahead
    unfold grouped
    simp only [Bool.false_eq_true, if_false]
    by_cases blank : Text.allBlank line.text.toList = true
    · rw [if_pos blank, if_pos blank]
      exact ih more behind group
    · rw [if_neg blank, if_neg blank]
      by_cases cut : (framing.starts line.text && !group.isEmpty) = true
      · rw [if_pos cut, if_pos cut]
        cases taken : (narrow.readLine line).take { filter, limit } group.reverse
            (framing.read group.reverse) with
        | mk next ending =>
          cases wideTaken : (wide.readLine line).take { filter := wider, limit } group.reverse
              (framing.read group.reverse) with
          | mk other otherEnding =>
            rcases more.take within taken wideTaken with ⟨abreast, same, goesOn⟩ | ⟨limited, enough⟩
            · subst same
              cases ending with
              | none => exact ih (goesOn rfl) ((handed_of_take taken).2 ▸ behind) [line.text]
              | some ending => exact .inl ⟨abreast, rfl⟩
            · subst limited
              exact .inr ⟨rfl, enough⟩
      · rw [if_neg cut, if_neg cut]
        exact ih more behind (line.text :: group)

/-! ### Whole files -/

variable {terms : ScanTerms} {format : Format} {scan : Scan}

theorem run_endsNoEarlier (within : filter.Within wider) (sound : limit ≠ some 0) (path : Path)
    (format : Format) (lines : List Line) :
    EndsNoEarlier limit (run { filter, limit } path format lines)
      (run { filter := wider, limit } path format lines) := by
  have joint (read : List String → Outcome) : Joint filter wider limit read path format.kind lines
      (.ofFile path format) (.ofFile path format) :=
    ⟨⟨rfl, rfl⟩, ledger_ofFile _ read path format lines, ledger_ofFile _ read path format lines,
      wants_ofFile read path format sound, wants_ofFile read path format sound⟩
  unfold run
  cases format.framing with
  | none => exact singly_endsNoEarlier within (joint (single format.read)) rfl
  | some framing => exact grouped_endsNoEarlier within (joint framing.read) rfl []

/-- Without a limit the two scans do the same work. -/
theorem run_abreast (within : filter.Within wider) (path : Path) (format : Format)
    (lines : List Line) :
    Abreast (run { filter } path format lines).1 (run { filter := wider } path format lines).1 ∧
      (run { filter } path format lines).2 = (run { filter := wider } path format lines).2 := by
  rcases run_endsNoEarlier within (Option.some_ne_none 0).symm path format lines with
    alike | ⟨-, enough⟩
  · exact alike
  · cases enough

theorem Ledger.entries_le {most : UInt64} (ledger : Ledger terms read path kind lines scan)
    (limited : terms.limit = some most) : scan.tally.entries ≤ most := by
  have within := ledger.within most limited
  have small := most.toNat_lt
  rw [ledger.tally, UInt64.le_iff_toNat_le]
  change (UInt64.ofNat (scan.accepted terms read).length).toNat ≤ most.toNat
  rwa [toNat_ofNat_of_lt (within.trans_lt small)]

theorem run_entries_le (within : filter.Within wider) {most : UInt64}
    (positive : some most ≠ some 0) (path : Path) (format : Format) (lines : List Line) :
    (run { filter, limit := some most } path format lines).1.tally.entries ≤
      (run { filter := wider, limit := some most } path format lines).1.tally.entries := by
  have ledger := run_ledger { filter, limit := some most } positive path format lines
  have wide := run_ledger { filter := wider, limit := some most } positive path format lines
  rcases run_endsNoEarlier within positive path format lines with ⟨abreast, -⟩ | ⟨-, enough⟩
  · rw [ledger.tally, wide.tally]
    exact word_le_of_le (accepted_sublist _ _ within abreast).length_le
      ((wide.within most rfl).trans_lt most.toNat_lt)
  · rw [isEnough, Option.any_some, decide_eq_true_eq] at enough
    exact UInt64.le_trans (ledger.entries_le rfl) enough

/-- A file scanned with a filter and with a wider one. Without a limit both scans end alike and read
the same, the wider filter loses no entry that the narrower one has counted, and so it finds no
later first and no earlier last timestamp. With the same limit it counts no fewer entries either. -/
theorem wider_filter_keeps_entries (filter wider : Filter) (within : filter.Within wider)
    (path : Path) (format : Format) (content : List UInt8) :
    let outcome := fun (filter : Filter) (limit : Option UInt64) =>
      run { filter, limit } path format (Line.list content)
    let narrow := (outcome filter none).1.tally
    let wide := (outcome wider none).1.tally
    (outcome filter none).2 = (outcome wider none).2 ∧
    narrow.unreadable = wide.unreadable ∧ narrow.bytesRead = wide.bytesRead ∧
    (content.length < 2 ^ 64 → narrow.AtMost wide) ∧
    (∀ first, narrow.first = some first → ∃ early, wide.first = some early ∧ early ≤ first) ∧
    (∀ last, narrow.last = some last → ∃ late, wide.last = some late ∧ last ≤ late) ∧
    ∀ most, (outcome filter (some most)).1.tally.entries ≤
      (outcome wider (some most)).1.tally.entries := by
  intro outcome narrow wide
  have sound : (none : Option UInt64) ≠ some 0 := (Option.some_ne_none 0).symm
  obtain ⟨abreast, ending⟩ := run_abreast within path format (Line.list content)
  have ledger : narrow = _ := (run_ledger { filter } sound path format _).tally
  have wideLedger : wide = _ := (run_ledger { filter := wider } sound path format _).tally
  have part := accepted_sublist none format.readGroup within abreast
  have stamps := part.map Entry.timestamp
  rw [ledger, wideLedger]
  refine ⟨ending, ?_, ?_, fun small => ?_, fun first => DateRange.earliestOf_anti stamps.subset,
    fun last => DateRange.latestOf_mono stamps.subset, fun most => ?_⟩
  · simp only [Tally.ofEntries, abreast.handed]
  · simp only [Tally.ofEntries, abreast.lines]
  · have groups := length_handed_le_content { filter := wider } sound path format content
    rw [abreast.handed, abreast.lines]
    apply Tally.ofEntries_atMost _ _ part le_rfl le_rfl
    · exact ((List.length_filterMap_le _ _).trans groups).trans_lt small
    · exact (List.countP_le_length.trans groups).trans_lt small
    · exact (octetsOf_take_list_le _ content).trans_lt small
  · -- a limit of zero stops a scan where a limit of one does
    change (run { filter, limit := some most } path format _).1.tally.entries ≤
      (run { filter := wider, limit := some most } path format _).1.tally.entries
    by_cases zero : most = 0
    · have raised (filter : Filter) : run { filter, limit := some 0 } path format =
          run { filter, limit := some 1 } path format :=
        funext fun lines => (run_positive { filter, limit := some 0 } path format lines).symm
      rw [zero, raised, raised]
      exact run_entries_le within (by decide) path format _
    · exact run_entries_le within (by simpa using zero) path format _

/-- Each line is an entry, as many seconds after 1970 began as it has characters. -/
def sampleTimedFormat : Format where
  kind := "sample"
  title := "Sample"
  probe _ := true
  read text := .entry
    { timestamp := Time.Instant.ofParts? text.length 0, level := .error, kind := "sample",
      raw := text }

def sampleTimedContent : List UInt8 := [101, 10, 101, 101, 10, 101, 101, 101, 10]

/-- The filter of the second second alone in one that admits all before the fourth. With a limit of
two the wider filter stops at the second line, and the narrower one goes on to count a single
entry. -/
theorem wider_filter_keeps_entries_sample :
    let filter : Filter := ⟨Time.Instant.ofParts? 2 0, Time.Instant.ofParts? 2 0⟩
    let wider : Filter := ⟨none, Time.Instant.ofParts? 3 0⟩
    let outcome := fun filter limit =>
      run { filter, limit } ⟨[]⟩ sampleTimedFormat (Line.list sampleTimedContent)
    filter.Within wider ∧ (outcome filter none).1.tally.AtMost (outcome wider none).1.tally ∧
      (outcome filter (some 2)).1.lines = 3 ∧ (outcome wider (some 2)).1.lines = 2 ∧
      (outcome filter (some 2)).1.tally.entries ≤ (outcome wider (some 2)).1.tally.entries := by
  intro filter wider outcome
  have within : filter.Within wider := by
    refine ⟨fun bound absent => (Option.some_ne_none bound absent.symm).elim, fun bound last => ?_⟩
    obtain rfl : ⟨3, 0, by decide, by decide⟩ = bound := Option.some.inj last
    exact ⟨⟨2, 0, by decide, by decide⟩, rfl, Time.Instant.atMost_iff.1 (by decide)⟩
  obtain ⟨-, -, -, counts, -, -, limited⟩ := wider_filter_keeps_entries filter wider within ⟨[]⟩
    sampleTimedFormat sampleTimedContent
  exact ⟨within, counts (by decide), by decide, by decide, limited 2⟩

end Scan

end LogCensus
