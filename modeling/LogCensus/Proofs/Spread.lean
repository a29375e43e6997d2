import LogCensus.Proofs.Report
import Mathlib.Data.List.Forall2

/-!
Totals do not show how what was recorded is spread over files. Recording the events of each file in
a tally of its own and adding the tallies up gives what recording all events in one tally gives, in
any order, and the totals of two lots of files are added up field by field and key by key.
-/

namespace LogCensus

inductive Event where
  | entry (entry : Entry)
  | unreadable

namespace Event

def entry? : Event → Option Entry
  | .entry found => some found
  | .unreadable => none

def isUnreadable : Event → Bool
  | .entry _ => false
  | .unreadable => true

end Event

namespace Tally

def recordEvent (tally : Tally) : Event → Tally
  | .entry entry => tally.record entry
  | .unreadable => tally.recordUnreadable

def ofEvents (path : Path) (format : String) (events : List Event) : Tally :=
  events.foldl recordEvent (.ofFile path format)

theorem ofEvents_eq (path : Path) (format : String) (events : List Event) :
    ofEvents path format events =
      ofEntries path format (events.filterMap Event.entry?) (events.countP Event.isUnreadable) 0 := by
  induction events using List.reverseRecOn with
  | nil => rfl
  | append_singleton events event ih =>
    rw [ofEvents, List.foldl_append, List.foldl_cons, List.foldl_nil, ← ofEvents, ih,
      List.filterMap_append, List.countP_append]
    cases event with
    | entry entry => exact record_ofEntries entry
    | unreadable =>
      have nothing : [Event.unreadable].filterMap Event.entry? = [] := rfl
      rw [nothing, List.append_nil]
      exact recordUnreadable_ofEntries

theorem ofEntries_perm (path : Path) (format : String) {entries other : List Entry}
    (same : entries.Perm other) (unreadable octets : Nat) :
    ofEntries path format entries unreadable octets =
      ofEntries path format other unreadable octets := by
  simp only [ofEntries, same.length_eq, same.countP_eq, Counts.ofKeys_perm (same.map Entry.level),
    Counts.ofKeys_perm (same.map Entry.kind), DateRange.earliestOf_eq, DateRange.latestOf_eq,
    mergeAll_perm (same.map Entry.timestamp)]

theorem ofEvents_perm (path : Path) (format : String) {events other : List Event}
    (same : events.Perm other) : ofEvents path format events = ofEvents path format other := by
  rw [ofEvents_eq, ofEvents_eq, same.countP_eq, ofEntries_perm path format (same.filterMap _)]

end Tally

structure Recording where
  path : Path
  format : String
  events : List Event

def Recording.tally (recording : Recording) : Tally :=
  .ofEvents recording.path recording.format recording.events

/-! ### All events in one tally -/

theorem Summary.totals_recordings (recordings : List Recording) :
    totals (recordings.map Recording.tally) =
      ofEntries recordings.length
        ((recordings.flatMap Recording.events).filterMap Event.entry?)
        ((recordings.flatMap Recording.events).countP Event.isUnreadable) := by
  induction recordings using List.reverseRecOn with
  | nil => rfl
  | append_singleton recordings last ih =>
    rw [totals, List.map_append, List.foldl_append, ← totals, ih, List.map_singleton,
      List.foldl_cons, List.foldl_nil, Recording.tally, Tally.ofEvents_eq, add_ofEntries,
      List.length_append, List.length_singleton, List.flatMap_append, List.flatMap_singleton,
      List.filterMap_append, List.countP_append]

theorem DateRange.ofTallies_recordings (filter : Filter) (recordings : List Recording)
    (path : Path) (format : String) :
    let range := ofTallies filter (recordings.map Recording.tally)
    let whole := Tally.ofEvents path format (recordings.flatMap Recording.events)
    range.earliest = whole.first ∧ range.latest = whole.last := by
  intro range whole
  have covers : List.Forall₂ Tally.Covers (recordings.map Recording.tally)
      (recordings.map fun recording => recording.events.filterMap Event.entry?) := by
    rw [List.forall₂_map_left_iff, List.forall₂_map_right_iff, List.forall₂_same]
    intro recording _
    exact ⟨_, _, _, _, Tally.ofEvents_eq _ _ _⟩
  have entries : (recordings.map fun recording => recording.events.filterMap Event.entry?).flatten =
      (recordings.flatMap Recording.events).filterMap Event.entry? := by
    rw [List.filterMap_flatMap, List.flatMap_def]
  have closed : whole = .ofEntries path format
      ((recordings.flatMap Recording.events).filterMap Event.entry?)
      ((recordings.flatMap Recording.events).countP Event.isUnreadable) 0 :=
    Tally.ofEvents_eq _ _ _
  obtain ⟨earliest, latest⟩ := ofTallies_ofEntries filter covers
  rw [entries] at earliest latest
  rw [closed]
  exact ⟨earliest, latest⟩

/-! ### Sums of totals -/

/-- Totals that are the sums of others, counter by counter and key by key. A key that only one of
them has keeps its count. -/
structure Summary.IsSum (sum one other : Summary) : Prop where
  files : sum.files = one.files + other.files
  entries : sum.entries = one.entries + other.entries
  errors : sum.errors = one.errors + other.errors
  unreadable : sum.unreadable = one.unreadable + other.unreadable
  byLevel : ∀ level, sum.byLevel.get? level =
    (one.byLevel.get? level).merge (· + ·) (other.byLevel.get? level)
  byKind : ∀ kind, sum.byKind.get? kind =
    (one.byKind.get? kind).merge (· + ·) (other.byKind.get? kind)

namespace Summary

variable {sum one other : Summary}

theorem isSum_blank (summary : Summary) : summary.IsSum summary {} where
  files := (UInt64.add_zero _).symm
  entries := (UInt64.add_zero _).symm
  errors := (UInt64.add_zero _).symm
  unreadable := (UInt64.add_zero _).symm
  byLevel level := by rw [SortedMap.get?_empty, Option.merge_none_right]
  byKind kind := by rw [SortedMap.get?_empty, Option.merge_none_right]

theorem IsSum.add (known : sum.IsSum one other) (tally : Tally) :
    (sum.add tally).IsSum one (other.add tally) where
  files := by
    simp only [Summary.add, known.files]
    exact UInt64.add_assoc _ _ _
  entries := by
    simp only [Summary.add, known.entries]
    exact UInt64.add_assoc _ _ _
  errors := by
    simp only [Summary.add, known.errors]
    exact UInt64.add_assoc _ _ _
  unreadable := by
    simp only [Summary.add, known.unreadable]
    exact UInt64.add_assoc _ _ _
  byLevel level := by
    simp only [Summary.add, Counts.get?_union, known.byLevel level]
    exact Std.Associative.assoc _ _ _
  byKind kind := by
    simp only [Summary.add, Counts.get?_union, known.byKind kind]
    exact Std.Associative.assoc _ _ _

theorem isSum_foldl_add (summary : Summary) (tallies : List Tally) :
    (tallies.foldl Summary.add summary).IsSum summary (totals tallies) := by
  induction tallies using List.reverseRecOn with
  | nil => exact isSum_blank summary
  | append_singleton tallies tally ih =>
    rw [totals, List.foldl_append, List.foldl_append]
    exact ih.add tally

theorem isSum_totals_append (tallies more : List Tally) :
    (totals (tallies ++ more)).IsSum (totals tallies) (totals more) := by
  rw [totals, List.foldl_append]
  exact isSum_foldl_add (totals tallies) more

/-- However events are spread over files, and in whatever order, the totals and the span of the
files are those of one tally of all the events. Totals depend neither on the order of the files nor
on what is added up first. Counters are words, so these are sums of words, and of numbers as long as
no sum exceeds a word. -/
theorem totals_independent_of_spread (recordings : List Recording) (events : List Event)
    (same : events.Perm (recordings.flatMap Recording.events)) (path : Path) (format : String)
    (filter : Filter) (elapsed : Time.Duration) :
    let tallies := recordings.map Recording.tally
    let summary := ofTallies tallies elapsed
    let range := DateRange.ofTallies filter tallies
    let whole := Tally.ofEvents path format events
    (summary.entries = whole.entries ∧ summary.errors = whole.errors ∧
      summary.unreadable = whole.unreadable ∧ summary.byLevel = whole.byLevel ∧
      summary.byKind = whole.byKind ∧ range.earliest = whole.first ∧ range.latest = whole.last) ∧
    (∀ tallies other : List Tally, tallies.Perm other →
      ofTallies tallies elapsed = ofTallies other elapsed ∧
      DateRange.ofTallies filter tallies = DateRange.ofTallies filter other) ∧
    ∀ tallies more : List Tally,
      (ofTallies (tallies ++ more) elapsed).IsSum (ofTallies tallies elapsed)
        (ofTallies more elapsed) := by
  intro tallies summary range whole
  have closed : whole = .ofEvents path format (recordings.flatMap Recording.events) :=
    Tally.ofEvents_perm path format same
  refine ⟨?_, ?_, ?_⟩
  · obtain ⟨earliest, latest⟩ := DateRange.ofTallies_recordings filter recordings path format
    have sums : summary = { totals tallies with throughput := summary.throughput } := rfl
    rw [closed, sums, Summary.totals_recordings, Tally.ofEvents_eq]
    rw [Tally.ofEvents_eq] at earliest latest
    exact ⟨rfl, rfl, rfl, rfl, rfl, earliest, latest⟩
  · intro tallies other same
    refine ⟨?_, DateRange.ofTallies_perm filter same⟩
    unfold ofTallies
    rw [totals_perm same]
  · intro tallies more
    have sums := isSum_totals_append tallies more
    exact ⟨sums.files, sums.entries, sums.errors, sums.unreadable, sums.byLevel, sums.byKind⟩

/-- A fatal entry and a line that could not be read in one file, an entry of the epoch in another. -/
def sampleRecordings : List Recording :=
  [⟨⟨[97]⟩, "json", [.entry { level := .fatal, kind := "json" }, .unreadable]⟩,
    ⟨⟨[98]⟩, "app", [.entry { timestamp := some Time.Instant.epoch, kind := "app" }]⟩]

def sampleEvents : List Event :=
  [.entry { timestamp := some Time.Instant.epoch, kind := "app" },
    .entry { level := .fatal, kind := "json" }, .unreadable]

theorem totals_independent_of_spread_sample :
    sampleEvents.Perm (sampleRecordings.flatMap Recording.events) ∧
      (ofTallies (sampleRecordings.map Recording.tally) .none).entries = 2 ∧
      (ofTallies (sampleRecordings.map Recording.tally) .none).errors = 1 ∧
      (ofTallies (sampleRecordings.map Recording.tally) .none).unreadable = 1 ∧
      (DateRange.ofTallies {} (sampleRecordings.map Recording.tally)).earliest =
        some Time.Instant.epoch := by
  have swapped : (sampleEvents.take 1 ++ sampleEvents.drop 1).Perm
      (sampleEvents.drop 1 ++ sampleEvents.take 1) := List.perm_append_comm
  have same : sampleEvents.Perm (sampleRecordings.flatMap Recording.events) := swapped
  obtain ⟨⟨entries, errors, unreadable, _, _, earliest, _⟩, _⟩ :=
    totals_independent_of_spread sampleRecordings sampleEvents same ⟨[]⟩ "" {} .none
  exact ⟨same, entries.trans (by decide), errors.trans (by decide), unreadable.trans (by decide),
    earliest.trans (by decide)⟩

end Summary

end LogCensus
