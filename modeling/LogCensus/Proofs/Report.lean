import LogCensus.Proofs.Tally
import LogCensus.Report

/-!
Totals over tallies do not depend on the order of the files. The totals of tallies in closed form
are again in closed form, over the entries of all files, and counts in closed form are in balance:
what is counted by level, and by kind, adds up to the number of entries.
-/

namespace LogCensus

open Time (Instant)

/-! ### Order -/

namespace Summary

theorem word_add_right_comm (one two three : UInt64) : one + two + three = one + three + two := by
  rw [UInt64.add_assoc, UInt64.add_comm two, ← UInt64.add_assoc]

theorem add_right_comm (summary : Summary) (one other : Tally) :
    (summary.add one).add other = (summary.add other).add one := by
  unfold add
  congr 1
  · exact word_add_right_comm _ _ _
  · exact word_add_right_comm _ _ _
  · exact word_add_right_comm _ _ _
  · exact Counts.union_right_comm _ _ _
  · exact Counts.union_right_comm _ _ _

theorem totals_perm {tallies other : List Tally} (same : tallies.Perm other) :
    totals tallies = totals other := by
  apply same.foldl_eq'
  intro one _ two _ summary
  exact add_right_comm summary one two

end Summary

theorem DateRange.ofTallies_perm (filter : Filter) {tallies other : List Tally}
    (same : tallies.Perm other) : ofTallies filter tallies = ofTallies filter other := by
  unfold ofTallies
  rw [earliestOf_eq, latestOf_eq, earliestOf_eq, latestOf_eq, mergeAll_perm (same.map Tally.first),
    mergeAll_perm (same.map Tally.last)]

/-! ### Closed form -/

def Tally.Covers (tally : Tally) (entries : List Entry) : Prop :=
  ∃ path format unreadable octets, tally = .ofEntries path format entries unreadable octets

namespace Summary

def ofEntries (files : Nat) (entries : List Entry) (unreadable : Nat) : Summary where
  files := UInt64.ofNat files
  entries := UInt64.ofNat entries.length
  errors := UInt64.ofNat (entries.countP (·.level.isError))
  unreadable := UInt64.ofNat unreadable
  byLevel := Counts.ofKeys (entries.map Entry.level)
  byKind := Counts.ofKeys (entries.map Entry.kind)

variable {tallies : List Tally} {accepted : List (List Entry)}

theorem add_ofEntries (files : Nat) (entries more : List Entry) (unreadable refused : Nat)
    (path : Path) (format : String) (octets : Nat) :
    (ofEntries files entries unreadable).add (.ofEntries path format more refused octets) =
      ofEntries (files + 1) (entries ++ more) (unreadable + refused) := by
  simp only [add, ofEntries, Tally.ofEntries, List.length_append, List.countP_append,
    List.map_append, UInt64.ofNat_add, UInt64.ofNat_one, Counts.ofKeys_append]

theorem foldl_add_ofEntries (files : Nat) (entries : List Entry) (unreadable : Nat)
    (covers : List.Forall₂ Tally.Covers tallies accepted) :
    ∃ total, tallies.foldl add (ofEntries files entries unreadable) =
      ofEntries (files + tallies.length) (entries ++ accepted.flatten) total := by
  induction covers generalizing files entries unreadable with
  | nil => exact ⟨unreadable, by simp⟩
  | @cons tally more tallies accepted head _ ih =>
    obtain ⟨path, format, refused, octets, rfl⟩ := head
    obtain ⟨total, rest⟩ := ih (files + 1) (entries ++ more) (unreadable + refused)
    refine ⟨total, ?_⟩
    rw [List.foldl_cons, add_ofEntries, rest, List.length_cons, List.flatten_cons,
      List.append_assoc, Nat.add_right_comm, Nat.add_assoc]

theorem totals_ofEntries (covers : List.Forall₂ Tally.Covers tallies accepted) :
    ∃ unreadable, totals tallies = ofEntries tallies.length accepted.flatten unreadable := by
  obtain ⟨total, closed⟩ := foldl_add_ofEntries 0 [] 0 covers
  rw [Nat.zero_add, List.nil_append] at closed
  exact ⟨total, closed⟩

end Summary

namespace DateRange

variable {tallies : List Tally} {accepted : List (List Entry)}

theorem map_first (covers : List.Forall₂ Tally.Covers tallies accepted) :
    tallies.map Tally.first =
      (accepted.map fun entries => entries.map Entry.timestamp).map (mergeAll min) := by
  induction covers with
  | nil => rfl
  | cons head _ ih =>
    obtain ⟨path, format, unreadable, octets, rfl⟩ := head
    rw [List.map_cons, List.map_cons, List.map_cons, ih, ← earliestOf_eq]
    rfl

theorem map_last (covers : List.Forall₂ Tally.Covers tallies accepted) :
    tallies.map Tally.last =
      (accepted.map fun entries => entries.map Entry.timestamp).map (mergeAll max) := by
  induction covers with
  | nil => rfl
  | cons head _ ih =>
    obtain ⟨path, format, unreadable, octets, rfl⟩ := head
    rw [List.map_cons, List.map_cons, List.map_cons, ih, ← latestOf_eq]
    rfl

theorem ofTallies_ofEntries (filter : Filter)
    (covers : List.Forall₂ Tally.Covers tallies accepted) :
    (ofTallies filter tallies).earliest = earliestOf (accepted.flatten.map Entry.timestamp) ∧
      (ofTallies filter tallies).latest = latestOf (accepted.flatten.map Entry.timestamp) := by
  constructor
  · change earliestOf (tallies.map Tally.first) = _
    rw [earliestOf_eq, earliestOf_eq, map_first covers, ← mergeAll_flatten, List.map_flatten]
  · change latestOf (tallies.map Tally.last) = _
    rw [latestOf_eq, latestOf_eq, map_last covers, ← mergeAll_flatten, List.map_flatten]

end DateRange

/-! ### The span of admitted entries -/

namespace Filter

variable {filter : Filter} {instant bound : Instant}

theorem lower_le (admitted : filter.admits (some instant) = true)
    (lower : filter.lower = some bound) :
    bound ≤ instant := by
  unfold admits passesLower at admitted
  rw [lower, Bool.and_eq_true] at admitted
  exact Time.Instant.atMost_iff.1 admitted.1

theorem le_upper (admitted : filter.admits (some instant) = true)
    (upper : filter.upper = some bound) :
    instant ≤ bound := by
  unfold admits passesUpper at admitted
  rw [upper, Bool.and_eq_true] at admitted
  exact Time.Instant.atMost_iff.1 admitted.2

end Filter

namespace DateRange

/-- A span that is there just where some entry has a timestamp, and that keeps to what was asked
for. -/
structure Spans (range : DateRange) (entries : List Entry) : Prop where
  earliest : range.earliest.isSome = true ↔ ∃ entry ∈ entries, entry.timestamp.isSome = true
  latest : range.latest.isSome = true ↔ ∃ entry ∈ entries, entry.timestamp.isSome = true
  ordered : ∀ first last, range.earliest = some first → range.latest = some last → first ≤ last
  lower : ∀ bound first, range.lower = some bound → range.earliest = some first → bound ≤ first
  upper : ∀ bound last, range.upper = some bound → range.latest = some last → last ≤ bound

theorem exists_timestamp {entries : List Entry} :
    (∃ instant, some instant ∈ entries.map Entry.timestamp) ↔
      ∃ entry ∈ entries, entry.timestamp.isSome = true := by
  constructor
  · rintro ⟨instant, member⟩
    obtain ⟨entry, inside, timestamp⟩ := List.mem_map.1 member
    exact ⟨entry, inside, by rw [timestamp]; rfl⟩
  · rintro ⟨entry, inside, present⟩
    obtain ⟨instant, timestamp⟩ := Option.isSome_iff_exists.1 present
    exact ⟨instant, List.mem_map.2 ⟨entry, inside, timestamp⟩⟩

theorem spans_of_admitted {range : DateRange} {entries : List Entry} {filter : Filter}
    (lower : range.lower = filter.lower) (upper : range.upper = filter.upper)
    (earliest : range.earliest = earliestOf (entries.map Entry.timestamp))
    (latest : range.latest = latestOf (entries.map Entry.timestamp))
    (admitted : ∀ entry ∈ entries, filter.admits entry.timestamp = true) :
    range.Spans entries := by
  have passed (instant : Instant) (member : some instant ∈ entries.map Entry.timestamp) :
      filter.admits (some instant) = true := by
    obtain ⟨entry, inside, timestamp⟩ := List.mem_map.1 member
    exact timestamp ▸ admitted entry inside
  refine ⟨?_, ?_, ?_, ?_, ?_⟩
  · rw [earliest, isSome_earliestOf, exists_timestamp]
  · rw [latest, isSome_latestOf, exists_timestamp]
  · intro first last first_eq last_eq
    rw [earliest] at first_eq
    rw [latest] at last_eq
    have present : (earliestOf (entries.map Entry.timestamp)).isSome = true := by
      rw [first_eq, Option.isSome_some]
    obtain ⟨instant, member⟩ := isSome_earliestOf.1 present
    exact (earliestOf_le member first_eq).trans (le_latestOf member last_eq)
  · intro bound first asked found
    rw [lower] at asked
    rw [earliest, earliestOf_eq] at found
    exact mergeAll_holds (bound ≤ ·) (fun _ _ one other => le_min one other)
      (fun instant member => Filter.lower_le (passed instant member) asked) found
  · intro bound last asked found
    rw [upper] at asked
    rw [latest, latestOf_eq] at found
    exact mergeAll_holds (· ≤ bound) (fun _ _ one other => max_le one other)
      (fun instant member => Filter.le_upper (passed instant member) asked) found

end DateRange

/-! ### Balance -/

structure Balanced (entries errors : UInt64) (byLevel : Counts Level) (byKind : Counts String) :
    Prop where
  levels : byLevel.total = entries.toNat
  kinds : byKind.total = entries.toNat
  errors : errors.toNat = (byLevel.count .error).toNat + (byLevel.count .fatal).toNat
  levelsCounted : ∀ entry ∈ byLevel.toList, entry.2 ≠ 0
  kindsCounted : ∀ entry ∈ byKind.toList, entry.2 ≠ 0

theorem countP_isError (entries : List Entry) :
    entries.countP (·.level.isError) =
      (entries.map Entry.level).count .error + (entries.map Entry.level).count .fatal := by
  induction entries with
  | nil => rfl
  | cons entry rest ih =>
    rw [List.countP_cons, List.map_cons, List.count_cons, List.count_cons, ih]
    cases entry.level <;> simp [Level.isError] <;> omega

theorem toNat_ofNat_of_lt {number : Nat} (small : number < 2 ^ 64) :
    (UInt64.ofNat number).toNat = number := by
  rw [UInt64.toNat_ofNat']
  exact Nat.mod_eq_of_lt small

theorem balanced_ofEntries {entries : List Entry} (small : entries.length < 2 ^ 64) :
    Balanced (UInt64.ofNat entries.length) (UInt64.ofNat (entries.countP (·.level.isError)))
      (Counts.ofKeys (entries.map Entry.level)) (Counts.ofKeys (entries.map Entry.kind)) := by
  have levels : (entries.map Entry.level).length < 2 ^ 64 := by rwa [List.length_map]
  have kinds : (entries.map Entry.kind).length < 2 ^ 64 := by rwa [List.length_map]
  have errors := entries.countP_le_length (p := (·.level.isError))
  refine ⟨?_, ?_, ?_, ?_, ?_⟩
  · rw [Counts.total_ofKeys levels, List.length_map, toNat_ofNat_of_lt small]
  · rw [Counts.total_ofKeys kinds, List.length_map, toNat_ofNat_of_lt small]
  · rw [Counts.toNat_count_ofKeys levels, Counts.toNat_count_ofKeys levels,
      toNat_ofNat_of_lt (by omega), countP_isError]
  · exact fun _ member => Counts.pos_of_mem_ofKeys levels member
  · exact fun _ member => Counts.pos_of_mem_ofKeys kinds member

namespace Tally.Covers

variable {tally : Tally} {entries : List Entry} (covers : tally.Covers entries)
  (small : entries.length < 2 ^ 64)
include covers small

theorem toNat_entries : tally.entries.toNat = entries.length := by
  obtain ⟨path, format, unreadable, octets, rfl⟩ := covers
  exact toNat_ofNat_of_lt small

theorem balanced : Balanced tally.entries tally.errors tally.byLevel tally.byKind := by
  obtain ⟨path, format, unreadable, octets, rfl⟩ := covers
  exact balanced_ofEntries small

end Tally.Covers

end LogCensus
