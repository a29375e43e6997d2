import LogCensus.Proofs.Counts
import LogCensus.Proofs.Time.Order
import LogCensus.Report

/-!
Tallies in closed form. A tally that counted some entries one after the other holds the number of
entries of each level and kind and the least and the greatest of their timestamps, and totals over
tallies are the totals of all their entries.
-/

namespace LogCensus

open Time (Instant)

/-! ### Extremes of the values there are -/

section MergeAll

variable {α : Type} {op : α → α → α}

def mergeAll (op : α → α → α) (values : List (Option α)) : Option α :=
  values.foldl (Option.merge op) none

theorem mergeAll_concat (values : List (Option α)) (value : Option α) :
    mergeAll op (values ++ [value]) = (mergeAll op values).merge op value := by
  rw [mergeAll, mergeAll, List.foldl_append, List.foldl_cons, List.foldl_nil]

theorem mergeAll_append [Std.Associative op] (values more : List (Option α)) :
    mergeAll op (values ++ more) = (mergeAll op values).merge op (mergeAll op more) := by
  induction more using List.reverseRecOn with
  | nil => simp [mergeAll]
  | append_singleton more value ih =>
    rw [← List.append_assoc, mergeAll_concat, mergeAll_concat, ih]
    exact Std.Associative.assoc _ _ _

theorem mergeAll_flatten [Std.Associative op] (lists : List (List (Option α))) :
    mergeAll op lists.flatten = mergeAll op (lists.map (mergeAll op)) := by
  induction lists using List.reverseRecOn with
  | nil => rfl
  | append_singleton lists list ih =>
    rw [List.flatten_append, List.flatten_singleton, mergeAll_append, ih, List.map_append,
      List.map_singleton, mergeAll_concat]

theorem mergeAll_perm [Std.Commutative op] [Std.Associative op] {values other : List (Option α)}
    (same : values.Perm other) : mergeAll op values = mergeAll op other := by
  apply same.foldl_eq'
  intro first _ second _ start
  rw [(Option.associative_merge op).assoc, (Option.commutative_merge op).comm first,
    ← (Option.associative_merge op).assoc]

theorem mergeAll_eq_none {values : List (Option α)} :
    mergeAll op values = none ↔ ∀ value ∈ values, value = none := by
  induction values using List.reverseRecOn with
  | nil => simp [mergeAll]
  | append_singleton values value ih =>
    rw [mergeAll_concat, Option.merge_eq_none_iff, ih]
    simp [or_imp, forall_and]

theorem isSome_mergeAll {values : List (Option α)} :
    (mergeAll op values).isSome = true ↔ ∃ value, some value ∈ values := by
  rw [Option.isSome_iff_ne_none, ne_eq, mergeAll_eq_none]
  constructor
  · intro present
    push Not at present
    obtain ⟨value, member, present⟩ := present
    obtain ⟨found, rfl⟩ := Option.ne_none_iff_exists'.1 present
    exact ⟨found, member⟩
  · rintro ⟨value, member⟩ absent
    cases absent _ member

/-- What holds of all values there are and is kept by the operation holds of the outcome. -/
theorem mergeAll_holds (holds : α → Prop)
    (kept : ∀ one other, holds one → holds other → holds (op one other)) {values : List (Option α)}
    (all : ∀ value, some value ∈ values → holds value) {outcome : α}
    (found : mergeAll op values = some outcome) : holds outcome := by
  induction values using List.reverseRecOn generalizing outcome with
  | nil => cases found
  | append_singleton values value ih =>
    have before {outcome : α} : mergeAll op values = some outcome → holds outcome :=
      ih fun value member => all value (List.mem_append_left _ member)
    rw [mergeAll_concat, Option.merge_eq_some_iff] at found
    rcases found with ⟨old, _⟩ | ⟨_, new⟩ | ⟨one, other, old, new, rfl⟩
    · exact before old
    · exact all outcome (by simp [new])
    · exact kept one other (before old) (all other (by simp [new]))

/-- The outcome stands to each value as an operation's outcome to its arguments. -/
theorem mergeAll_below (below : α → α → Prop) (left : ∀ one other, below (op one other) one)
    (right : ∀ one other, below (op one other) other)
    (trans : ∀ {a b c}, below a b → below b c → below a c) (refl : ∀ a, below a a)
    {values : List (Option α)} {value outcome : α}
    (member : some value ∈ values) (found : mergeAll op values = some outcome) :
    below outcome value := by
  induction values using List.reverseRecOn generalizing outcome with
  | nil => cases member
  | append_singleton values last ih =>
    rw [mergeAll_concat, Option.merge_eq_some_iff] at found
    rcases List.mem_append.1 member with earlier | final
    · rcases found with ⟨old, _⟩ | ⟨absent, _⟩ | ⟨one, other, old, _, rfl⟩
      · exact ih earlier old
      · cases mergeAll_eq_none.1 absent _ earlier
      · exact trans (left one other) (ih earlier old)
    · rw [List.mem_singleton] at final
      subst final
      rcases found with ⟨_, absent⟩ | ⟨_, new⟩ | ⟨one, other, _, new, rfl⟩
      · cases absent
      · rw [Option.some.inj new]
        exact refl outcome
      · rw [Option.some.inj new]
        exact right one other

end MergeAll

namespace DateRange

variable {instants : List (Option Instant)}

theorem elim_earliest (first instant : Option Instant) :
    instant.elim first (some ∘ Tally.earliestWith first) = first.merge min instant := by
  cases first <;> cases instant <;> simp [Tally.earliestWith, Time.Instant.earlier_eq_min]

theorem elim_latest (last instant : Option Instant) :
    instant.elim last (some ∘ Tally.latestWith last) = last.merge max instant := by
  cases last <;> cases instant <;> simp [Tally.latestWith, Time.Instant.later_eq_max]

theorem earliestOf_eq (instants : List (Option Instant)) :
    earliestOf instants = mergeAll min instants := by
  simp only [earliestOf, elim_earliest, mergeAll]

theorem latestOf_eq (instants : List (Option Instant)) :
    latestOf instants = mergeAll max instants := by
  simp only [latestOf, elim_latest, mergeAll]

theorem elim_earliestOf (instants : List (Option Instant)) (instant : Option Instant) :
    (instant.elim (earliestOf instants) fun value =>
      some (Tally.earliestWith (earliestOf instants) value)) =
        earliestOf (instants ++ [instant]) := by
  rw [earliestOf_eq (instants ++ [instant]), mergeAll_concat, ← earliestOf_eq, ← elim_earliest]
  rfl

theorem elim_latestOf (instants : List (Option Instant)) (instant : Option Instant) :
    (instant.elim (latestOf instants) fun value =>
      some (Tally.latestWith (latestOf instants) value)) =
        latestOf (instants ++ [instant]) := by
  rw [latestOf_eq (instants ++ [instant]), mergeAll_concat, ← latestOf_eq, ← elim_latest]
  rfl

theorem earliestOf_le {instant earliest : Instant} (member : some instant ∈ instants)
    (found : earliestOf instants = some earliest) : earliest ≤ instant := by
  rw [earliestOf_eq] at found
  exact mergeAll_below (· ≤ ·) min_le_left min_le_right le_trans le_refl member found

theorem le_latestOf {instant latest : Instant} (member : some instant ∈ instants)
    (found : latestOf instants = some latest) : instant ≤ latest := by
  rw [latestOf_eq] at found
  exact mergeAll_below (· ≥ ·) le_max_left le_max_right ge_trans le_refl member found

theorem isSome_earliestOf :
    (earliestOf instants).isSome = true ↔ ∃ instant, some instant ∈ instants := by
  rw [earliestOf_eq, isSome_mergeAll]

theorem isSome_latestOf :
    (latestOf instants).isSome = true ↔ ∃ instant, some instant ∈ instants := by
  rw [latestOf_eq, isSome_mergeAll]

theorem earliestOf_anti {more : List (Option Instant)} {first : Instant} (part : instants ⊆ more)
    (found : earliestOf instants = some first) :
    ∃ early, earliestOf more = some early ∧ early ≤ first := by
  obtain ⟨instant, member⟩ := isSome_earliestOf.1 (Option.isSome_of_eq_some found)
  obtain ⟨early, known⟩ := Option.isSome_iff_exists.1 (isSome_earliestOf.2 ⟨instant, part member⟩)
  refine ⟨early, known, ?_⟩
  rw [earliestOf_eq] at found
  exact mergeAll_holds (early ≤ ·) (fun _ _ => le_min)
    (fun instant member => earliestOf_le (part member) known) found

theorem latestOf_mono {more : List (Option Instant)} {last : Instant} (part : instants ⊆ more)
    (found : latestOf instants = some last) :
    ∃ late, latestOf more = some late ∧ last ≤ late := by
  obtain ⟨instant, member⟩ := isSome_latestOf.1 (Option.isSome_of_eq_some found)
  obtain ⟨late, known⟩ := Option.isSome_iff_exists.1 (isSome_latestOf.2 ⟨instant, part member⟩)
  refine ⟨late, known, ?_⟩
  rw [latestOf_eq] at found
  exact mergeAll_holds (· ≤ late) (fun _ _ => max_le)
    (fun instant member => le_latestOf (part member) known) found

end DateRange

namespace Tally

/-- The tally of a file with these accepted entries, so much that could not be read and so many
octets. -/
def ofEntries (path : Path) (format : String) (entries : List Entry) (unreadable octets : Nat) :
    Tally where
  path
  format
  bytesRead := UInt64.ofNat octets
  entries := UInt64.ofNat entries.length
  errors := UInt64.ofNat (entries.countP (·.level.isError))
  unreadable := UInt64.ofNat unreadable
  byLevel := Counts.ofKeys (entries.map Entry.level)
  byKind := Counts.ofKeys (entries.map Entry.kind)
  first := DateRange.earliestOf (entries.map Entry.timestamp)
  last := DateRange.latestOf (entries.map Entry.timestamp)

variable {path : Path} {format : String} {entries : List Entry} {unreadable octets : Nat}

theorem record_ofEntries (entry : Entry) :
    (ofEntries path format entries unreadable octets).record entry =
      ofEntries path format (entries ++ [entry]) unreadable octets := by
  have errors : UInt64.ofNat (entries.countP (·.level.isError)) +
        (if entry.level.isError then 1 else 0) =
      UInt64.ofNat ((entries ++ [entry]).countP (·.level.isError)) := by
    rw [List.countP_append, List.countP_singleton, UInt64.ofNat_add]
    cases entry.level.isError <;> rfl
  simp only [record, ofEntries, errors, DateRange.elim_earliestOf, DateRange.elim_latestOf,
    List.length_append, List.length_singleton, UInt64.ofNat_add, UInt64.ofNat_one, List.map_append,
    List.map_singleton, Counts.ofKeys_concat]

theorem recordUnreadable_ofEntries :
    (ofEntries path format entries unreadable octets).recordUnreadable =
      ofEntries path format entries (unreadable + 1) octets := by
  simp [recordUnreadable, ofEntries, UInt64.ofNat_add]

theorem recordBytes_ofEntries (count : Nat) :
    (ofEntries path format entries unreadable octets).recordBytes count =
      ofEntries path format entries unreadable (octets + count) := by
  simp [recordBytes, ofEntries, UInt64.ofNat_add]

end Tally

end LogCensus
