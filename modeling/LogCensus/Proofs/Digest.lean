import LogCensus.Proofs.Counts
import LogCensus.Proofs.Digest.Lines
import LogCensus.Proofs.Path.Order
import LogCensus.Proofs.Report

/-!
The report for readers does not depend on the order in which the files were finished: counts stand
from the greatest down, equal ones in key order, and files in path order.
-/

namespace LogCensus

/-! ### Reports on files -/

def Report.onFiles (base : Report) (filter : Filter) (elapsed : Time.Duration)
    (files : List Tally) : Report :=
  { base with
    files
    summary := .ofTallies files elapsed
    range := .ofTallies filter files }

theorem Report.totalBytes_perm {one other : Report} (same : one.files.Perm other.files) :
    one.totalBytes = other.totalBytes :=
  same.foldl_eq' (fun _ _ _ _ _ => Summary.word_add_right_comm _ _ _) 0

theorem Report.summary_onFiles_perm (base : Report) (filter : Filter) (elapsed : Time.Duration)
    {files other : List Tally} (same : files.Perm other) :
    (base.onFiles filter elapsed files).summary = (base.onFiles filter elapsed other).summary := by
  unfold onFiles Summary.ofTallies
  rw [Summary.totals_perm same]

namespace Digest

/-! ### Counts -/

section Counts

variable {κ : Type} [Key κ]

def Descends (one other : κ × UInt64) : Prop :=
  other.2 < one.2 ∨ other.2 = one.2 ∧ compare one.1 other.1 = .lt

instance (one other : κ × UInt64) : Decidable (Descends one other) :=
  inferInstanceAs (Decidable (_ ∨ _))

theorem byCount_perm (counts : Counts κ) : (byCount counts).Perm counts.toList :=
  List.mergeSort_perm ..

omit [Key κ] in
theorem atLeast_trans (one two three : κ × UInt64) (first : decide (two.2 ≤ one.2) = true)
    (second : decide (three.2 ≤ two.2) = true) : decide (three.2 ≤ one.2) = true := by
  rw [decide_eq_true_iff] at *
  exact UInt64.le_trans second first

omit [Key κ] in
theorem atLeast_total (one other : κ × UInt64) :
    (decide (other.2 ≤ one.2) || decide (one.2 ≤ other.2)) = true := by
  rw [Bool.or_eq_true, decide_eq_true_iff, decide_eq_true_iff]
  exact UInt64.le_total _ _

/-- Entries of one count stay in the order in which the map has them. -/
theorem filter_byCount (counts : Counts κ) (count : UInt64) :
    (byCount counts).filter (·.2 == count) = counts.toList.filter (·.2 == count) := by
  have tied : (counts.toList.filter (·.2 == count)).Pairwise
      fun one other => decide (other.2 ≤ one.2) = true := by
    refine List.pairwise_of_forall_mem_list fun one member other later => ?_
    have count_eq := beq_iff_eq.1 (List.mem_filter.1 member).2
    have other_eq := beq_iff_eq.1 (List.mem_filter.1 later).2
    rw [count_eq, other_eq, decide_eq_true_iff]
    exact UInt64.le_refl count
  have kept := (List.sublist_mergeSort atLeast_trans atLeast_total tied
    List.filter_sublist).filter (·.2 == count)
  simp only [List.filter_filter, Bool.and_self] at kept
  exact (kept.eq_of_length ((byCount_perm counts).filter _).length_eq.symm).symm

theorem pairwise_byCount (counts : Counts κ) : (byCount counts).Pairwise Descends := by
  have ordered := List.pairwise_mergeSort atLeast_trans atLeast_total counts.toList
  have sorted := counts.sorted
  rw [List.pairwise_iff_forall_sublist] at ordered sorted ⊢
  intro one other inside
  rcases UInt64.lt_or_eq_of_le (decide_eq_true_iff.1 (ordered inside)) with less | tie
  · exact .inl less
  · -- two entries of one count stand as in the map
    have both := inside.filter (·.2 == one.2)
    rw [filter_byCount, List.filter_cons_of_pos (by simp), List.filter_cons_of_pos (by simp [tie]),
      List.filter_nil] at both
    exact .inr ⟨tie, sorted (both.trans List.filter_sublist)⟩

theorem eq_of_descends {one other : List (κ × UInt64)} (same : one.Perm other)
    (descends : one.Pairwise Descends) (otherDescends : other.Pairwise Descends) : one = other := by
  apply List.Perm.eq_of_pairwise _ descends otherDescends same
  rintro first second - - (less | ⟨tie, before⟩) (more | ⟨otherTie, after⟩)
  · exact absurd (UInt64.lt_trans less more) (UInt64.lt_irrefl _)
  · exact absurd (otherTie ▸ less) (UInt64.lt_irrefl _)
  · exact absurd (tie ▸ more) (UInt64.lt_irrefl _)
  · exact absurd (Std.TransCmp.lt_trans before after) (by simp [Std.ReflCmp.compare_self])

end Counts

/-! ### Files -/

section Files

variable {files other : List Tally}

theorem sortedFiles_perm (files : List Tally) : (sortedFiles files).Perm files :=
  List.mergeSort_perm ..

theorem pairwise_sortedFiles
    (apart : files.Pairwise fun one other => one.path.same other.path = false) :
    (sortedFiles files).Pairwise fun one other => one.path.order other.path = .lt := by
  have ordered : (sortedFiles files).Pairwise
      fun one other => one.path.atMost other.path = true := by
    apply List.pairwise_mergeSort
    · exact fun _ _ _ => Path.atMost_trans
    · exact fun _ _ => Path.atMost_total _ _
  have distinct := apart.perm (sortedFiles_perm files).symm fun differ => by
    rwa [Path.same_comm]
  exact ordered.imp₂ (fun _ _ => Path.order_eq_lt) distinct

theorem eq_of_pathOrder (same : files.Perm other)
    (sorted : files.Pairwise fun one other => one.path.order other.path = .lt)
    (otherSorted : other.Pairwise fun one other => one.path.order other.path = .lt) :
    files = other := by
  apply List.Perm.eq_of_pairwise _ sorted otherSorted same
  intro one two _ _ before after
  have swapped : one.path.order two.path = (two.path.order one.path).swap :=
    Std.OrientedCmp.eq_swap
  rw [swapped, after] at before
  cases before

/-- Files in path order stand the same, in whatever order they were finished. -/
theorem sortedFiles_eq (same : files.Perm other)
    (apart : files.Pairwise fun one other => one.path.same other.path = false) :
    sortedFiles files = sortedFiles other := by
  have otherApart := apart.perm same fun differ => by
    rwa [Path.same_comm]
  exact eq_of_pathOrder
    (((sortedFiles_perm files).trans same).trans (sortedFiles_perm other).symm)
    (pairwise_sortedFiles apart) (pairwise_sortedFiles otherApart)

end Files

/-! ### The text -/

theorem mapM_eq_some_iff {α β : Type} {row? : α → Option β} {Fits : α → Prop} {row : α → β}
    {entries : List α} {rows : List β}
    (shown : ∀ entry ∈ entries, ∀ line, row? entry = some line ↔ Fits entry ∧ line = row entry) :
    entries.mapM row? = some rows ↔ (∀ entry ∈ entries, Fits entry) ∧ rows = entries.map row := by
  induction entries generalizing rows with
  | nil => simp [eq_comm]
  | cons entry entries ih =>
    rw [List.forall_mem_cons] at shown
    simp only [List.mapM_cons, Option.bind_eq_bind, Option.bind_eq_some_iff, Option.pure_def,
      Option.some.injEq, shown.1, ih shown.2, List.forall_mem_cons, List.map_cons]
    constructor
    · rintro ⟨_, ⟨first, rfl⟩, _, ⟨later, rfl⟩, rfl⟩
      exact ⟨⟨first, later⟩, rfl⟩
    · rintro ⟨⟨first, later⟩, rfl⟩
      exact ⟨_, ⟨first, rfl⟩, _, ⟨later, rfl⟩, rfl⟩

section Rows

variable {summary : Summary} {rows : List String}

theorem countRows_eq_some_iff {κ : Type} [Key κ] (name : κ → String) (counts : Counts κ) :
    (byCount counts).mapM (fun (key, count) =>
        shareRow? (name key) count (summary.percentage (counts.count key))) = some rows ↔
      (∀ key ∈ counts.keys, HasBar summary (counts.count key)) ∧
      rows = (byCount counts).map fun (key, count) =>
        countLine (name key) count (summary.percentage count) := by
  have known : ∀ entry ∈ byCount counts, counts.count entry.1 = entry.2 :=
    fun entry member => Counts.count_of_mem ((byCount_perm counts).mem_iff.1 member)
  have fits : (∀ key ∈ counts.keys, HasBar summary (counts.count key)) ↔
      ∀ entry ∈ byCount counts, HasBar summary entry.2 := by
    rw [SortedMap.keys, List.forall_mem_map]
    simp only [(byCount_perm counts).mem_iff]
    refine forall₂_congr fun entry member => ?_
    rw [known entry ((byCount_perm counts).mem_iff.2 member)]
  rw [fits]
  apply mapM_eq_some_iff
  rintro ⟨key, count⟩ member line
  have same : counts.count key = count := known _ member
  simp only [same, shareRow?_eq_some_iff]

theorem levelRows?_eq_some_iff :
    levelRows? summary = some rows ↔
      (∀ level ∈ summary.byLevel.keys, HasBar summary (summary.byLevel.count level)) ∧
      rows = (byCount summary.byLevel).map fun (level, count) =>
        countLine level.name count (summary.percentage count) :=
  countRows_eq_some_iff Level.name summary.byLevel

theorem kindRows?_eq_some_iff :
    kindRows? summary = some rows ↔
      (∀ kind ∈ summary.byKind.keys, HasBar summary (summary.byKind.count kind)) ∧
      rows = (byCount summary.byKind).map fun (kind, count) =>
        countLine kind count (summary.percentage count) :=
  countRows_eq_some_iff id summary.byKind

end Rows

def HasBars (summary : Summary) : Prop :=
  (∀ level ∈ summary.byLevel.keys, HasBar summary (summary.byLevel.count level)) ∧
    ∀ kind ∈ summary.byKind.keys, HasBar summary (summary.byKind.count kind)

def sortedLines (report : Report) : List String :=
  linesOf report (byCount report.summary.byLevel) (byCount report.summary.byKind)
    (sortedFiles report.files)

theorem text?_eq_some_iff {report : Report} {text : String} :
    text? report = some text ↔
      HasBars report.summary ∧ text = String.join ((sortedLines report).map (· ++ "\n")) := by
  have files : fileRows report.files = (sortedFiles report.files).map fileLine :=
    List.map_congr_left fun tally _ => fileRow_eq tally
  have failures : report.failureTexts.map ("   " ++ ·) =
      report.failures.map fun failure => "   " ++ failure.display := List.map_map
  simp only [text?, lines?, Option.map_eq_some_iff, Option.bind_eq_bind, Option.bind_eq_some_iff,
    Option.pure_def, Option.some.injEq, levelRows?_eq_some_iff, kindRows?_eq_some_iff, heading_eq,
    titled_eq, files, failures]
  constructor
  · rintro ⟨_, ⟨_, ⟨levels, rfl⟩, _, ⟨kinds, rfl⟩, rfl⟩, rfl⟩
    exact ⟨⟨levels, kinds⟩, rfl⟩
  · rintro ⟨⟨levels, kinds⟩, rfl⟩
    exact ⟨_, ⟨_, ⟨levels, rfl⟩, _, ⟨kinds, rfl⟩, rfl⟩, rfl⟩

theorem sortedLines_onFiles (base : Report) (filter : Filter) (elapsed : Time.Duration)
    {files other : List Tally} (same : files.Perm other)
    (apart : files.Pairwise fun one other => one.path.same other.path = false) :
    sortedLines (base.onFiles filter elapsed files) =
      sortedLines (base.onFiles filter elapsed other) := by
  have summary := base.summary_onFiles_perm filter elapsed same
  have range : (base.onFiles filter elapsed files).range =
      (base.onFiles filter elapsed other).range := DateRange.ofTallies_perm filter same
  have total : (base.onFiles filter elapsed files).totalBytes =
      (base.onFiles filter elapsed other).totalBytes := Report.totalBytes_perm same
  have sorted : sortedFiles (base.onFiles filter elapsed files).files =
      sortedFiles (base.onFiles filter elapsed other).files := sortedFiles_eq same apart
  unfold sortedLines linesOf headLines
  rw [summary, range, total, sorted]
  rfl

/-- Whatever the order in which the files were finished, the same text is printed: a row for each
level and each type from the greatest count down, equal ones in the order of severity and of the
names, and a row for each file in path order. It is printed unless a text cannot hold one of the
bars, which is not so where the count is no greater than the number of entries. -/
theorem text_of_reordered (base : Report) (filter : Filter) (elapsed : Time.Duration)
    {files other : List Tally} (same : files.Perm other)
    (apart : files.Pairwise fun one other => one.path.same other.path = false) :
    let report := base.onFiles filter elapsed files
    text? report = text? (base.onFiles filter elapsed other) ∧
      (∃ levels kinds, ∃ sorted : List Tally,
        (levels.Perm report.summary.byLevel.toList ∧ levels.Pairwise Descends) ∧
        (kinds.Perm report.summary.byKind.toList ∧ kinds.Pairwise Descends) ∧
        (sorted.Perm files ∧
          sorted.Pairwise fun one other => one.path.order other.path = .lt) ∧
        ∀ text, text? report = some text ↔ HasBars report.summary ∧
          text = String.join ((linesOf report levels kinds sorted).map (· ++ "\n"))) ∧
      ((text? report).isSome = true ↔ HasBars report.summary) ∧
      ∀ count ≤ report.summary.entries, HasBar report.summary count := by
  refine ⟨?_, ⟨_, _, sortedFiles files, ⟨byCount_perm _, pairwise_byCount _⟩,
    ⟨byCount_perm _, pairwise_byCount _⟩, ⟨sortedFiles_perm files, pairwise_sortedFiles apart⟩,
    fun text => text?_eq_some_iff⟩, ?_, fun count => hasBar_of_le⟩
  · apply Option.ext
    intro text
    rw [text?_eq_some_iff, text?_eq_some_iff, base.summary_onFiles_perm filter elapsed same,
      sortedLines_onFiles base filter elapsed same apart]
  · rw [Option.isSome_iff_exists]
    constructor
    · rintro ⟨text, shown⟩
      exact (text?_eq_some_iff.1 shown).1
    · exact fun bars => ⟨_, text?_eq_some_iff.2 ⟨bars, rfl⟩⟩

/-- Two files with an entry each, of different levels and types. -/
def sampleTallies : List Tally :=
  [{ path := .ofString "b.log", format := "json", entries := 1, errors := 1
     byLevel := (∅ : Counts Level).add .error 1, byKind := (∅ : Counts String).add "json" 1 },
    { path := .ofString "a.log", format := "app", entries := 1
      byLevel := (∅ : Counts Level).add .info 1, byKind := (∅ : Counts String).add "app" 1 }]

def sampleLines : List String :=
  ["",
    "──────────────────────────────────────────────────────────────────────",
    " Log Analysis Report",
    "──────────────────────────────────────────────────────────────────────",
    " 2 files analyzed, 0 failed, 0 B read",
    " 2 entries, 1 errors (50.0%), 0 parse errors",
    " Finished in 0.00s (0 entries/s)",
    "──────────────────────────────────────────────────────────────────────",
    "",
    " Levels:",
    "   info                1   50.0% [██████████░░░░░░░░░░]",
    "   error               1   50.0% [██████████░░░░░░░░░░]",
    "",
    " Types:",
    "   app                 1   50.0% [██████████░░░░░░░░░░]",
    "   json                1   50.0% [██████████░░░░░░░░░░]",
    "",
    " Files:",
    "   a.log                                    app           1 entries      0 errors      0 unparsed        0 B",
    "   b.log                                    json          1 entries      1 errors      0 unparsed        0 B",
    ""]

theorem text_of_reordered_sample :
    let text := String.join (sampleLines.map (· ++ "\n"))
    text? (({} : Report).onFiles {} .none sampleTallies) = some text ∧
      text? (({} : Report).onFiles {} .none sampleTallies.reverse) = some text := by
  intro text
  obtain ⟨same, ⟨levels, kinds, sorted, ⟨levelsSame, levelsOrdered⟩, ⟨kindsSame, kindsOrdered⟩,
    ⟨sortedSame, filesOrdered⟩, printed⟩, -, parts⟩ :=
    text_of_reordered {} {} .none sampleTallies.reverse_perm.symm (by decide)
  have levelsFit : ∀ level ∈ (Summary.totals sampleTallies).byLevel.keys,
      (Summary.totals sampleTallies).byLevel.count level ≤ 2 := by decide
  have kindsFit : ∀ kind ∈ (Summary.totals sampleTallies).byKind.keys,
      (Summary.totals sampleTallies).byKind.count kind ≤ 2 := by decide
  have levels_eq : levels = [(.info, 1), (.error, 1)] :=
    eq_of_descends levelsSame levelsOrdered (by decide)
  have kinds_eq : kinds = [("app", 1), ("json", 1)] :=
    eq_of_descends kindsSame kindsOrdered (by decide)
  have sorted_eq : sorted = sampleTallies.reverse :=
    eq_of_pathOrder (sortedSame.trans sampleTallies.reverse_perm.symm) filesOrdered (by decide)
  subst levels_eq kinds_eq sorted_eq
  have lines : linesOf (({} : Report).onFiles {} .none sampleTallies) [(.info, 1), (.error, 1)]
      [("app", 1), ("json", 1)] sampleTallies.reverse = sampleLines := by decide +kernel
  have shown := (printed text).2 ⟨⟨fun level member => parts _ (levelsFit level member),
    fun kind member => parts _ (kindsFit kind member)⟩, by rw [lines]⟩
  exact ⟨shown, same ▸ shown⟩

end Digest

end LogCensus
