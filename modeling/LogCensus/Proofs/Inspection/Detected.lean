import LogCensus.Proofs.Format.Application
import LogCensus.Proofs.Inspection
import LogCensus.Proofs.Scan.Cancelled

/-!
Files whose format was found by their first line. If it is that of application logs, the first line
starts an entry, and so does the first line of each group that a scan hands over, however far it
gets. What such a group is refused for is its time.
-/

namespace LogCensus

namespace Scan

variable {framing : Framing} {texts : List String} {groups : List (List String)}

/-- Where the first of all texts starts an entry, each group opens with a text that does. -/
theorem IsCut.opens (cut : IsCut framing texts groups)
    (start : ∀ text ∈ texts.head?, framing.starts text = true) :
    ∀ group ∈ groups, ∃ first rest, group = first :: rest ∧ framing.starts first = true ∧
      ∀ text ∈ rest, framing.starts text = false := by
  intro group member
  cases group with
  | nil => exact absurd rfl (cut.nonempty [] member)
  | cons first rest =>
    refine ⟨first, rest, rfl, ?_, cut.whole _ member⟩
    cases groups with
    | nil => cases member
    | cons head others =>
      rcases List.mem_cons.1 member with rfl | later
      · apply start
        rw [← cut.complete]
        rfl
      · obtain ⟨text, opening, starts⟩ := cut.opened _ later
        cases opening
        exact starts

/-- Whatever the limit and wherever a scan is cancelled, it hands over groups of the cut, from the
first one on. -/
theorem handed_isPrefix {format : Format} (terms : ScanTerms)
    (framed : format.framing = some framing) (path : Path) (lines : List Line) :
    (run terms path format lines).1.handed.reverse <+: groupsOf framing (Scan.texts lines) := by
  have calm (scan : Scan) : (positive terms).uncancelled.cancelled scan = false := rfl
  have further := run_extends_uncancelled (positive terms) path format lines
  obtain ⟨handed, -⟩ := run_handed calm (positive_limit_ne_zero terms) framed path lines
  rw [← run_positive]
  exact (List.reverse_prefix.2 further.handed).trans (handed ▸ consumed_isPrefix _)

/-- Where the first line that is not blank starts an entry, each group that is handed over opens with
a line that does. -/
theorem handed_opens {format : Format} (terms : ScanTerms) (framed : format.framing = some framing)
    (path : Path) {lines : List Line}
    (start : ∀ text ∈ (Scan.texts lines).head?, framing.starts text = true) :
    ∀ group ∈ (run terms path format lines).1.handed, ∃ first rest, group = first :: rest ∧
      framing.starts first = true ∧ ∀ text ∈ rest, framing.starts text = false := by
  intro group handed
  have within := (handed_isPrefix terms framed path lines).subset (List.mem_reverse.2 handed)
  exact isCut_groupsOf.opens start group within

end Scan

namespace Registry

theorem mem_of_detect? {registry : Registry} {sample : String} {format : Format}
    (detected : registry.detect? sample = some format) :
    format ∈ registry.formats ∧ format.probe sample = true := by
  have probed := List.find?_some detected
  exact ⟨List.mem_of_find?_eq_some detected, probed⟩

theorem eq_application_of_kind {format : Format} (known : format ∈ standard.formats)
    (kind : format.kind = Format.Application.kind) : format = .application := by
  change format ∈ [Format.application, Format.jsonLines, Format.accessLog] at known
  simp only [List.mem_cons, List.not_mem_nil, or_false] at known
  rcases known with rfl | rfl | rfl
  · rfl
  · exact absurd kind (by decide)
  · exact absurd kind (by decide)

end Registry

namespace Inspection

open Format (Application.starts Application.HasBadTime)

variable {registry : Registry} {settings : Settings} {cancelled : String → Scan → Bool}
  {path : Path} {content : List UInt8} {format : Format} {scan : Scan} {ending : ScanEnd}

/-- The sample is the first text that a scan in groups comes to. -/
theorem sample?_eq_head? (lines : List Line) : sample? lines = (Scan.texts lines).head? := by
  rw [sample?, Scan.texts, List.head?_map, List.head?_filter, List.find?_map]
  rfl

/-- A file that is scanned in a format nobody asked for was recognized by its first line. -/
theorem detected_of_scanContent (unasked : settings.format = none)
    (scanned : scanContent registry settings cancelled path content = .ok (format, scan, ending)) :
    (∃ sample, (Scan.texts (Line.list content)).head? = some sample ∧
        registry.detect? sample = some format) ∧
      (scan, ending) =
        Scan.run (terms settings cancelled format) path format (Line.list content) := by
  unfold scanContent at scanned
  dsimp only at scanned
  split at scanned
  next => cases scanned
  next sample found =>
    split at scanned
    next => cases scanned
    next chosen recognized =>
      rw [Except.ok.injEq, Prod.mk.injEq] at scanned
      obtain ⟨rfl, ended⟩ := scanned
      unfold format? at recognized
      rw [unasked] at recognized
      dsimp only at recognized
      split at recognized
      next detected =>
        cases recognized
        exact ⟨⟨sample, sample?_eq_head? _ ▸ found, detected⟩, ended.symm⟩
      next => cases recognized

/-- A file of which the first line is found to be that of an application log has no stray lines:
each group that a scan of it hands over is opened by a line that starts an entry, and goes on with
lines that do not. What cannot be read is exactly the groups whose first line has a bad time. -/
theorem detected_groups_are_opened (unasked : settings.format = none)
    (scanned : scanContent .standard settings cancelled path content = .ok (format, scan, ending))
    (kind : format.kind = Format.Application.kind) :
    (∀ group ∈ scan.handed, ∃ first rest, group = first :: rest ∧
      Application.starts first = true ∧ (∀ line ∈ rest, Application.starts line = false) ∧
      ((format.readGroup group).isRefused = true ↔ Application.HasBadTime first)) ∧
    scan.tally.unreadable = UInt64.ofNat (scan.handed.countP fun group =>
      group.head?.any fun first => Application.HasBadTime first) := by
  obtain ⟨⟨sample, first, detected⟩, ran⟩ := detected_of_scanContent unasked scanned
  obtain ⟨known, probed⟩ := Registry.mem_of_detect? detected
  obtain rfl := Registry.eq_application_of_kind known kind
  have ended : scan = (Scan.run (terms settings cancelled .application) path .application
      (Line.list content)).1 := congrArg Prod.fst ran
  have framed : Format.application.framing = some
      ⟨Application.starts, fun lines => .ofExcept (Format.Application.readGroup lines)⟩ := rfl
  have start (text : String) (opening : text ∈ (Scan.texts (Line.list content)).head?) :
      Application.starts text = true := by
    rw [first] at opening
    cases opening
    exact probed
  have opened := Scan.handed_opens (terms settings cancelled .application) framed path start
  rw [← ended] at opened
  refine ⟨fun group handed => ?_, ?_⟩
  · obtain ⟨first, rest, rfl, starts, inner⟩ := opened group handed
    exact ⟨first, rest, rfl, starts, inner, Format.Application.isRefused_iff starts rest⟩
  · have counted := congrArg Tally.unreadable
      (Scan.ledger_run (terms settings cancelled .application) path .application
        (Line.list content)).tally
    rw [← ended] at counted
    refine counted.trans (congrArg UInt64.ofNat ?_)
    rw [Scan.unreadableOf, List.countP_reverse]
    apply List.countP_congr
    intro group handed
    obtain ⟨first, rest, rfl, starts, -⟩ := opened group handed
    rw [Format.Application.isRefused_iff starts rest]
    simp

/-- A blank line, an entry with a second line, and a start line with a thirteenth month. -/
def sampleLog : List UInt8 :=
  Text.Utf8.encodeString
    "\n2024-05-01T10:00:00 WARN [a] b\n  c\n2024-13-01 10:00:00,5 [INFO] d"

theorem detected_groups_are_opened_sample :
    ∃ scan ending, scanContent .standard {} (fun _ _ => false) ⟨[]⟩ sampleLog =
        .ok (.application, scan, ending) ∧
      scan.handed = [["2024-13-01 10:00:00,5 [INFO] d"],
        ["2024-05-01T10:00:00 WARN [a] b", "  c"]] ∧
      Application.HasBadTime "2024-13-01 10:00:00,5 [INFO] d" ∧ scan.tally.unreadable = 1 := by
  have sample : sample? (Line.list sampleLog) = some "2024-05-01T10:00:00 WARN [a] b" := by
    decide +kernel
  have starts : Application.starts "2024-05-01T10:00:00 WARN [a] b" = true := by decide +kernel
  have detected : Registry.standard.detect? "2024-05-01T10:00:00 WARN [a] b" = some .application :=
    List.find?_cons_of_pos starts
  have scanned : scanContent .standard {} (fun _ _ => false) ⟨[]⟩ sampleLog =
      .ok (.application, (Scan.run {} ⟨[]⟩ .application (Line.list sampleLog)).1,
        (Scan.run {} ⟨[]⟩ .application (Line.list sampleLog)).2) := by
    simp only [scanContent, sample, format?, detected]
  have handed : (Scan.run {} ⟨[]⟩ .application (Line.list sampleLog)).1.handed =
      [["2024-13-01 10:00:00,5 [INFO] d"], ["2024-05-01T10:00:00 WARN [a] b", "  c"]] := by
    decide +kernel
  have bad : Application.HasBadTime "2024-13-01 10:00:00,5 [INFO] d" := by decide +kernel
  have good : ¬Application.HasBadTime "2024-05-01T10:00:00 WARN [a] b" := by decide +kernel
  obtain ⟨_, counted⟩ := detected_groups_are_opened rfl scanned rfl
  refine ⟨_, _, scanned, handed, bad, counted.trans ?_⟩
  rw [handed]
  simp [bad, good]

end Inspection

end LogCensus
