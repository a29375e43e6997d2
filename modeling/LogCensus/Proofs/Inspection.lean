import LogCensus.Inspection
import LogCensus.Proofs.Scan.Ledger

/-!
What comes of a file bears its path, whether it is a tally or a failure, and a tally is that of the
entries which the scan accepted.
-/

namespace LogCensus.Inspection

variable {registry : Registry} {settings : Settings} {cancelled : String → Scan → Bool}
  {files : FileSystem} {path : Path} {format : Format} {scan : Scan} {ending : ScanEnd}
  {tally : Tally} {failure : Failure}

def terms (settings : Settings) (cancelled : String → Scan → Bool) (format : Format) :
    ScanTerms where
  filter := settings.filter
  limit := settings.limit
  cancelled := cancelled format.kind

theorem scanContent_cases {content : List UInt8} :
    (∃ cause,
        scanContent registry settings cancelled path content = .error ⟨path, .detect, cause⟩) ∨
      ∃ format, scanContent registry settings cancelled path content =
        .ok (format,
          Scan.run (terms settings cancelled format) path format (Line.list content)) := by
  unfold scanContent
  dsimp only
  split
  next => exact .inl ⟨_, rfl⟩
  next sample _ =>
    split
    next cause _ => exact .inl ⟨cause, rfl⟩
    next format _ => exact .inr ⟨format, rfl⟩

theorem scanPath_cases (registry : Registry) (settings : Settings)
    (cancelled : String → Scan → Bool) (files : FileSystem) (path : Path) :
    (∃ stage cause,
        scanPath registry settings cancelled files path = .error ⟨path, stage, cause⟩) ∨
      ∃ format content, scanPath registry settings cancelled files path =
        .ok (format,
          Scan.run (terms settings cancelled format) path format (Line.list content)) := by
  unfold scanPath
  split
  next => exact .inl ⟨_, _, rfl⟩
  next location _ =>
    split
    next => exact .inl ⟨_, _, rfl⟩
    next content _ =>
      obtain ⟨cause, failed⟩ | ⟨format, scanned⟩ := scanContent_cases
      · exact .inl ⟨.detect, cause, failed⟩
      · exact .inr ⟨format, content, scanned⟩

theorem ledger_of_scanPath (sound : settings.limit ≠ some 0)
    (scanned : scanPath registry settings cancelled files path = .ok (format, scan, ending)) :
    ∃ content, Scan.Ledger (terms settings cancelled format) format.readGroup path format.kind
      (Line.list content) scan := by
  obtain ⟨stage, cause, failed⟩ | ⟨found, content, ran⟩ :=
    scanPath_cases registry settings cancelled files path
  · rw [failed] at scanned
    cases scanned
  · rw [ran, Except.ok.injEq, Prod.mk.injEq] at scanned
    obtain ⟨rfl, ended⟩ := scanned
    have ledger := Scan.run_ledger (terms settings cancelled found) sound path found
      (Line.list content)
    rw [ended] at ledger
    exact ⟨content, ledger⟩

/-- A tally comes of a scan that did not crash, and everything else is a failure. -/
theorem outcome_cases (registry : Registry) (settings : Settings)
    (cancelled : String → Scan → Bool) (files : FileSystem) (path : Path) :
    (∃ stage cause, (ofPath registry settings cancelled files path).outcome =
        .error ⟨path, stage, cause⟩) ∨
      ∃ format scan ending,
        scanPath registry settings cancelled files path = .ok (format, scan, ending) ∧
          ending ≠ .crashed ∧
          (ofPath registry settings cancelled files path).outcome = .ok scan.tally := by
  unfold ofPath
  obtain ⟨stage, cause, failed⟩ | ⟨format, content, scanned⟩ :=
    scanPath_cases registry settings cancelled files path
  · rw [failed]
    exact .inl ⟨stage, cause, rfl⟩
  · rw [scanned]
    cases ended : Scan.run (terms settings cancelled format) path format (Line.list content) with
    | mk scan ending =>
      by_cases crashed : ending = .crashed
      · exact .inl ⟨.worker, crash, by simp only [if_pos crashed]⟩
      · exact .inr ⟨format, scan, ending, rfl, crashed, by simp only [if_neg crashed]⟩

theorem path_of_error
    (failed : (ofPath registry settings cancelled files path).outcome = .error failure) :
    failure.path = path := by
  obtain ⟨stage, cause, outcome⟩ | ⟨_, scan, _, _, _, outcome⟩ :=
    outcome_cases registry settings cancelled files path
  · rw [outcome, Except.error.injEq] at failed
    rw [← failed]
  · rw [outcome] at failed
    cases failed

theorem scan_of_ok (counted : (ofPath registry settings cancelled files path).outcome = .ok tally) :
    ∃ format scan ending,
      scanPath registry settings cancelled files path = .ok (format, scan, ending) ∧
        tally = scan.tally := by
  obtain ⟨stage, cause, outcome⟩ | ⟨format, scan, ending, scanned, _, outcome⟩ :=
    outcome_cases registry settings cancelled files path
  · rw [outcome] at counted
    cases counted
  · rw [outcome, Except.ok.injEq] at counted
    exact ⟨format, scan, ending, scanned, counted.symm⟩

theorem path_of_ok (sound : settings.limit ≠ some 0)
    (counted : (ofPath registry settings cancelled files path).outcome = .ok tally) :
    tally.path = path := by
  obtain ⟨_, scan, _, scanned, rfl⟩ := scan_of_ok counted
  obtain ⟨_, ledger⟩ := ledger_of_scanPath sound scanned
  rw [ledger.tally]
  rfl

end LogCensus.Inspection

namespace LogCensus.Settings

theorem limit_ne_zero {settings : Settings} (valid : settings.fault? = none) :
    settings.limit ≠ some 0 := by
  intro zero
  unfold fault? at valid
  rw [if_pos zero] at valid
  cases valid

end LogCensus.Settings
