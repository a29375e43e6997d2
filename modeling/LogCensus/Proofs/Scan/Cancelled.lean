import LogCensus.Proofs.Scan.Extends
import Mathlib.Data.List.TakeWhile

/-!
A scan that is cancelled has done a part of the scan that is not: line by line it has done what a
scan of the lines that were read does, and in groups what a scan of the lines in front of the group
at hand does.
-/

namespace LogCensus

namespace Scan

variable {terms : ScanTerms} {read : String → Outcome} {framing : Framing} {path : Path}
  {kind : String} {format : Format} {lines rest : List Line} {scan next : Scan}
  {group : List String} {ending : Option ScanEnd}

/-! ### The scan up to a cancellation -/

structure Unsettled (terms : ScanTerms) (read : List String → Outcome) (scan : Scan) : Prop where
  wants : Wants terms read scan
  sound : ∀ group ∈ scan.handed, crashes read group = false

theorem Unsettled.took {read : List String → Outcome}
    (unsettled : Unsettled terms read scan) (ledger : Ledger terms read path kind lines scan)
    (taken : scan.take terms group (read group) = (next, none)) : Unsettled terms read next := by
  obtain ⟨_, wanting, _, handed⟩ := ledger.took unsettled.wants group taken
  have verdict := take_ending ledger unsettled.wants group
  rw [taken] at verdict
  refine ⟨wanting rfl, ?_⟩
  rw [handed]
  intro other member
  rcases List.mem_cons.1 member with rfl | earlier
  · by_contra crashed
    have crash : (read other).isCrash = true := by simpa [crashes] using crashed
    simp [endingAt, crash] at verdict
  · exact unsettled.sound other earlier

theorem Unsettled.readLine {read : List String → Outcome} (unsettled : Unsettled terms read scan)
    (line : Line) : Unsettled terms read (scan.readLine line) :=
  ⟨unsettled.wants, unsettled.sound⟩

theorem unsettled_ofFile (read : List String → Outcome) (path : Path) (format : Format)
    (sound : terms.limit ≠ some 0) : Unsettled terms read (.ofFile path format) :=
  ⟨wants_ofFile read path format sound, fun _ member => by cases member⟩

/-- Why a scan goes no further after handing lines over. -/
theorem ending_of_take {outcome : Outcome}
    (taken : scan.take terms group outcome = (next, ending)) :
    ending = none ∨
      (ending = some .limited ∧ isEnough terms.limit next.tally.entries = true) ∨
      ending = some .crashed := by
  unfold take at taken
  cases outcome with
  | entry entry =>
    dsimp only at taken
    split at taken
    · cases taken
      dsimp only
      split
      next enough => exact .inr (.inl ⟨rfl, enough⟩)
      next => exact .inl rfl
    · cases taken
      exact .inl rfl
  | refused =>
    cases taken
    exact .inl rfl
  | crashed =>
    cases taken
    exact .inr (.inr rfl)

theorem not_cancelled_of_take {outcome : Outcome}
    (taken : scan.take terms group outcome = (next, ending)) : ending ≠ some .cancelled := by
  rcases ending_of_take taken with rfl | ⟨rfl, _⟩ | rfl <;> simp

/-- A scan that stops at lines it hands over has not come to the end of its file. -/
theorem not_complete_of_take {outcome : Outcome} {ending : ScanEnd}
    (taken : scan.take terms group outcome = (next, some ending)) : ending ≠ .complete := by
  rcases ending_of_take taken with none | ⟨limited, _⟩ | crashed
  · cases none
  · cases limited
    simp
  · cases crashed
    simp

theorem singly_unsettled (ledger : Ledger terms (single read) path kind lines scan)
    (unsettled : Unsettled terms (single read) scan) (ahead : lines.drop scan.lines = rest)
    (stopped : (singly terms read scan rest).2 = .cancelled) :
    Unsettled terms (single read) (singly terms read scan rest).1 := by
  fun_induction singly terms read scan rest with
  | case1 scan => exact unsettled
  | case2 scan line rest cancelled => exact unsettled
  | case3 scan line rest going text blank ih =>
    exact ih (ledger.readLine ahead) (unsettled.readLine line) (drop_readLine ahead) stopped
  | case4 scan line rest going text full final ending taken =>
    exact absurd (congrArg some stopped) (not_cancelled_of_take taken)
  | case5 scan line rest going text full following taken ih =>
    have more := ledger.readLine ahead
    have unsettled := unsettled.readLine line
    obtain ⟨after, _, reached, _⟩ := more.took unsettled.wants [text] taken
    exact ih after (unsettled.took more taken) (reached ▸ drop_readLine ahead) stopped

theorem grouped_unsettled (ledger : Ledger terms framing.read path kind lines scan)
    (unsettled : Unsettled terms framing.read scan) (ahead : lines.drop scan.lines = rest)
    (stopped : (grouped terms framing scan group rest).2 = .cancelled) :
    Unsettled terms framing.read (grouped terms framing scan group rest).1 := by
  fun_induction grouped terms framing scan group rest with
  | case1 scan group cancelled => exact unsettled
  | case2 scan group going empty => exact unsettled
  | case3 scan group going begun final ending taken =>
    cases ending with
    | none => cases stopped
    | some ending => exact absurd (congrArg some stopped) (not_cancelled_of_take taken)
  | case4 scan group line rest cancelled => exact unsettled
  | case5 scan group line rest going text blank ih =>
    exact ih (ledger.readLine ahead) (unsettled.readLine line) (drop_readLine ahead) stopped
  | case6 scan group line rest going text full cut final ending taken =>
    exact absurd (congrArg some stopped) (not_cancelled_of_take taken)
  | case7 scan group line rest going text full cut following taken ih =>
    have more := ledger.readLine ahead
    have unsettled := unsettled.readLine line
    obtain ⟨after, _, reached, _⟩ := more.took unsettled.wants group.reverse taken
    exact ih after (unsettled.took more taken) (reached ▸ drop_readLine ahead) stopped
  | case8 scan group line rest going text full uncut ih =>
    exact ih (ledger.readLine ahead) (unsettled.readLine line) (drop_readLine ahead) stopped

/-- A scan in groups that is cancelled has handed over all groups but the one at hand. -/
theorem grouped_closed (ahead : lines.drop scan.lines = rest)
    (cut : ∀ more, groupsOf framing (texts (lines.take scan.lines) ++ more) =
      scan.handed.reverse ++ groupsFrom framing group more)
    (begun : group = [] → scan.handed = [])
    (stopped : (grouped terms framing scan group rest).2 = .cancelled) :
    (grouped terms framing scan group rest).1.handed.reverse =
      (groupsOf framing
        (texts (lines.take (grouped terms framing scan group rest).1.lines))).dropLast := by
  have closed {scan : Scan} {group : List String}
      (cut : ∀ more, groupsOf framing (texts (lines.take scan.lines) ++ more) =
        scan.handed.reverse ++ groupsFrom framing group more)
      (begun : group = [] → scan.handed = []) :
      scan.handed.reverse = (groupsOf framing (texts (lines.take scan.lines))).dropLast := by
    have whole := cut []
    rw [List.append_nil, groupsFrom] at whole
    rw [whole]
    cases group with
    | nil => simp [begun rfl]
    | cons text group => simp
  fun_induction grouped terms framing scan group rest with
  | case1 scan group cancelled => exact closed cut begun
  | case2 scan group going empty => cases stopped
  | case3 scan group going begun final ending taken =>
    cases ending with
    | none => cases stopped
    | some ending => exact absurd (congrArg some stopped) (not_cancelled_of_take taken)
  | case4 scan group line rest cancelled => exact closed cut begun
  | case5 scan group line rest going text blank ih =>
    apply ih (drop_readLine ahead) _ begun stopped
    intro more
    rw [texts_readLine_blank ahead blank]
    exact cut more
  | case6 scan group line rest going text full start final ending taken =>
    exact absurd (congrArg some stopped) (not_cancelled_of_take taken)
  | case7 scan group line rest going text full start following taken ih =>
    obtain ⟨handed, reached⟩ := handed_of_take taken
    apply ih (reached ▸ drop_readLine ahead) _ (fun none => by cases none) stopped
    intro more
    rw [reached, texts_readLine_full ahead full, List.append_assoc, List.singleton_append, cut,
      groupsFrom, if_pos start, handed, handed_readLine, List.reverse_cons, List.append_assoc]
    rfl
  | case8 scan group line rest going text full uncut ih =>
    apply ih (drop_readLine ahead) _ (fun none => by cases none) stopped
    intro more
    rw [texts_readLine_full ahead full, List.append_assoc, List.singleton_append, cut, groupsFrom,
      if_neg uncut, handed_readLine]

/-! ### The lines in front of the group at hand -/

/-- Whether a group opens at a line that comes behind others. -/
def opens (framing : Framing) (line : Line) : Bool := isFull line && framing.starts line.text

/-- The lines in front of the last group: those before the last line that starts an entry or, where
none does, before the first line that is not blank. -/
def closedLines (framing : Framing) (lines : List Line) : List Line :=
  match lines.reverse.dropWhile fun line => !opens framing line with
  | _ :: before => before.reverse
  | [] => lines.takeWhile fun line => !isFull line

theorem closedLines_concat_of_opens {line : Line} (opening : opens framing line = true) :
    closedLines framing (lines ++ [line]) = lines := by
  simp [closedLines, opening]

theorem texts_eq_nil (blank : ∀ line ∈ lines, isFull line = false) : texts lines = [] := by
  rw [texts, List.filter_eq_nil_iff.2 (by simpa using blank)]
  rfl

theorem texts_closedLines_concat {line : Line} (inside : opens framing line = false) :
    texts (closedLines framing (lines ++ [line])) = texts (closedLines framing lines) := by
  have nothing (lines : List Line) : texts (lines.takeWhile fun line => !isFull line) = [] :=
    texts_eq_nil fun line member => by simpa using List.mem_takeWhile_imp member
  unfold closedLines
  rw [List.reverse_append, List.reverse_singleton, List.singleton_append,
    List.dropWhile_cons_of_pos (by simp [inside])]
  cases lines.reverse.dropWhile fun line => !opens framing line with
  | nil => exact (nothing _).trans (nothing _).symm
  | cons last before => rfl

theorem dropLast_groupsFrom_concat (group texts : List String) (text : String) :
    (groupsFrom framing group (texts ++ [text])).dropLast =
      if framing.starts text then groupsFrom framing group texts
      else (groupsFrom framing group texts).dropLast := by
  induction texts generalizing group with
  | nil =>
    cases group with
    | nil => simp [groupsFrom]
    | cons last group => by_cases start : framing.starts text = true <;> simp [groupsFrom, start]
  | cons next rest ih =>
    rw [List.cons_append, groupsFrom, groupsFrom]
    by_cases cut : (framing.starts next && !group.isEmpty) = true
    · rw [if_pos cut, if_pos cut, List.dropLast_cons_of_ne_nil (groupsFrom_ne_nil next [] _), ih,
        List.dropLast_cons_of_ne_nil (groupsFrom_ne_nil next [] _)]
      split <;> rfl
    · rw [if_neg cut, if_neg cut, ih]

/-- The groups of the lines in front of the last group are all groups but the last. -/
theorem groupsOf_closedLines (framing : Framing) (lines : List Line) :
    groupsOf framing (texts (closedLines framing lines)) =
      (groupsOf framing (texts lines)).dropLast := by
  induction lines using List.reverseRecOn with
  | nil => rfl
  | append_singleton lines line ih =>
    by_cases blank : Text.allBlank line.text.toList = true
    · have inside : opens framing line = false := by simp [opens, isFull_eq_false blank]
      rw [texts_closedLines_concat inside, ih, texts_append, texts_cons_blank blank]
      exact congrArg (fun texts => (groupsOf framing texts).dropLast) (List.append_nil _).symm
    · have last : texts [line] = [line.text] := texts_cons_full blank
      rw [texts_append, last, ← groupsFrom_nil, ← groupsFrom_nil (_ ++ _),
        dropLast_groupsFrom_concat]
      by_cases start : framing.starts line.text = true
      · have opening : opens framing line = true := by simp [opens, isFull_eq_true blank, start]
        rw [if_pos start, closedLines_concat_of_opens opening]
      · have inside : opens framing line = false := by simp [opens, start]
        rw [if_neg start, texts_closedLines_concat inside, groupsFrom_nil, groupsFrom_nil, ih]

/-! ### Cancelled runs -/

theorem run_unsettled_singly (sound : terms.limit ≠ some 0) (unframed : format.framing = none)
    (stopped : (run terms path format lines).2 = .cancelled) :
    Unsettled terms (single format.read) (run terms path format lines).1 := by
  rw [run_unframed unframed] at stopped ⊢
  exact singly_unsettled (ledger_ofFile terms (single format.read) path format lines)
    (unsettled_ofFile _ path format sound) rfl stopped

theorem run_unsettled_grouped (sound : terms.limit ≠ some 0)
    (framed : format.framing = some framing)
    (stopped : (run terms path format lines).2 = .cancelled) :
    Unsettled terms framing.read (run terms path format lines).1 := by
  rw [run_framed framed] at stopped ⊢
  exact grouped_unsettled (ledger_ofFile terms framing.read path format lines)
    (unsettled_ofFile _ path format sound) rfl stopped

/-- What is handed over are the groups of the lines in front of the group at hand. -/
theorem run_handed_cancelled (framed : format.framing = some framing)
    (stopped : (run terms path format lines).2 = .cancelled) :
    (run terms path format lines).1.handed.reverse =
      groupsOf framing
        (texts (closedLines framing (lines.take (run terms path format lines).1.lines))) := by
  rw [groupsOf_closedLines]
  rw [run_framed framed] at stopped ⊢
  apply grouped_closed rfl _ (fun _ => rfl) stopped
  intro more
  have begun : texts (lines.take (Scan.ofFile path format).lines) = [] := rfl
  rw [begun, List.nil_append, groupsFrom_nil]
  rfl

theorem run_cancelled_singly (sound : terms.limit ≠ some 0) (unframed : format.framing = none)
    (stopped : (run terms path format lines).2 = .cancelled) :
    let scan := (run terms path format lines).1
    let front := run terms.uncancelled path format (lines.take scan.lines)
    front.2 ≠ .crashed ∧ scan.tally = front.1.tally := by
  intro scan front
  have unsettled : Unsettled terms (single format.read) scan :=
    run_unsettled_singly sound unframed stopped
  have handed := run_handed_singly terms unframed path lines
  have few (most : UInt64) (limited : terms.limit = some most) :
      0 + (lines.take scan.lines).countP (gives terms.filter format.read) < most.toNat := by
    have bound := unsettled.wants most limited
    rwa [accepted, handed, acceptedOf_single, length_given, ← Nat.zero_add (List.countP _ _)]
      at bound
  have calm (scan : Scan) : terms.uncancelled.cancelled scan = false := rfl
  obtain ⟨crash, reached⟩ := run_lines_singly calm sound unframed path (lines.take scan.lines)
  have whole : reaching terms.uncancelled.limit (gives terms.uncancelled.filter format.read) 0
      (lines.take scan.lines) = lines.take scan.lines := reaching_eq_self few
  rw [whole] at crash reached
  have complete : front.2 ≠ .crashed := by
    intro crashed
    obtain ⟨line, member, broken⟩ := crash.1 crashed
    rw [breaks, Bool.and_eq_true] at broken
    have inside : [line.text] ∈ scan.handed := by
      rw [← List.mem_reverse, handed]
      exact List.mem_map_of_mem (List.mem_map_of_mem (List.mem_filter.2 ⟨member, broken.1⟩))
    have unbroken := unsettled.sound _ inside
    exact Bool.false_ne_true (unbroken.symm.trans broken.2)
  have tally := run_tally_singly terms.uncancelled sound unframed path (lines.take scan.lines)
  dsimp only at tally
  rw [reached complete] at tally
  exact ⟨complete, (run_tally_singly terms sound unframed path lines).trans tally.symm⟩

theorem run_cancelled_grouped (sound : terms.limit ≠ some 0)
    (framed : format.framing = some framing)
    (stopped : (run terms path format lines).2 = .cancelled) :
    let scan := (run terms path format lines).1
    let front := lines.take scan.lines
    let closed := run terms.uncancelled path format (closedLines framing front)
    closed.2 ≠ .crashed ∧
      scan.tally = { closed.1.tally with bytesRead := UInt64.ofNat (octetsOf front) } := by
  intro scan front closed
  have unsettled : Unsettled terms framing.read scan :=
    run_unsettled_grouped sound framed stopped
  have handed : scan.handed.reverse = groupsOf framing (texts (closedLines framing front)) :=
    run_handed_cancelled framed stopped
  have unbroken (group : List String) (member : group ∈ scan.handed.reverse) :
      crashes framing.read group = false := unsettled.sound group (List.mem_reverse.1 member)
  have whole : consumed terms.uncancelled framing.read scan.handed.reverse =
      scan.handed.reverse := by
    rw [consumed_of_sound fun group member => unbroken group ((consumed_isPrefix _).mem member)]
    change upToLimit terms framing.read scan.handed.reverse = scan.handed.reverse
    unfold upToLimit
    cases limited : terms.limit with
    | none => rfl
    | some most =>
      have bound := unsettled.wants most limited
      rw [accepted, length_acceptedOf] at bound
      exact through_eq_self bound
  have calm (scan : Scan) : terms.uncancelled.cancelled scan = false := rfl
  obtain ⟨consumed, crash⟩ := run_handed calm sound framed path (closedLines framing front)
  rw [← handed, whole] at consumed crash
  refine ⟨fun crashed => ?_, ?_⟩
  · obtain ⟨group, member, broken⟩ := crash.1 crashed
    rw [unbroken group member] at broken
    cases broken
  · have ledger := run_ledger terms sound path format lines
    have other := run_ledger terms.uncancelled sound path format (closedLines framing front)
    rw [readGroup_framed framed] at ledger other
    rw [ledger.tally, other.tally, accepted, accepted, consumed]
    rfl

/-! ### A limit of zero -/

def positive (terms : ScanTerms) : ScanTerms :=
  { terms with limit := if terms.limit = some 0 then some 1 else terms.limit }

theorem positive_limit_ne_zero (terms : ScanTerms) : (positive terms).limit ≠ some 0 := by
  unfold positive
  dsimp only
  split
  · decide
  next sound => exact sound

theorem positive_eq_self (sound : terms.limit ≠ some 0) : positive terms = terms := by
  unfold positive
  rw [if_neg sound]

/-- As long as nothing has been counted, a limit of zero is as good as one. -/
theorem take_positive (scan : Scan)
    (nothing : terms.limit = some 0 → scan.tally.entries = 0)
    (group : List String) (outcome : Outcome) :
    scan.take (positive terms) group outcome = scan.take terms group outcome ∧
      ((scan.take terms group outcome).2 = none → terms.limit = some 0 →
        (scan.take terms group outcome).1.tally.entries = 0) := by
  by_cases zero : terms.limit = some 0
  · have none := nothing zero
    have raised : (positive terms).limit = some 1 := if_pos zero
    have same : (positive terms).filter = terms.filter := rfl
    unfold take
    rw [raised, zero, same]
    cases outcome with
    | entry entry =>
      by_cases admitted : terms.filter.admits entry.timestamp = true
      · simp [admitted, Tally.record, none, isEnough]
      · simp [admitted, none]
    | refused refusal => exact ⟨rfl, fun _ _ => none⟩
    | crashed => exact ⟨rfl, fun _ _ => none⟩
  · rw [positive_eq_self zero]
    exact ⟨rfl, fun _ absurdity => absurd absurdity zero⟩

theorem singly_positive (terms : ScanTerms) (read : String → Outcome) (scan : Scan)
    (rest : List Line) (nothing : terms.limit = some 0 → scan.tally.entries = 0) :
    singly (positive terms) read scan rest = singly terms read scan rest := by
  have moment (scan : Scan) : (positive terms).cancelled scan = terms.cancelled scan := rfl
  fun_induction singly terms read scan rest with
  | case1 scan => rfl
  | case2 scan line rest cancelled => rw [singly, moment, if_pos cancelled]
  | case3 scan line rest going text blank ih =>
    rw [singly, moment, if_neg going, if_pos blank]
    exact ih nothing
  | case4 scan line rest going text full final ending taken =>
    obtain ⟨same, _⟩ := take_positive (scan.readLine line) nothing [text] (read text)
    rw [singly, moment, if_neg going, if_neg full, same, taken]
  | case5 scan line rest going text full following taken ih =>
    obtain ⟨same, still⟩ := take_positive (scan.readLine line) nothing [text] (read text)
    rw [taken] at same still
    rw [singly, moment, if_neg going, if_neg full, same]
    exact ih (still rfl)

theorem grouped_positive (terms : ScanTerms) (framing : Framing) (scan : Scan)
    (group : List String) (rest : List Line)
    (nothing : terms.limit = some 0 → scan.tally.entries = 0) :
    grouped (positive terms) framing scan group rest = grouped terms framing scan group rest := by
  have moment (scan : Scan) : (positive terms).cancelled scan = terms.cancelled scan := rfl
  fun_induction grouped terms framing scan group rest with
  | case1 scan group cancelled => rw [grouped, moment, if_pos cancelled]
  | case2 scan group going empty => rw [grouped, moment, if_neg going, if_pos empty]
  | case3 scan group going begun final ending taken =>
    obtain ⟨same, _⟩ := take_positive scan nothing group.reverse (framing.read group.reverse)
    rw [grouped, moment, if_neg going, if_neg begun, same, taken]
  | case4 scan group line rest cancelled => rw [grouped, moment, if_pos cancelled]
  | case5 scan group line rest going text blank ih =>
    rw [grouped, moment, if_neg going, if_pos blank]
    exact ih nothing
  | case6 scan group line rest going text full cut final ending taken =>
    obtain ⟨same, _⟩ := take_positive (scan.readLine line) nothing group.reverse
      (framing.read group.reverse)
    rw [grouped, moment, if_neg going, if_neg full, if_pos cut, same, taken]
  | case7 scan group line rest going text full cut following taken ih =>
    obtain ⟨same, still⟩ := take_positive (scan.readLine line) nothing group.reverse
      (framing.read group.reverse)
    rw [taken] at same still
    rw [grouped, moment, if_neg going, if_neg full, if_pos cut, same]
    exact ih (still rfl)
  | case8 scan group line rest going text full uncut ih =>
    rw [grouped, moment, if_neg going, if_neg full, if_neg uncut]
    exact ih nothing

theorem run_positive (terms : ScanTerms) (path : Path) (format : Format) (lines : List Line) :
    run (positive terms) path format lines = run terms path format lines := by
  unfold run
  cases format.framing with
  | none => exact singly_positive terms format.read _ lines fun _ => rfl
  | some framing => exact grouped_positive terms framing _ [] lines fun _ => rfl

/-- With any limit, a scan has counted what it handed over and the lines it read. -/
theorem ledger_run (terms : ScanTerms) (path : Path) (format : Format) (lines : List Line) :
    Ledger (positive terms) format.readGroup path format.kind lines
      (run terms path format lines).1 := by
  rw [← run_positive]
  exact run_ledger (positive terms) (positive_limit_ne_zero terms) path format lines

theorem bytesRead_run (terms : ScanTerms) (path : Path) (format : Format) (lines : List Line) :
    (run terms path format lines).1.tally.bytesRead =
      UInt64.ofNat (octetsOf (lines.take (run terms path format lines).1.lines)) :=
  congrArg Tally.bytesRead (ledger_run terms path format lines).tally

/-- A scan that is cancelled keeps the work on the lines it has read. Line by line it returns what a
scan of those lines returns. In groups it returns, but for the octets, what a scan of the lines in
front of the group at hand returns, so that this group is neither an entry nor something that could
not be read. In both cases no counter exceeds that of the scan of the whole file. -/
theorem cancelled_scan_keeps_front (terms : ScanTerms) (path : Path) (format : Format)
    (content : List UInt8) (scan : Scan)
    (stopped : run terms path format (Line.list content) = (scan, .cancelled)) :
    let whole : ScanTerms := { filter := terms.filter, limit := terms.limit }
    let front := (Line.list content).take scan.lines
    (format.framing = none →
      (run whole path format front).2 ≠ .crashed ∧
      scan.tally = (run whole path format front).1.tally) ∧
    (∀ framing, format.framing = some framing →
      (run whole path format (closedLines framing front)).2 ≠ .crashed ∧
      scan.tally = { (run whole path format (closedLines framing front)).1.tally with
        bytesRead := UInt64.ofNat (octetsOf front) }) ∧
    (content.length < 2 ^ 64 →
      scan.tally.AtMost (run whole path format (Line.list content)).1.tally) := by
  intro whole front
  have sound := positive_limit_ne_zero terms
  have outcome : run (positive terms) path format (Line.list content) = (scan, .cancelled) :=
    (run_positive terms path format _).trans stopped
  have calm (lines : List Line) : run whole path format lines =
      run (positive terms).uncancelled path format lines :=
    (run_positive whole path format lines).symm
  have ended : (run (positive terms) path format (Line.list content)).2 = .cancelled := by
    rw [outcome]
  have same : (run (positive terms) path format (Line.list content)).1 = scan := by rw [outcome]
  simp only [calm]
  refine ⟨fun unframed => ?_, fun framing framed => ?_, fun small => ?_⟩
  · have kept := run_cancelled_singly sound unframed ended
    dsimp only at kept
    rw [same] at kept
    exact kept
  · have kept := run_cancelled_grouped sound framed ended
    dsimp only at kept
    rw [same] at kept
    exact kept
  · rw [← same]
    exact run_atMost sound path format small

def sampleTerms : ScanTerms where
  cancelled scan := 4 ≤ scan.lines

/-- The group that the fourth line opens is not handed over, but the line has been read. -/
theorem cancelled_scan_keeps_front_sample :
    run sampleTerms ⟨[]⟩ sampleFormat (Line.list sampleContent) =
        ((run sampleTerms ⟨[]⟩ sampleFormat (Line.list sampleContent)).1, .cancelled) ∧
      (run sampleTerms ⟨[]⟩ sampleFormat (Line.list sampleContent)).1.tally.entries = 1 ∧
      (run sampleTerms ⟨[]⟩ sampleFormat (Line.list sampleContent)).1.tally.bytesRead = 7 := by
  have ended : (run sampleTerms ⟨[]⟩ sampleFormat (Line.list sampleContent)).2 = .cancelled := by
    decide
  have stopped := Prod.ext (Eq.refl _) ended
  obtain ⟨_, kept, _⟩ := cancelled_scan_keeps_front sampleTerms ⟨[]⟩ sampleFormat sampleContent _
    stopped
  obtain ⟨_, tally⟩ := kept sampleFraming rfl
  exact ⟨stopped, (congrArg Tally.entries tally).trans (by decide),
    (congrArg Tally.bytesRead tally).trans (by decide)⟩

end Scan

end LogCensus
