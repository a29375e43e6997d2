import LogCensus.Proofs.Tally
import LogCensus.Scan

/-!
What a scan has counted follows from what it handed to the format and how many lines it read. This
holds in both ways of scanning, with any limit and wherever the scan is cancelled.
-/

namespace LogCensus

/-- What a format makes of a group of lines. Without a framing a group is a single line. -/
def Format.readGroup (format : Format) (group : List String) : Outcome :=
  match format.framing with
  | some framing => framing.read group
  | none => format.read (group.headD "")

namespace Outcome

def accepted? (filter : Filter) : Outcome → Option Entry
  | .entry found => if filter.admits found.timestamp then some found else none
  | _ => none

def isRefused : Outcome → Bool
  | .refused _ => true
  | _ => false

def isCrash : Outcome → Bool
  | .crashed => true
  | _ => false

end Outcome

namespace Scan

def acceptedOf (filter : Filter) (read : List String → Outcome) (groups : List (List String)) :
    List Entry :=
  groups.filterMap fun group => (read group).accepted? filter

def unreadableOf (read : List String → Outcome) (groups : List (List String)) : Nat :=
  groups.countP fun group => (read group).isRefused

def octetsOf (lines : List Line) : Nat := (lines.flatMap Line.octets).length

def accepted (terms : ScanTerms) (read : List String → Outcome) (scan : Scan) : List Entry :=
  acceptedOf terms.filter read scan.handed.reverse

def Wants (terms : ScanTerms) (read : List String → Outcome) (scan : Scan) : Prop :=
  ∀ most, terms.limit = some most → (scan.accepted terms read).length < most.toNat

/-- What a scan of lines has counted so far. -/
structure Ledger (terms : ScanTerms) (read : List String → Outcome) (path : Path) (kind : String)
    (lines : List Line) (scan : Scan) : Prop where
  tally : scan.tally = .ofEntries path kind (scan.accepted terms read)
    (unreadableOf read scan.handed.reverse) (octetsOf (lines.take scan.lines))
  within : ∀ most, terms.limit = some most → (scan.accepted terms read).length ≤ most.toNat

variable {terms : ScanTerms} {read : List String → Outcome} {path : Path} {kind : String}
  {lines rest : List Line} {line : Line} {scan next : Scan} {group : List String}
  {ending : Option ScanEnd}

theorem acceptedOf_concat (filter : Filter) (groups : List (List String)) (group : List String) :
    acceptedOf filter read (groups ++ [group]) =
      acceptedOf filter read groups ++ ((read group).accepted? filter).toList := by
  rw [acceptedOf, List.filterMap_append]
  cases accepted : (read group).accepted? filter <;> simp [acceptedOf, accepted]

theorem admits_of_mem_acceptedOf {filter : Filter} {groups : List (List String)} {entry : Entry}
    (member : entry ∈ acceptedOf filter read groups) : filter.admits entry.timestamp = true := by
  obtain ⟨group, _, kept⟩ := List.mem_filterMap.1 member
  unfold Outcome.accepted? at kept
  split at kept
  next found _ =>
    by_cases admitted : filter.admits found.timestamp = true
    · rw [if_pos admitted, Option.some.injEq] at kept
      exact kept ▸ admitted
    · simp only [if_neg admitted, reduceCtorEq] at kept
  next => cases kept

theorem unreadableOf_concat (groups : List (List String)) (group : List String) :
    unreadableOf read (groups ++ [group]) =
      unreadableOf read groups + if (read group).isRefused then 1 else 0 := by
  rw [unreadableOf, List.countP_append, List.countP_singleton]
  rfl

/-- A limit is reached by the entry that makes up its number. -/
theorem isEnough_iff {limit : Option UInt64} {count : Nat}
    (within : ∀ most, limit = some most → count ≤ most.toNat) :
    isEnough limit (UInt64.ofNat count) = true ↔ limit.map UInt64.toNat = some count := by
  cases limit with
  | none => simp [isEnough]
  | some most =>
    have bound := within most rfl
    have exact : (UInt64.ofNat count).toNat = count := by
      rw [UInt64.toNat_ofNat']
      exact Nat.mod_eq_of_lt (Nat.lt_of_le_of_lt bound most.toNat_lt)
    simp only [isEnough, Option.any_some, decide_eq_true_eq, UInt64.le_iff_toNat_le, exact,
      Option.map_some, Option.some.injEq]
    omega

/-! ### Steps -/

@[simp] theorem handed_readLine (scan : Scan) (line : Line) :
    (scan.readLine line).handed = scan.handed := rfl

@[simp] theorem accepted_readLine (scan : Scan) (line : Line) :
    (scan.readLine line).accepted terms read = scan.accepted terms read := rfl

theorem take_handed (scan : Scan) (outcome : Outcome) :
    (scan.take terms group outcome).1.handed = group :: scan.handed := by
  unfold take
  cases outcome with
  | entry entry =>
    dsimp only
    split <;> rfl
  | refused | crashed => rfl

theorem take_lines (scan : Scan) (outcome : Outcome) :
    (scan.take terms group outcome).1.lines = scan.lines := by
  unfold take
  cases outcome with
  | entry entry =>
    dsimp only
    split <;> rfl
  | refused | crashed => rfl

theorem handed_of_take {outcome : Outcome}
    (taken : scan.take terms group outcome = (next, ending)) :
    next.handed = group :: scan.handed ∧ next.lines = scan.lines := by
  have result : (scan.take terms group outcome).1 = next := congrArg Prod.fst taken
  rw [← result]
  exact ⟨take_handed scan outcome, take_lines scan outcome⟩

theorem accepted_take (terms : ScanTerms) (read : List String → Outcome) (group : List String)
    (scan : Scan) :
    (scan.take terms group (read group)).1.accepted terms read =
      scan.accepted terms read ++ ((read group).accepted? terms.filter).toList := by
  rw [accepted, take_handed, List.reverse_cons, acceptedOf_concat]
  rfl

def endingAt (terms : ScanTerms) (outcome : Outcome) (count : Nat) : Option ScanEnd :=
  if outcome.isCrash then some .crashed
  else if (outcome.accepted? terms.filter).isSome ∧ terms.limit.map UInt64.toNat = some count then
    some .limited
  else none

theorem length_accepted_take (terms : ScanTerms) (read : List String → Outcome)
    (group : List String) (scan : Scan) :
    (scan.accepted terms read).length ≤
        ((scan.take terms group (read group)).1.accepted terms read).length ∧
      ((scan.take terms group (read group)).1.accepted terms read).length ≤
        (scan.accepted terms read).length + 1 := by
  rw [accepted_take, List.length_append]
  have short := Option.length_toList_le (o := (read group).accepted? terms.filter)
  omega

theorem Ledger.take (ledger : Ledger terms read path kind lines scan)
    (wants : Wants terms read scan) (group : List String) :
    Ledger terms read path kind lines (scan.take terms group (read group)).1 := by
  have number := length_accepted_take terms read group scan
  refine ⟨?_, ?_⟩
  · rw [accepted_take, take_handed, take_lines, List.reverse_cons, unreadableOf_concat]
    unfold Scan.take
    cases outcome : read group with
    | entry entry =>
      dsimp only [Outcome.accepted?, Outcome.isRefused]
      split
      next admitted =>
        rw [ledger.tally, Tally.record_ofEntries]
        rfl
      next => simp [ledger.tally]
    | refused refusal =>
      dsimp only [Outcome.accepted?, Outcome.isRefused]
      rw [ledger.tally, Tally.recordUnreadable_ofEntries]
      simp
    | crashed => simp [Outcome.accepted?, Outcome.isRefused, ledger.tally]
  · intro most limited
    have more := wants most limited
    omega

/-- Whether a scan goes on can be told from what it has accepted. -/
theorem take_ending (ledger : Ledger terms read path kind lines scan)
    (wants : Wants terms read scan) (group : List String) :
    (scan.take terms group (read group)).2 =
      endingAt terms (read group)
        ((scan.take terms group (read group)).1.accepted terms read).length := by
  have after := ledger.take wants group
  have enough := isEnough_iff after.within
  have counted : (scan.take terms group (read group)).1.tally.entries =
      UInt64.ofNat ((scan.take terms group (read group)).1.accepted terms read).length := by
    rw [after.tally]
    rfl
  revert counted enough
  generalize ((scan.take terms group (read group)).1.accepted terms read).length = count
  intro enough counted
  unfold Scan.take at counted ⊢
  unfold endingAt
  cases outcome : read group with
  | entry entry =>
    simp only [outcome, Outcome.accepted?, Outcome.isCrash, Bool.false_eq_true, if_false]
      at counted ⊢
    by_cases admitted : terms.filter.admits entry.timestamp = true
    · simp only [if_pos admitted] at counted ⊢
      simp only [counted, enough, Option.isSome_some, true_and]
    · simp [if_neg admitted]
  | refused refusal => simp [Outcome.isCrash, Outcome.accepted?]
  | crashed => simp [Outcome.isCrash]

theorem Ledger.wants_of_goesOn (ledger : Ledger terms read path kind lines scan)
    (wants : Wants terms read scan)
    (goesOn : (scan.take terms group (read group)).2 = none) :
    Wants terms read (scan.take terms group (read group)).1 := by
  have within := (ledger.take wants group).within
  have number := accepted_take terms read group scan
  rw [take_ending ledger wants group, endingAt] at goesOn
  intro most limited
  have bound := within most limited
  have before := wants most limited
  cases kept : (read group).accepted? terms.filter with
  | none =>
    rw [kept, Option.toList_none, List.append_nil] at number
    rw [number]
    exact before
  | some entry =>
    have whole : (read group).isCrash = false := by
      cases outcome : read group <;> simp_all [Outcome.isCrash, Outcome.accepted?]
    simp only [whole, Bool.false_eq_true, if_false, kept, Option.isSome_some, true_and, limited,
      Option.map_some, Option.some.injEq, ite_eq_right_iff, reduceCtorEq, imp_false] at goesOn
    omega

/-- The scan that comes of handing over a group. -/
theorem Ledger.took (ledger : Ledger terms read path kind lines scan)
    (wants : Wants terms read scan) (group : List String)
    (taken : scan.take terms group (read group) = (next, ending)) :
    Ledger terms read path kind lines next ∧ (ending = none → Wants terms read next) ∧
      next.lines = scan.lines ∧ next.handed = group :: scan.handed := by
  have outcome := congrArg Prod.fst taken
  have verdict := congrArg Prod.snd taken
  dsimp only at outcome verdict
  subst outcome verdict
  exact ⟨ledger.take wants group, ledger.wants_of_goesOn wants, take_lines scan _,
    take_handed scan _⟩

theorem take_readLine (front : lines.drop scan.lines = line :: rest) :
    lines.take (scan.readLine line).lines = lines.take scan.lines ++ [line] := by
  change lines.take (scan.lines + 1) = lines.take scan.lines ++ [line]
  have here : lines[scan.lines]? = some line := by
    rw [← List.head?_drop, front, List.head?_cons]
  rw [List.take_add_one, here, Option.toList_some]

theorem Ledger.readLine (ledger : Ledger terms read path kind lines scan)
    (front : lines.drop scan.lines = line :: rest) :
    Ledger terms read path kind lines (scan.readLine line) := by
  refine ⟨?_, ledger.within⟩
  rw [take_readLine front, octetsOf, List.flatMap_append, List.length_append,
    List.flatMap_singleton, accepted_readLine, handed_readLine, ← octetsOf,
    ← Tally.recordBytes_ofEntries, ← ledger.tally]
  rfl

theorem drop_readLine (front : lines.drop scan.lines = line :: rest) :
    lines.drop (scan.readLine line).lines = rest := by
  change lines.drop (scan.lines + 1) = rest
  rw [← List.drop_drop, front, List.drop_one, List.tail_cons]

/-! ### Whole scans -/

theorem singly_ledger {read : String → Outcome}
    (ledger : Ledger terms (fun group => read (group.headD "")) path kind lines scan)
    (wants : Wants terms (fun group => read (group.headD "")) scan)
    (ahead : lines.drop scan.lines = rest) :
    Ledger terms (fun group => read (group.headD "")) path kind lines
      (singly terms read scan rest).1 := by
  induction rest generalizing scan with
  | nil => exact ledger
  | cons line rest ih =>
    have more := ledger.readLine ahead
    have behind := drop_readLine ahead
    unfold singly
    by_cases cancelled : terms.cancelled scan = true
    · rw [if_pos cancelled]
      exact ledger
    · rw [if_neg cancelled]
      dsimp only
      by_cases blank : Text.allBlank line.text.toList = true
      · rw [if_pos blank]
        exact ih more wants behind
      · rw [if_neg blank]
        split
        next final ending taken => exact (more.took wants [line.text] taken).1
        next following taken =>
          obtain ⟨after, wanting, reached, _⟩ := more.took wants [line.text] taken
          exact ih after (wanting rfl) (reached ▸ behind)

theorem grouped_ledger {framing : Framing} {group : List String}
    (ledger : Ledger terms framing.read path kind lines scan)
    (wants : Wants terms framing.read scan) (ahead : lines.drop scan.lines = rest) :
    Ledger terms framing.read path kind lines (grouped terms framing scan group rest).1 := by
  induction rest generalizing scan group with
  | nil =>
    unfold grouped
    by_cases cancelled : terms.cancelled scan = true
    · rw [if_pos cancelled]
      exact ledger
    · rw [if_neg cancelled]
      by_cases empty : group.isEmpty = true
      · rw [if_pos empty]
        exact ledger
      · rw [if_neg empty]
        exact ledger.take wants group.reverse
  | cons line rest ih =>
    have more := ledger.readLine ahead
    have behind := drop_readLine ahead
    unfold grouped
    by_cases cancelled : terms.cancelled scan = true
    · rw [if_pos cancelled]
      exact ledger
    · rw [if_neg cancelled]
      dsimp only
      by_cases blank : Text.allBlank line.text.toList = true
      · rw [if_pos blank]
        exact ih more wants behind
      · rw [if_neg blank]
        by_cases cut : (framing.starts line.text && !group.isEmpty) = true
        · rw [if_pos cut]
          split
          next final ending taken => exact (more.took wants group.reverse taken).1
          next following taken =>
            obtain ⟨after, wanting, reached, _⟩ := more.took wants group.reverse taken
            exact ih after (wanting rfl) (reached ▸ behind)
        · rw [if_neg cut]
          exact ih more wants behind

theorem ledger_ofFile (terms : ScanTerms) (read : List String → Outcome) (path : Path)
    (format : Format) (lines : List Line) :
    Ledger terms read path format.kind lines (.ofFile path format) :=
  ⟨rfl, fun _ _ => Nat.zero_le _⟩

theorem wants_ofFile (read : List String → Outcome) (path : Path) (format : Format)
    (sound : terms.limit ≠ some 0) :
    Wants terms read (.ofFile path format) := by
  intro most limited
  change 0 < most.toNat
  apply Nat.pos_of_ne_zero
  intro none
  have zero : most = 0 := UInt64.toNat_inj.1 none
  exact sound (zero ▸ limited)

/-- However a scan ends, it has counted what it handed to the format, up to its limit. -/
theorem run_ledger (terms : ScanTerms) (sound : terms.limit ≠ some 0) (path : Path)
    (format : Format) (lines : List Line) :
    Ledger terms format.readGroup path format.kind lines (run terms path format lines).1 := by
  have first := ledger_ofFile terms format.readGroup path format lines
  have wants := wants_ofFile format.readGroup path format sound
  unfold run
  cases framed : format.framing with
  | none =>
    have read : format.readGroup = fun group => format.read (group.headD "") := by
      funext group
      simp only [Format.readGroup, framed]
    rw [read] at first wants ⊢
    exact singly_ledger first wants rfl
  | some framing =>
    have read : format.readGroup = framing.read := by
      funext group
      simp only [Format.readGroup, framed]
    rw [read] at first wants ⊢
    exact grouped_ledger first wants rfl

end Scan

end LogCensus
