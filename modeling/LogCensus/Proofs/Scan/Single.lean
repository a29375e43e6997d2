import LogCensus.Proofs.Scan.Reference
import Mathlib.Order.Bounds.Basic

/-!
A scan that reads each line by itself, told without its loop. It hands over the lines that are not
blank as it comes by them, up to the line whose entry makes up the limit.
-/

namespace LogCensus

/-! ### Leading items that make up a limit -/

section Reaching

variable {α : Type} {counts : α → Bool} {limit : Option UInt64}

/-- The items up to the one that makes up the limit when so many of a kind have been counted before
them; all of them where none does. -/
def reaching (limit : Option UInt64) (counts : α → Bool) (count : Nat) (items : List α) :
    List α :=
  match limit with
  | none => items
  | some most => through counts (most.toNat - count) items

/-- Whether so many leading items hold as many of a kind as the limit says, or are all items. -/
def Suffices (limit : Option UInt64) (counts : α → Bool) (items : List α) (number : Nat) : Prop :=
  number = items.length ∨
    ∃ most, limit = some most ∧ most.toNat ≤ (items.take number).countP counts

theorem reaching_isPrefix (count : Nat) (items : List α) :
    reaching limit counts count items <+: items := by
  unfold reaching
  cases limit with
  | none => exact List.prefix_rfl
  | some most => exact through_isPrefix _ items

theorem reaching_nil (count : Nat) : reaching limit counts count [] = [] :=
  List.prefix_nil.1 (reaching_isPrefix count [])

theorem reaching_cons (counts : α → Bool) {count : Nat}
    (wants : ∀ most, limit = some most → count < most.toNat) (head : α) (rest : List α) :
    reaching limit counts count (head :: rest) =
      head ::
        if counts head = true ∧ limit.map UInt64.toNat = some (count + 1) then []
        else reaching limit counts (count + if counts head then 1 else 0) rest := by
  unfold reaching
  cases limit with
  | none => simp
  | some most =>
    have bound := wants most rfl
    obtain ⟨left, more⟩ : ∃ left, most.toNat - count = left + 1 :=
      ⟨most.toNat - count - 1, by omega⟩
    dsimp only
    rw [more]
    cases counted : counts head with
    | false => simp [through_cons_of_neg rest counted, more]
    | true =>
      have fewer : most.toNat - (count + 1) = left := by omega
      rw [through_cons_of_pos rest counted]
      by_cases last : most.toNat = count + 1
      · have none : left = 0 := by omega
        simp [last, none, through_zero]
      · simp [last, fewer]

/-- Where there are too few items of a kind to make up the limit, all items count. -/
theorem reaching_eq_self {count : Nat} {items : List α}
    (few : ∀ most, limit = some most → count + items.countP counts < most.toNat) :
    reaching limit counts count items = items := by
  unfold reaching
  cases limit with
  | none => rfl
  | some most =>
    have bound := few most rfl
    exact through_eq_self (by omega)

theorem countP_reaching (counts : α → Bool) (items : List α) :
    (reaching limit counts 0 items).countP counts = Scan.capped limit (items.countP counts) := by
  unfold reaching Scan.capped
  cases limit with
  | none => rfl
  | some most => exact countP_through counts most.toNat items

theorem length_through_le {number leading : Nat} {items : List α}
    (enough : number ≤ (items.take leading).countP counts) :
    (through counts number items).length ≤ leading := by
  induction items generalizing number leading with
  | nil => simp [through_nil]
  | cons head rest ih =>
    cases number with
    | zero => simp [through_zero]
    | succ number =>
      cases leading with
      | zero => simp at enough
      | succ leading =>
        rw [List.take_succ_cons] at enough
        cases counted : counts head with
        | true =>
          rw [List.countP_cons_of_pos counted] at enough
          rw [through_cons_of_pos rest counted, List.length_cons]
          have shorter : (through counts number rest).length ≤ leading := ih (by omega)
          omega
        | false =>
          rw [List.countP_cons_of_neg (by simp [counted])] at enough
          rw [through_cons_of_neg rest counted, List.length_cons]
          have shorter := ih enough
          omega

theorem isLeast_length_reaching (items : List α) :
    IsLeast {number | Suffices limit counts items number}
      (reaching limit counts 0 items).length := by
  unfold reaching
  cases limited : limit with
  | none =>
    refine ⟨.inl rfl, ?_⟩
    rintro number (all | ⟨most, absent, _⟩)
    · exact all.ge
    · cases absent
  | some most =>
    have front : through counts most.toNat items <+: items := through_isPrefix most.toNat items
    constructor
    · have number := countP_through counts most.toNat items
      by_cases few : items.countP counts < most.toNat
      · exact .inl (congrArg List.length (through_eq_self few))
      · refine .inr ⟨most, rfl, ?_⟩
        change most.toNat ≤ (items.take (through counts most.toNat items).length).countP counts
        rw [← List.prefix_iff_eq_take.1 front, number]
        omega
    · rintro number (all | ⟨_, same, enough⟩)
      · exact front.length_le.trans all.ge
      · cases same
        exact length_through_le enough

end Reaching

namespace Scan

variable {terms : ScanTerms} {read : String → Outcome} {path : Path} {kind : String}
  {format : Format} {lines rest : List Line} {scan : Scan}

abbrev single (read : String → Outcome) (group : List String) : Outcome := read (group.headD "")

def gives (filter : Filter) (read : String → Outcome) (line : Line) : Bool :=
  isFull line && ((read line.text).accepted? filter).isSome

def breaks (read : String → Outcome) (line : Line) : Bool :=
  isFull line && (read line.text).isCrash

/-- Every line that is not blank is handed over as soon as it is read, however the scan ends. -/
theorem singly_handed (ahead : lines.drop scan.lines = rest)
    (covered : scan.handed.reverse = (texts (lines.take scan.lines)).map ([·])) :
    (singly terms read scan rest).1.handed.reverse =
      (texts (lines.take (singly terms read scan rest).1.lines)).map ([·]) := by
  have grown {scan next : Scan} {line : Line} {rest : List Line} {ending : Option ScanEnd}
      (ahead : lines.drop scan.lines = line :: rest)
      (covered : scan.handed.reverse = (texts (lines.take scan.lines)).map ([·]))
      (full : ¬Text.allBlank line.text.toList = true)
      (taken : (scan.readLine line).take terms [line.text] (read line.text) = (next, ending)) :
      next.handed.reverse = (texts (lines.take next.lines)).map ([·]) := by
    obtain ⟨handed, reached⟩ := handed_of_take taken
    rw [handed, reached, texts_readLine_full ahead full, List.reverse_cons, handed_readLine,
      covered, List.map_append, List.map_singleton]
  fun_induction singly terms read scan rest with
  | case1 scan => exact covered
  | case2 scan line rest cancelled => exact covered
  | case3 scan line rest going text blank ih =>
    apply ih (drop_readLine ahead)
    rw [texts_readLine_blank ahead blank]
    exact covered
  | case4 scan line rest going text full final ending taken =>
    exact grown ahead covered full taken
  | case5 scan line rest going text full following taken ih =>
    exact ih ((handed_of_take taken).2 ▸ drop_readLine ahead) (grown ahead covered full taken)

/-- What is left to read when a line is handed over. -/
theorem reaching_take {line : Line} {next : Scan} {ending : Option ScanEnd}
    (ledger : Ledger terms (single read) path kind lines scan)
    (wants : Wants terms (single read) scan) (full : isFull line = true)
    (taken : scan.take terms [line.text] (read line.text) = (next, ending)) (rest : List Line) :
    (breaks read line = false →
        reaching terms.limit (gives terms.filter read) (scan.accepted terms (single read)).length
            (line :: rest) =
          line :: if ending.isSome then []
            else reaching terms.limit (gives terms.filter read)
              (next.accepted terms (single read)).length rest) ∧
      (ending = some .crashed ↔ breaks read line = true) := by
  have number := congrArg List.length (accepted_take terms (single read) [line.text] scan)
  have verdict := take_ending ledger wants [line.text]
  have outcome : single read [line.text] = read line.text := rfl
  rw [outcome, taken] at number verdict
  dsimp only at number verdict
  rw [List.length_append] at number
  have counted : gives terms.filter read line =
      ((read line.text).accepted? terms.filter).isSome := by simp [gives, full]
  have broken : breaks read line = (read line.text).isCrash := by simp [breaks, full]
  rw [verdict, endingAt, broken, reaching_cons _ wants, counted, number]
  cases (read line.text).isCrash with
  | true => simp
  | false => cases (read line.text).accepted? terms.filter <;> simp

/-- The lines that the loop reads from some point on, unless the format crashes at one of them. -/
theorem singly_lines (calm : ∀ scan, terms.cancelled scan = false)
    (ledger : Ledger terms (single read) path kind lines scan)
    (wants : Wants terms (single read) scan) (ahead : lines.drop scan.lines = rest) :
    ((singly terms read scan rest).2 = .crashed ↔
        ∃ line ∈ reaching terms.limit (gives terms.filter read)
          (scan.accepted terms (single read)).length rest, breaks read line = true) ∧
      ((singly terms read scan rest).2 ≠ .crashed →
        lines.take (singly terms read scan rest).1.lines =
          lines.take scan.lines ++ reaching terms.limit (gives terms.filter read)
            (scan.accepted terms (single read)).length rest) := by
  induction rest generalizing scan with
  | nil =>
    rw [reaching_nil]
    simp [singly]
  | cons line rest ih =>
    have more := ledger.readLine ahead
    have behind := drop_readLine ahead
    have longer := take_readLine ahead
    have first := reaching_cons (gives terms.filter read) wants line rest
    unfold singly
    rw [calm scan]
    simp only [Bool.false_eq_true, if_false]
    by_cases blank : Text.allBlank line.text.toList = true
    · have uncounted : gives terms.filter read line = false := by
        simp [gives, isFull_eq_false blank]
      have sound : breaks read line = false := by simp [breaks, isFull_eq_false blank]
      obtain ⟨crash, reached⟩ := ih more wants behind
      simp only [uncounted, Bool.false_eq_true, false_and, if_false, Nat.add_zero] at first
      rw [if_pos blank, first]
      refine ⟨?_, fun complete => ?_⟩
      · rw [crash, accepted_readLine]
        simp [sound]
      · rw [reached complete, longer, List.append_assoc, accepted_readLine]
        rfl
    · have full := isFull_eq_true blank
      rw [if_neg blank]
      split
      next final ending taken =>
        obtain ⟨left, crash⟩ := reaching_take more wants full taken rest
        obtain ⟨_, reached⟩ := handed_of_take taken
        rw [accepted_readLine] at left
        rw [Option.some.injEq] at crash
        by_cases broken : breaks read line = true
        · have ended := crash.2 broken
          refine ⟨iff_of_true ended ⟨line, ?_, broken⟩, fun complete => absurd ended complete⟩
          rw [first]
          exact List.mem_cons_self
        · rw [left (by simpa using broken), Option.isSome_some, if_pos rfl]
          refine ⟨?_, fun _ => ?_⟩
          · rw [crash]
            simp
          · rw [reached, longer]
      next following taken =>
        obtain ⟨left, crash⟩ := reaching_take more wants full taken rest
        obtain ⟨after, wanting, reached, _⟩ := more.took wants [line.text] taken
        obtain ⟨inner, ahead⟩ := ih after (wanting rfl) (reached ▸ behind)
        have sound : breaks read line = false := by simpa using crash
        rw [accepted_readLine] at left
        rw [left sound, Option.isSome_none, if_neg (by decide)]
        refine ⟨?_, fun complete => ?_⟩
        · rw [inner]
          simp [sound]
        · rw [ahead complete, reached, longer, List.append_assoc]
          rfl

theorem run_unframed (unframed : format.framing = none) :
    run terms path format lines = singly terms format.read (.ofFile path format) lines := by
  simp only [run, unframed]

theorem readGroup_unframed (unframed : format.framing = none) :
    format.readGroup = single format.read := by
  funext group
  simp only [Format.readGroup, unframed]

/-- A scan line by line hands over each line that it reads, however it ends. -/
theorem run_handed_singly (terms : ScanTerms) (unframed : format.framing = none) (path : Path)
    (lines : List Line) :
    (run terms path format lines).1.handed.reverse =
      (texts (lines.take (run terms path format lines).1.lines)).map ([·]) := by
  rw [run_unframed unframed]
  exact singly_handed rfl rfl

/-- The lines that a scan which is never cancelled reads. -/
theorem run_lines_singly (calm : ∀ scan, terms.cancelled scan = false)
    (sound : terms.limit ≠ some 0) (unframed : format.framing = none) (path : Path)
    (lines : List Line) :
    ((run terms path format lines).2 = .crashed ↔
        ∃ line ∈ reaching terms.limit (gives terms.filter format.read) 0 lines,
          breaks format.read line = true) ∧
      ((run terms path format lines).2 ≠ .crashed →
        lines.take (run terms path format lines).1.lines =
          reaching terms.limit (gives terms.filter format.read) 0 lines) := by
  rw [run_unframed unframed]
  exact singly_lines calm (ledger_ofFile terms (single format.read) path format lines)
    (wants_ofFile (single format.read) path format sound) rfl

/-! ### What lines give -/

theorem acceptedOf_single (filter : Filter) (read : String → Outcome) (texts : List String) :
    acceptedOf filter (single read) (texts.map ([·])) =
      texts.filterMap fun text => (read text).accepted? filter := by
  rw [acceptedOf, List.filterMap_map]
  rfl

theorem unreadableOf_single (read : String → Outcome) (texts : List String) :
    unreadableOf (single read) (texts.map ([·])) =
      texts.countP fun text => (read text).isRefused := by
  rw [unreadableOf, List.countP_map]
  rfl

theorem length_given (filter : Filter) (read : String → Outcome) (lines : List Line) :
    ((texts lines).filterMap fun text => (read text).accepted? filter).length =
      lines.countP (gives filter read) := by
  rw [texts, List.filterMap_map, List.length_filterMap_eq_countP, List.countP_filter]
  congr 1
  funext line
  exact Bool.and_comm _ _

/-- The tally of a scan line by line is that of the lines it has read, however it ends. -/
theorem run_tally_singly (terms : ScanTerms) (sound : terms.limit ≠ some 0)
    (unframed : format.framing = none) (path : Path) (lines : List Line) :
    let scan := (run terms path format lines).1
    let front := lines.take scan.lines
    scan.tally = .ofEntries path format.kind
      ((texts front).filterMap fun text => (format.read text).accepted? terms.filter)
      ((texts front).countP fun text => (format.read text).isRefused) (octetsOf front) := by
  intro scan front
  have ledger := run_ledger terms sound path format lines
  rw [readGroup_unframed unframed] at ledger
  rw [ledger.tally, accepted, run_handed_singly terms unframed path lines, acceptedOf_single,
    unreadableOf_single]

/-- A scan line by line that is never cancelled. The lines it has to do with are the fewest leading
ones that hold as many accepted entries as the limit, or all lines. If the format crashes at none
of them, those that are not blank are handed over one by one in order, and the tally is that of the
entries they give, of those that could not be read, and of all their octets. -/
theorem singly_follows_reference (filter : Filter) (limit : Option UInt64)
    (sound : limit ≠ some 0) (path : Path) (format : Format) (unframed : format.framing = none)
    (content : List UInt8) :
    let lines := Line.list content
    let accepts := gives filter format.read
    let outcome := run { filter, limit } path format lines
    ∃ number, IsLeast {number | Suffices limit accepts lines number} number ∧
      let front := lines.take number
      (outcome.2 = .crashed ↔ ∃ line ∈ front, breaks format.read line = true) ∧
      (outcome.2 ≠ .crashed →
        outcome.1.handed.reverse = (texts front).map ([·]) ∧
        outcome.1.tally = .ofEntries path format.kind
          ((texts front).filterMap fun text => (format.read text).accepted? filter)
          ((texts front).countP fun text => (format.read text).isRefused) (octetsOf front) ∧
        outcome.1.tally.entries = UInt64.ofNat (capped limit (lines.countP accepts)) ∧
        ((∀ most, limit = some most → lines.countP accepts < most.toNat) →
          octetsOf front = content.length)) := by
  intro lines accepts outcome
  have whole : lines.take (reaching limit accepts 0 lines).length = reaching limit accepts 0 lines :=
    (List.prefix_iff_eq_take.1 (reaching_isPrefix 0 lines)).symm
  let terms : ScanTerms := { filter, limit }
  have calm (scan : Scan) : terms.cancelled scan = false := rfl
  obtain ⟨crash, reached⟩ := run_lines_singly calm sound unframed path lines
  refine ⟨(reaching limit accepts 0 lines).length, isLeast_length_reaching lines, ?_⟩
  intro front
  have same : front = reaching limit accepts 0 lines := whole
  rw [same]
  refine ⟨crash, fun complete => ?_⟩
  have handed := run_handed_singly { filter, limit } unframed path lines
  have tally := run_tally_singly { filter, limit } sound unframed path lines
  have ended : lines.take outcome.1.lines = reaching limit accepts 0 lines := reached complete
  dsimp only at tally
  rw [ended] at handed tally
  refine ⟨handed, tally, ?_, fun few => ?_⟩
  · rw [← countP_reaching, ← length_given]
    exact congrArg Tally.entries tally
  · rw [reaching_eq_self (by simpa using few)]
    exact octetsOf_list content

def sampleLineFormat : Format where
  kind := "sample"
  title := "Sample"
  probe _ := true
  read text :=
    if text = "?" then .refused ⟨"sample", "unknown"⟩
    else .entry { level := .error, kind := "sample", raw := text }

/-- A line that cannot be read, a blank line, and two entries. -/
def sampleLineContent : List UInt8 := [63, 10, 32, 10, 101, 13, 10, 101, 10]

theorem singly_follows_reference_sample :
    some 1 ≠ some (0 : UInt64) ∧ sampleLineFormat.framing = none ∧
      IsLeast {number | Suffices (some 1) (gives {} sampleLineFormat.read)
        (Line.list sampleLineContent) number} 3 ∧
      (run { limit := some 1 } ⟨[]⟩ sampleLineFormat
        (Line.list sampleLineContent)).1.tally.bytesRead = 7 := by
  obtain ⟨number, least, _, ended⟩ := singly_follows_reference {} (some 1) (by decide) ⟨[]⟩
    sampleLineFormat rfl sampleLineContent
  have known : number = 3 := least.unique (isLeast_length_reaching _)
  subst known
  obtain ⟨_, tally, _⟩ := ended (by decide)
  exact ⟨by decide, rfl, least, (congrArg Tally.bytesRead tally).trans (by decide)⟩

end Scan

end LogCensus
