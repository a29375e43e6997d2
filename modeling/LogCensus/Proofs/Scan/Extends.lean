import LogCensus.Proofs.Report
import LogCensus.Proofs.Scan.Single
import Mathlib.Algebra.BigOperators.Group.List.Basic

/-!
A scan only ever goes on. It hands over what it has handed over before and more, so one that is
cancelled counts nothing that the scan of the whole file does not count.
-/

namespace LogCensus

def ScanTerms.uncancelled (terms : ScanTerms) : ScanTerms :=
  { terms with cancelled := fun _ => false }

namespace Scan

variable {terms : ScanTerms} {scan next : Scan} {group : List String} {ending : Option ScanEnd}

/-! ### Going on -/

/-- A scan that has come of another by reading on. -/
structure Extends (scan next : Scan) : Prop where
  handed : scan.handed <:+ next.handed
  lines : scan.lines ≤ next.lines

namespace Extends

theorem refl (scan : Scan) : Extends scan scan := ⟨List.suffix_rfl, Nat.le_refl _⟩

theorem trans {one two three : Scan} (before : Extends one two) (after : Extends two three) :
    Extends one three :=
  ⟨before.handed.trans after.handed, Nat.le_trans before.lines after.lines⟩

theorem readLine (scan : Scan) (line : Line) : Extends scan (scan.readLine line) :=
  ⟨List.suffix_rfl, Nat.le_succ _⟩

theorem took {outcome : Outcome} (taken : scan.take terms group outcome = (next, ending)) :
    Extends scan next := by
  obtain ⟨handed, lines⟩ := handed_of_take taken
  exact ⟨handed ▸ List.suffix_cons group scan.handed, lines.ge⟩

end Extends

theorem singly_extends (terms : ScanTerms) (read : String → Outcome) (scan : Scan)
    (rest : List Line) : Extends scan (singly terms read scan rest).1 := by
  fun_induction singly terms read scan rest with
  | case1 scan => exact .refl scan
  | case2 scan line rest cancelled => exact .refl scan
  | case3 scan line rest going text blank ih => exact (Extends.readLine scan line).trans ih
  | case4 scan line rest going text full final ending taken =>
    exact (Extends.readLine scan line).trans (.took taken)
  | case5 scan line rest going text full following taken ih =>
    exact ((Extends.readLine scan line).trans (.took taken)).trans ih

theorem grouped_extends (terms : ScanTerms) (framing : Framing) (scan : Scan)
    (group : List String) (rest : List Line) :
    Extends scan (grouped terms framing scan group rest).1 := by
  fun_induction grouped terms framing scan group rest with
  | case1 scan group cancelled => exact .refl scan
  | case2 scan group going empty => exact .refl scan
  | case3 scan group going begun final ending taken => exact .took taken
  | case4 scan group line rest cancelled => exact .refl scan
  | case5 scan group line rest going text blank ih => exact (Extends.readLine scan line).trans ih
  | case6 scan group line rest going text full cut final ending taken =>
    exact (Extends.readLine scan line).trans (.took taken)
  | case7 scan group line rest going text full cut following taken ih =>
    exact ((Extends.readLine scan line).trans (.took taken)).trans ih
  | case8 scan group line rest going text full uncut ih =>
    exact (Extends.readLine scan line).trans ih

/-! ### Beside the whole scan -/

theorem take_uncancelled (terms : ScanTerms) (scan : Scan) (group : List String)
    (outcome : Outcome) : scan.take terms.uncancelled group outcome = scan.take terms group outcome :=
  rfl

theorem singly_extends_uncancelled (terms : ScanTerms) (read : String → Outcome) (scan : Scan)
    (rest : List Line) :
    Extends (singly terms read scan rest).1 (singly terms.uncancelled read scan rest).1 := by
  have calm (scan : Scan) : ¬terms.uncancelled.cancelled scan = true := Bool.false_ne_true
  fun_induction singly terms read scan rest with
  | case1 scan => exact .refl scan
  | case2 scan line rest cancelled => exact singly_extends terms.uncancelled read scan (line :: rest)
  | case3 scan line rest going text blank ih =>
    rw [singly, if_neg (calm scan), if_pos blank]
    exact ih
  | case4 scan line rest going text full final ending taken =>
    rw [singly, if_neg (calm scan), if_neg full, take_uncancelled, taken]
    exact .refl final
  | case5 scan line rest going text full following taken ih =>
    rw [singly, if_neg (calm scan), if_neg full, take_uncancelled, taken]
    exact ih

theorem grouped_extends_uncancelled (terms : ScanTerms) (framing : Framing) (scan : Scan)
    (group : List String) (rest : List Line) :
    Extends (grouped terms framing scan group rest).1
      (grouped terms.uncancelled framing scan group rest).1 := by
  have calm (scan : Scan) : ¬terms.uncancelled.cancelled scan = true := Bool.false_ne_true
  fun_induction grouped terms framing scan group rest with
  | case1 scan group cancelled => exact grouped_extends terms.uncancelled framing scan group []
  | case2 scan group going empty => exact grouped_extends terms.uncancelled framing scan group []
  | case3 scan group going begun final ending taken =>
    rw [grouped, if_neg (calm scan), if_neg begun, take_uncancelled, taken]
    exact .refl final
  | case4 scan group line rest cancelled =>
    exact grouped_extends terms.uncancelled framing scan group (line :: rest)
  | case5 scan group line rest going text blank ih =>
    rw [grouped, if_neg (calm scan), if_pos blank]
    exact ih
  | case6 scan group line rest going text full cut final ending taken =>
    rw [grouped, if_neg (calm scan), if_neg full, if_pos cut, take_uncancelled, taken]
    exact .refl final
  | case7 scan group line rest going text full cut following taken ih =>
    rw [grouped, if_neg (calm scan), if_neg full, if_pos cut, take_uncancelled, taken]
    exact ih
  | case8 scan group line rest going text full uncut ih =>
    rw [grouped, if_neg (calm scan), if_neg full, if_neg uncut]
    exact ih

/-- A scan never gets further than it does without a cancellation. -/
theorem run_extends_uncancelled (terms : ScanTerms) (path : Path) (format : Format)
    (lines : List Line) :
    Extends (run terms path format lines).1 (run terms.uncancelled path format lines).1 := by
  unfold run
  cases format.framing with
  | none => exact singly_extends_uncancelled terms format.read _ lines
  | some framing => exact grouped_extends_uncancelled terms framing _ [] lines

end Scan

/-! ### Counters -/

structure Tally.AtMost (tally other : Tally) : Prop where
  bytesRead : tally.bytesRead ≤ other.bytesRead
  entries : tally.entries ≤ other.entries
  errors : tally.errors ≤ other.errors
  unreadable : tally.unreadable ≤ other.unreadable
  byLevel : ∀ level, tally.byLevel.count level ≤ other.byLevel.count level
  byKind : ∀ kind, tally.byKind.count kind ≤ other.byKind.count kind

theorem word_le_of_le {one other : Nat} (le : one ≤ other) (small : other < 2 ^ 64) :
    UInt64.ofNat one ≤ UInt64.ofNat other := by
  rw [UInt64.le_iff_toNat_le, toNat_ofNat_of_lt small, toNat_ofNat_of_lt (by omega)]
  exact le

theorem Counts.count_ofKeys_le {κ : Type} [Key κ] [DecidableEq κ] {keys more : List κ}
    (part : keys.Sublist more) (small : more.length < 2 ^ 64) (key : κ) :
    (ofKeys keys).count key ≤ (ofKeys more).count key := by
  have shorter := part.length_le
  rw [UInt64.le_iff_toNat_le, toNat_count_ofKeys small, toNat_count_ofKeys (by omega)]
  exact part.count_le key

theorem Tally.ofEntries_atMost (path : Path) (format : String) {entries more : List Entry}
    {unreadable refused octets length : Nat} (part : entries.Sublist more)
    (fewer : unreadable ≤ refused) (shorter : octets ≤ length) (small : more.length < 2 ^ 64)
    (few : refused < 2 ^ 64) (short : length < 2 ^ 64) :
    (ofEntries path format entries unreadable octets).AtMost
      (ofEntries path format more refused length) where
  bytesRead := word_le_of_le shorter short
  entries := word_le_of_le part.length_le small
  errors := word_le_of_le part.countP_le (more.countP_le_length.trans_lt small)
  unreadable := word_le_of_le fewer few
  byLevel level := Counts.count_ofKeys_le (part.map Entry.level) (by rwa [List.length_map]) level
  byKind kind := Counts.count_ofKeys_le (part.map Entry.kind) (by rwa [List.length_map]) kind

namespace Scan

variable {terms : ScanTerms}

theorem length_listFrom_le (front content : List UInt8) :
    (Line.listFrom front content).length ≤ (front ++ content).length := by
  induction content generalizing front with
  | nil =>
    unfold Line.listFrom
    cases front <;> simp
  | cons octet rest ih =>
    unfold Line.listFrom
    have inner := ih []
    have longer := ih (octet :: front)
    split
    · simp only [List.length_cons, List.nil_append, List.length_append] at inner ⊢
      omega
    · simp only [List.length_cons, List.length_append] at longer ⊢
      omega

theorem length_texts_le (lines : List Line) : (texts lines).length ≤ lines.length := by
  rw [length_texts]
  exact List.countP_le_length

theorem length_groupsOf_le (framing : Framing) (texts : List String) :
    (groupsOf framing texts).length ≤ texts.length := by
  have cut : IsCut framing texts (groupsOf framing texts) := isCut_groupsOf
  have long (length : Nat) (member : length ∈ (groupsOf framing texts).map List.length) :
      1 ≤ length := by
    obtain ⟨group, inside, rfl⟩ := List.mem_map.1 member
    exact List.length_pos_iff.2 (cut.nonempty group inside)
  have bound := List.length_le_sum_of_one_le _ long
  rwa [List.length_map, ← List.length_flatten, cut.complete] at bound

theorem length_handed_le (sound : terms.limit ≠ some 0) (path : Path) (format : Format)
    (lines : List Line) :
    (run terms.uncancelled path format lines).1.handed.length ≤ lines.length := by
  rw [← List.length_reverse]
  cases framed : format.framing with
  | none =>
    rw [run_handed_singly terms.uncancelled framed path lines, List.length_map]
    exact (length_texts_le _).trans (List.length_take_le' _ _)
  | some framing =>
    have calm (scan : Scan) : terms.uncancelled.cancelled scan = false := rfl
    obtain ⟨handed, _⟩ := run_handed calm sound framed path lines
    rw [handed]
    exact (consumed_isPrefix _).length_le.trans
      ((length_groupsOf_le framing _).trans (length_texts_le lines))

theorem octetsOf_take_le {number more : Nat} (longer : number ≤ more) (lines : List Line) :
    octetsOf (lines.take number) ≤ octetsOf (lines.take more) := by
  have front : (lines.take number).Sublist (lines.take more) :=
    (List.take_prefix_take_left longer).sublist
  rw [octetsOf, octetsOf, List.flatMap_def, List.flatMap_def]
  exact (front.map Line.octets).flatten.length_le

theorem octetsOf_take_list_le (number : Nat) (content : List UInt8) :
    octetsOf ((Line.list content).take number) ≤ content.length := by
  have front := octetsOf_take_le (Nat.le_max_left number (Line.list content).length)
    (Line.list content)
  rwa [List.take_of_length_le (Nat.le_max_right _ _), octetsOf_list] at front

/-- A scan that is not cancelled counts no more of anything than the file has octets. -/
theorem length_handed_le_content (terms : ScanTerms) (sound : terms.limit ≠ some 0) (path : Path)
    (format : Format) (content : List UInt8) :
    (run terms.uncancelled path format (Line.list content)).1.handed.reverse.length ≤
      content.length := by
  rw [List.length_reverse]
  exact (length_handed_le sound path format (Line.list content)).trans
    (length_listFrom_le [] content)

theorem run_atMost (sound : terms.limit ≠ some 0) (path : Path) (format : Format)
    {content : List UInt8} (small : content.length < 2 ^ 64) :
    (run terms path format (Line.list content)).1.tally.AtMost
      (run terms.uncancelled path format (Line.list content)).1.tally := by
  have longer := run_extends_uncancelled terms path format (Line.list content)
  have groups := length_handed_le_content terms sound path format content
  have part := (List.reverse_prefix.2 longer.handed).sublist
  rw [(run_ledger terms sound path format _).tally,
    (run_ledger terms.uncancelled sound path format _).tally]
  apply Tally.ofEntries_atMost
  · exact part.filterMap _
  · exact part.countP_le
  · exact octetsOf_take_le longer.lines _
  · exact ((List.length_filterMap_le _ _).trans groups).trans_lt small
  · exact (List.countP_le_length.trans groups).trans_lt small
  · exact (octetsOf_take_list_le _ content).trans_lt small

end Scan

end LogCensus
