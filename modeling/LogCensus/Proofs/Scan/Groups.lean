import LogCensus.Proofs.Scan.Ledger
import Mathlib.Data.List.Infix
import Mathlib.Data.List.SplitBy

/-!
A scan in groups, told without its loop: the texts that are not blank are cut in front of each one
that starts an entry, and the groups are read in order up to the one that makes up the limit.
-/

namespace LogCensus

/-! ### The items up to one of a kind -/

section Through

variable {α : Type} {counts : α → Bool}

/-- The items up to the one that is the last of so many of a kind, or all where there are fewer. -/
def through (counts : α → Bool) : Nat → List α → List α
  | 0, _ => []
  | _ + 1, [] => []
  | number + 1, head :: rest =>
    head :: through counts (if counts head then number else number + 1) rest

theorem through_zero (items : List α) : through counts 0 items = [] := by
  unfold through
  rfl

theorem through_nil (number : Nat) : through counts number [] = [] := by
  cases number <;> rfl

theorem through_cons_of_pos {head : α} (rest : List α) (counted : counts head = true)
    (number : Nat) :
    through counts (number + 1) (head :: rest) = head :: through counts number rest := by
  simp only [through, if_pos counted]

theorem through_cons_of_neg {head : α} (rest : List α) (uncounted : counts head = false)
    (number : Nat) :
    through counts (number + 1) (head :: rest) = head :: through counts (number + 1) rest := by
  simp only [through, uncounted, Bool.false_eq_true, if_false]

theorem through_isPrefix (number : Nat) (items : List α) :
    through counts number items <+: items := by
  induction items generalizing number with
  | nil => rw [through_nil]
  | cons head rest ih =>
    cases number with
    | zero =>
      rw [through_zero]
      exact List.nil_prefix
    | succ number => exact (List.prefix_cons_inj head).2 (ih _)

theorem countP_through (counts : α → Bool) (number : Nat) (items : List α) :
    (through counts number items).countP counts = min number (items.countP counts) := by
  induction items generalizing number with
  | nil => rw [through_nil, List.countP_nil, Nat.min_zero]
  | cons head rest ih =>
    cases number with
    | zero => rw [through_zero, List.countP_nil, Nat.zero_min]
    | succ number =>
      cases counted : counts head with
      | true =>
        rw [through_cons_of_pos rest counted, List.countP_cons_of_pos counted,
          List.countP_cons_of_pos counted, ih]
        omega
      | false =>
        have uncounted : ¬counts head = true := by simp [counted]
        rw [through_cons_of_neg rest counted, List.countP_cons_of_neg uncounted,
          List.countP_cons_of_neg uncounted, ih]

theorem through_append_cons (front : List α) {last : α} (rest : List α)
    (counted : counts last = true) :
    through counts (front.countP counts + 1) (front ++ last :: rest) = front ++ [last] := by
  induction front with
  | nil =>
    rw [List.countP_nil, List.nil_append, List.nil_append, through_cons_of_pos rest counted,
      through_zero]
  | cons head front ih =>
    rw [List.cons_append, List.cons_append]
    cases headed : counts head with
    | true => rw [List.countP_cons_of_pos headed, through_cons_of_pos _ headed, ih]
    | false =>
      rw [List.countP_cons_of_neg (by simp [headed]), through_cons_of_neg _ headed, ih]

theorem through_eq_self {number : Nat} {items : List α} (few : items.countP counts < number) :
    through counts number items = items := by
  induction items generalizing number with
  | nil => exact through_nil number
  | cons head rest ih =>
    cases number with
    | zero => omega
    | succ number =>
      cases counted : counts head with
      | true =>
        rw [List.countP_cons_of_pos counted] at few
        rw [through_cons_of_pos rest counted, ih (by omega)]
      | false =>
        rw [List.countP_cons_of_neg (by simp [counted])] at few
        rw [through_cons_of_neg rest counted, ih few]

/-- Where no item of a kind comes before the cut, cutting at such an item first changes nothing. -/
theorem through_through {stops : α → Bool} {number : Nat} {items : List α}
    (none : ∀ item ∈ through counts number (through stops 1 items), stops item = false) :
    through counts number (through stops 1 items) = through counts number items := by
  induction items generalizing number with
  | nil => rw [through_nil]
  | cons head rest ih =>
    cases number with
    | zero => rw [through_zero, through_zero]
    | succ number =>
      cases stop : stops head with
      | true =>
        rw [through_cons_of_pos rest stop, through_zero] at none
        have absent := none head (by simp [through])
        rw [stop] at absent
        cases absent
      | false =>
        rw [through_cons_of_neg rest stop] at none ⊢
        unfold through at none ⊢
        rw [ih fun item member => none item (List.mem_cons_of_mem head member)]

theorem through_one_eq_self {items : List α}
    (none : ∀ item ∈ through counts 1 items, counts item = false) :
    through counts 1 items = items := by
  have number := countP_through counts 1 items
  have zero : (through counts 1 items).countP counts = 0 := by
    apply List.countP_eq_zero.2
    intro item member
    simp [none item member]
  exact through_eq_self (by omega)

theorem exists_mem_through_one {items : List α} :
    (∃ item ∈ through counts 1 items, counts item = true) ↔ ∃ item ∈ items, counts item = true := by
  constructor
  · rintro ⟨item, member, counted⟩
    exact ⟨item, (through_isPrefix 1 items).subset member, counted⟩
  · rintro ⟨item, member, counted⟩
    by_contra none
    push Not at none
    rw [through_one_eq_self (by simpa using none)] at none
    exact none item member counted

end Through

/-! ### Groups -/

namespace Scan

def isFull (line : Line) : Bool := !Text.allBlank line.text.toList

def texts (lines : List Line) : List String := (lines.filter isFull).map Line.text

/-- Texts cut into groups, in front of each one that starts an entry. -/
def groupsOf (framing : Framing) (texts : List String) : List (List String) :=
  texts.splitBy fun _ next => !framing.starts next

def crashes (read : List String → Outcome) (group : List String) : Bool := (read group).isCrash

def accepts (terms : ScanTerms) (read : List String → Outcome) (group : List String) : Bool :=
  ((read group).accepted? terms.filter).isSome

/-- The groups that a scan hands to the format when it has accepted so many entries: all of them, or
those up to the one at which the format crashes or whose entry makes up the limit. -/
def consumedAfter (terms : ScanTerms) (read : List String → Outcome) (count : Nat)
    (groups : List (List String)) : List (List String) :=
  let sound := through (crashes read) 1 groups
  match terms.limit with
  | none => sound
  | some most => through (accepts terms read) (most.toNat - count) sound

def consumed (terms : ScanTerms) (read : List String → Outcome) (groups : List (List String)) :
    List (List String) :=
  consumedAfter terms read 0 groups

def upToLimit (terms : ScanTerms) (read : List String → Outcome) (groups : List (List String)) :
    List (List String) :=
  match terms.limit with
  | none => groups
  | some most => through (accepts terms read) most.toNat groups

def capped (limit : Option UInt64) (number : Nat) : Nat :=
  match limit with
  | none => number
  | some most => min most.toNat number

/-- What it is for texts to be cut into groups at those that start an entry. -/
structure IsCut (framing : Framing) (texts : List String) (groups : List (List String)) : Prop where
  complete : groups.flatten = texts
  nonempty : ∀ group ∈ groups, group ≠ []
  /-- No entry starts inside a group. -/
  whole : ∀ group ∈ groups, ∀ text ∈ group.tail, framing.starts text = false
  /-- Only the first group may open with a text that starts no entry. -/
  opened : ∀ group ∈ groups.tail, ∃ text ∈ group.head?, framing.starts text = true

/-- The lines that a scan reads to hand over some of their groups. Only the line that starts the
next group shows that a group is complete. -/
def linesRead (framing : Framing) (lines : List Line) (groups : List (List String)) : List Line :=
  if groups = groupsOf framing (texts lines) then lines
  else through isFull (groups.flatten.length + 1) lines

section Cut

variable {framing : Framing} {texts : List String}

theorem starts_of_mem_tail {group : List String} {text : String}
    (chain : group.IsChain fun _ next => (!framing.starts next) = true)
    (member : text ∈ group.tail) : framing.starts text = false := by
  induction chain with
  | nil => cases member
  | singleton first => cases member
  | cons_cons inner _ ih =>
    rcases List.mem_cons.1 member with rfl | later
    · simpa using inner
    · exact ih later

theorem opens_of_mem_tail {groups : List (List String)} {group : List String}
    (chain : groups.IsChain fun one other => ∃ last first,
      (fun _ next => !framing.starts next) (one.getLast last) (other.head first) = false)
    (member : group ∈ groups.tail) : ∃ text ∈ group.head?, framing.starts text = true := by
  induction chain with
  | nil => cases member
  | singleton first => cases member
  | cons_cons border _ ih =>
    rcases List.mem_cons.1 member with rfl | later
    · obtain ⟨_, first, start⟩ := border
      exact ⟨_, List.head_mem_head? first, by simpa using start⟩
    · exact ih later

theorem isCut_groupsOf : IsCut framing texts (groupsOf framing texts) where
  complete := List.flatten_splitBy _ texts
  nonempty := fun _ member => List.ne_nil_of_mem_splitBy member
  whole := fun _ member _ inner => starts_of_mem_tail (List.isChain_of_mem_splitBy member) inner
  opened := fun _ member =>
    opens_of_mem_tail
      (List.isChain_getLast_head_splitBy (fun _ next => !framing.starts next) texts) member

end Cut

/-- Texts cut into groups when some texts of the first group, newest first, have been read. -/
def groupsFrom (framing : Framing) (group : List String) : List String → List (List String)
  | [] => if group.isEmpty then [] else [group.reverse]
  | text :: rest =>
    if framing.starts text && !group.isEmpty then group.reverse :: groupsFrom framing [text] rest
    else groupsFrom framing (text :: group) rest

variable {framing : Framing}

theorem groupsFrom_eq_loop (last : String) (group texts : List String)
    (done : List (List String)) :
    List.splitBy.loop (fun _ next => !framing.starts next) texts last group done =
      done.reverse ++ groupsFrom framing (last :: group) texts := by
  induction texts generalizing last group done with
  | nil => simp [List.splitBy.loop, groupsFrom]
  | cons text rest ih =>
    unfold List.splitBy.loop groupsFrom
    cases start : framing.starts text with
    | true => simp [ih]
    | false => simp [ih]

theorem groupsFrom_nil (texts : List String) :
    groupsFrom framing [] texts = groupsOf framing texts := by
  cases texts with
  | nil => rfl
  | cons text rest =>
    rw [groupsOf, List.splitBy, groupsFrom_eq_loop, List.reverse_nil, List.nil_append]
    simp [groupsFrom]

variable {terms : ScanTerms} {read : List String → Outcome}

theorem consumedAfter_nil (count : Nat) : consumedAfter terms read count [] = [] := by
  unfold consumedAfter
  cases terms.limit <;> simp [through_nil]

theorem consumedAfter_cons {count : Nat}
    (wants : ∀ most, terms.limit = some most → count < most.toNat) (group : List String)
    (rest : List (List String)) :
    consumedAfter terms read count (group :: rest) =
      group ::
        if (endingAt terms (read group)
          (count + ((read group).accepted? terms.filter).toList.length)).isSome then []
        else consumedAfter terms read
          (count + ((read group).accepted? terms.filter).toList.length) rest := by
  have room {most : UInt64} (limited : terms.limit = some most) :
      ∃ left, most.toNat - count = left + 1 := by
    have bound := wants most limited
    exact ⟨most.toNat - count - 1, by omega⟩
  unfold consumedAfter endingAt
  cases crash : crashes read group with
  | true =>
    have crashed : (read group).isCrash = true := crash
    rw [if_pos crashed, through_cons_of_pos rest crash, through_zero]
    cases limited : terms.limit with
    | none => rfl
    | some most =>
      obtain ⟨left, more⟩ := room limited
      simp only [more, through, through_nil, Option.isSome_some, if_true]
  | false =>
    have sound : (read group).isCrash = false := crash
    rw [through_cons_of_neg rest crash]
    cases limited : terms.limit with
    | none => simp [sound]
    | some most =>
      obtain ⟨left, more⟩ := room limited
      cases kept : (read group).accepted? terms.filter with
      | none =>
        have uncounted : accepts terms read group = false := by simp [accepts, kept]
        simp [sound, more, through_cons_of_neg _ uncounted]
      | some entry =>
        have counted : accepts terms read group = true := by simp [accepts, kept]
        have fewer : most.toNat - (count + 1) = left := by omega
        dsimp only
        rw [more, through_cons_of_pos _ counted]
        by_cases last : most.toNat = count + 1
        · have none : left = 0 := by omega
          simp [sound, last, none, through_zero]
        · simp [sound, last, fewer]

/-! ### The groups handed over -/

theorem consumed_isPrefix (groups : List (List String)) :
    consumed terms read groups <+: groups := by
  have sound : through (crashes read) 1 groups <+: groups := through_isPrefix 1 groups
  unfold consumed consumedAfter
  cases terms.limit with
  | none => exact sound
  | some most => exact (through_isPrefix _ _).trans sound

theorem consumed_of_sound {groups : List (List String)}
    (sound : ∀ group ∈ consumed terms read groups, crashes read group = false) :
    consumed terms read groups = upToLimit terms read groups := by
  unfold consumed consumedAfter at sound ⊢
  unfold upToLimit
  cases limited : terms.limit with
  | none =>
    rw [limited] at sound
    exact through_one_eq_self sound
  | some most =>
    rw [limited] at sound
    exact through_through sound

theorem length_acceptedOf (groups : List (List String)) :
    (acceptedOf terms.filter read groups).length = groups.countP (accepts terms read) := by
  rw [acceptedOf, List.length_filterMap_eq_countP]
  rfl

theorem countP_upToLimit (groups : List (List String)) :
    (upToLimit terms read groups).countP (accepts terms read) =
      capped terms.limit (groups.countP (accepts terms read)) := by
  unfold upToLimit capped
  cases terms.limit with
  | none => rfl
  | some most => exact countP_through _ _ groups

end Scan

end LogCensus
