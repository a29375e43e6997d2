import LogCensus.Json.Node
import LogCensus.Proofs.Json.Numeral
import LogCensus.Proofs.Json.Quoted

/-!
What a piece of text is parsed to, whatever is asked of its tree. A piece is parsed in front of all
that cannot go on with a number and with any fuel from some amount on, and larger pieces are made of
smaller ones.
-/

namespace LogCensus.Json

open Text (isDigit)

/-! ### Blanks -/

def Gap (gap : List Char) : Prop := ∀ c ∈ gap, Cursor.isSpace c = true

theorem gap_nil : Gap [] := by simp [Gap]

theorem Gap.append {gap more : List Char} (blank : Gap gap) (later : Gap more) :
    Gap (gap ++ more) := fun c member =>
  (List.mem_append.1 member).elim (blank c) (later c)

theorem byteCount_append (front behind : List Char) :
    Text.Utf8.byteCount (front ++ behind) =
      Text.Utf8.byteCount front + Text.Utf8.byteCount behind := by
  simp [Text.Utf8.byteCount, Text.Utf8.encode]

theorem skipSpace_append {gap : List Char} (blank : Gap gap) (ahead : List Char) (offset : Nat) :
    Cursor.skipSpace ⟨gap ++ ahead, offset⟩ =
      Cursor.skipSpace ⟨ahead, offset + Text.Utf8.byteCount gap⟩ := by
  simp only [Cursor.skipSpace, Cursor.skipWhile, List.dropWhile_append_of_pos blank,
    List.takeWhile_append_of_pos blank, byteCount_append, Nat.add_assoc]

theorem skipSpace_solid {c : Char} (solid : Cursor.isSpace c = false) (rest : List Char)
    (offset : Nat) : Cursor.skipSpace ⟨c :: rest, offset⟩ = ⟨c :: rest, offset⟩ := by
  simp [Cursor.skipSpace, Cursor.skipWhile, solid, Text.Utf8.byteCount, Text.Utf8.encode]

theorem skipSpace_gap {gap : List Char} (blank : Gap gap) {c : Char}
    (solid : Cursor.isSpace c = false) (rest : List Char) (offset : Nat) :
    ∃ reached, Cursor.skipSpace ⟨gap ++ c :: rest, offset⟩ = ⟨c :: rest, reached⟩ :=
  ⟨_, (skipSpace_append blank _ _).trans (skipSpace_solid solid _ _)⟩

theorem endsNumeral_append {gap rest : List Char} (blank : Gap gap) (stop : EndsNumeral rest) :
    EndsNumeral (gap ++ rest) := by
  intro c first
  cases gap with
  | nil => exact stop c first
  | cons front gap =>
    cases first
    have space := blank c List.mem_cons_self
    simp only [Cursor.isSpace, Bool.or_eq_true, beq_iff_eq] at space
    rcases space with ((rfl | rfl) | rfl) | rfl <;> decide

theorem endsNumeral_gap {gap : List Char} (blank : Gap gap) : EndsNumeral gap := by
  rw [← List.append_nil gap]
  exact endsNumeral_append blank (by simp [EndsNumeral])

theorem endsNumeral_cons {c : Char} (known : c ∈ [',', ']', '}']) (rest : List Char) :
    EndsNumeral (c :: rest) := by
  rintro _ ⟨⟩
  simp only [List.mem_cons, List.not_mem_nil, or_false] at known
  rcases known with rfl | rfl | rfl <;> decide

/-! ### Pieces of text -/

/-- The text starts with no blank and closes nothing, and it is parsed to a tree as wanted. -/
structure Parses (Wanted : Node → Prop) (need : Nat) (text : List Char) : Prop where
  head : ∃ c tail, text = c :: tail ∧ Cursor.isSpace c = false ∧ c ≠ ']'
  parses : ∀ {rest : List Char}, EndsNumeral rest → ∀ (offset : Nat) {fuel : Nat}, need ≤ fuel →
    ∃ node behind, Wanted node ∧
      parseNode fuel ⟨text ++ rest, offset⟩ = (node, some ⟨rest, behind⟩)

/-- The text is parsed to elements as wanted and the bracket behind them, from the first of the
array on or behind one of them. -/
structure ParsesItems (Wanted : Items → Prop) (need : Nat) (first : Bool) (text : List Char) :
    Prop where
  stop : first = false → ∀ rest, EndsNumeral (text ++ rest)
  parses : ∀ (rest : List Char) (offset : Nat) {fuel : Nat}, need ≤ fuel →
    ∃ items behind, Wanted items ∧
      parseItems fuel first ⟨text ++ rest, offset⟩ = (items, some ⟨rest, behind⟩)

structure ParsesMembers (Wanted : Members → Prop) (need : Nat) (first : Bool) (text : List Char) :
    Prop where
  stop : first = false → ∀ rest, EndsNumeral (text ++ rest)
  parses : ∀ (rest : List Char) (offset : Nat) {fuel : Nat}, need ≤ fuel →
    ∃ tree behind, Wanted tree ∧
      parseMembers fuel first ⟨text ++ rest, offset⟩ = (tree, some ⟨rest, behind⟩)

section Pieces

variable {Wanted Value : Node → Prop} {Elements Others : Items → Prop} {Tree More : Members → Prop}
  {need more left : Nat} {first : Bool} {text behind : List Char}

theorem Parses.mono (parsed : Parses Wanted need text) (enough : need ≤ more) :
    Parses Wanted more text :=
  ⟨parsed.head, fun stop offset _ less => parsed.parses stop offset (enough.trans less)⟩

theorem Parses.length_pos (parsed : Parses Wanted need text) : 0 < text.length := by
  obtain ⟨c, tail, rfl, -⟩ := parsed.head
  exact Nat.succ_pos _

theorem ParsesItems.mono (parsed : ParsesItems Elements need first text) (enough : need ≤ more) :
    ParsesItems Elements more first text :=
  ⟨parsed.stop, fun rest offset _ less => parsed.parses rest offset (enough.trans less)⟩

theorem ParsesMembers.mono (parsed : ParsesMembers Tree need first text) (enough : need ≤ more) :
    ParsesMembers Tree more first text :=
  ⟨parsed.stop, fun rest offset _ less => parsed.parses rest offset (enough.trans less)⟩

/-! Without fuel nothing is parsed to its end. -/

theorem Parses.need_pos (parsed : Parses Wanted need text) : 0 < need := by
  by_contra none
  obtain ⟨node, behind, -, taken⟩ := parsed.parses (endsNumeral_gap gap_nil) 0 (not_lt.1 none)
  cases taken

theorem ParsesItems.need_pos (parsed : ParsesItems Elements need first text) : 0 < need := by
  by_contra none
  obtain ⟨items, behind, -, taken⟩ := parsed.parses [] 0 (not_lt.1 none)
  cases taken

theorem ParsesMembers.need_pos (parsed : ParsesMembers Tree need first text) : 0 < need := by
  by_contra none
  obtain ⟨tree, behind, -, taken⟩ := parsed.parses [] 0 (not_lt.1 none)
  cases taken

/-! Blanks in front are ignored. -/

theorem Parses.parses_gap (parsed : Parses Wanted need text) {gap rest : List Char}
    (blank : Gap gap) (stop : EndsNumeral rest) (offset : Nat) {fuel : Nat} (enough : need ≤ fuel) :
    ∃ node behind, Wanted node ∧
      parseNode fuel ⟨gap ++ (text ++ rest), offset⟩ = (node, some ⟨rest, behind⟩) := by
  obtain ⟨less, rfl⟩ := Nat.exists_eq_succ_of_ne_zero (parsed.need_pos.trans_le enough).ne'
  have same : parseNode (less + 1) ⟨gap ++ (text ++ rest), offset⟩ =
      parseNode (less + 1) ⟨text ++ rest, offset + Text.Utf8.byteCount gap⟩ := by
    rw [parseNode, parseNode, skipSpace_append blank]
  rw [same]
  exact parsed.parses stop _ enough

theorem ParsesItems.gap (parsed : ParsesItems Elements need first text) {gap : List Char}
    (blank : Gap gap) : ParsesItems Elements need first (gap ++ text) where
  stop := fun later rest => by
    rw [List.append_assoc]
    exact endsNumeral_append blank (parsed.stop later rest)
  parses := by
    intro rest offset fuel enough
    obtain ⟨less, rfl⟩ := Nat.exists_eq_succ_of_ne_zero (parsed.need_pos.trans_le enough).ne'
    have same : parseItems (less + 1) first ⟨gap ++ (text ++ rest), offset⟩ =
        parseItems (less + 1) first ⟨text ++ rest, offset + Text.Utf8.byteCount gap⟩ := by
      rw [parseItems, parseItems, skipSpace_append blank]
    rw [List.append_assoc, same]
    exact parsed.parses rest _ enough

theorem ParsesMembers.gap (parsed : ParsesMembers Tree need first text) {gap : List Char}
    (blank : Gap gap) : ParsesMembers Tree need first (gap ++ text) where
  stop := fun later rest => by
    rw [List.append_assoc]
    exact endsNumeral_append blank (parsed.stop later rest)
  parses := by
    intro rest offset fuel enough
    obtain ⟨less, rfl⟩ := Nat.exists_eq_succ_of_ne_zero (parsed.need_pos.trans_le enough).ne'
    have same : parseMembers (less + 1) first ⟨gap ++ (text ++ rest), offset⟩ =
        parseMembers (less + 1) first ⟨text ++ rest, offset + Text.Utf8.byteCount gap⟩ := by
      rw [parseMembers, parseMembers, skipSpace_append blank]
    rw [List.append_assoc, same]
    exact parsed.parses rest _ enough

/-! ### Scalars -/

theorem takeWord_letters (letters : List Char) (scalar : Scalar) (rest : List Char) (offset : Nat) :
    ∃ behind, takeWord letters scalar ⟨letters ++ rest, offset⟩ =
      (.scalar (.ok scalar) behind, some ⟨rest, behind⟩) := by
  induction letters generalizing offset with
  | nil => exact ⟨offset, rfl⟩
  | cons letter letters ih =>
    obtain ⟨behind, taken⟩ := ih (offset + letter.utf8Size)
    refine ⟨behind, ?_⟩
    simp only [takeWord, List.cons_append, if_true, Cursor.next]
    exact taken

theorem parses_word (letter : Char) (letters : List Char) {scalar : Scalar}
    (solid : Cursor.isSpace letter = false) (inside : letter ≠ ']')
    (wanted : ∀ stop, Wanted (.scalar (.ok scalar) stop))
    (step : ∀ fuel rest offset, parseNode (fuel + 1) ⟨letter :: rest, offset⟩ =
      takeWord letters scalar (Cursor.next ⟨letter :: rest, offset⟩)) :
    Parses Wanted 1 (letter :: letters) where
  head := ⟨letter, letters, rfl, solid, inside⟩
  parses := by
    intro rest stop offset fuel enough
    obtain ⟨behind, taken⟩ := takeWord_letters letters scalar rest (offset + letter.utf8Size)
    obtain ⟨less, rfl⟩ := Nat.exists_eq_succ_of_ne_zero (Nat.one_le_iff_ne_zero.1 enough)
    exact ⟨_, behind, wanted behind, (step less _ offset).trans taken⟩

section Words

variable (fuel : Nat) (rest : List Char) (offset : Nat)

theorem parseNode_null : parseNode (fuel + 1) ⟨'n' :: rest, offset⟩ =
    takeWord "ull".toList .null (Cursor.next ⟨'n' :: rest, offset⟩) := by
  rw [parseNode, skipSpace_solid (by decide)]
  rfl

theorem parseNode_true : parseNode (fuel + 1) ⟨'t' :: rest, offset⟩ =
    takeWord "rue".toList (.bool true) (Cursor.next ⟨'t' :: rest, offset⟩) := by
  rw [parseNode, skipSpace_solid (by decide)]
  rfl

theorem parseNode_false : parseNode (fuel + 1) ⟨'f' :: rest, offset⟩ =
    takeWord "alse".toList (.bool false) (Cursor.next ⟨'f' :: rest, offset⟩) := by
  rw [parseNode, skipSpace_solid (by decide)]
  rfl

end Words

theorem parses_string {string : String} {body : List Char} (quoted : QuotedBody body string.toList)
    (wanted : ∀ stop, Wanted (.scalar (.ok (.string string)) stop)) :
    Parses Wanted 1 ('"' :: body) where
  head := ⟨'"', body, rfl, by decide, by decide⟩
  parses := by
    intro rest stop offset fuel enough
    obtain ⟨behind, read⟩ := quoted rest (offset + ('"' : Char).utf8Size)
    obtain ⟨less, rfl⟩ := Nat.exists_eq_succ_of_ne_zero (Nat.one_le_iff_ne_zero.1 enough)
    refine ⟨.scalar (.ok (.string string)) behind, behind, wanted behind, ?_⟩
    rw [List.cons_append, parseNode, skipSpace_solid (by decide)]
    simp only [stringNode, takeString, Cursor.next, read, Except.map, String.ofList_toList]

/-- What starts a number starts nothing else. -/
theorem front_of_number {c : Char} (front : c = '-' ∨ isDigit c = true) :
    Cursor.isSpace c = false ∧ c ∉ ['n', 't', 'f', '"', '[', '{', ']'] := by
  rcases front with rfl | digit
  · decide
  · have differ : ∀ other, isDigit other = false → c ≠ other := by
      rintro other none rfl
      rw [digit] at none
      cases none
    simp [Cursor.isSpace, differ ' ' (by decide), differ '\n' (by decide), differ '\t' (by decide),
      differ '\r' (by decide), differ 'n' (by decide), differ 't' (by decide),
      differ 'f' (by decide), differ '"' (by decide), differ '[' (by decide),
      differ '{' (by decide), differ ']' (by decide)]

/-- Where a number starts, nothing else is parsed. -/
theorem parseNode_number {c : Char} (front : c = '-' ∨ isDigit c = true) (fuel : Nat)
    (rest : List Char) (offset : Nat) :
    parseNode (fuel + 1) ⟨c :: rest, offset⟩ = numberNode ⟨c :: rest, offset⟩ := by
  obtain ⟨solid, other⟩ := front_of_number front
  rw [parseNode, skipSpace_solid solid]
  simp only
  split
  · next none => cases none
  · next word => cases word; exact absurd (by simp) other
  · next word => cases word; exact absurd (by simp) other
  · next word => cases word; exact absurd (by simp) other
  · next quote => cases quote; exact absurd (by simp) other
  · next bracket => cases bracket; exact absurd (by simp) other
  · next brace => cases brace; exact absurd (by simp) other
  · next same =>
    cases same
    rw [if_pos front]

theorem parses_number (front : ∃ c tail, text = c :: tail ∧ (c = '-' ∨ isDigit c = true))
    (taken : ∀ rest, EndsNumeral rest → ∀ offset, ∃ node behind, Wanted node ∧
      numberNode ⟨text ++ rest, offset⟩ = (node, some ⟨rest, behind⟩)) :
    Parses Wanted 1 text := by
  obtain ⟨c, tail, rfl, number⟩ := front
  obtain ⟨solid, other⟩ := front_of_number number
  refine ⟨⟨c, tail, rfl, solid, fun same => other (by simp [same])⟩, ?_⟩
  intro rest stop offset fuel enough
  obtain ⟨less, rfl⟩ := Nat.exists_eq_succ_of_ne_zero (Nat.one_le_iff_ne_zero.1 enough)
  rw [List.cons_append, parseNode_number number]
  exact taken rest stop offset

/-! ### Arrays -/

theorem parsesItems_close (first : Bool) (wanted : ∀ stop, Elements (.close stop)) :
    ParsesItems Elements 1 first [']'] where
  stop := fun _ rest => endsNumeral_cons (by simp) rest
  parses := by
    intro rest offset fuel enough
    obtain ⟨less, rfl⟩ := Nat.exists_eq_succ_of_ne_zero (Nat.one_le_iff_ne_zero.1 enough)
    refine ⟨.close (offset + 1), offset + 1, wanted _, ?_⟩
    rw [List.singleton_append, parseItems, skipSpace_solid (by decide)]
    rfl

/-- Behind its separator an element is parsed. -/
theorem parseItems_separator (first : Bool) {gap : List Char} (blank : Gap gap) {c : Char}
    (solid : Cursor.isSpace c = false) (inside : c ≠ ']') (rest : List Char) (offset : Nat) :
    ∃ reached, ∀ fuel, parseItems (fuel + 1) first
      ⟨(if first then [] else [',']) ++ gap ++ c :: rest, offset⟩ =
        parseItem fuel ⟨c :: rest, reached⟩ := by
  cases first with
  | true =>
    obtain ⟨reached, skipped⟩ := skipSpace_gap blank solid rest offset
    refine ⟨reached, fun fuel => ?_⟩
    rw [if_pos rfl, List.nil_append, parseItems, skipped]
    simp only [if_true]
  | false =>
    obtain ⟨reached, skipped⟩ := skipSpace_gap blank solid rest (offset + (',' : Char).utf8Size)
    refine ⟨reached, fun fuel => ?_⟩
    have comma : ',' ≠ ']' := by decide
    rw [if_neg Bool.false_ne_true, List.append_assoc, List.singleton_append, parseItems,
      skipSpace_solid (by decide)]
    simp only [Bool.false_eq_true, if_false, if_true, Cursor.next, skipped]
    split
    · next none => cases none
    · next close =>
      cases close
      exact absurd rfl inside
    · rfl

theorem ParsesItems.cons {gap : List Char} (blank : Gap gap) (value : Parses Value need text)
    (later : ParsesItems Others more false behind)
    (wanted : ∀ {node items}, Value node → Others items →
      ∀ start mark, Elements (.item start node mark items))
    (enough : need + 2 ≤ left ∧ more + 2 ≤ left) :
    ParsesItems Elements left first ((if first then [] else [',']) ++ gap ++ (text ++ behind)) where
  stop := by
    rintro rfl rest
    exact endsNumeral_cons (by simp) _
  parses := by
    intro rest offset fuel fueled
    obtain ⟨c, tail, rfl, solid, inside⟩ := value.head
    obtain ⟨reached, step⟩ :=
      parseItems_separator first blank solid inside (tail ++ (behind ++ rest)) offset
    obtain ⟨less, rfl⟩ : ∃ less, fuel = less + 2 := ⟨fuel - 2, by omega⟩
    obtain ⟨node, mark, valued, parsed⟩ :=
      value.parses (later.stop rfl rest) reached (show need ≤ less by omega)
    obtain ⟨items, last, values, others⟩ := later.parses rest mark (show more ≤ less by omega)
    refine ⟨.item reached node (Items.markAt ⟨behind ++ rest, mark⟩) items, last,
      wanted valued values _ _, ?_⟩
    simp only [List.append_assoc, List.cons_append] at step parsed ⊢
    rw [step, parseItem]
    simp only [parsed, others]

theorem parses_array (inner : ParsesItems Elements need true text)
    (wanted : ∀ {items}, Elements items → ∀ start, Wanted (.array start items)) :
    Parses Wanted (need + 1) ('[' :: text) where
  head := ⟨'[', text, rfl, by decide, by decide⟩
  parses := by
    intro rest stop offset fuel enough
    obtain ⟨less, rfl⟩ : ∃ less, fuel = less + 1 := ⟨fuel - 1, by omega⟩
    obtain ⟨items, behind, values, parsed⟩ :=
      inner.parses rest (offset + ('[' : Char).utf8Size) (Nat.le_of_succ_le_succ enough)
    refine ⟨.array offset items, behind, wanted values offset, ?_⟩
    rw [List.cons_append, parseNode, skipSpace_solid (by decide)]
    simp only [Cursor.next, parsed]

/-! ### Objects -/

theorem parsesMembers_close (first : Bool) (wanted : ∀ stop, Tree (.close stop)) :
    ParsesMembers Tree 1 first ['}'] where
  stop := fun _ rest => endsNumeral_cons (by simp) rest
  parses := by
    intro rest offset fuel enough
    obtain ⟨less, rfl⟩ := Nat.exists_eq_succ_of_ne_zero (Nat.one_le_iff_ne_zero.1 enough)
    refine ⟨.close (offset + 1), offset + 1, wanted _, ?_⟩
    rw [List.singleton_append, parseMembers, skipSpace_solid (by decide)]
    rfl

/-- Behind its separator a member is parsed. -/
theorem parseMembers_separator (first : Bool) {gap : List Char} (blank : Gap gap)
    (rest : List Char) (offset : Nat) :
    ∃ reached, ∀ fuel, parseMembers (fuel + 1) first
      ⟨(if first then [] else [',']) ++ gap ++ '"' :: rest, offset⟩ =
        parseMember fuel ⟨'"' :: rest, reached⟩ := by
  have solid : Cursor.isSpace '"' = false := by decide
  cases first with
  | true =>
    obtain ⟨reached, skipped⟩ := skipSpace_gap blank solid rest offset
    refine ⟨reached, fun fuel => ?_⟩
    have quote : '"' ≠ '}' := by decide
    rw [if_pos rfl, List.nil_append, parseMembers, skipped]
    simp only [if_true]
  | false =>
    obtain ⟨reached, skipped⟩ := skipSpace_gap blank solid rest (offset + (',' : Char).utf8Size)
    refine ⟨reached, fun fuel => ?_⟩
    have comma : ',' ≠ '}' := by decide
    rw [if_neg Bool.false_ne_true, List.append_assoc, List.singleton_append, parseMembers,
      skipSpace_solid (by decide)]
    simp only [Bool.false_eq_true, if_false, if_true, Cursor.next, skipped]

theorem ParsesMembers.cons {key : String} {gap body middle lead : List Char} (blank : Gap gap)
    (quoted : QuotedBody body key.toList) (between : Gap middle) (leading : Gap lead)
    (value : Parses Value need text) (later : ParsesMembers More more false behind)
    (wanted : ∀ {node tree}, Value node → More tree →
      ∀ keyStop mark, Tree (.member (.ok key) keyStop mark node tree))
    (enough : need + 2 ≤ left ∧ more + 2 ≤ left) :
    ParsesMembers Tree left first ((if first then [] else [',']) ++ gap
      ++ '"' :: (body ++ (middle ++ ':' :: (lead ++ (text ++ behind))))) where
  stop := by
    rintro rfl rest
    exact endsNumeral_cons (by simp) _
  parses := by
    intro rest offset fuel fueled
    obtain ⟨less, rfl⟩ : ∃ less, fuel = less + 2 := ⟨fuel - 2, by omega⟩
    obtain ⟨reached, step⟩ := parseMembers_separator first blank
      (body ++ (middle ++ ':' :: (lead ++ (text ++ (behind ++ rest))))) offset
    obtain ⟨keyStop, read⟩ := quoted (middle ++ ':' :: (lead ++ (text ++ (behind ++ rest))))
      (reached + ('"' : Char).utf8Size)
    obtain ⟨colon, skipped⟩ := skipSpace_gap (c := ':') between (by decide)
      (lead ++ (text ++ (behind ++ rest))) keyStop
    obtain ⟨node, mark, valued, parsed⟩ := value.parses_gap leading (later.stop rfl rest)
      (colon + (':' : Char).utf8Size) (show need ≤ less by omega)
    obtain ⟨tree, last, values, others⟩ := later.parses rest mark (show more ≤ less by omega)
    refine ⟨.member (.ok key) keyStop
      (Members.markAt ⟨middle ++ ':' :: (lead ++ (text ++ (behind ++ rest))), keyStop⟩) node tree,
      last, wanted valued values _ _, ?_⟩
    simp only [List.append_assoc, List.cons_append] at step ⊢
    rw [step, parseMember]
    simp only [takeString, Cursor.next, read, String.ofList_toList, skipped, parsed, others]

theorem parses_object (inner : ParsesMembers Tree need true text)
    (wanted : ∀ {tree}, Tree tree → ∀ start, Wanted (.object start tree)) :
    Parses Wanted (need + 1) ('{' :: text) where
  head := ⟨'{', text, rfl, by decide, by decide⟩
  parses := by
    intro rest stop offset fuel enough
    obtain ⟨less, rfl⟩ : ∃ less, fuel = less + 1 := ⟨fuel - 1, by omega⟩
    obtain ⟨tree, behind, values, parsed⟩ :=
      inner.parses rest (offset + ('{' : Char).utf8Size) (Nat.le_of_succ_le_succ enough)
    refine ⟨.object offset tree, behind, wanted values offset, ?_⟩
    rw [List.cons_append, parseNode, skipSpace_solid (by decide)]
    simp only [Cursor.next, parsed]

end Pieces

end LogCensus.Json
