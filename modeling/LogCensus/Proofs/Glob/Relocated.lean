import LogCensus.Proofs.Glob.Written

/-!
Patterns behind the path of a directory. There a pattern stands for the texts that it stands for by
itself, with the path and a slash in front. It is read alike in both places, but for a double star in
front: by itself that has no slash before it, and behind a directory it stands between slashes.
-/

namespace LogCensus.Glob

open LogCensus.Path (slash)
open Text.Utf8 (encode)

/-- What a pattern stands for that need not start at the root: a double star alone stands for
everything. -/
def Names (glob : Glob) (text : List UInt8) : Prop := glob.pieces = [.leading] ∨ glob.Spans text

inductive Relocated (front : List Piece) : Glob → Glob → Prop
  | behind (own : List Piece) (bare : .leading ∉ own) :
      Relocated front ⟨own⟩ ⟨front.reverse ++ .literal '/' :: own⟩
  | inner (own : List Piece) (more : own ≠ []) :
      Relocated front ⟨.leading :: own⟩ ⟨front.reverse ++ .inner :: own⟩
  | whole : Relocated front ⟨[.leading]⟩ ⟨front.reverse ++ [.trailing]⟩

theorem spansInTurn_slash {pieces : List Piece} {text : List UInt8} :
    SpansInTurn (.literal '/' :: pieces) (slash :: text) ↔ SpansInTurn pieces text := by
  rw [spansInTurn_cons]
  simp only [Piece.spans_literal]
  constructor
  · rintro ⟨_, rest, rfl, later, split⟩
    rw [(List.cons.inj split).2]
    exact later
  · exact fun later => ⟨[slash], text, rfl, later, rfl⟩

/-- A double star between slashes does what one in front does without the first slash. -/
theorem spansInTurn_inner {pieces : List Piece} {text : List UInt8} :
    SpansInTurn (.inner :: pieces) (slash :: text) ↔ SpansInTurn (.leading :: pieces) text := by
  rw [spansInTurn_cons, spansInTurn_cons]
  simp only [Piece.spans_inner, Piece.spans_leading]
  constructor
  · rintro ⟨_, rest, rfl | ⟨middle, rfl⟩, later, split⟩
    · exact ⟨[], rest, .inl rfl, later, (List.cons.inj split).2⟩
    · exact ⟨middle ++ [slash], rest, .inr ⟨middle, rfl⟩, later, (List.cons.inj split).2⟩
  · rintro ⟨_, rest, rfl | ⟨middle, rfl⟩, later, split⟩
    · exact ⟨[slash], rest, .inl rfl, later, congrArg (slash :: ·) split⟩
    · exact ⟨slash :: middle ++ [slash], rest, .inr ⟨middle, rfl⟩, later,
        congrArg (slash :: ·) split⟩

theorem Relocated.spans_iff {chars : List Char} {glob moved : Glob} {text : List UInt8}
    (relocated : Relocated (chars.map Piece.literal).reverse glob moved) :
    moved.Spans (encode chars ++ slash :: text) ↔ glob.Names text := by
  have behind (pieces : List Piece) :
      SpansInTurn (chars.map Piece.literal ++ pieces) (encode chars ++ slash :: text) ↔
        SpansInTurn pieces (slash :: text) := by
    rw [spansInTurn_literals]
    constructor
    · rintro ⟨rest, later, split⟩
      exact List.append_cancel_left split ▸ later
    · exact fun later => ⟨_, later, rfl⟩
  unfold Names Spans
  cases relocated with
  | behind own bare =>
    have several : own ≠ [.leading] := fun alone => bare (alone ▸ List.mem_singleton_self _)
    rw [List.reverse_reverse, behind, spansInTurn_slash]
    exact (or_iff_right several).symm
  | inner own more =>
    rw [List.reverse_reverse, behind, spansInTurn_inner]
    exact (or_iff_right fun alone => more (List.cons.inj alone).2).symm
  | whole =>
    rw [List.reverse_reverse, behind, spansInTurn_singleton, Piece.spans_trailing]
    exact iff_of_true ⟨text, rfl⟩ (.inl rfl)

/-! ### Reading side by side -/

inductive Moved (front : List Piece) : List Piece → List Piece → Prop
  | behind (own : List Piece) (bare : .leading ∉ own) :
      Moved front own (own ++ .literal '/' :: front)
  | inner (own : List Piece) : Moved front (own ++ [.leading]) (own ++ .inner :: front)

theorem Moved.cons {front own full : List Piece} (moved : Moved front own full) {piece : Piece}
    (bare : piece ≠ .leading) : Moved front (piece :: own) (piece :: full) := by
  cases moved with
  | behind own solid => exact .behind (piece :: own) (by simp [Ne.symm bare, solid])
  | inner own => exact .inner (piece :: own)

/-- The drafts of a pattern in both places, each with the character read last. -/
inductive Beside (front : List Piece) : Option Char → Draft → Option Char → Draft → Prop
  | start : Beside front none ⟨[], []⟩ (some '/') ⟨.literal '/' :: front, []⟩
  | opened : Beside front (some '/') ⟨[.leading], []⟩ (some '/') ⟨.inner :: front, []⟩
  | ground (previous : Option Char) (newest : Piece) (own full : List Piece)
      (bare : newest ≠ .leading) (moved : Moved front own full) :
      Beside front previous ⟨newest :: own, []⟩ previous ⟨newest :: full, []⟩
  | braces (previous : Option Char) (here : List Piece) (inner : List Frame)
      (own full : List Piece) (branches : List (List Piece)) (moved : Moved front own full) :
      Beside front previous ⟨here, inner ++ [⟨own, branches⟩]⟩ previous
        ⟨here, inner ++ [⟨full, branches⟩]⟩

namespace Beside

variable {front : List Piece} {previous other : Option Char} {draft next beside : Draft}

theorem moved_start (front : List Piece) : Moved front [] (.literal '/' :: front) :=
  .behind [] List.not_mem_nil

theorem moved_opened (front : List Piece) : Moved front [.leading] (.inner :: front) := .inner []

theorem push (drafts : Beside front previous draft other beside) (last : Option Char)
    {piece : Piece} (bare : piece ≠ .leading) :
    Beside front last (draft.push piece) last (beside.push piece) := by
  cases drafts with
  | start => exact .ground last piece _ _ bare (moved_start front)
  | opened => exact .ground last piece _ _ bare (moved_opened front)
  | ground _ newest own full solid moved =>
    exact .ground last piece _ _ bare (moved.cons solid)
  | braces _ here inner own full branches moved =>
    exact .braces last (piece :: here) inner own full branches moved

theorem pushStars (drafts : Beside front previous draft other beside) (last : Option Char) :
    Beside front last draft.pushStars last beside.pushStars := by
  have bare : Piece.many ≠ .leading := by rintro ⟨⟩
  exact (drafts.push last bare).push last bare

theorem openBrace (drafts : Beside front previous draft other beside) (last : Option Char) :
    Beside front last draft.openBrace last beside.openBrace := by
  cases drafts with
  | start => exact .braces last [] [] _ _ [] (moved_start front)
  | opened => exact .braces last [] [] _ _ [] (moved_opened front)
  | ground _ newest own full solid moved => exact .braces last [] [] _ _ [] (moved.cons solid)
  | braces _ here inner own full branches moved =>
    exact .braces last [] (⟨here, []⟩ :: inner) own full branches moved

theorem closeBrace (drafts : Beside front previous draft other beside) (last : Option Char)
    (closed : draft.closeBrace = .ok next) :
    ∃ later, beside.closeBrace = .ok later ∧ Beside front last next last later := by
  cases drafts with
  | start => cases closed
  | opened => cases closed
  | ground => cases closed
  | braces _ here inner own full branches moved =>
    cases inner with
    | nil =>
      cases closed
      exact ⟨_, rfl, .ground last _ _ _ (by rintro ⟨⟩) moved⟩
    | cons frame inner =>
      cases closed
      exact ⟨_, rfl, .braces last _ inner own full branches moved⟩

theorem comma (drafts : Beside front previous draft other beside) (last : Option Char) :
    Beside front last draft.comma last beside.comma := by
  have bare : Piece.literal ',' ≠ .leading := by rintro ⟨⟩
  cases drafts with
  | start => exact .ground last _ _ _ bare (moved_start front)
  | opened => exact .ground last _ _ _ bare (moved_opened front)
  | ground _ newest own full solid moved => exact .ground last _ _ _ bare (moved.cons solid)
  | braces _ here inner own full branches moved =>
    cases inner with
    | nil => exact .braces last [] [] own full (here :: branches) moved
    | cons frame inner =>
      exact .braces last [] ({ frame with branches := here :: frame.branches } :: inner) own full
        branches moved

theorem spanning {own full : List Piece} {newest piece : Piece} (solid : newest ≠ .leading)
    (bar : piece.IsBar) (moved : Moved front own full) (last : Option Char) :
    Beside front last ⟨Draft.spanning piece (newest :: own), []⟩ last
      ⟨Draft.spanning piece (newest :: full), []⟩ := by
  have bare : piece ≠ .leading := by
    rcases bar with rfl | rfl | rfl <;> rintro ⟨⟩
  cases newest with
  | leading => exact absurd rfl solid
  | trailing => exact .ground last .trailing own full solid moved
  | _ => exact .ground last piece own full bare moved

/-- Outside of braces, behind some piece. -/
theorem pushSpanning?_ground (newest : Piece) (own : List Piece) (following : Option Char) :
    Draft.pushSpanning? ⟨newest :: own, []⟩ previous following =
      if previous = some '/' then
        if following = some '/' then some ⟨Draft.spanning .inner (newest :: own), []⟩
        else if following = none then some ⟨Draft.spanning .trailing (newest :: own), []⟩
        else none
      else none := by
  simp [Draft.pushSpanning?]

/-- What is in front of braces does not count inside of them. -/
theorem pushSpanning?_braces (here : List Piece) {around : List Frame} (inside : around ≠ [])
    (following : Option Char) : Draft.pushSpanning? ⟨here, around⟩ previous following =
      (Draft.pushSpanning? ⟨here, [⟨[], []⟩]⟩ previous following).map fun next =>
        ⟨next.here, around⟩ := by
  cases around with
  | nil => exact absurd rfl inside
  | cons frame around =>
    simp only [Draft.pushSpanning?, List.isEmpty_cons, Draft.push]
    split_ifs <;> rfl

/-- A double star spans directories in both places or in neither. One that is all of the pattern
becomes one at the end behind a directory. -/
theorem pushSpanning? (drafts : Beside front previous draft other beside) (following : Option Char) :
    (draft.pushSpanning? previous following = none ∧ beside.pushSpanning? other following = none) ∨
      ∃ next later, draft.pushSpanning? previous following = some next ∧
        beside.pushSpanning? other following = some later ∧
        (following = some '/' → Beside front (some '/') next (some '/') later) ∧
        (following ≠ some '/' → Beside front (some '*') next (some '*') later ∨
          following = none ∧ next = ⟨[.leading], []⟩ ∧ later = ⟨.trailing :: front, []⟩) := by
  cases drafts with
  | start =>
    rw [pushSpanning?_ground, if_pos rfl]
    split_ifs with slashed final
    · subst slashed
      exact .inr ⟨_, _, rfl, rfl, fun _ => .opened, fun apart => absurd rfl apart⟩
    · subst final
      exact .inr ⟨_, _, rfl, rfl, nofun, fun _ => .inr ⟨rfl, rfl, rfl⟩⟩
    · refine .inl ⟨?_, rfl⟩
      simp [Draft.pushSpanning?, slashed, final]
  | opened =>
    rw [pushSpanning?_ground, pushSpanning?_ground, if_pos rfl, if_pos rfl]
    split_ifs with slashed final
    · exact .inr ⟨_, _, rfl, rfl, fun _ => .opened, fun apart => absurd slashed apart⟩
    · exact .inr ⟨_, _, rfl, rfl, fun same => absurd same slashed,
        fun _ => .inr ⟨final, rfl, rfl⟩⟩
    · exact .inl ⟨rfl, rfl⟩
  | ground _ newest own full solid moved =>
    rw [pushSpanning?_ground, pushSpanning?_ground]
    split_ifs with before slashed final
    · exact .inr ⟨_, _, rfl, rfl, fun _ => spanning solid (.inr (.inl rfl)) moved _,
        fun apart => absurd slashed apart⟩
    · exact .inr ⟨_, _, rfl, rfl, fun same => absurd same slashed,
        fun _ => .inl (spanning solid (.inr (.inr rfl)) moved _)⟩
    · exact .inl ⟨rfl, rfl⟩
    · exact .inl ⟨rfl, rfl⟩
  | braces _ here inner own full branches moved =>
    have inside (frame : Frame) : inner ++ [frame] ≠ [] :=
      List.append_ne_nil_of_right_ne_nil inner (List.cons_ne_nil _ _)
    rw [pushSpanning?_braces here (inside _), pushSpanning?_braces here (inside _)]
    cases Draft.pushSpanning? ⟨here, [⟨[], []⟩]⟩ previous following with
    | none => exact .inl ⟨rfl, rfl⟩
    | some next =>
      exact .inr ⟨_, _, rfl, rfl, fun _ => .braces _ next.here inner own full branches moved,
        fun _ => .inl (.braces _ next.here inner own full branches moved)⟩

theorem finish (drafts : Beside front previous draft other beside) {glob : Glob}
    (ends : previous ≠ some '/') (finished : draft.finish = .ok glob) :
    ∃ moved, beside.finish = .ok moved ∧ Relocated front glob moved := by
  cases drafts with
  | start =>
    cases finished
    refine ⟨_, rfl, ?_⟩
    rw [List.reverse_cons]
    exact .behind [] List.not_mem_nil
  | opened => exact absurd rfl ends
  | ground _ newest own full solid moved =>
    cases finished
    refine ⟨_, rfl, ?_⟩
    cases moved with
    | behind own bare =>
      have split : (newest :: (own ++ .literal '/' :: front)).reverse =
          front.reverse ++ .literal '/' :: (newest :: own).reverse := by simp
      rw [split]
      exact .behind _ (by simp [Ne.symm solid, bare])
    | inner own =>
      have split : (newest :: (own ++ .inner :: front)).reverse =
          front.reverse ++ .inner :: (newest :: own).reverse := by simp
      have lead : (newest :: (own ++ [.leading])).reverse = .leading :: (newest :: own).reverse := by
        simp
      rw [split, lead]
      exact .inner _ (by simp)
  | braces _ here inner own full branches moved =>
    cases inner <;> cases finished

end Beside

def EndsOpen (previous : Option Char) (text : List Char) : Prop :=
  (previous.toList ++ text).getLast? ≠ some '/'

theorem EndsOpen.behind {previous : Option Char} {last : Char} {rest : List Char}
    (read : List Char) (ends : EndsOpen previous (read ++ last :: rest)) :
    EndsOpen (some last) rest := by
  unfold EndsOpen at ends ⊢
  rw [← List.append_assoc, List.getLast?_append] at ends
  cases known : (last :: rest).getLast? with
  | none => exact absurd (List.getLast?_eq_none_iff.1 known) (List.cons_ne_nil _ _)
  | some final =>
    rw [known, Option.some_or] at ends
    rwa [Option.toList_some, List.singleton_append, known]

/-- A pattern that can be read by itself can be read behind a directory as well. -/
theorem readFrom_beside (front : List Piece) {glob : Glob} :
    ∀ (previous : Option Char) (draft : Draft) (text : List Char), IsPlain text →
      EndsOpen previous text → ∀ (other : Option Char) (beside : Draft),
        Beside front previous draft other beside → readFrom previous draft text = .ok glob →
        ∃ moved, readFrom other beside text = .ok moved ∧ Relocated front glob moved := by
  refine readFrom.induct _ (fun _ _ _ => True) ?ends ?one ?spanningSlash ?starsSlash ?stars ?many
    ?negated ?caret ?plainClass ?openBrace ?closeBrace ?unopened ?comma ?dangling ?escaped ?literal
    ?_ ?_ ?_ ?_ ?_ ?_
  case ends =>
    intro previous draft _ ends other beside drafts read
    have apart : previous ≠ some '/' := by
      rintro rfl
      exact ends rfl
    exact drafts.finish apart read
  case one =>
    intro previous draft rest ih plain ends other beside drafts read
    exact ih (plain.behind ['?']) (ends.behind []) _ _ (drafts.push _ (by rintro ⟨⟩)) read
  case spanningSlash =>
    intro previous draft rest next pushed ih plain ends other beside drafts read
    rw [readFrom, pushed] at read
    rcases drafts.pushSpanning? (some '/') with ⟨none, _⟩ | ⟨_, later, found, moved, slashed, _⟩
    · cases none.symm.trans pushed
    · cases pushed.symm.trans found
      rw [readFrom, moved]
      exact ih (plain.behind ['*', '*', '/']) (ends.behind ['*', '*']) _ _ (slashed rfl)
        read
  case starsSlash =>
    intro previous draft rest pushed ih plain ends other beside drafts read
    rw [readFrom, pushed] at read
    rcases drafts.pushSpanning? (some '/') with ⟨_, none⟩ | ⟨_, later, found, _⟩
    · rw [readFrom, none]
      exact ih (plain.behind ['*', '*', '/']) (ends.behind ['*', '*']) _ _
        ((drafts.pushStars (some '*')).push _ (by rintro ⟨⟩)) read
    · cases pushed.symm.trans found
  case stars =>
    intro previous draft rest slash ih plain ends other beside drafts read
    rw [readFrom.eq_4 _ _ _ slash] at read
    rw [readFrom.eq_4 _ _ _ slash]
    have later := ih (plain.behind ['*', '*']) (ends.behind ['*'])
    rcases drafts.pushSpanning? rest.head? with ⟨none, alike⟩ | ⟨next, moved, found, alike, _, apart⟩
    · rw [none] at read later
      rw [alike]
      exact later _ _ (drafts.pushStars _) read
    · have slashless : rest.head? ≠ some '/' := by
        intro first
        obtain ⟨more, rfl⟩ := List.head?_eq_some_iff.1 first
        exact slash more rfl
      rw [found] at read later
      rw [alike]
      rcases apart slashless with together | ⟨last, rfl, rfl⟩
      · exact later _ _ together read
      · rw [List.head?_eq_none_iff] at last
        subst last
        cases read
        have split : (Piece.trailing :: front).reverse = front.reverse ++ [.trailing] :=
          List.reverse_cons
        exact ⟨_, rfl, split ▸ .whole⟩
  case many =>
    intro previous draft rest stars star ih plain ends other beside drafts read
    rw [readFrom] at read
    · rw [readFrom]
      · exact ih (plain.behind ['*']) (ends.behind []) _ _ (drafts.push _ (by rintro ⟨⟩)) read
      · assumption
      · exact star
    · assumption
    · exact star
  case negated =>
    intro _ _ _ _ plain
    exact absurd rfl (plain '[' List.mem_cons_self).1
  case caret =>
    intro _ _ _ _ plain
    exact absurd rfl (plain '[' List.mem_cons_self).1
  case plainClass =>
    intro _ _ _ _ _ _ plain
    exact absurd rfl (plain '[' List.mem_cons_self).1
  case openBrace =>
    intro previous draft rest ih plain ends other beside drafts read
    exact ih (plain.behind ['\x7b']) (ends.behind []) _ _ (drafts.openBrace _) read
  case closeBrace =>
    intro previous draft rest next closed ih plain ends other beside drafts read
    rw [readFrom, closed] at read
    obtain ⟨later, alike, together⟩ := drafts.closeBrace (some '\x7d') closed
    rw [readFrom, alike]
    exact ih (plain.behind ['\x7d']) (ends.behind []) _ _ together read
  case unopened =>
    intro previous draft rest fault closed plain ends other beside drafts read
    rw [readFrom, closed] at read
    cases read
  case comma =>
    intro previous draft rest ih plain ends other beside drafts read
    exact ih (plain.behind [',']) (ends.behind []) _ _ (drafts.comma _) read
  case dangling =>
    intro _ _ plain
    exact absurd rfl (plain '\\' List.mem_cons_self).2
  case escaped =>
    intro _ _ _ _ _ plain
    exact absurd rfl (plain '\\' List.mem_cons_self).2
  case literal =>
    intro previous draft c rest _ _ _ _ _ _ _ _ _ _ _ _ ih plain ends other beside drafts read
    rw [readFrom] at read
    · rw [readFrom]
      · exact ih (plain.behind [c]) (ends.behind []) _ _ (drafts.push _ (by rintro ⟨⟩)) read
      all_goals assumption
    all_goals assumption
  all_goals intros; trivial

/-! ### Behind a directory -/

/-- Whether a character stands for itself in a pattern, outside of braces, and closes none. -/
def IsInert (c : Char) : Prop := IsLiteral c ∧ c ≠ '\x7d'

instance : DecidablePred IsInert := fun c =>
  inferInstanceAs (Decidable (IsLiteral c ∧ c ≠ '\x7d'))

theorem readFrom_inert {c : Char} (inert : IsInert c) (previous : Option Char) (here : List Piece)
    (rest : List Char) : readFrom previous ⟨here, []⟩ (c :: rest) =
      readFrom (some c) ⟨.literal c :: here, []⟩ rest := by
  obtain ⟨literal, closing⟩ := inert
  simp only [IsLiteral, List.mem_cons, List.not_mem_nil, or_false, not_or] at literal
  by_cases comma : c = ','
  · subst comma
    rfl
  · rw [readFrom]
    · rfl
    all_goals grind

theorem readFrom_allInert {front rest : List Char} {last : Char} (inert : ∀ c ∈ front, IsInert c)
    (closing : IsInert last) (previous : Option Char) (here : List Piece) :
    readFrom previous ⟨here, []⟩ (front ++ last :: rest) =
      readFrom (some last) ⟨.literal last :: ((front.map .literal).reverse ++ here), []⟩ rest := by
  induction front generalizing previous here with
  | nil => exact readFrom_inert closing previous here rest
  | cons c front ih =>
    rw [List.cons_append, readFrom_inert (inert c List.mem_cons_self),
      ih fun other member => inert other (List.mem_cons_of_mem _ member)]
    simp

/-- Behind the path of a directory a pattern stands for that path with a slash and a text that the
pattern stands for by itself. -/
theorem exists_relocated {front text : List Char} {glob : Glob} (inert : ∀ c ∈ front, IsInert c)
    (plain : IsPlain text) (ends : text.getLast? ≠ some '/') (read : ofText text = .ok glob) :
    ∃ moved, ofText (front ++ '/' :: text) = .ok moved ∧
      ∀ rest, moved.Spans (encode front ++ slash :: rest) ↔ glob.Names rest := by
  obtain ⟨moved, known, relocated⟩ :=
    readFrom_beside (front.map Piece.literal).reverse none {} text plain ends _ _ .start read
  refine ⟨moved, ?_, fun rest => relocated.spans_iff⟩
  have slashed : IsInert '/' := by decide
  rw [ofText, readFrom_allInert inert slashed none [], List.append_nil]
  exact known

end LogCensus.Glob
