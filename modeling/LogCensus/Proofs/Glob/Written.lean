import LogCensus.Glob.Written
import LogCensus.Proofs.Glob.Match
import LogCensus.Proofs.Text.Utf8
import Mathlib.Tactic.SplitIfs

/-!
What the reader of patterns keeps. Without classes and backslashes, reading takes one of a few steps
at a time, each from a draft and some characters to the next draft; what every step keeps holds of
the finished pattern. Two things are kept: how many slashes the texts may have, and the literal text
that they start with.
-/

namespace LogCensus.Glob

open LogCensus.Path (slash)
open Text.Utf8 (encode encodeChar)

def IsPlain (text : List Char) : Prop := ∀ c ∈ text, c ≠ '[' ∧ c ≠ '\\'

instance : DecidablePred IsPlain := fun text => List.decidableBAll _ text

theorem IsPlain.behind {rest : List Char} (read : List Char) (plain : IsPlain (read ++ rest)) :
    IsPlain rest :=
  fun c member => plain c (List.mem_append_right _ member)

inductive Draft.Reads (draft : Draft) : List Char → Draft → Prop
  | one : draft.Reads ['?'] (draft.push .one)
  | many : draft.Reads ['*'] (draft.push .many)
  | stars : draft.Reads ['*', '*'] draft.pushStars
  | starsSlash : draft.Reads ['*', '*', '/'] (draft.pushStars.push (.literal '/'))
  | spanning (previous following : Option Char) (next : Draft)
      (pushed : draft.pushSpanning? previous following = some next) : draft.Reads ['*', '*'] next
  | spanningSlash (previous : Option Char) (next : Draft)
      (pushed : draft.pushSpanning? previous (some '/') = some next) :
      draft.Reads ['*', '*', '/'] next
  | openBrace : draft.Reads ['\x7b'] draft.openBrace
  | closeBrace (next : Draft) (closed : draft.closeBrace = .ok next) : draft.Reads ['\x7d'] next
  | comma : draft.Reads [','] draft.comma
  | literal (c : Char) (opening : c ≠ '\x7b') (closing : c ≠ '\x7d') :
      draft.Reads [c] (draft.push (.literal c))

/-- What holds where reading ends, and at each step if it holds behind it, holds of every text
without classes and escaped characters. -/
theorem readFrom_plain_induct {Holds : Option Char → Draft → List Char → Prop}
    (ends : ∀ previous draft, Holds previous draft [])
    (unopened : ∀ previous draft rest fault, draft.closeBrace = .error fault →
      readFrom previous draft ('\x7d' :: rest) = .error fault → Holds previous draft ('\x7d' :: rest))
    (step : ∀ previous draft read last next rest, Draft.Reads draft read next →
      readFrom previous draft (read ++ rest) = readFrom last next rest → Holds last next rest →
      Holds previous draft (read ++ rest)) :
    ∀ previous draft text, IsPlain text → Holds previous draft text := by
  refine readFrom.induct _ (fun _ _ _ => True) ?ends ?one ?spanningSlash ?starsSlash ?stars ?many
    ?negated ?caret ?plainClass ?openBrace ?closeBrace ?unopened ?comma ?dangling ?escaped ?literal
    ?_ ?_ ?_ ?_ ?_ ?_
  case ends => exact fun previous draft _ => ends previous draft
  case one =>
    intro previous draft rest ih plain
    exact step previous draft ['?'] _ _ rest .one rfl (ih (plain.behind ['?']))
  case spanningSlash =>
    intro previous draft rest next pushed ih plain
    have onward : readFrom previous draft ('*' :: '*' :: '/' :: rest) =
        readFrom (some '/') next rest := by
      rw [readFrom, pushed]
    exact step previous draft ['*', '*', '/'] _ next rest (.spanningSlash previous next pushed)
      onward (ih (plain.behind ['*', '*', '/']))
  case starsSlash =>
    intro previous draft rest pushed ih plain
    have onward : readFrom previous draft ('*' :: '*' :: '/' :: rest) =
        readFrom (some '/') (draft.pushStars.push (.literal '/')) rest := by
      rw [readFrom, pushed]
    exact step previous draft ['*', '*', '/'] _ _ rest .starsSlash onward
      (ih (plain.behind ['*', '*', '/']))
  case stars =>
    intro previous draft rest slash ih plain
    have reads : draft.Reads ['*', '*']
        ((draft.pushSpanning? previous rest.head?).getD draft.pushStars) := by
      cases pushed : draft.pushSpanning? previous rest.head? with
      | none => exact .stars
      | some next => exact .spanning previous rest.head? next pushed
    exact step previous draft ['*', '*'] _ _ rest reads (readFrom.eq_4 _ _ _ slash)
      (ih (plain.behind ['*', '*']))
  case many =>
    intro previous draft rest stars star ih plain
    have onward : readFrom previous draft ('*' :: rest) =
        readFrom (some '*') (draft.push .many) rest := by
      rw [readFrom]
      · exact stars
      · exact star
    exact step previous draft ['*'] _ _ rest .many onward (ih (plain.behind ['*']))
  case negated =>
    intro _ _ _ _ plain
    exact absurd rfl (plain '[' List.mem_cons_self).1
  case caret =>
    intro _ _ _ _ plain
    exact absurd rfl (plain '[' List.mem_cons_self).1
  case plainClass =>
    intro _ _ _ _ _ _ plain
    exact absurd rfl (plain '[' List.mem_cons_self).1
  case openBrace =>
    intro previous draft rest ih plain
    exact step previous draft ['\x7b'] _ _ rest .openBrace rfl (ih (plain.behind ['\x7b']))
  case closeBrace =>
    intro previous draft rest next closed ih plain
    have onward : readFrom previous draft ('\x7d' :: rest) =
        readFrom (some '\x7d') next rest := by
      rw [readFrom, closed]
    exact step previous draft ['\x7d'] _ next rest (.closeBrace next closed) onward
      (ih (plain.behind ['\x7d']))
  case unopened =>
    intro previous draft rest fault closed _
    exact unopened previous draft rest fault closed (by rw [readFrom, closed])
  case comma =>
    intro previous draft rest ih plain
    exact step previous draft [','] _ _ rest .comma rfl (ih (plain.behind [',']))
  case dangling =>
    intro _ _ plain
    exact absurd rfl (plain '\\' List.mem_cons_self).2
  case escaped =>
    intro _ _ _ _ _ plain
    exact absurd rfl (plain '\\' List.mem_cons_self).2
  case literal =>
    intro previous draft c rest _ _ _ _ _ _ _ _ _ _ _ _ ih plain
    have onward : readFrom previous draft (c :: rest) =
        readFrom (some c) (draft.push (.literal c)) rest := by
      rw [readFrom]
      all_goals assumption
    have reads : draft.Reads [c] (draft.push (.literal c)) := by
      refine .literal c ?_ ?_
      all_goals assumption
    exact step previous draft [c] _ _ rest reads onward (ih (plain.behind [c]))
  all_goals intros; trivial

/-- What every step keeps, of a draft and the characters that are left, holds at the end. -/
theorem readFrom_keeps (Keeps : Draft → List Char → Prop) {glob : Glob}
    (step : ∀ draft read next rest, Draft.Reads draft read next → Keeps draft (read ++ rest) →
      Keeps next rest) :
    ∀ (previous : Option Char) (draft : Draft) (text : List Char), IsPlain text →
      Keeps draft text → readFrom previous draft text = .ok glob →
      ∃ last, last.finish = .ok glob ∧ Keeps last [] := by
  refine readFrom_plain_induct ?ends ?unopened ?step
  case ends =>
    intro previous draft keeps read
    exact ⟨draft, read, keeps⟩
  case unopened =>
    intro previous draft rest fault _ failed _ read
    cases failed.symm.trans read
  case step =>
    intro previous draft read last next rest reads onward ih keeps finished
    exact ih (step draft read next rest reads keeps) (onward.symm.trans finished)

/-! ### Slashes -/

def SlashesAtMost (most : Nat) (pieces : List Piece) : Prop :=
  ∀ text, SpansInTurn pieces text → text.count slash ≤ most

namespace SlashesAtMost

variable {most more : Nat} {pieces behind : List Piece}

theorem mono (bounded : SlashesAtMost most pieces) (le : most ≤ more) : SlashesAtMost more pieces :=
  fun text spanned => Nat.le_trans (bounded text spanned) le

theorem nil : SlashesAtMost 0 [] := by
  intro text spanned
  rw [spansInTurn_nil.1 spanned]
  exact Nat.zero_le _

theorem append (one : SlashesAtMost most pieces) (other : SlashesAtMost more behind) :
    SlashesAtMost (most + more) (pieces ++ behind) := by
  intro text spanned
  obtain ⟨front, rest, first, second, rfl⟩ := spansInTurn_append.1 spanned
  rw [List.count_append]
  exact Nat.add_le_add (one front first) (other rest second)

theorem literal (c : Char) : SlashesAtMost ((encodeChar c).count slash) [.literal c] := by
  intro text spanned
  rw [spansInTurn_singleton, Piece.spans_literal] at spanned
  exact Nat.le_of_eq (congrArg _ spanned)

theorem one : SlashesAtMost 0 [.one] := by
  intro text spanned
  rw [spansInTurn_singleton, Piece.spans_one] at spanned
  obtain ⟨octet, inside, rfl⟩ := spanned
  exact Nat.le_of_eq (List.count_eq_zero.2 (by simpa [eq_comm] using inside))

theorem many : SlashesAtMost 0 [.many] := by
  intro text spanned
  rw [spansInTurn_singleton, Piece.spans_many] at spanned
  exact Nat.le_of_eq (List.count_eq_zero.2 spanned)

theorem choiceOf {branches : List (List Piece)}
    (bounded : ∀ branch ∈ branches, SlashesAtMost most branch.reverse) :
    SlashesAtMost most [Draft.choiceOf branches] := by
  intro text spanned
  rw [spansInTurn_singleton, Draft.choiceOf, Piece.spans_choice] at spanned
  rcases spanned with ⟨-, rfl⟩ | ⟨chosen, member, spanned⟩
  · exact Nat.zero_le _
  · rw [List.mem_reverse, List.mem_map] at member
    obtain ⟨branch, kept, rfl⟩ := member
    exact bounded branch (List.mem_filter.1 kept).1 text spanned

end SlashesAtMost

/-- Braces that are open have no more slashes than that, those of the pieces in front of them and of
one of the alternatives read so far counted. -/
def FramesAtMost : Nat → List Frame → Prop
  | _, [] => True
  | most, frame :: around => ∃ front inside outer, front + inside + outer ≤ most ∧
      SlashesAtMost front frame.front.reverse ∧
      (∀ branch ∈ frame.branches, SlashesAtMost inside branch.reverse) ∧ FramesAtMost outer around

namespace Draft

variable {draft next : Draft} {read : List Char} {most : Nat}

def AtMost (most : Nat) (draft : Draft) : Prop :=
  ∃ here outer, here + outer ≤ most ∧ SlashesAtMost here draft.here.reverse ∧
    FramesAtMost outer draft.around

theorem AtMost.push {own : Nat} {piece : Piece} (bounded : draft.AtMost most)
    (single : SlashesAtMost own [piece]) : (draft.push piece).AtMost (most + own) := by
  obtain ⟨here, outer, sum, inside, around⟩ := bounded
  refine ⟨here + own, outer, by omega, ?_, around⟩
  rw [Draft.push, List.reverse_cons]
  exact inside.append single

theorem AtMost.openBrace (bounded : draft.AtMost most) : draft.openBrace.AtMost most := by
  obtain ⟨here, outer, sum, inside, around⟩ := bounded
  refine ⟨0, here + outer, by omega, .nil, here, 0, outer, by omega, inside, ?_, around⟩
  exact fun _ member => absurd member List.not_mem_nil

theorem AtMost.comma (bounded : draft.AtMost most) : draft.comma.AtMost most := by
  obtain ⟨pieces, frames⟩ := draft
  cases frames with
  | nil => exact bounded.push (.literal ',')
  | cons frame frames =>
    obtain ⟨here, outer, sum, inside, front, branches, rest, split, before, each, around⟩ := bounded
    refine ⟨0, outer + here, by omega, .nil, front, branches + here, rest, by omega, before, ?_,
      around⟩
    intro branch member
    rcases List.mem_cons.1 member with rfl | member
    · exact inside.mono (by omega)
    · exact (each branch member).mono (by omega)

theorem AtMost.closeBrace (bounded : draft.AtMost most) (closed : draft.closeBrace = .ok next) :
    next.AtMost most := by
  obtain ⟨pieces, frames⟩ := draft
  cases frames with
  | nil => cases closed
  | cons frame frames =>
    obtain ⟨here, outer, sum, inside, front, branches, rest, split, before, each, around⟩ := bounded
    cases closed
    refine ⟨front + (branches + here), rest, by omega, ?_, around⟩
    rw [List.reverse_cons]
    refine before.append (.choiceOf fun branch member => ?_)
    rcases List.mem_cons.1 member with rfl | member
    · exact inside.mono (by omega)
    · exact (each branch member).mono (by omega)

/-- Each slash that is read adds one to those that a text may have, unless stars stand together. -/
theorem Reads.atMost (reads : draft.Reads read next) (single : ¬['*', '*'] <+: read)
    (bounded : draft.AtMost most) : next.AtMost (most + (encode read).count slash) := by
  cases reads with
  | one => exact bounded.push .one
  | many => exact bounded.push .many
  | stars => exact absurd (List.prefix_append ['*', '*'] []) single
  | starsSlash => exact absurd (List.prefix_append ['*', '*'] ['/']) single
  | spanning => exact absurd (List.prefix_append ['*', '*'] []) single
  | spanningSlash => exact absurd (List.prefix_append ['*', '*'] ['/']) single
  | openBrace => exact bounded.openBrace
  | closeBrace _ closed => exact bounded.closeBrace closed
  | comma => exact bounded.comma
  | literal c _ _ =>
    rw [encode, List.flatMap_singleton]
    exact bounded.push (.literal c)

end Draft

/-- Without two stars together, the texts of a pattern have no more slashes than its written form. -/
theorem slashesAtMost_of_ofText {text : List Char} {glob : Glob} (plain : IsPlain text)
    (single : ¬['*', '*'] <:+: text) (read : ofText text = .ok glob) :
    SlashesAtMost ((encode text).count slash) glob.pieces := by
  let Keeps (draft : Draft) (rest : List Char) : Prop := ¬['*', '*'] <:+: rest ∧
    ∃ most, draft.AtMost most ∧ most + (encode rest).count slash ≤ (encode text).count slash
  have step (draft : Draft) (read : List Char) (next : Draft) (rest : List Char)
      (reads : draft.Reads read next) (keeps : Keeps draft (read ++ rest)) : Keeps next rest := by
    obtain ⟨single, most, bounded, le⟩ := keeps
    have apart : ¬['*', '*'] <+: read := fun stars =>
      single (stars.isInfix.trans (List.prefix_append read rest).isInfix)
    rw [Text.Utf8.encode_append, List.count_append] at le
    exact ⟨fun inside => single (inside.trans (List.suffix_append read rest).isInfix),
      most + (encode read).count slash, reads.atMost apart bounded, by omega⟩
  have start : Keeps {} text :=
    ⟨single, 0, ⟨0, 0, Nat.le_refl _, .nil, trivial⟩, by omega⟩
  obtain ⟨⟨pieces, frames⟩, finished, -, most, ⟨here, outer, sum, inside, -⟩, le⟩ :=
    readFrom_keeps Keeps step none {} text plain start read
  cases frames with
  | nil =>
    cases finished
    exact inside.mono (by omega)
  | cons frame frames => cases finished

/-! ### The literal front -/

def Piece.IsBar (piece : Piece) : Prop :=
  piece = .literal '/' ∨ piece = .inner ∨ piece = .trailing

theorem Piece.IsBar.head {piece : Piece} {text : List UInt8} (bar : piece.IsBar)
    (spanned : piece.Spans text) : ∃ rest, text = slash :: rest := by
  rcases bar with rfl | rfl | rfl
  · exact ⟨[], Piece.spans_literal.1 spanned⟩
  · rcases Piece.spans_inner.1 spanned with rfl | ⟨front, rfl⟩
    · exact ⟨[], rfl⟩
    · exact ⟨front ++ [slash], rfl⟩
  · exact Piece.spans_trailing.1 spanned

def groundOf : List Piece → List Frame → List Piece
  | here, [] => here
  | _, frame :: around => groundOf frame.front around

namespace Draft

variable {draft next : Draft} {read : List Char}

def ground (draft : Draft) : List Piece := groundOf draft.here draft.around

theorem push_ground (draft : Draft) (piece : Piece) :
    ∃ more, (draft.push piece).ground = more ++ draft.ground := by
  obtain ⟨here, around⟩ := draft
  cases around with
  | nil => exact ⟨[piece], rfl⟩
  | cons frame around => exact ⟨[], rfl⟩

theorem spanning_ground (draft : Draft) {piece : Piece} (bar : piece.IsBar) :
    (∃ more, groundOf (Draft.spanning piece draft.here) draft.around = more ++ draft.ground) ∨
      ∃ other : Piece, other.IsBar ∧
        groundOf (Draft.spanning piece draft.here) draft.around =
          Draft.spanning other draft.ground := by
  obtain ⟨here, around⟩ := draft
  cases around with
  | nil => exact .inr ⟨piece, bar, rfl⟩
  | cons frame around => exact .inl ⟨[], rfl⟩

theorem pushSpanning?_ground {previous following : Option Char}
    (pushed : draft.pushSpanning? previous following = some next) :
    (∃ more, next.ground = more ++ draft.ground) ∨
      ∃ piece : Piece, piece.IsBar ∧ next.ground = Draft.spanning piece draft.ground := by
  unfold pushSpanning? at pushed
  simp only at pushed
  split_ifs at pushed
  · cases pushed
    exact .inl (push_ground draft .leading)
  · cases pushed
    exact spanning_ground draft (.inr (.inl rfl))
  · cases pushed
    exact spanning_ground draft (.inr (.inr rfl))

/-- A step puts pieces behind those outside of braces, or one that spans directories in place of the
newest of them. -/
theorem Reads.ground (reads : draft.Reads read next) :
    (∃ more, next.ground = more ++ draft.ground) ∨
      ∃ piece : Piece, piece.IsBar ∧ next.ground = Draft.spanning piece draft.ground := by
  cases reads with
  | one => exact .inl (push_ground draft .one)
  | many => exact .inl (push_ground draft .many)
  | stars =>
    obtain ⟨first, one⟩ := push_ground draft .many
    obtain ⟨second, two⟩ := push_ground (draft.push .many) .many
    exact .inl ⟨second ++ first, by rw [pushStars, two, one, List.append_assoc]⟩
  | starsSlash =>
    obtain ⟨first, one⟩ := push_ground draft .many
    obtain ⟨second, two⟩ := push_ground (draft.push .many) .many
    obtain ⟨third, three⟩ := push_ground draft.pushStars (.literal '/')
    exact .inl ⟨third ++ (second ++ first), by
      rw [three, pushStars, two, one, List.append_assoc, List.append_assoc]⟩
  | spanning _ _ _ pushed => exact pushSpanning?_ground pushed
  | spanningSlash _ _ pushed => exact pushSpanning?_ground pushed
  | openBrace => exact .inl ⟨[], rfl⟩
  | closeBrace _ closed =>
    obtain ⟨here, around⟩ := draft
    cases around with
    | nil => cases closed
    | cons frame around =>
      cases closed
      exact .inl (push_ground ⟨frame.front, around⟩ (choiceOf (here :: frame.branches)))
  | comma =>
    obtain ⟨here, around⟩ := draft
    cases around with
    | nil => exact .inl ⟨[.literal ','], rfl⟩
    | cons frame around => exact .inl ⟨[], rfl⟩
  | literal c _ _ => exact .inl (push_ground draft (.literal c))

end Draft

/-- Whether a piece that spans nothing but texts with a slash in front stands behind some others, in
a list with the newest first. -/
def IsBarred (front pieces : List Piece) : Prop :=
  ∃ (more : List Piece) (bar : Piece), bar.IsBar ∧ pieces = more ++ bar :: front

theorem IsBarred.behind {front pieces : List Piece} (barred : IsBarred front pieces)
    (later : List Piece) : IsBarred front (later ++ pieces) := by
  obtain ⟨more, bar, known, rfl⟩ := barred
  exact ⟨later ++ more, bar, known, (List.append_assoc ..).symm⟩

theorem IsBarred.spanning {front pieces : List Piece} {piece : Piece}
    (barred : IsBarred front pieces) (bar : piece.IsBar) :
    IsBarred front (Draft.spanning piece pieces) := by
  obtain ⟨more, old, known, rfl⟩ := barred
  cases more with
  | nil =>
    rcases known with rfl | rfl | rfl
    · exact ⟨[], piece, bar, rfl⟩
    · exact ⟨[], piece, bar, rfl⟩
    · exact ⟨[], .trailing, .inr (.inr rfl), rfl⟩
  | cons newest more =>
    have kept : ∃ other, Draft.spanning piece (newest :: more ++ old :: front) =
        other :: more ++ old :: front := by
      cases newest <;> exact ⟨_, rfl⟩
    obtain ⟨other, same⟩ := kept
    exact ⟨other :: more, old, known, same⟩

def IsLiteral (c : Char) : Prop := c ∉ ['?', '*', '[', '\x7b', '\\']

instance : DecidablePred IsLiteral := fun c =>
  inferInstanceAs (Decidable (c ∉ ['?', '*', '[', '\x7b', '\\']))

theorem readFrom_literals {front rest : List Char} {here : List Piece} {previous : Option Char}
    {glob : Glob} (literal : ∀ c ∈ front, IsLiteral c)
    (read : readFrom previous ⟨here, []⟩ (front ++ rest) = .ok glob) :
    ∃ previous, readFrom previous ⟨(front.map .literal).reverse ++ here, []⟩ rest = .ok glob := by
  induction front generalizing here previous with
  | nil => exact ⟨previous, read⟩
  | cons c front ih =>
    have own := literal c List.mem_cons_self
    simp only [IsLiteral, List.mem_cons, List.not_mem_nil, or_false, not_or] at own
    have next : readFrom (some c) ⟨.literal c :: here, []⟩ (front ++ rest) = .ok glob := by
      by_cases closing : c = '\x7d'
      · subst closing
        cases read
      · by_cases comma : c = ','
        · subst comma
          exact read
        · rw [List.cons_append, readFrom] at read
          · exact read
          all_goals grind
    obtain ⟨last, later⟩ := ih (fun c member => literal c (List.mem_cons_of_mem _ member)) next
    exact ⟨last, by simpa using later⟩

theorem pieces_of_literals {text : List Char} {glob : Glob} (literal : ∀ c ∈ text, IsLiteral c)
    (read : ofText text = .ok glob) : glob.pieces = text.map .literal := by
  obtain ⟨previous, finished⟩ := readFrom_literals literal ((List.append_nil text).symm ▸ read)
  rw [List.append_nil] at finished
  cases finished
  exact List.reverse_reverse _

theorem spans_iff_of_literals {chars : List Char} {glob : Glob}
    (literal : ∀ c ∈ chars, IsLiteral c) (read : ofText chars = .ok glob) {text : List UInt8} :
    glob.Spans text ↔ text = encode chars := by
  rw [Spans, pieces_of_literals literal read, ← List.append_nil (List.map _ _),
    spansInTurn_literals]
  simp only [spansInTurn_nil, exists_eq_left, List.append_nil]

/-- Literal characters in front of a slash stay in front of whatever is read behind them. -/
theorem spans_literal_front {front rest : List Char} {glob : Glob} {text : List UInt8}
    (literal : ∀ c ∈ front, IsLiteral c) (plain : IsPlain rest)
    (read : ofText (front ++ '/' :: rest) = .ok glob) (spanned : glob.Spans text) :
    ∃ more, text = encode front ++ slash :: more := by
  have all : ∀ c ∈ front ++ ['/'], IsLiteral c := by
    intro c member
    rcases List.mem_append.1 member with inside | last
    · exact literal c inside
    · rw [List.mem_singleton.1 last]
      decide
  rw [List.append_cons] at read
  obtain ⟨previous, later⟩ := readFrom_literals all read
  let Keeps (draft : Draft) (_ : List Char) : Prop :=
    IsBarred (front.map Piece.literal).reverse draft.ground
  have step (draft : Draft) (read : List Char) (next : Draft) (rest : List Char)
      (reads : draft.Reads read next) (barred : Keeps draft (read ++ rest)) : Keeps next rest := by
    change IsBarred _ next.ground
    rcases reads.ground with ⟨more, same⟩ | ⟨piece, bar, same⟩
    · rw [same]
      exact barred.behind more
    · rw [same]
      exact barred.spanning bar
  have start : Keeps ⟨((front ++ ['/']).map Piece.literal).reverse ++ [], []⟩ rest :=
    ⟨[], .literal '/', .inl rfl, by simp [Draft.ground, groundOf]⟩
  obtain ⟨⟨pieces, frames⟩, finished, more, bar, known, same⟩ :=
    readFrom_keeps Keeps step previous _ rest plain start later
  cases frames with
  | cons frame frames => cases finished
  | nil =>
    cases finished
    have split : pieces.reverse = front.map .literal ++ bar :: more.reverse := by
      rw [show pieces = more ++ bar :: (front.map Piece.literal).reverse from same]
      simp
    rw [Spans, split, spansInTurn_literals] at spanned
    obtain ⟨_, spanned, rfl⟩ := spanned
    obtain ⟨one, other, first, -, rfl⟩ := spansInTurn_cons.1 spanned
    obtain ⟨rest, rfl⟩ := known.head first
    exact ⟨rest ++ other, rfl⟩

end LogCensus.Glob
