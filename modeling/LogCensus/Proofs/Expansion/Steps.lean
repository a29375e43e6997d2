import LogCensus.Expansion
import LogCensus.Proofs.FileTree
import LogCensus.Proofs.Glob.Written

/-!
The steps of a pattern from the root on. They are texts like the pattern, the steps together are what
the pattern is read from, and wildcards and stars that stand together are found in the steps one by
one.
-/

namespace LogCensus.Expansion

open LogCensus.Path (slash pieces dot)
open Location (rooted octets)
open Text.Utf8 (encode encodeChar)
open FileSystem (IsStep)

/-! ### Stars that stand together -/

theorem hasDoubleStar_slash (rest : List UInt8) : hasDoubleStar (slash :: rest) = hasDoubleStar rest := by
  cases rest <;> rfl

theorem hasDoubleStar_append_slash (one other : List UInt8) :
    hasDoubleStar (one ++ slash :: other) = (hasDoubleStar one || hasDoubleStar other) := by
  induction one with
  | nil => exact hasDoubleStar_slash other
  | cons first one ih =>
    cases one with
    | nil =>
      change ((first == 42 && slash == 42) || hasDoubleStar (slash :: other)) = hasDoubleStar other
      rw [hasDoubleStar_slash, show (slash == 42) = false from rfl, Bool.and_false, Bool.false_or]
    | cons second one =>
      rw [List.cons_append, List.cons_append, hasDoubleStar, ← List.cons_append, ih, hasDoubleStar,
        Bool.or_assoc]

theorem hasDoubleStar_rooted (steps : List (List UInt8)) :
    hasDoubleStar (rooted steps) = steps.any hasDoubleStar := by
  induction steps with
  | nil => rfl
  | cons step steps ih =>
    rw [rooted, List.flatMap_cons, List.cons_append, hasDoubleStar_slash, List.any_cons, ← ih]
    cases steps with
    | nil =>
      rw [rooted, List.flatMap_nil, List.append_nil]
      exact (Bool.or_false _).symm
    | cons next steps =>
      rw [rooted, List.flatMap_cons, List.cons_append, hasDoubleStar_append_slash,
        hasDoubleStar_slash]

theorem hasDoubleStar_of_infix {text : List Char} (stars : ['*', '*'] <:+: text) :
    hasDoubleStar (encode text) = true := by
  obtain ⟨front, behind, rfl⟩ := stars
  rw [Text.Utf8.encode_append, Text.Utf8.encode_append]
  generalize encode front = octets
  induction octets with
  | nil => rfl
  | cons octet octets ih =>
    rw [List.cons_append, List.cons_append]
    cases known : octets ++ encode ['*', '*'] ++ encode behind with
    | nil => exact absurd known (by simp [encode, encodeChar])
    | cons next rest =>
      rw [known] at ih
      rw [hasDoubleStar, ih, Bool.or_true]

theorem hasWildcard_of_hasDoubleStar {octets : List UInt8} (stars : hasDoubleStar octets = true) :
    hasWildcard octets = true := by
  induction octets with
  | nil => cases stars
  | cons first octets ih =>
    cases octets with
    | nil => cases stars
    | cons second octets =>
      rw [hasDoubleStar, Bool.or_eq_true, Bool.and_eq_true, beq_iff_eq] at stars
      rw [hasWildcard, List.any_cons, Bool.or_eq_true]
      rcases stars with ⟨rfl, -⟩ | later
      · exact .inl rfl
      · exact .inr (ih later)

/-- Where the number of steps behind the literal front counts, no step has stars that stand
together. -/
theorem of_depth_eq_some {steps : List (List UInt8)} {most : Nat} (bounded : depth steps = some most) :
    steps.any hasDoubleStar = false ∧ (literalFront steps).length + most = steps.length := by
  unfold depth at bounded
  dsimp only at bounded
  split_ifs at bounded with stars
  cases bounded
  have split := List.takeWhile_append_dropWhile (p := fun step => !hasWildcard step) (l := steps)
  have front : (literalFront steps).any hasDoubleStar = false := by
    rw [List.any_eq_false]
    intro step member double
    have literal := List.all_eq_true.1 List.all_takeWhile step member
    rw [hasWildcard_of_hasDoubleStar double] at literal
    cases literal
  constructor
  · rw [← split, List.any_append, Bool.or_eq_false_iff]
    exact ⟨front, Bool.eq_false_iff.2 stars⟩
  · rw [literalFront, ← List.length_append, split]

/-! ### Steps as texts -/

/-- A pattern from the root on, of literal text, stars, question marks and braces, without steps
that lead up. -/
structure Descends (pattern : List Char) : Prop where
  absolute : pattern.head? = some '/'
  plain : Glob.IsPlain pattern
  straight : [dot, dot] ∉ pieces (encode pattern)

def written (parts : List (List Char)) : List Char :=
  if parts = [] then ['/'] else parts.flatMap ('/' :: ·)

theorem encode_flatMap (parts : List (List Char)) :
    encode (parts.flatMap ('/' :: ·)) = rooted (parts.map encode) := by
  induction parts with
  | nil => rfl
  | cons part parts ih =>
    rw [List.flatMap_cons, Text.Utf8.encode_append, ih, List.map_cons, rooted, rooted,
      List.flatMap_cons]
    rfl

theorem encode_written (parts : List (List Char)) :
    encode (written parts) = octets (parts.map encode) := by
  cases parts with
  | nil => rfl
  | cons part parts =>
    rw [written, if_neg (List.cons_ne_nil _ _), encode_flatMap]
    rfl

structure LeadDown (parts : List (List Char)) : Prop where
  steps : ∀ part ∈ parts, IsStep (encode part)
  plain : ∀ part ∈ parts, Glob.IsPlain part

namespace LeadDown

variable {parts : List (List Char)}

theorem front {rest : List (List Char)} (down : LeadDown (parts ++ rest)) : LeadDown parts :=
  ⟨fun part member => down.steps part (List.mem_append_left _ member),
    fun part member => down.plain part (List.mem_append_left _ member)⟩

theorem isStep (down : LeadDown parts) : ∀ name ∈ parts.map encode, IsStep name :=
  List.forall_mem_map.2 down.steps

theorem free (down : LeadDown parts) : ∀ name ∈ parts.map encode, slash ∉ name :=
  fun name member => (down.isStep name member).2.2.2

theorem isPlain_written (down : LeadDown parts) : Glob.IsPlain (written parts) := by
  intro c member
  unfold written at member
  split_ifs at member
  · rw [List.mem_singleton.1 member]
    decide
  · obtain ⟨part, known, inside⟩ := List.mem_flatMap.1 member
    rcases List.mem_cons.1 inside with rfl | inside
    · decide
    · exact down.plain part known c inside

end LeadDown

def ownSteps (octets : List UInt8) : List (List UInt8) :=
  (pieces octets).filter fun piece => piece != [] && piece != [dot]

theorem steps_eq {pattern : List Char} (descends : Descends pattern) (current : Location) :
    steps current (encode pattern) = ownSteps (encode pattern) := by
  have head : (encode pattern).head? = some slash := by
    have absolute := descends.absolute
    cases pattern with
    | nil => cases absolute
    | cons c pattern =>
      cases absolute
      rfl
  rw [steps, if_pos head, ownSteps]

/-- The steps of a pattern that does not lead up are texts. -/
theorem exists_ownSteps {pattern : List Char} (plain : Glob.IsPlain pattern)
    (straight : [dot, dot] ∉ pieces (encode pattern)) :
    ∃ parts, ownSteps (encode pattern) = parts.map encode ∧ LeadDown parts := by
  obtain ⟨parts, same, inside⟩ := Path.pieces_encode pattern
  refine ⟨parts.filter ((fun piece => piece != [] && piece != [dot]) ∘ encode), ?_, ?_, ?_⟩
  · rw [ownSteps, same, List.filter_map]
  · intro part member
    obtain ⟨known, kept⟩ := List.mem_filter.1 member
    have piece : encode part ∈ pieces (encode pattern) := same ▸ List.mem_map_of_mem known
    simp only [Function.comp_apply, Bool.and_eq_true, bne_iff_ne] at kept
    exact ⟨kept.1, kept.2, fun up => straight (up ▸ piece),
      fun member => (Path.mem_of_mem_pieces piece member).2 rfl⟩
  · intro part member c known
    exact plain c (inside part (List.mem_filter.1 member).1 c known)

/-- The steps of a pattern from the root on are texts that lead down. -/
theorem steps_of_descends {pattern : List Char} (descends : Descends pattern) (current : Location) :
    ∃ parts, steps current (encode pattern) = parts.map encode ∧ LeadDown parts := by
  rw [steps_eq descends]
  exact exists_ownSteps descends.plain descends.straight

/-- Some step has a wildcard if the pattern has. -/
theorem any_hasWildcard_ownSteps (octets : List UInt8) :
    (ownSteps octets).any hasWildcard = hasWildcard octets := by
  rw [Bool.eq_iff_iff]
  simp only [ownSteps, hasWildcard, List.any_eq_true, List.mem_filter]
  constructor
  · rintro ⟨piece, ⟨known, -⟩, octet, member, wild⟩
    exact ⟨octet, (Path.mem_of_mem_pieces known member).1, wild⟩
  · rintro ⟨octet, member, wild⟩
    have apart : octet ≠ slash := fun same => absurd wild (same ▸ by decide)
    obtain ⟨piece, known, inside⟩ := Path.exists_mem_pieces member apart
    refine ⟨piece, ⟨known, ?_⟩, octet, inside, wild⟩
    rw [Bool.and_eq_true, bne_iff_ne, bne_iff_ne]
    constructor
    · rintro rfl
      exact absurd inside List.not_mem_nil
    · rintro rfl
      rw [List.mem_singleton.1 inside] at wild
      exact absurd wild (by decide)

/-! ### Literal steps -/

theorem isLiteral_of_mem {part : List Char} (plain : Glob.IsPlain part)
    (literal : hasWildcard (encode part) = false) {c : Char} (member : c ∈ part) :
    Glob.IsLiteral c := by
  have octets (octet : UInt8) (inside : octet ∈ encodeChar c) : wildcards.contains octet = false :=
    Bool.eq_false_iff.2 fun wild => Bool.eq_false_iff.1 literal
      (List.any_eq_true.2 ⟨octet, List.mem_flatMap.2 ⟨c, member, inside⟩, wild⟩)
  obtain ⟨bracket, escape⟩ := plain c member
  intro special
  simp only [List.mem_cons, List.not_mem_nil, or_false] at special
  rcases special with rfl | rfl | rfl | rfl | rfl
  · exact absurd (octets 63 (by decide)) (by decide)
  · exact absurd (octets 42 (by decide)) (by decide)
  · exact bracket rfl
  · exact absurd (octets 123 (by decide)) (by decide)
  · exact escape rfl

theorem isLiteral_of_mem_flatMap {parts : List (List Char)} (down : LeadDown parts)
    (literal : ∀ part ∈ parts, hasWildcard (encode part) = false) :
    ∀ c ∈ parts.flatMap ('/' :: ·), Glob.IsLiteral c := by
  intro c member
  obtain ⟨part, known, inside⟩ := List.mem_flatMap.1 member
  rcases List.mem_cons.1 inside with rfl | inside
  · decide
  · exact isLiteral_of_mem (down.plain part known) (literal part known) inside

end LogCensus.Expansion
