import LogCensus.FileTree
import LogCensus.Proofs.Text.Utf8

/-!
Paths and their pieces. The pieces of octets are put together again by slashes, the pieces of a text
are texts, and locations are ordered as their paths are.
-/

namespace LogCensus

open Text.Utf8 (encode encodeChar)

namespace Path

variable {front octets : List UInt8}

theorem pieces_ne_nil (octets : List UInt8) : pieces octets ≠ [] := by
  cases octets with
  | nil => exact List.cons_ne_nil _ _
  | cons octet rest =>
    rw [pieces]
    split
    · exact List.cons_ne_nil _ _
    · split <;> exact List.cons_ne_nil _ _

theorem pieces_append_free (free : slash ∉ front) {octets piece : List UInt8}
    {more : List (List UInt8)} (behind : pieces octets = piece :: more) :
    pieces (front ++ octets) = (front ++ piece) :: more := by
  induction front with
  | nil => exact behind
  | cons octet front ih =>
    have apart : octet ≠ slash := fun same => free (same ▸ List.mem_cons_self)
    rw [List.cons_append, pieces, if_neg apart, ih (mt (List.mem_cons_of_mem _) free)]
    rfl

theorem pieces_append_slash (one other : List UInt8) :
    pieces (one ++ slash :: other) = pieces one ++ pieces other := by
  induction one with
  | nil => rfl
  | cons octet one ih =>
    by_cases separator : octet = slash
    · subst separator
      exact congrArg ([] :: ·) ih
    · rw [List.cons_append, pieces, if_neg separator, ih, pieces, if_neg separator]
      cases known : pieces one with
      | nil => exact absurd known (pieces_ne_nil one)
      | cons piece more => rfl

theorem mem_of_mem_pieces {piece : List UInt8} {octet : UInt8} (member : piece ∈ pieces octets)
    (inside : octet ∈ piece) : octet ∈ octets ∧ octet ≠ slash := by
  induction octets generalizing piece with
  | nil =>
    rw [List.mem_singleton.1 member] at inside
    exact absurd inside List.not_mem_nil
  | cons first rest ih =>
    by_cases separator : first = slash
    · rw [pieces, if_pos separator] at member
      rcases List.mem_cons.1 member with rfl | member
      · exact absurd inside List.not_mem_nil
      · exact (ih member inside).imp_left (List.mem_cons_of_mem _)
    · rw [pieces, if_neg separator] at member
      split at member
      next none => exact absurd none (pieces_ne_nil rest)
      next head more known =>
        rcases List.mem_cons.1 member with rfl | member
        · rcases List.mem_cons.1 inside with rfl | inside
          · exact ⟨List.mem_cons_self, separator⟩
          · exact (ih (known ▸ List.mem_cons_self) inside).imp_left (List.mem_cons_of_mem _)
        · exact (ih (known ▸ List.mem_cons_of_mem _ member) inside).imp_left
            (List.mem_cons_of_mem _)

theorem exists_mem_pieces {octet : UInt8} (member : octet ∈ octets) (apart : octet ≠ slash) :
    ∃ piece ∈ pieces octets, octet ∈ piece := by
  induction octets with
  | nil => exact absurd member List.not_mem_nil
  | cons first rest ih =>
    by_cases separator : first = slash
    · rw [pieces, if_pos separator]
      rcases List.mem_cons.1 member with rfl | member
      · exact absurd separator apart
      · obtain ⟨piece, known, inside⟩ := ih member
        exact ⟨piece, List.mem_cons_of_mem _ known, inside⟩
    · rw [pieces, if_neg separator]
      cases known : pieces rest with
      | nil => exact absurd known (pieces_ne_nil rest)
      | cons head more =>
        rcases List.mem_cons.1 member with rfl | member
        · exact ⟨octet :: head, List.mem_cons_self, List.mem_cons_self⟩
        · obtain ⟨piece, found, inside⟩ := ih member
          rw [known] at found
          rcases List.mem_cons.1 found with rfl | found
          · exact ⟨first :: piece, List.mem_cons_self, List.mem_cons_of_mem _ inside⟩
          · exact ⟨piece, List.mem_cons_of_mem _ found, inside⟩

theorem pieces_encode (text : List Char) :
    ∃ parts : List (List Char), pieces (encode text) = parts.map encode ∧
      ∀ part ∈ parts, ∀ c ∈ part, c ∈ text := by
  induction text with
  | nil => exact ⟨[[]], rfl, by simp⟩
  | cons c text ih =>
    obtain ⟨parts, same, inside⟩ := ih
    by_cases separator : c = '/'
    · subst separator
      refine ⟨[] :: parts, congrArg ([] :: ·) same, ?_⟩
      rintro part member c inner
      rcases List.mem_cons.1 member with rfl | member
      · exact absurd inner List.not_mem_nil
      · exact List.mem_cons_of_mem _ (inside part member c inner)
    · have free : slash ∉ encodeChar c := fun member =>
        separator (Char.toNat_inj.1 (Text.Utf8.of_mem_encodeChar (by decide) member).1.symm)
      cases parts with
      | nil => exact absurd same (pieces_ne_nil _)
      | cons first parts =>
        refine ⟨(c :: first) :: parts, ?_, ?_⟩
        · exact pieces_append_free free same
        · rintro part member inner known
          rcases List.mem_cons.1 member with rfl | member
          · rcases List.mem_cons.1 known with rfl | known
            · exact List.mem_cons_self
            · exact List.mem_cons_of_mem _ (inside first List.mem_cons_self _ known)
          · exact List.mem_cons_of_mem _
              (inside part (List.mem_cons_of_mem _ member) _ known)

end Path

/-! ### Names in a row -/

def Location.rooted (names : List (List UInt8)) : List UInt8 := names.flatMap (Path.slash :: ·)

namespace Location

open LogCensus.Path (slash pieces)

variable {names : List (List UInt8)} {location : Location}

theorem octets_of_ne_nil (nonempty : location ≠ []) : octets location = rooted location := by
  cases location with
  | nil => exact absurd rfl nonempty
  | cons name rest => rfl

def joined (names : List (List UInt8)) : List UInt8 := [slash].intercalate names

theorem rooted_cons (name : List UInt8) (names : List (List UInt8)) :
    rooted (name :: names) = slash :: joined (name :: names) := by
  induction names generalizing name with
  | nil => simp [rooted, joined, List.intercalate]
  | cons next names ih =>
    rw [rooted, List.flatMap_cons, ← rooted, ih next]
    simp [joined, List.intercalate]

theorem octets_eq_joined (location : Location) : octets location = slash :: joined location := by
  cases location with
  | nil => rfl
  | cons name names => exact rooted_cons name names

theorem pieces_rooted (free : ∀ name ∈ names, slash ∉ name) : pieces (rooted names) = [] :: names := by
  induction names with
  | nil => rfl
  | cons name names ih =>
    have later := ih fun name member => free name (List.mem_cons_of_mem _ member)
    have own := Path.pieces_append_free (free name List.mem_cons_self) later
    rw [List.append_nil] at own
    exact congrArg ([] :: ·) own

/-- Pieces are put together again by the slashes that parted them. -/
theorem rooted_pieces (octets : List UInt8) : rooted (pieces octets) = slash :: octets := by
  induction octets with
  | nil => rfl
  | cons octet rest ih =>
    by_cases separator : octet = slash
    · rw [pieces, if_pos separator, separator]
      exact congrArg (slash :: ·) ih
    · rw [pieces, if_neg separator]
      cases known : pieces rest with
      | nil => exact absurd known (Path.pieces_ne_nil rest)
      | cons piece more =>
        rw [known] at ih
        exact congrArg (slash :: octet :: ·) (List.cons.inj ih).2

/-- Names whose octets start with those of some other names and a slash start with those names. -/
theorem of_rooted_append {front : List (List UInt8)} {more : List UInt8}
    (freeFront : ∀ name ∈ front, slash ∉ name) (free : ∀ name ∈ names, slash ∉ name)
    (split : rooted names = rooted front ++ slash :: more) : names = front ++ pieces more := by
  have same := congrArg pieces split
  rw [Path.pieces_append_slash, pieces_rooted free, pieces_rooted freeFront, List.cons_append] at same
  exact (List.cons.inj same).2

theorem octets_inj {one other : Location} (steps : ∀ name ∈ one, name ≠ [] ∧ slash ∉ name)
    (others : ∀ name ∈ other, name ≠ [] ∧ slash ∉ name) (same : octets one = octets other) :
    one = other := by
  have parts (location : Location) (free : ∀ name ∈ location, name ≠ [] ∧ slash ∉ name) :
      (pieces (octets location)).filter (· ≠ []) = location := by
    have all : location.filter (· ≠ []) = location :=
      List.filter_eq_self.2 fun name member => decide_eq_true (free name member).1
    cases location with
    | nil => rfl
    | cons name rest =>
      rw [octets_of_ne_nil (List.cons_ne_nil _ _), pieces_rooted fun part member => (free part member).2,
        List.filter_cons_of_neg (by decide), all]
  rw [← parts one steps, same, parts other others]

theorem mem_rooted {octet : UInt8} : octet ∈ rooted names ↔
    ∃ name ∈ names, octet = slash ∨ octet ∈ name := by
  simp only [rooted, List.mem_flatMap, List.mem_cons]

theorem zero_not_mem_octets (whole : ∀ name ∈ location, 0 ∉ name) : 0 ∉ octets location := by
  cases location with
  | nil => exact fun member => absurd member (by decide)
  | cons name rest =>
    intro member
    obtain ⟨other, known, inside⟩ := mem_rooted.1 member
    exact inside.elim (by decide) (whole other known)

theorem count_slash_rooted (free : ∀ name ∈ names, slash ∉ name) :
    (rooted names).count slash = names.length := by
  induction names with
  | nil => rfl
  | cons name names ih =>
    have later := ih fun name member => free name (List.mem_cons_of_mem _ member)
    have own := List.count_eq_zero.2 (free name List.mem_cons_self)
    rw [rooted, List.flatMap_cons, List.count_append, List.count_cons_self, own]
    exact (Nat.add_comm ..).trans (congrArg (· + 1) later)

/-! ### Order -/

theorem compareOctets_eq (one other : List UInt8) : Path.compareOctets one other = compare one other := by
  induction one generalizing other with
  | nil => cases other <;> rfl
  | cons first one ih =>
    cases other with
    | nil => rfl
    | cons second other =>
      have octets : compare first second = compare first.toNat second.toNat := by
        simp only [compare, compareOfLessAndEq, UInt8.lt_iff_toNat_lt, UInt8.toNat_inj]
      rw [Path.compareOctets, ih, List.compare_cons_cons, octets]

theorem isName_iff {name : List UInt8} : FileTree.isName name = true ↔
    name ≠ [] ∧ name ≠ [Path.dot] ∧ name ≠ [Path.dot, Path.dot] ∧ slash ∉ name ∧ 0 ∉ name := by
  simp [FileTree.isName, and_assoc]

theorem componentOf?_name {name : List UInt8} (valid : FileTree.isName name = true) :
    Path.componentOf? name = some (.name name) := by
  obtain ⟨nonempty, here, up, -, -⟩ := isName_iff.1 valid
  rw [Path.componentOf?, if_neg (by simp [nonempty, here]), if_neg up]

theorem filterMap_componentOf? (valid : ∀ name ∈ names, FileTree.isName name = true) :
    names.filterMap Path.componentOf? = names.map .name := by
  induction names with
  | nil => rfl
  | cons name names ih =>
    rw [List.filterMap_cons, componentOf?_name (valid name List.mem_cons_self),
      ih fun part member => valid part (List.mem_cons_of_mem _ member)]
    rfl

theorem components_path (valid : ∀ name ∈ location, FileTree.isName name = true) :
    (path location).components = .root :: location.map .name := by
  cases location with
  | nil => rfl
  | cons name rest =>
    have absolute : (path (name :: rest)).isAbsolute = true := rfl
    have parts : pieces (path (name :: rest)).octets = [] :: name :: rest :=
      pieces_rooted fun part member => (isName_iff.1 (valid part member)).2.2.2.1
    unfold Path.components
    simp only [absolute, if_true, parts, List.filterMap_cons (a := []), Path.componentOf?, true_or,
      filterMap_componentOf? valid]

theorem order_path {one other : Location} (names : ∀ name ∈ one, FileTree.isName name = true)
    (others : ∀ name ∈ other, FileTree.isName name = true) :
    (path one).order (path other) = compare one other := by
  have each : ∀ some more : List (List UInt8),
      Path.compareComponents (some.map .name) (more.map .name) = compare some more := by
    intro some
    induction some with
    | nil =>
      intro more
      cases more <;> rfl
    | cons name some ih =>
      intro more
      cases more with
      | nil => rfl
      | cons next more =>
        rw [List.compare_cons_cons, ← ih more, ← compareOctets_eq]
        rfl
  rw [Path.order, components_path names, components_path others]
  exact each one other

end Location

end LogCensus
