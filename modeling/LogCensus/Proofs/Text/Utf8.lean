import LogCensus.Text.Utf8
import Mathlib.Tactic.Common

/-!
Decoding undoes encoding, strictly and leniently: the octets of a character take the machine from
between characters to that character and back.
-/

namespace LogCensus.Text.Utf8

theorem toNat_toUInt8 (value : Nat) (small : value < 256) : value.toUInt8.toNat = value :=
  Nat.mod_eq_of_lt small

inductive Completes : Unfinished → List UInt8 → Char → Prop where
  | last {pending : Unfinished} {octet : UInt8} {c : Char} (taken : pending.take octet = .done c) :
      Completes pending [octet] c
  | more {pending next : Unfinished} {octet : UInt8} {rest : List UInt8} {c : Char}
      (taken : pending.take octet = .more next) (later : Completes next rest c) :
      Completes pending (octet :: rest) c

theorem take_done {least greatest bits : Nat} {octet : UInt8} {c : Char}
    (low : least ≤ octet.toNat) (high : octet.toNat ≤ greatest)
    (code : bits * 0x40 + octet.toNat % 0x40 = c.toNat) :
    Unfinished.take ⟨0, least, greatest, bits⟩ octet = .done c := by
  simp only [Unfinished.take, low, high, and_self, if_true, code, Char.ofNat_toNat]

theorem take_more {owed least greatest bits : Nat} {octet : UInt8} (next : Nat)
    (low : least ≤ octet.toNat) (high : octet.toNat ≤ greatest)
    (code : bits * 0x40 + octet.toNat % 0x40 = next) :
    Unfinished.take ⟨owed + 1, least, greatest, bits⟩ octet = .more ⟨owed, 0x80, 0xBF, next⟩ := by
  simp only [Unfinished.take, low, high, and_self, if_true, code]

inductive Spells : List UInt8 → Char → Prop where
  | ascii {octet : UInt8} {c : Char} (first : lead octet = .ascii c) : Spells [octet] c
  | more {octet : UInt8} {rest : List UInt8} {pending : Unfinished} {c : Char}
      (first : lead octet = .more pending) (later : Completes pending rest c) :
      Spells (octet :: rest) c

theorem spells_one {c : Char} (small : c.toNat < 0x80) : Spells [c.toNat.toUInt8] c := by
  have octet := toNat_toUInt8 c.toNat (by omega)
  apply Spells.ascii
  simp only [lead, octet, small, if_true, Char.ofNat_toNat]

theorem spells_two {c : Char} (large : 0x80 ≤ c.toNat) (small : c.toNat < 0x800) :
    Spells [(0xC0 + c.toNat / 0x40).toUInt8, (0x80 + c.toNat % 0x40).toUInt8] c := by
  have first := toNat_toUInt8 (0xC0 + c.toNat / 0x40) (by omega)
  have second := toNat_toUInt8 (0x80 + c.toNat % 0x40) (by omega)
  have start : lead (0xC0 + c.toNat / 0x40).toUInt8 = .more ⟨0, 0x80, 0xBF, c.toNat / 0x40⟩ := by
    rw [lead, first, if_neg (by omega), if_neg (by omega), if_pos (by omega),
      Nat.add_sub_cancel_left]
  refine .more start (.last (take_done ?_ ?_ ?_))
  all_goals omega

theorem spells_three {c : Char} (large : 0x800 ≤ c.toNat) (small : c.toNat < 0x10000) :
    Spells [(0xE0 + c.toNat / 0x1000).toUInt8, (0x80 + c.toNat / 0x40 % 0x40).toUInt8,
      (0x80 + c.toNat % 0x40).toUInt8] c := by
  have first := toNat_toUInt8 (0xE0 + c.toNat / 0x1000) (by omega)
  have second := toNat_toUInt8 (0x80 + c.toNat / 0x40 % 0x40) (by omega)
  have third := toNat_toUInt8 (0x80 + c.toNat % 0x40) (by omega)
  have valid : c.toNat < 0xD800 ∨ 0xDFFF < c.toNat ∧ c.toNat < 0x110000 := c.valid
  -- the bounds on the second octet depend on the first one
  obtain ⟨least, greatest, start, low, high⟩ : ∃ least greatest,
      lead (0xE0 + c.toNat / 0x1000).toUInt8 = .more ⟨1, least, greatest, c.toNat / 0x1000⟩ ∧
        least ≤ 0x80 + c.toNat / 0x40 % 0x40 ∧ 0x80 + c.toNat / 0x40 % 0x40 ≤ greatest := by
    rw [lead, first]
    simp only [if_neg (show ¬ 0xE0 + c.toNat / 0x1000 < 0x80 by omega),
      if_neg (show ¬ 0xE0 + c.toNat / 0x1000 < 0xC2 by omega),
      if_neg (show ¬ 0xE0 + c.toNat / 0x1000 < 0xE0 by omega)]
    by_cases zero : c.toNat / 0x1000 = 0
    · exact ⟨0xA0, 0xBF, by simp [zero], by omega, by omega⟩
    · by_cases surrogates : c.toNat / 0x1000 = 0xD
      · exact ⟨0x80, 0x9F, by simp [surrogates], by omega, by omega⟩
      · refine ⟨0x80, 0xBF, ?_, by omega, by omega⟩
        rw [if_neg (by omega), if_neg (by omega), if_pos (by omega), Nat.add_sub_cancel_left]
  refine .more start (.more (take_more (c.toNat / 0x40) ?_ ?_ ?_)
    (.last (take_done ?_ ?_ ?_)))
  all_goals omega

theorem spells_four {c : Char} (large : 0x10000 ≤ c.toNat) :
    Spells [(0xF0 + c.toNat / 0x40000).toUInt8, (0x80 + c.toNat / 0x1000 % 0x40).toUInt8,
      (0x80 + c.toNat / 0x40 % 0x40).toUInt8, (0x80 + c.toNat % 0x40).toUInt8] c := by
  have valid : c.toNat < 0xD800 ∨ 0xDFFF < c.toNat ∧ c.toNat < 0x110000 := c.valid
  have first := toNat_toUInt8 (0xF0 + c.toNat / 0x40000) (by omega)
  have second := toNat_toUInt8 (0x80 + c.toNat / 0x1000 % 0x40) (by omega)
  have third := toNat_toUInt8 (0x80 + c.toNat / 0x40 % 0x40) (by omega)
  have fourth := toNat_toUInt8 (0x80 + c.toNat % 0x40) (by omega)
  obtain ⟨least, greatest, start, low, high⟩ : ∃ least greatest,
      lead (0xF0 + c.toNat / 0x40000).toUInt8 = .more ⟨2, least, greatest, c.toNat / 0x40000⟩ ∧
        least ≤ 0x80 + c.toNat / 0x1000 % 0x40 ∧ 0x80 + c.toNat / 0x1000 % 0x40 ≤ greatest := by
    rw [lead, first]
    simp only [if_neg (show ¬ 0xF0 + c.toNat / 0x40000 < 0x80 by omega),
      if_neg (show ¬ 0xF0 + c.toNat / 0x40000 < 0xC2 by omega),
      if_neg (show ¬ 0xF0 + c.toNat / 0x40000 < 0xE0 by omega),
      if_neg (show ¬ 0xF0 + c.toNat / 0x40000 = 0xE0 by omega),
      if_neg (show ¬ 0xF0 + c.toNat / 0x40000 = 0xED by omega),
      if_neg (show ¬ 0xF0 + c.toNat / 0x40000 < 0xF0 by omega)]
    by_cases zero : c.toNat / 0x40000 = 0
    · exact ⟨0x90, 0xBF, by simp [zero], by omega, by omega⟩
    · by_cases last : c.toNat / 0x40000 = 4
      · exact ⟨0x80, 0x8F, by simp [last], by omega, by omega⟩
      · refine ⟨0x80, 0xBF, ?_, by omega, by omega⟩
        rw [if_neg (by omega), if_pos (by omega), Nat.add_sub_cancel_left]
  refine .more start (.more (take_more (c.toNat / 0x1000) ?_ ?_ ?_)
    (.more (take_more (c.toNat / 0x40) ?_ ?_ ?_) (.last (take_done ?_ ?_ ?_))))
  all_goals omega

theorem spells_encodeChar (c : Char) : Spells (encodeChar c) c := by
  unfold encodeChar
  simp only
  split_ifs with one two three
  · exact spells_one one
  · exact spells_two (by omega) two
  · exact spells_three (by omega) three
  · exact spells_four (by omega)

theorem decodeFrom_completes {pending : Unfinished} {octets : List UInt8} {c : Char}
    (completes : Completes pending octets c) (rest : List UInt8) :
    decodeFrom (some pending) (octets ++ rest) = c :: decodeFrom none rest := by
  induction completes with
  | last taken => simp [decodeFrom, taken]
  | more taken _ ih => simp [decodeFrom, taken, ih]

theorem decodeStrictFrom_completes {pending : Unfinished} {octets : List UInt8} {c : Char}
    (completes : Completes pending octets c) (rest : List UInt8) :
    decodeStrictFrom (some pending) (octets ++ rest) =
      (decodeStrictFrom none rest).map (c :: ·) := by
  induction completes with
  | last taken => simp [decodeStrictFrom, taken]
  | more taken _ ih => simp [decodeStrictFrom, taken, ih]

theorem decodeFrom_encodeChar (c : Char) (rest : List UInt8) :
    decodeFrom none (encodeChar c ++ rest) = c :: decodeFrom none rest := by
  generalize spelled : encodeChar c = octets
  cases spelled ▸ spells_encodeChar c with
  | ascii first => simp [decodeFrom, first]
  | more first later => simp [decodeFrom, first, decodeFrom_completes later]

theorem decodeStrictFrom_encodeChar (c : Char) (rest : List UInt8) :
    decodeStrictFrom none (encodeChar c ++ rest) = (decodeStrictFrom none rest).map (c :: ·) := by
  generalize spelled : encodeChar c = octets
  cases spelled ▸ spells_encodeChar c with
  | ascii first => simp [decodeStrictFrom, first]
  | more first later => simp [decodeStrictFrom, first, decodeStrictFrom_completes later]

theorem decodeLossy_encode (text : List Char) : decodeLossy (encode text) = text := by
  induction text with
  | nil => rfl
  | cons c text ih =>
    rw [decodeLossy, encode, List.flatMap_cons, decodeFrom_encodeChar]
    exact congrArg (c :: ·) ih

theorem encode_injective {one other : List Char} (same : encode one = encode other) :
    one = other := by
  rw [← decodeLossy_encode one, same, decodeLossy_encode]

theorem decode?_encode (text : List Char) : decode? (encode text) = some text := by
  induction text with
  | nil => rfl
  | cons c text ih =>
    rw [decode?, encode, List.flatMap_cons, decodeStrictFrom_encodeChar]
    exact congrArg (Option.map (c :: ·)) ih

theorem encode_append (front behind : List Char) :
    encode (front ++ behind) = encode front ++ encode behind :=
  List.flatMap_append

theorem encodeString_ofList (text : List Char) : encodeString (String.ofList text) = encode text :=
  congrArg encode String.toList_ofList

theorem encodeChar_ne_nil (c : Char) : encodeChar c ≠ [] := by
  simp only [encodeChar]
  split_ifs <;> exact List.cons_ne_nil _ _

theorem of_mem_encodeChar {octet : UInt8} {c : Char} (small : octet.toNat < 0x80)
    (member : octet ∈ encodeChar c) : octet.toNat = c.toNat ∧ encodeChar c = [octet] := by
  have valid : c.toNat < 0xD800 ∨ 0xDFFF < c.toNat ∧ c.toNat < 0x110000 := c.valid
  have large (value : Nat) (low : 0x80 ≤ value) (high : value < 256)
      (same : octet = value.toUInt8) : False := by
    rw [same, toNat_toUInt8 value high] at small
    omega
  unfold encodeChar at member ⊢
  simp only at member ⊢
  split_ifs at member ⊢ with one two three
  · rw [List.mem_singleton] at member
    subst member
    exact ⟨toNat_toUInt8 _ (by omega), rfl⟩
  all_goals simp only [List.mem_cons, List.not_mem_nil, or_false] at member
  · rcases member with same | same
    all_goals exact (large _ (by omega) (by omega) same).elim
  · rcases member with same | same | same
    all_goals exact (large _ (by omega) (by omega) same).elim
  · rcases member with same | same | same | same
    all_goals exact (large _ (by omega) (by omega) same).elim

end LogCensus.Text.Utf8
