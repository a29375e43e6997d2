import LogCensus.Proofs.Text.Numeral
import LogCensus.Text.Utf8
import Mathlib.Algebra.Order.Ring.Nat
import Mathlib.Tactic.Common
import Mathlib.Tactic.Ring

/-!
Lenient decoding keeps ASCII characters in their places. An octet below 0x80 is never taken into a
character that is unfinished: it ends that one as a U+FFFD and is decoded by itself, and all other
octets give other characters only. So octets can be cut at an ASCII character before or after they
are decoded.
-/

namespace LogCensus.Text.Utf8

/-! ### One octet -/

def unfinishedText : Option Unfinished → List Char
  | none => []
  | some _ => [replacement]

/-- What an octet does between characters: what is written, and what is unfinished then. -/
def leadStep (octet : UInt8) : List Char × Option Unfinished :=
  match lead octet with
  | .ascii c => ([c], none)
  | .more pending => ([], some pending)
  | .stray => ([replacement], none)

def octetStep : Option Unfinished → UInt8 → List Char × Option Unfinished
  | none, octet => leadStep octet
  | some pending, octet =>
    match pending.take octet with
    | .done c => ([c], none)
    | .more next => ([], some next)
    | .refused => (replacement :: (leadStep octet).1, (leadStep octet).2)

theorem decodeFrom_nil (state : Option Unfinished) : decodeFrom state [] = unfinishedText state := by
  cases state with
  | none => rfl
  | some pending => rfl

theorem decodeFrom_cons (state : Option Unfinished) (octet : UInt8) (rest : List UInt8) :
    decodeFrom state (octet :: rest) =
      (octetStep state octet).1 ++ decodeFrom (octetStep state octet).2 rest := by
  have between : decodeFrom none (octet :: rest) =
      (leadStep octet).1 ++ decodeFrom (leadStep octet).2 rest := by
    cases first : lead octet with
    | ascii c => simp [decodeFrom, leadStep, first]
    | more pending => simp [decodeFrom, leadStep, first]
    | stray => simp [decodeFrom, leadStep, first]
  cases state with
  | none => exact between
  | some pending =>
    cases taken : pending.take octet with
    | done c => simp [decodeFrom, octetStep, taken]
    | more next => simp [decodeFrom, octetStep, taken]
    | refused =>
      -- the octet that ends a character begins the next one
      have again : decodeFrom (some pending) (octet :: rest) =
          replacement :: decodeFrom none (octet :: rest) := by
        simp [decodeFrom, taken]
      rw [again, between, octetStep, taken]
      rfl

/-! ### The codes that an unfinished character can come to -/

def Unfinished.lowest (pending : Unfinished) : Nat :=
  (pending.bits * 0x40 + pending.least % 0x40) * 0x40 ^ pending.owed

def Unfinished.beyond (pending : Unfinished) : Nat :=
  (pending.bits * 0x40 + pending.greatest % 0x40 + 1) * 0x40 ^ pending.owed

/-- What is owed are continuation octets, and what they come to is a character outside ASCII. -/
structure Unfinished.Wide (pending : Unfinished) : Prop where
  least : 0x80 ≤ pending.least
  greatest : pending.greatest ≤ 0xBF
  lowest : 0x80 ≤ pending.lowest
  valid : pending.beyond ≤ 0xD800 ∨ 0xE000 ≤ pending.lowest ∧ pending.beyond ≤ 0x110000

theorem lead_ascii {octet : UInt8} (ascii : octet.toNat < 0x80) :
    lead octet = .ascii (Char.ofNat octet.toNat) := by
  simp only [lead, if_pos ascii]

def Lead.Wide : Lead → Prop
  | .ascii _ => False
  | .more pending => pending.Wide
  | .stray => True

theorem wide_lead {octet : UInt8} (high : 0x80 ≤ octet.toNat) : (lead octet).Wide := by
  unfold lead
  simp only [if_neg (show ¬ octet.toNat < 0x80 by omega)]
  -- one row after the other of the table of first octets
  refine iteInduction (fun _ => trivial) fun _ => iteInduction (fun _ => ?two) fun _ =>
    iteInduction (fun _ => ?afterE0) fun _ => iteInduction (fun _ => ?afterED) fun _ =>
    iteInduction (fun _ => ?three) fun _ => iteInduction (fun _ => ?afterF0) fun _ =>
    iteInduction (fun _ => ?four) fun _ => iteInduction (fun _ => ?afterF4) fun _ => trivial
  all_goals refine Unfinished.Wide.mk ?_ ?_ ?_ ?_
  all_goals simp only [Unfinished.lowest, Unfinished.beyond]
  all_goals omega

section

variable {pending next : Unfinished} {octet : UInt8} {c : Char}

theorem Unfinished.Wide.narrowed (wide : pending.Wide)
    (taken : pending.take octet = .more next) : next.Wide := by
  obtain ⟨owed, least, greatest, bits⟩ := pending
  obtain ⟨low, high, lowest, valid⟩ := wide
  unfold Unfinished.take at taken
  simp only [Unfinished.lowest, Unfinished.beyond] at low high lowest valid taken
  split_ifs at taken with inside
  cases owed with
  | zero => cases taken
  | succ owed =>
    obtain rfl := Taken.more.inj taken
    have above : (bits * 0x40 + least % 0x40) * 0x40 ^ (owed + 1) ≤
        (bits * 0x40 + octet.toNat % 0x40) * 0x40 ^ (owed + 1) :=
      Nat.mul_le_mul_right _ (by omega)
    have below : (bits * 0x40 + octet.toNat % 0x40 + 1) * 0x40 ^ (owed + 1) ≤
        (bits * 0x40 + greatest % 0x40 + 1) * 0x40 ^ (owed + 1) :=
      Nat.mul_le_mul_right _ (by omega)
    have nextLowest : Unfinished.lowest ⟨owed, 0x80, 0xBF, bits * 0x40 + octet.toNat % 0x40⟩ =
        (bits * 0x40 + octet.toNat % 0x40) * 0x40 ^ (owed + 1) := by
      simp only [Unfinished.lowest]
      ring
    have nextBeyond : Unfinished.beyond ⟨owed, 0x80, 0xBF, bits * 0x40 + octet.toNat % 0x40⟩ =
        (bits * 0x40 + octet.toNat % 0x40 + 1) * 0x40 ^ (owed + 1) := by
      simp only [Unfinished.beyond]
      ring
    exact ⟨le_rfl, le_rfl, by omega, by omega⟩

theorem Unfinished.Wide.done (wide : pending.Wide) (taken : pending.take octet = .done c) :
    0x80 ≤ c.toNat := by
  obtain ⟨owed, least, greatest, bits⟩ := pending
  obtain ⟨low, high, lowest, valid⟩ := wide
  unfold Unfinished.take at taken
  simp only [Unfinished.lowest, Unfinished.beyond] at low high lowest valid taken
  split_ifs at taken with inside
  cases owed with
  | succ owed => cases taken
  | zero =>
    obtain rfl := Taken.done.inj taken
    have isChar : (bits * 0x40 + octet.toNat % 0x40).isValidChar := by
      unfold Nat.isValidChar
      omega
    rw [toNat_ofNat_of_valid isChar]
    omega

theorem Unfinished.Wide.refuses_ascii (wide : pending.Wide) (ascii : octet.toNat < 0x80) :
    pending.take octet = .refused := by
  have low := wide.least
  unfold Unfinished.take
  simp only
  rw [if_neg (by omega)]

end

/-! ### One octet of a text -/

/-- What is unfinished comes to no ASCII character. -/
def Sound (state : Option Unfinished) : Prop := ∀ pending ∈ state, pending.Wide

section

variable {state : Option Unfinished} {octet : UInt8} {c : Char}

theorem sound_none : Sound none := by
  intro pending member
  cases member

theorem sound_leadStep (octet : UInt8) : Sound (leadStep octet).2 := by
  intro pending member
  by_cases ascii : octet.toNat < 0x80
  · rw [leadStep, lead_ascii ascii] at member
    cases member
  · have wide := wide_lead (Nat.le_of_not_lt ascii)
    unfold leadStep at member
    split at member
    next => cases member
    next first =>
      cases member
      rw [first] at wide
      exact wide
    next => cases member

theorem sound_octetStep (sound : Sound state) (octet : UInt8) : Sound (octetStep state octet).2 := by
  cases state with
  | none => exact sound_leadStep octet
  | some pending =>
    rw [octetStep]
    split
    next => exact sound_none
    next next taken =>
      intro later member
      cases member
      exact (sound pending rfl).narrowed taken
    next => exact sound_leadStep octet

/-- An ASCII octet is decoded by itself, whatever was unfinished. -/
theorem octetStep_ascii (sound : Sound state) (ascii : octet.toNat < 0x80) :
    octetStep state octet = (unfinishedText state ++ [Char.ofNat octet.toNat], none) := by
  have alone : leadStep octet = ([Char.ofNat octet.toNat], none) := by
    rw [leadStep, lead_ascii ascii]
  cases state with
  | none => exact alone
  | some pending =>
    rw [octetStep, (sound pending rfl).refuses_ascii ascii]
    simp only [alone]
    rfl

theorem replacement_high : 0x80 ≤ replacement.toNat := by decide

theorem high_of_mem_unfinishedText (member : c ∈ unfinishedText state) : 0x80 ≤ c.toNat := by
  cases state with
  | none => cases member
  | some pending =>
    rw [List.mem_singleton.1 member]
    exact replacement_high

theorem high_of_mem_leadStep (high : 0x80 ≤ octet.toNat) (member : c ∈ (leadStep octet).1) :
    0x80 ≤ c.toNat := by
  have wide := wide_lead high
  unfold leadStep at member
  split at member
  next first =>
    rw [first] at wide
    exact wide.elim
  next => cases member
  next =>
    rw [List.mem_singleton.1 member]
    exact replacement_high

/-- All other octets give no ASCII characters. -/
theorem high_of_mem_octetStep (sound : Sound state) (high : 0x80 ≤ octet.toNat)
    (member : c ∈ (octetStep state octet).1) : 0x80 ≤ c.toNat := by
  cases state with
  | none => exact high_of_mem_leadStep high member
  | some pending =>
    rw [octetStep] at member
    split at member
    next taken =>
      rw [List.mem_singleton.1 member]
      exact (sound pending rfl).done taken
    next => cases member
    next =>
      rcases List.mem_cons.1 member with same | later
      · rw [same]
        exact replacement_high
      · exact high_of_mem_leadStep high later

/-- An octet writes something, at the latest when nothing follows it. -/
theorem octetStep_ne_nil (state : Option Unfinished) (octet : UInt8) :
    (octetStep state octet).1 ++ unfinishedText (octetStep state octet).2 ≠ [] := by
  have alone : (leadStep octet).1 ++ unfinishedText (leadStep octet).2 ≠ [] := by
    unfold leadStep
    split <;> simp [unfinishedText]
  cases state with
  | none => exact alone
  | some pending =>
    rw [octetStep]
    split <;> simp [unfinishedText]

end

/-! ### Texts -/

section

variable {state : Option Unfinished} {octet : UInt8} {octets : List UInt8} {c : Char}

theorem decodeFrom_append_ascii (sound : Sound state) (front rest : List UInt8)
    (ascii : octet.toNat < 0x80) :
    decodeFrom state (front ++ octet :: rest) =
      decodeFrom state front ++ Char.ofNat octet.toNat :: decodeFrom none rest := by
  induction front generalizing state with
  | nil =>
    rw [List.nil_append, decodeFrom_cons, octetStep_ascii sound ascii, decodeFrom_nil,
      List.append_assoc]
    rfl
  | cons first front ih =>
    rw [List.cons_append, decodeFrom_cons, decodeFrom_cons, ih (sound_octetStep sound first),
      List.append_assoc]

theorem toNat_ofNat_ascii (ascii : octet.toNat < 0x80) :
    (Char.ofNat octet.toNat).toNat = octet.toNat :=
  toNat_ofNat_of_valid (.inl (by omega))

/-- An ASCII character of the text is one of the octets. -/
theorem exists_octet_of_mem_decodeFrom (sound : Sound state) (ascii : c.toNat < 0x80)
    (member : c ∈ decodeFrom state octets) : ∃ octet ∈ octets, octet.toNat = c.toNat := by
  induction octets generalizing state with
  | nil =>
    rw [decodeFrom_nil] at member
    have high := high_of_mem_unfinishedText member
    omega
  | cons octet rest ih =>
    rw [decodeFrom_cons] at member
    rcases List.mem_append.1 member with now | later
    · by_cases low : octet.toNat < 0x80
      · rw [octetStep_ascii sound low] at now
        rcases List.mem_append.1 now with before | same
        · have high := high_of_mem_unfinishedText before
          omega
        · rw [List.mem_singleton.1 same]
          exact ⟨octet, List.mem_cons_self, (toNat_ofNat_ascii low).symm⟩
      · have high := high_of_mem_octetStep sound (by omega) now
        omega
    · obtain ⟨other, inRest, same⟩ := ih (sound_octetStep sound octet) later
      exact ⟨other, List.mem_cons_of_mem _ inRest, same⟩

/-- What is decoded last comes from the last octet. -/
theorem exists_decodeFrom_concat_high (sound : Sound state) (octets : List UInt8)
    (high : 0x80 ≤ octet.toNat) :
    ∃ front c, decodeFrom state (octets ++ [octet]) = front ++ [c] ∧ 0x80 ≤ c.toNat := by
  induction octets generalizing state with
  | nil =>
    rw [List.nil_append, decodeFrom_cons, decodeFrom_nil]
    obtain ⟨front, c, written⟩ := (List.eq_nil_or_concat _).resolve_left
      (octetStep_ne_nil state octet)
    rw [List.concat_eq_append] at written
    refine ⟨front, c, written, ?_⟩
    have member : c ∈ (octetStep state octet).1 ++ unfinishedText (octetStep state octet).2 := by
      rw [written]
      exact List.mem_append_right _ List.mem_cons_self
    rcases List.mem_append.1 member with now | later
    · exact high_of_mem_octetStep sound high now
    · exact high_of_mem_unfinishedText later
  | cons first octets ih =>
    obtain ⟨front, c, written, highLast⟩ := ih (sound_octetStep sound first)
    exact ⟨(octetStep state first).1 ++ front, c,
      by rw [List.cons_append, decodeFrom_cons, written, List.append_assoc], highLast⟩

/-- Octets may be cut at an ASCII character before they are decoded. -/
theorem decodeLossy_append_ascii (front rest : List UInt8) (ascii : octet.toNat < 0x80) :
    decodeLossy (front ++ octet :: rest) =
      decodeLossy front ++ Char.ofNat octet.toNat :: decodeLossy rest :=
  decodeFrom_append_ascii sound_none front rest ascii

/-- The last character is that of the last octet, or both lie outside ASCII. -/
theorem exists_decodeLossy_concat (octets : List UInt8) (octet : UInt8) :
    ∃ front c, decodeLossy (octets ++ [octet]) = front ++ [c] ∧
      (c.toNat = octet.toNat ∨ 0x80 ≤ c.toNat ∧ 0x80 ≤ octet.toNat) := by
  by_cases ascii : octet.toNat < 0x80
  · exact ⟨decodeLossy octets, Char.ofNat octet.toNat, decodeLossy_append_ascii octets [] ascii,
      .inl (toNat_ofNat_ascii ascii)⟩
  · have high : 0x80 ≤ octet.toNat := by omega
    obtain ⟨front, c, written, highLast⟩ := exists_decodeFrom_concat_high sound_none octets high
    exact ⟨front, c, written, .inr ⟨highLast, high⟩⟩

theorem decodeLossy_ne_nil (filled : octets ≠ []) : decodeLossy octets ≠ [] := by
  obtain ⟨before, octet, rfl⟩ := (List.eq_nil_or_concat octets).resolve_left filled
  obtain ⟨front, c, written, _⟩ := exists_decodeLossy_concat before octet
  rw [List.concat_eq_append, written]
  simp

end

end LogCensus.Text.Utf8
