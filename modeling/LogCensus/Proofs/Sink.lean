import LogCensus.Sink
import LogCensus.Proofs.Json.Text
import LogCensus.Proofs.Text.Utf8

/-!
A sink without bounds takes all octets of a plan, unless the plan holds a value without written form.
-/

namespace LogCensus

def octetsOfSteps? : List WriteStep → Option (List UInt8)
  | [] => some []
  | .write _ octets :: rest => (octetsOfSteps? rest).map (octets ++ ·)
  | .unwritable :: _ => none

/-- The plan hands on these octets, and nothing in it stops the writing. -/
def Hands (steps : List WriteStep) (octets : List UInt8) : Prop :=
  octetsOfSteps? steps = some octets

section Plans

variable {steps more : List WriteStep} {octets behind : List UInt8}

theorem hands_nil : Hands [] [] := rfl

theorem Hands.cons (hands : Hands steps octets) (medium : Medium) (front : List UInt8) :
    Hands (.write medium front :: steps) (front ++ octets) := by
  rw [Hands, octetsOfSteps?, hands]
  rfl

theorem Hands.append (hands : Hands steps octets) (later : Hands more behind) :
    Hands (steps ++ more) (octets ++ behind) := by
  induction steps generalizing octets with
  | nil =>
    cases hands
    exact later
  | cons step steps ih =>
    cases step with
    | unwritable => cases hands
    | write medium front =>
      obtain ⟨rest, handed, rfl⟩ := Option.map_eq_some_iff.1 hands
      rw [List.cons_append, List.append_assoc]
      exact (ih handed).cons medium front

theorem hands_plainText (text : String) :
    Hands [.plainText text] (Text.Utf8.encodeString text) := by
  have hands := hands_nil.cons .plain (Text.Utf8.encodeString text)
  rwa [List.append_nil] at hands

theorem hands_pieces {pieces : List Json.Piece} {text : List Char}
    (writes : Json.Writes pieces text) :
    Hands (pieces.map .ofPiece) (Text.Utf8.encode text) := by
  induction pieces generalizing text with
  | nil =>
    cases writes
    exact hands_nil
  | cons piece pieces ih =>
    cases piece with
    | stop => cases writes
    | text front =>
      obtain ⟨rest, written, rfl⟩ := Option.map_eq_some_iff.1 writes
      rw [Text.Utf8.encode_append]
      exact (ih written).cons .json (Text.Utf8.encode front)

theorem Hands.run (hands : Hands steps octets) (held : Nat) :
    Sink.unlimited.run held steps = (octets, none) := by
  induction steps generalizing octets held with
  | nil =>
    cases hands
    rfl
  | cons step steps ih =>
    cases step with
    | unwritable => cases hands
    | write medium front =>
      obtain ⟨rest, handed, rfl⟩ := Option.map_eq_some_iff.1 hands
      have taken := ih handed (held + front.length)
      simp only [Sink.unlimited] at taken
      simp only [Sink.unlimited, Sink.run, Sink.takes, if_true, taken]

theorem hands_of_run {held : Nat} (ran : Sink.unlimited.run held steps = (octets, none)) :
    Hands steps octets := by
  induction steps generalizing octets held with
  | nil =>
    obtain rfl := (Prod.mk.inj ran).1
    exact hands_nil
  | cons step steps ih =>
    cases step with
    | unwritable => cases ran
    | write medium front =>
      simp only [Sink.unlimited, Sink.run, Sink.takes, if_true, Prod.mk.injEq] at ran
      obtain ⟨rfl, fine⟩ := ran
      exact (ih (Prod.ext rfl fine)).cons medium front

variable {held capacity : Nat}

theorem Hands.run_of_room (hands : Hands steps octets) (room : held + octets.length ≤ capacity) :
    Sink.run ⟨some capacity⟩ held steps = (octets, none) := by
  induction steps generalizing octets held with
  | nil =>
    cases hands
    rfl
  | cons step steps ih =>
    cases step with
    | unwritable => cases hands
    | write medium front =>
      obtain ⟨rest, handed, rfl⟩ := Option.map_eq_some_iff.1 hands
      rw [List.length_append, ← Nat.add_assoc] at room
      have takes : Sink.takes ⟨some capacity⟩ held front.length = true := by
        simpa [Sink.takes] using Or.inr (Nat.le_of_add_right_le room)
      rw [Sink.run, if_pos takes, ih handed room]

/-- A sink that is too small for a plan takes a part from its front, as much as it holds at most. -/
theorem Hands.run_of_overflow (hands : Hands steps octets) (sound : held ≤ capacity)
    (overflow : capacity < held + octets.length) :
    ∃ taken medium, Sink.run ⟨some capacity⟩ held steps = (taken, some (.full medium)) ∧
      taken <+: octets ∧ held + taken.length ≤ capacity := by
  induction steps generalizing octets held with
  | nil =>
    cases hands
    exact absurd sound (Nat.not_le_of_lt overflow)
  | cons step steps ih =>
    cases step with
    | unwritable => cases hands
    | write medium front =>
      obtain ⟨rest, handed, rfl⟩ := Option.map_eq_some_iff.1 hands
      rw [List.length_append, ← Nat.add_assoc] at overflow
      by_cases takes : Sink.takes ⟨some capacity⟩ held front.length = true
      · have fits : held + front.length ≤ capacity := by
          simp only [Sink.takes, Bool.or_eq_true, decide_eq_true_eq] at takes
          omega
        obtain ⟨taken, later, ran, front', within⟩ := ih handed fits overflow
        refine ⟨front ++ taken, later, ?_, (List.prefix_append_right_inj front).2 front', ?_⟩
        · rw [Sink.run, if_pos takes, ran]
        · rwa [List.length_append, ← Nat.add_assoc]
      · refine ⟨[], medium, ?_, List.nil_prefix, sound⟩
        rw [Sink.run, if_neg takes]

end Plans

theorem Sink.run_append (sink : Sink) (held : Nat) (steps more : List WriteStep) :
    sink.run held (steps ++ more) =
      match sink.run held steps with
      | (taken, none) =>
        (taken ++ (sink.run (held + taken.length) more).1,
          (sink.run (held + taken.length) more).2)
      | (taken, some fault) => (taken, some fault) := by
  induction steps generalizing held with
  | nil => rfl
  | cons step steps ih =>
    cases step with
    | unwritable => rfl
    | write medium octets =>
      simp only [List.cons_append, Sink.run]
      by_cases room : sink.takes held octets.length = true
      · simp only [if_pos room, ih]
        cases shape : sink.run (held + octets.length) steps with
        | mk taken fault =>
          cases fault with
          | none => simp only [List.append_assoc, List.length_append, Nat.add_assoc]
          | some fault => rfl
      · simp only [if_neg room]

/-! ### Plans in smaller parts -/

theorem Sink.takes_parts {sink : Sink} {held first later : Nat}
    (room : sink.takes held (first + later) = true) :
    sink.takes held first = true ∧ sink.takes (held + first) later = true := by
  obtain ⟨capacity⟩ := sink
  cases capacity with
  | none => exact ⟨rfl, rfl⟩
  | some capacity =>
    simp only [takes, Bool.or_eq_true, decide_eq_true_eq] at room ⊢
    omega

theorem Sink.run_writes {sink : Sink} {held : Nat} (medium : Medium) {parts : List (List UInt8)}
    (room : sink.takes held parts.flatten.length = true) :
    sink.run held (parts.map (.write medium)) = (parts.flatten, none) := by
  induction parts generalizing held with
  | nil => rfl
  | cons part parts ih =>
    rw [List.flatten_cons, List.length_append] at room
    obtain ⟨first, later⟩ := takes_parts room
    rw [List.map_cons, Sink.run, if_pos first, ih later]
    rfl

/-- The same octets in the same order, each write cut into some consecutive ones. -/
inductive Finer : List WriteStep → List WriteStep → Prop where
  | nil : Finer [] []
  | write {plan steps : List WriteStep} (medium : Medium) (parts : List (List UInt8))
      (later : Finer plan steps) :
      Finer (parts.map (.write medium) ++ plan) (.write medium parts.flatten :: steps)
  | unwritable {plan steps : List WriteStep} (later : Finer plan steps) :
      Finer (.unwritable :: plan) (.unwritable :: steps)

theorem hands_writes (medium : Medium) (parts : List (List UInt8)) :
    Hands (parts.map (.write medium)) parts.flatten := by
  induction parts with
  | nil => exact hands_nil
  | cons part parts ih => exact ih.cons medium part

theorem Finer.hands {plan steps : List WriteStep} {octets : List UInt8} (finer : Finer plan steps)
    (hands : Hands steps octets) : Hands plan octets := by
  induction finer generalizing octets with
  | nil => exact hands
  | write medium parts _ ih =>
    obtain ⟨rest, handed, rfl⟩ := Option.map_eq_some_iff.1 hands
    exact (hands_writes medium parts).append (ih handed)
  | unwritable => cases hands

/-- A sink that is full takes no less of a plan in smaller parts. -/
theorem Finer.run_isPrefix {plan steps : List WriteStep} (finer : Finer plan steps)
    (sink : Sink) (held : Nat) : (sink.run held steps).1 <+: (sink.run held plan).1 := by
  induction finer generalizing held with
  | nil => exact List.prefix_rfl
  | unwritable => exact List.prefix_rfl
  | @write plan steps medium parts _ ih =>
    rw [Sink.run]
    split_ifs with room
    · rw [Sink.run_append, Sink.run_writes medium room]
      exact (List.prefix_append_right_inj _).2 (ih _)
    · exact List.nil_prefix

end LogCensus
