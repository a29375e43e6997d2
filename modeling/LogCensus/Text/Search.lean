/-!
Finding a pattern inside a text. `cut?` splits at the first place where the pattern stands.
-/

namespace LogCensus.Text

def dropPrefix? : (pattern text : List Char) → Option (List Char)
  | [], text => some text
  | _ :: _, [] => none
  | p :: pattern, c :: text => if p = c then dropPrefix? pattern text else none

def cut? (pattern : List Char) : (text : List Char) → Option (List Char × List Char)
  | [] => (dropPrefix? pattern []).map fun after => ([], after)
  | c :: text =>
    match dropPrefix? pattern (c :: text) with
    | some after => some ([], after)
    | none => (cut? pattern text).map fun (before, after) => (c :: before, after)

theorem eq_append_of_dropPrefix? {pattern text rest : List Char}
    (found : dropPrefix? pattern text = some rest) : text = pattern ++ rest := by
  induction pattern generalizing text with
  | nil => simpa [dropPrefix?] using found
  | cons p pattern ih =>
    cases text with
    | nil => simp [dropPrefix?] at found
    | cons c text =>
      by_cases same : p = c
      · subst same
        simp only [dropPrefix?, if_true] at found
        simp [ih found]
      · simp [dropPrefix?, same] at found

theorem dropPrefix?_append (pattern rest : List Char) :
    dropPrefix? pattern (pattern ++ rest) = some rest := by
  induction pattern with
  | nil => rfl
  | cons p pattern ih => simp [dropPrefix?, ih]

theorem eq_append_of_cut? {pattern text before after : List Char}
    (found : cut? pattern text = some (before, after)) : text = before ++ pattern ++ after := by
  induction text generalizing before with
  | nil =>
    simp only [cut?, Option.map_eq_some_iff, Prod.mk.injEq] at found
    obtain ⟨rest, dropped, rfl, rfl⟩ := found
    simpa using eq_append_of_dropPrefix? dropped
  | cons c text ih =>
    simp only [cut?] at found
    split at found
    · next rest dropped =>
      cases found
      simpa using eq_append_of_dropPrefix? dropped
    · simp only [Option.map_eq_some_iff, Prod.exists, Prod.mk.injEq] at found
      obtain ⟨front, back, later, rfl, rfl⟩ := found
      simp [ih later]

end LogCensus.Text
