import LogCensus.Text.Blank
import Mathlib.Data.List.Infix
import Mathlib.Data.List.TakeWhile

/-!
A text without the blanks around it: what is left has no blank at either end, and a text that has
none there is left as it is.
-/

namespace LogCensus.Text

theorem trimRight_prefix (text : List Char) : trimRight text <+: text := by
  have front := List.reverse_prefix.2 (List.dropWhile_suffix isBlank (l := text.reverse))
  rwa [List.reverse_reverse] at front

theorem solid_head_trim (text : List Char) : ∀ c ∈ (trim text).head?, isBlank c = false := by
  intro c first
  obtain ⟨rest, shown⟩ := List.head?_eq_some_iff.1 first
  obtain ⟨behind, whole⟩ := trimRight_prefix (trimLeft text)
  have solid := List.head?_dropWhile_not isBlank text
  rw [show text.dropWhile isBlank = trim text ++ behind from whole.symm, shown] at solid
  simpa using solid

theorem solid_last_trim (text : List Char) : ∀ c ∈ (trim text).getLast?, isBlank c = false := by
  intro c last
  have solid := List.head?_dropWhile_not isBlank (trimLeft text).reverse
  rw [trim, trimRight, List.getLast?_reverse] at last
  rw [last] at solid
  simpa using solid

theorem trimLeft_solid {text : List Char} (solid : ∀ c ∈ text.head?, isBlank c = false) :
    trimLeft text = text := by
  cases text with
  | nil => rfl
  | cons c text => exact trimLeft_cons_solid c text (solid c rfl)

theorem trim_solid {text : List Char} (first : ∀ c ∈ text.head?, isBlank c = false)
    (last : ∀ c ∈ text.getLast?, isBlank c = false) : trim text = text := by
  have behind : text.reverse.dropWhile isBlank = text.reverse :=
    trimLeft_solid (by simpa only [List.head?_reverse] using last)
  rw [trim, trimLeft_solid first, trimRight, behind, List.reverse_reverse]

end LogCensus.Text
