import LogCensus.Format.AccessLog
import LogCensus.Proofs.Failure
import LogCensus.Proofs.Format.Takers
import LogCensus.Proofs.Time.Local

/-!
Lines of access logs, put together from their parts, and the parts read back: each part ends at the
first character that it cannot hold.
-/

namespace LogCensus.Format.AccessLog

open Text (isBlank isDigit isNumeral)

/-! ### Parts of a line -/

structure Word where
  text : List Char
  nonempty : text ≠ []
  solid : ∀ c ∈ text, isBlank c = false

structure Quotable where
  text : List Char
  free : '"' ∉ text

structure LineForm where
  address : Word
  identity : Word
  user : Word
  time : Time.LocalTime
  request : Quotable
  status : List Char
  threeDigits : status.length = 3 ∧ ∀ c ∈ status, isDigit c = true
  bytes : List Char
  isBytes : bytes = ['-'] ∨ (bytes ≠ [] ∧ ∀ c ∈ bytes, isDigit c = true)
  client : Option (Quotable × Quotable)

def clientText : Option (Quotable × Quotable) → List Char
  | none => []
  | some (referer, agent) =>
    ' ' :: '"' :: (referer.text ++ '"' :: ' ' :: '"' :: (agent.text ++ ['"']))

namespace LineForm

def text (form : LineForm) : List Char :=
  form.address.text ++ ' ' :: (form.identity.text ++ ' ' :: (form.user.text ++ ' ' :: '[' ::
    (form.time.text ++ ']' :: ' ' :: '"' :: (form.request.text ++ '"' :: ' ' ::
      (form.status ++ ' ' :: (form.bytes ++ clientText form.client))))))

def line (form : LineForm) : Line where
  address := form.address.text
  user := form.user.text
  time := form.time.text
  request := form.request.text
  status := form.status
  bytes := form.bytes
  client := form.client.map fun (referer, agent) => (referer.text, agent.text)

end LineForm

/-! ### Taking them -/

variable {inside : List Char}

theorem takeWord?_text (word : Word) (rest : List Char) :
    takeWord? (word.text ++ ' ' :: rest) = some (word.text, rest) := by
  have taken : ((word.text ++ ' ' :: rest).takeWhile fun c => !isBlank c) = word.text := by
    apply Text.takeWhile_append_stop
    · intro c member
      rw [word.solid c member]
      rfl
    · intro c first
      cases first
      decide
  have some : word.text.isEmpty = false := by simp [word.nonempty]
  simp only [takeWord?, taken, List.drop_left, some]
  rfl

theorem takeUntil?_append {closing : Char} (free : closing ∉ inside) (rest : List Char) :
    takeUntil? closing (inside ++ closing :: rest) = some (inside, rest) := by
  have taken : (inside ++ closing :: rest).takeWhile (· != closing) = inside := by
    apply Text.takeWhile_append_stop
    · intro c member
      rw [bne_iff_ne]
      rintro rfl
      exact free member
    · intro c first
      cases first
      simp
  simp only [takeUntil?, taken, List.drop_left]

theorem takeQuoted?_text (quoted : Quotable) (rest : List Char) :
    takeQuoted? ('"' :: (quoted.text ++ '"' :: rest)) = some (quoted.text, rest) :=
  takeUntil?_append quoted.free rest

theorem dropPrefix?_cons (c : Char) (rest : List Char) :
    Text.dropPrefix? [c] (c :: rest) = some rest :=
  Text.dropPrefix?_append [c] rest

theorem takeBytes?_append {bytes rest : List Char}
    (isBytes : bytes = ['-'] ∨ (bytes ≠ [] ∧ ∀ c ∈ bytes, isDigit c = true))
    (stop : ∀ c ∈ rest.head?, isNumeral c = false) :
    takeBytes? (bytes ++ rest) = some (bytes, rest) := by
  rcases isBytes with rfl | ⟨nonempty, all⟩
  · rfl
  · have taken : (bytes ++ rest).takeWhile isNumeral = bytes :=
      Text.takeWhile_append_stop (fun c member => Text.isNumeral_of_isDigit c (all c member)) stop
    have some : bytes.isEmpty = false := by simp [nonempty]
    unfold takeBytes?
    split
    next more same =>
      cases bytes with
      | nil => exact absurd rfl nonempty
      | cons c bytes =>
        cases same
        cases all '-' List.mem_cons_self
    next => simp only [taken, some, List.drop_left, Bool.false_eq_true, if_false]

theorem takeClient?_text (client : Option (Quotable × Quotable)) :
    takeClient? (clientText client) =
      client.map fun (referer, agent) => (referer.text, agent.text) := by
  cases client with
  | none => rfl
  | some client =>
    obtain ⟨referer, agent⟩ := client
    simp only [clientText, takeClient?, dropPrefix?_cons, takeQuoted?_text, Option.bind_eq_bind,
      Option.bind_some, Option.map_some]

theorem ofText?_text (form : LineForm) : Line.ofText? form.text = some form.line := by
  have time : form.time.text.isEmpty = false := by
    simp [Time.LocalTime.text, Text.paddedDigits]
  have status (rest : List Char) :
      Application.takeNumerals? 3 (form.status ++ rest) = some (form.status, rest) :=
    Application.takeNumerals?_eq_some.2 ⟨⟨form.threeDigits.1, fun c member =>
      Text.isNumeral_of_isDigit c (form.threeDigits.2 c member)⟩, rfl⟩
  have stop : ∀ c ∈ (clientText form.client).head?, isNumeral c = false := by
    intro c first
    cases given : form.client with
    | none =>
      rw [given] at first
      cases first
    | some client =>
      rw [given] at first
      cases first
      decide
  simp only [LineForm.text, Line.ofText?, takeWord?_text, dropPrefix?_cons,
    takeUntil?_append form.time.closing_notMem_text, time, takeQuoted?_text, status,
    takeBytes?_append form.isBytes stop, takeClient?_text, Option.bind_eq_bind, Option.bind_some,
    Bool.false_eq_true, if_false]
  rfl

/-- A line with an offset and without a known size. -/
def sampleForm : LineForm where
  address := ⟨['h'], by decide, by simp; decide⟩
  identity := ⟨['-'], by decide, by simp; decide⟩
  user := ⟨['-'], by decide, by simp; decide⟩
  time := ⟨⟨1710538200, 0, by decide, by decide⟩, 120, by decide, by decide, by decide⟩
  request := ⟨"POST /login HTTP/2.0".toList, by decide⟩
  status := "500".toList
  threeDigits := ⟨rfl, List.all_eq_true.1 (by decide)⟩
  bytes := ['-']
  isBytes := .inl rfl
  client := none

example : sampleForm.text =
    "h - - [15/Mar/2024:23:30:00 +0200] \"POST /login HTTP/2.0\" 500 -".toList := by
  decide

end LogCensus.Format.AccessLog
