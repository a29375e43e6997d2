import LogCensus.Proofs.Scan.Reference
import LogCensus.Proofs.Text.Lossy
import Mathlib.Data.List.DropRight

/-!
The lines of a file are the lines of its text. Octets are cut at their line feeds and each line is
decoded by itself; `list_as_text` says that the same comes of decoding the whole file and cutting
its text. So ill-formed octets, also those at the end of a line, move no line's bounds.
-/

namespace LogCensus.Line

open Text.Utf8 (decodeLossy)

/-! ### Contents by their lines -/

/-- A content is empty, or a line without an end, or a line that a line feed ends and more. -/
theorem content_induction {motive : List UInt8 → Prop} (empty : motive [])
    (unended : ∀ front, front ≠ [] → lineFeed ∉ front → motive front)
    (ended : ∀ front rest, lineFeed ∉ front → motive rest → motive (front ++ lineFeed :: rest))
    (content : List UInt8) : motive content := by
  induction size : content.length using Nat.strong_induction_on generalizing content with
  | _ size ih =>
    by_cases feeds : lineFeed ∈ content
    · obtain ⟨front, rest, rfl, clear⟩ := List.eq_append_cons_of_mem feeds
      refine ended front rest clear (ih rest.length ?_ rest rfl)
      rw [← size, List.length_append, List.length_cons]
      omega
    · by_cases nothing : content = []
      · rw [nothing]
        exact empty
      · exact unended content nothing feeds

theorem listFrom_unended {front : List UInt8} (start : List UInt8) (clear : lineFeed ∉ front)
    (filled : start ++ front ≠ []) : listFrom start front = [⟨start.reverse ++ front⟩] := by
  induction front generalizing start with
  | nil =>
    have begun : start ≠ [] := by simpa using filled
    rw [listFrom, if_neg (by simpa using begun), List.append_nil]
  | cons octet front ih =>
    rw [List.mem_cons, not_or] at clear
    rw [listFrom, if_neg (Ne.symm clear.1), ih (octet :: start) clear.2 (by simp),
      List.reverse_cons, List.append_assoc, List.singleton_append]

theorem listFrom_ended {front : List UInt8} (start rest : List UInt8)
    (clear : lineFeed ∉ front) :
    listFrom start (front ++ lineFeed :: rest) =
      ⟨start.reverse ++ (front ++ [lineFeed])⟩ :: list rest := by
  induction front generalizing start with
  | nil =>
    rw [List.nil_append, listFrom, if_pos rfl, List.reverse_cons]
    rfl
  | cons octet front ih =>
    rw [List.mem_cons, not_or] at clear
    rw [List.cons_append, listFrom, if_neg (Ne.symm clear.1), ih (octet :: start) clear.2,
      List.reverse_cons, List.append_assoc]
    rfl

theorem list_unended {front : List UInt8} (filled : front ≠ []) (clear : lineFeed ∉ front) :
    list front = [⟨front⟩] :=
  listFrom_unended [] clear filled

theorem list_ended {front : List UInt8} (rest : List UInt8) (clear : lineFeed ∉ front) :
    list (front ++ lineFeed :: rest) = ⟨front ++ [lineFeed]⟩ :: list rest :=
  listFrom_ended [] rest clear

/-! ### One line after the other -/

def next? (content : List UInt8) : Option (Line × List UInt8) :=
  if content.isEmpty then none
  else
    let front := content.takeWhile (· != lineFeed)
    match content.dropWhile (· != lineFeed) with
    | [] => some (⟨front⟩, [])
    | octet :: rest => some (⟨front ++ [octet]⟩, rest)

/-- The lines that are taken from a content until there is none. -/
inductive Drawn : List UInt8 → List Line → Prop where
  | nothing {content : List UInt8} (ended : next? content = none) : Drawn content []
  | line {content rest : List UInt8} {line : Line} {lines : List Line}
      (first : next? content = some (line, rest)) (later : Drawn rest lines) :
      Drawn content (line :: lines)

theorem ne_lineFeed {front : List UInt8} (clear : lineFeed ∉ front) :
    ∀ octet ∈ front, (octet != lineFeed) = true := by
  intro octet member
  rw [bne_iff_ne]
  rintro rfl
  exact clear member

theorem next?_unended {front : List UInt8} (filled : front ≠ []) (clear : lineFeed ∉ front) :
    next? front = some (⟨front⟩, []) := by
  have stays := ne_lineFeed clear
  rw [next?, if_neg (by simpa using filled), List.takeWhile_eq_self_iff.2 stays,
    List.dropWhile_eq_nil_iff.2 stays]

theorem next?_ended {front : List UInt8} (rest : List UInt8) (clear : lineFeed ∉ front) :
    next? (front ++ lineFeed :: rest) = some (⟨front ++ [lineFeed]⟩, rest) := by
  have stays := ne_lineFeed clear
  rw [next?, if_neg (by simp), List.takeWhile_append_of_pos stays,
    List.dropWhile_append_of_pos stays]
  simp

theorem drawn_nil_iff {lines : List Line} : Drawn [] lines ↔ lines = [] := by
  constructor
  · intro drawn
    cases drawn with
    | nothing ended => rfl
    | line first later => cases first
  · rintro rfl
    exact .nothing rfl

theorem drawn_iff_of_next? {content rest : List UInt8} {line : Line} {lines : List Line}
    (first : next? content = some (line, rest)) :
    Drawn content lines ↔ ∃ later, Drawn rest later ∧ lines = line :: later := by
  constructor
  · intro drawn
    cases drawn with
    | nothing ended =>
      rw [first] at ended
      cases ended
    | line other later =>
      rw [first] at other
      cases other
      exact ⟨_, later, rfl⟩
  · rintro ⟨later, drawn, rfl⟩
    exact .line first drawn

/-- Taking line after line comes to an end, with the lines of the content. -/
theorem drawn_iff {content : List UInt8} {lines : List Line} :
    Drawn content lines ↔ lines = list content := by
  induction content using content_induction generalizing lines with
  | empty => exact drawn_nil_iff
  | unended front filled clear =>
    rw [drawn_iff_of_next? (next?_unended filled clear), list_unended filled clear]
    simp [drawn_nil_iff]
  | ended front rest clear ih =>
    rw [drawn_iff_of_next? (next?_ended rest clear), list_ended rest clear]
    simp [ih]

/-! ### Their number -/

theorem length_list (content : List UInt8) :
    (list content).length = content.count lineFeed +
      if content = [] ∨ content.getLast? = some lineFeed then 0 else 1 := by
  induction content using content_induction with
  | empty => rfl
  | unended front filled clear =>
    have last : front.getLast? ≠ some lineFeed := fun same =>
      clear (List.mem_of_getLast? same)
    rw [list_unended filled clear, List.count_eq_zero.2 clear, if_neg (by simp [filled, last])]
    rfl
  | ended front rest clear ih =>
    have same : (front ++ lineFeed :: rest = [] ∨
        (front ++ lineFeed :: rest).getLast? = some lineFeed) ↔
          (rest = [] ∨ rest.getLast? = some lineFeed) := by
      cases rest with
      | nil => simp
      | cons octet rest => simp [List.getLast?_append]
    rw [list_ended rest clear, List.length_cons, ih, List.count_append, List.count_cons_self,
      List.count_eq_zero.2 clear, if_congr same rfl rfl]
    omega

/-! ### Their texts -/

/-- The lines of a text. Behind a line feed that is the last character there is none. -/
def linesOfText (text : List Char) : List (List Char) :=
  let pieces := text.splitOn '\n'
  if pieces.getLast? = some [] then pieces.dropLast else pieces

def withoutReturns (text : List Char) : List Char := text.rdropWhile (· == '\r')

theorem linesOfText_unended {text : List Char} (filled : text ≠ []) (clear : '\n' ∉ text) :
    linesOfText text = [text] := by
  rw [linesOfText, List.splitOn_eq_singleton clear]
  exact if_neg (by simpa using filled)

theorem linesOfText_ended {front : List Char} (rest : List Char) (clear : '\n' ∉ front) :
    linesOfText (front ++ '\n' :: rest) = front :: linesOfText rest := by
  have more : rest.splitOn '\n' ≠ [] := List.splitOn_ne_nil '\n' rest
  simp only [linesOfText, List.splitOn_append_cons_self_of_not_mem clear,
    List.getLast?_cons_of_ne_nil more, List.dropLast_cons_of_ne_nil more]
  split <;> rfl

theorem isEnd_iff {octet : UInt8} (inside : octet ≠ lineFeed) :
    isEnd octet = true ↔ octet = carriageReturn := by
  simp [isEnd, inside]

/-- Without a line feed the same is left of octets and of their text. -/
theorem decodeLossy_withoutEnd {front : List UInt8} (clear : lineFeed ∉ front) :
    decodeLossy (front.rdropWhile isEnd) = withoutReturns (decodeLossy front) := by
  -- from the last octet on, as the ends are taken away
  induction front using List.reverseRecOn with
  | nil => rfl
  | append_singleton front octet ih =>
    rw [List.mem_append, not_or, List.mem_singleton] at clear
    by_cases last : octet = carriageReturn
    · have cut : decodeLossy (front ++ [octet]) = decodeLossy front ++ ['\r'] := by
        rw [last]
        exact Text.Utf8.decodeLossy_append_ascii front [] (by decide)
      rw [List.rdropWhile_concat_pos isEnd front octet ((isEnd_iff (Ne.symm clear.2)).2 last),
        ih clear.1, cut, withoutReturns, withoutReturns, List.rdropWhile_concat_pos _ _ _ rfl]
    · obtain ⟨before, c, cut, origin⟩ := Text.Utf8.exists_decodeLossy_concat front octet
      have other : c ≠ '\r' := by
        rintro rfl
        have same : octet.toNat = carriageReturn.toNat := by
          rcases origin with same | ⟨high, _⟩
          · exact same.symm
          · exact absurd high (by decide)
        exact last (UInt8.toNat_inj.1 same)
      have stays : ¬ isEnd octet = true := by
        rw [isEnd_iff (Ne.symm clear.2)]
        exact last
      rw [List.rdropWhile_concat_neg isEnd front octet stays, cut, withoutReturns,
        List.rdropWhile_concat_neg _ _ _ (by simpa using other)]

theorem text_unended {front : List UInt8} (clear : lineFeed ∉ front) :
    text ⟨front⟩ = String.ofList (withoutReturns (decodeLossy front)) :=
  congrArg String.ofList (decodeLossy_withoutEnd clear)

theorem text_ended {front : List UInt8} (clear : lineFeed ∉ front) :
    text ⟨front ++ [lineFeed]⟩ = String.ofList (withoutReturns (decodeLossy front)) := by
  have whole : body ⟨front ++ [lineFeed]⟩ = front.rdropWhile isEnd :=
    List.rdropWhile_concat_pos isEnd front lineFeed rfl
  rw [text, whole, decodeLossy_withoutEnd clear]

theorem lineFeed_not_mem_decodeLossy {front : List UInt8} (clear : lineFeed ∉ front) :
    '\n' ∉ decodeLossy front := by
  intro member
  obtain ⟨octet, inside, same⟩ :=
    Text.Utf8.exists_octet_of_mem_decodeFrom Text.Utf8.sound_none (by decide) member
  obtain rfl : octet = lineFeed := UInt8.toNat_inj.1 same
  exact clear inside

theorem map_text_list (content : List UInt8) :
    (list content).map text =
      (linesOfText (decodeLossy content)).map fun line => String.ofList (withoutReturns line) := by
  induction content using content_induction with
  | empty => rfl
  | unended front filled clear =>
    have written : decodeLossy front ≠ [] := Text.Utf8.decodeLossy_ne_nil filled
    rw [list_unended filled clear,
      linesOfText_unended written (lineFeed_not_mem_decodeLossy clear), List.map_singleton,
      List.map_singleton, text_unended clear]
  | ended front rest clear ih =>
    have cut : decodeLossy (front ++ lineFeed :: rest) =
        decodeLossy front ++ '\n' :: decodeLossy rest :=
      Text.Utf8.decodeLossy_append_ascii front rest (by decide)
    rw [list_ended rest clear, cut,
      linesOfText_ended _ (lineFeed_not_mem_decodeLossy clear), List.map_cons, List.map_cons,
      text_ended clear, ih]

/-- Lines taken one after the other are all lines of a file. They hold all its octets, a line feed
ends each of them but a last one, and they read as the lines of the file's text do. -/
theorem list_as_text (content : List UInt8) :
    (∀ lines, Drawn content lines ↔ lines = list content) ∧
      (list content).flatMap octets = content ∧
      ((list content).map fun line => line.octets.length).sum = content.length ∧
      (list content).length = content.count lineFeed +
        (if content = [] ∨ content.getLast? = some lineFeed then 0 else 1) ∧
      (list content).map text =
        (linesOfText (decodeLossy content)).map fun line => String.ofList (withoutReturns line) := by
  have joined : (list content).flatMap octets = content := Scan.octets_listFrom [] content
  have sizes : ((list content).map fun line => line.octets.length).sum = content.length := by
    rw [← List.length_flatMap, joined]
  exact ⟨fun lines => drawn_iff, joined, sizes, length_list content, map_text_list content⟩

/-- A character that a line feed cuts off does not go on behind it. -/
example : (list [0x6F, 0x6B, 0xE2, 0x82, 0x0D, 0x0A, 0xAC]).map text = ["ok\uFFFD", "\uFFFD"] := by
  decide +kernel

end LogCensus.Line
