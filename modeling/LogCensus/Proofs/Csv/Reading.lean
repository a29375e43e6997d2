import LogCensus.Csv.Reader
import Mathlib.Tactic.Common

/-!
A reader of tables undoes the writing of records, whatever octets their fields hold. Octets are taken
one at a time; within a field only its octets are gathered, and a comma or a line feed behind a field
ends it wherever the field has left the reader.
-/

namespace LogCensus.Csv

/-! ### Single octets -/

def isSafe (octet : UInt8) : Bool := !needsQuotes [octet]

theorem isSafe_iff {octet : UInt8} : isSafe octet = true ↔
    octet ≠ comma ∧ octet ≠ quote ∧ octet ≠ lineFeed ∧ octet ≠ carriageReturn := by
  simp [isSafe, needsQuotes, and_assoc]

theorem needsQuotes_eq_false {field : List UInt8} :
    needsQuotes field = false ↔ ∀ octet ∈ field, isSafe octet = true := by
  simp [needsQuotes, isSafe]

namespace Reader

variable {reader : Reader}

theorem readPlain_of_isSafe (reader : Reader) {octet : UInt8} (safe : isSafe octet = true) :
    reader.readPlain octet = none := by
  obtain ⟨comma, -, feed, carriage⟩ := isSafe_iff.1 safe
  rw [readPlain, if_neg comma, if_neg feed, if_neg carriage]

theorem read?_of_isSafe {octet : UInt8} (safe : isSafe octet = true)
    (place : reader.place = .front ∨ reader.place = .bare) :
    reader.read? octet = some (reader.push octet .bare) := by
  have plain := reader.readPlain_of_isSafe safe
  have bare := (isSafe_iff.1 safe).2.1
  rcases place with front | inside
  · simp only [read?, front, if_neg bare, plain, Option.none_or]
  · simp only [read?, inside, if_neg bare, plain, Option.none_or]

theorem read?_quoted {octet : UInt8} (other : octet ≠ quote) (place : reader.place = .quoted) :
    reader.read? octet = some (reader.push octet .quoted) := by
  simp only [read?, place, if_neg other]

def AtEnd (reader : Reader) : Prop :=
  reader.place = .front ∨ reader.place = .bare ∨ reader.place = .behindQuote

theorem read?_comma (ended : reader.AtEnd) : reader.read? comma = some reader.endField := by
  rcases ended with place | place | place <;> rw [read?, place] <;> rfl

theorem read?_lineFeed (ended : reader.AtEnd) : reader.read? lineFeed = some reader.endLine := by
  rcases ended with place | place | place <;> rw [read?, place] <;> rfl

theorem readAll?_cons {octet : UInt8} {next : Reader} (read : reader.read? octet = some next)
    (rest : List UInt8) : reader.readAll? (octet :: rest) = next.readAll? rest := by
  rw [readAll?, read, Option.bind_some]

/-! ### Fields -/

theorem readAll?_bare {field : List UInt8} (safe : ∀ octet ∈ field, isSafe octet = true)
    (place : reader.place = .bare) (rest : List UInt8) :
    reader.readAll? (field ++ rest) =
      readAll? { reader with field := field.reverse ++ reader.field } rest := by
  induction field generalizing reader with
  | nil => rfl
  | cons octet field ih =>
    have read := read?_of_isSafe (safe octet List.mem_cons_self) (.inr place)
    rw [List.cons_append, readAll?_cons read,
      ih (fun other member => safe other (List.mem_cons_of_mem octet member)) rfl]
    simp [push, place]

theorem readAll?_quoted (field : List UInt8) (place : reader.place = .quoted)
    (rest : List UInt8) :
    reader.readAll? ((field.map quotedAtom).flatten ++ rest) =
      readAll? { reader with field := field.reverse ++ reader.field } rest := by
  induction field generalizing reader with
  | nil => rfl
  | cons octet field ih =>
    have step : reader.readAll? (quotedAtom octet ++ ((field.map quotedAtom).flatten ++ rest)) =
        (reader.push octet .quoted).readAll? ((field.map quotedAtom).flatten ++ rest) := by
      by_cases same : octet = quote
      · -- The first quote seems to end the field, the second one takes that back.
        subst same
        have first : reader.read? quote = some { reader with place := .behindQuote } := by
          simp only [read?, place, if_true]
        rw [quotedAtom, if_pos rfl, List.cons_append, List.singleton_append, readAll?_cons first]
        exact readAll?_cons rfl _
      · rw [quotedAtom, if_neg same, List.singleton_append]
        exact readAll?_cons (read?_quoted same place) _
    rw [List.map_cons, List.flatten_cons, List.append_assoc, step, ih rfl]
    simp [push, place]

/-- A reader in front of a field takes what is written of it, and stands at its end. -/
theorem readAll?_field (place : reader.place = .front) (fresh : reader.field = [])
    (field rest : List UInt8) :
    ∃ behind, (behind = .front ∧ field = [] ∨ behind = .bare ∨ behind = .behindQuote) ∧
      reader.readAll? ((fieldAtoms field).flatten ++ rest) =
        readAll? { reader with field := field.reverse, place := behind } rest := by
  cases quoting : needsQuotes field with
  | true =>
    refine ⟨.behindQuote, .inr (.inr rfl), ?_⟩
    have opening : reader.read? quote = some { reader with place := .quoted } := by
      simp only [read?, place, if_true]
    have shape : (fieldAtoms field).flatten ++ rest =
        quote :: ((field.map quotedAtom).flatten ++ quote :: rest) := by
      simp [fieldAtoms, quoting]
    rw [shape, readAll?_cons opening, readAll?_quoted field rfl, fresh, List.append_nil]
    exact readAll?_cons rfl rest
  | false =>
    have safe := needsQuotes_eq_false.1 quoting
    have shape : (fieldAtoms field).flatten = field := by
      simp [fieldAtoms, quoting, ← List.flatMap_def]
    rw [shape]
    cases field with
    | nil =>
      refine ⟨.front, .inl ⟨rfl, rfl⟩, ?_⟩
      rw [List.nil_append, List.reverse_nil, ← fresh, ← place]
    | cons octet field =>
      refine ⟨.bare, .inr (.inl rfl), ?_⟩
      have read := read?_of_isSafe (safe octet List.mem_cons_self) (.inl place)
      rw [List.cons_append, readAll?_cons read,
        readAll?_bare (fun other member => safe other (List.mem_cons_of_mem octet member)) rfl]
      simp [push, fresh]

/-- Fields with commas between them and a line feed behind them are the rest of a record. Of a record
without any octets a reader would make nothing. -/
theorem readAll?_joined {fields : List (List UInt8)} (some : fields ≠ [])
    (place : reader.place = .front) (fresh : reader.field = [])
    (solid : reader.fields ≠ [] ∨ fields ≠ [[]]) (rest : List UInt8) :
    reader.readAll? ((joinedAtoms fields).flatten ++ lineFeed :: rest) =
      readAll? { records := (reader.fields.reverse ++ fields) :: reader.records } rest := by
  induction fields generalizing reader with
  | nil => exact absurd rfl some
  | cons field more ih =>
    cases more with
    | nil =>
      obtain ⟨behind, ended, read⟩ := readAll?_field place fresh field (lineFeed :: rest)
      have atEnd : AtEnd { reader with field := field.reverse, place := behind } :=
        ended.imp_left And.left
      have visible : isBlank { reader with field := field.reverse, place := behind } = false := by
        rcases ended with ⟨rfl, rfl⟩ | rfl | rfl
        · have inside : reader.fields ≠ [] := solid.resolve_right fun differ => differ rfl
          simpa [isBlank] using inside
        · simp [isBlank]
        · simp [isBlank]
      rw [joinedAtoms, read, readAll?_cons (read?_lineFeed atEnd), endLine, if_neg (by simp [visible])]
      simp [endRecord]
    | cons next more =>
      obtain ⟨behind, ended, read⟩ := readAll?_field place fresh field
        (comma :: ((joinedAtoms (next :: more)).flatten ++ lineFeed :: rest))
      have atEnd : AtEnd { reader with field := field.reverse, place := behind } :=
        ended.imp_left And.left
      have shape : (joinedAtoms (field :: next :: more)).flatten ++ lineFeed :: rest =
          (fieldAtoms field).flatten ++
            comma :: ((joinedAtoms (next :: more)).flatten ++ lineFeed :: rest) := by
        simp [joinedAtoms]
      rw [shape, read, readAll?_cons (read?_comma atEnd), ih (by simp) rfl rfl (.inl (by simp [endField]))]
      simp [endField]

end Reader

/-! ### Records -/

theorem joinedAtoms_eq_nil {fields : List (List UInt8)} (empty : joinedAtoms fields = []) :
    fields = [] ∨ fields = [[]] := by
  match fields with
  | [] => exact .inl rfl
  | [field] =>
    right
    cases quoting : needsQuotes field with
    | true => simp [joinedAtoms, fieldAtoms, quoting] at empty
    | false => simpa [joinedAtoms, fieldAtoms, quoting] using empty
  | _ :: _ :: _ => simp [joinedAtoms] at empty

/-- A reader between two records takes the octets for these records. -/
def Tells (octets : List UInt8) (records : List (List (List UInt8))) : Prop :=
  ∀ known rest, Reader.readAll? { records := known } (octets ++ rest) =
    Reader.readAll? { records := records.reverse ++ known } rest

theorem tells_nil : Tells [] [] := fun _ _ => rfl

theorem Tells.append {octets more : List UInt8} {records others : List (List (List UInt8))}
    (tells : Tells octets records) (later : Tells more others) :
    Tells (octets ++ more) (records ++ others) := by
  intro known rest
  rw [List.append_assoc, tells, later, List.reverse_append, List.append_assoc]

theorem tells_lineFeed : Tells [lineFeed] [] := fun _ _ => rfl

theorem tells_record {fields : List (List UInt8)} (some : fields ≠ []) :
    Tells (recordOctets fields) [fields] := by
  intro known rest
  by_cases empty : joinedAtoms fields = []
  · obtain rfl := (joinedAtoms_eq_nil empty).resolve_left some
    rfl
  · have solid : fields ≠ [[]] := by
      rintro rfl
      exact empty rfl
    have shape : recordOctets fields ++ rest =
        (joinedAtoms fields).flatten ++ lineFeed :: rest := by
      simp [recordOctets, recordAtoms, empty]
    rw [shape, Reader.readAll?_joined some rfl rfl (.inr solid)]
    rfl

theorem tells_records {records : List (List (List UInt8))} (some : ∀ fields ∈ records, fields ≠ []) :
    Tells (records.flatMap recordOctets) records := by
  induction records with
  | nil => exact tells_nil
  | cons fields records ih =>
    have first := tells_record (some fields List.mem_cons_self)
    exact first.append (ih fun other member => some other (List.mem_cons_of_mem fields member))

theorem Tells.records?_eq {octets : List UInt8} {records : List (List (List UInt8))}
    (tells : Tells octets records) : records? octets = some records := by
  have read := tells [] []
  rw [List.append_nil, List.append_nil] at read
  change (Reader.readAll? { records := [] } octets).bind Reader.finish? = some records
  rw [read, Reader.readAll?, Option.bind_some]
  simp [Reader.finish?, Reader.endLine, Reader.isBlank]

end LogCensus.Csv
