import LogCensus.Proofs.Format.AccessLine
import LogCensus.Proofs.SortedMap

/-!
Reading access logs undoes writing them: the entry that is read from a line tells the parts which
the line was put together from.
-/

namespace LogCensus.Format.AccessLog

open Text (isDigit digitsValue)

/-! ### Requests -/

theorem cut?_eq_none {c : Char} {text : List Char} (absent : c ∉ text) :
    Text.cut? [c] text = none := by
  cases found : Text.cut? [c] text with
  | none => rfl
  | some parts =>
    obtain ⟨before, after⟩ := parts
    rw [Text.eq_append_of_cut? found] at absent
    simp at absent

theorem cut?_cons {c : Char} {front : List Char} (absent : c ∉ front) (behind : List Char) :
    Text.cut? [c] (front ++ c :: behind) = some (front, behind) := by
  have cut := Text.cut?_of_notMem [] absent behind
  rwa [List.append_assoc] at cut

namespace RequestParts

def method? : RequestParts → Option (List Char)
  | none => .none
  | two method _ | three method _ _ => some method

def path? : RequestParts → Option (List Char)
  | none => .none
  | two _ path | three _ path _ => some path

def protocol? : RequestParts → Option (List Char)
  | none | two _ _ => .none
  | three _ _ protocol => some protocol

theorem ofText_of_notMem {request : List Char} (whole : ' ' ∉ request) :
    ofText request = .none := by
  simp only [ofText, cut?_eq_none whole]

theorem ofText_of_mem {request : List Char} (blank : ' ' ∈ request) :
    ∃ method path protocol, (ofText request).method? = some method ∧
      (ofText request).path? = some path ∧ (ofText request).protocol? = protocol ∧
      ' ' ∉ method ∧ ' ' ∉ path ∧
      request = [' '].intercalate (method :: path :: protocol.toList) := by
  obtain ⟨method, rest, rfl, first⟩ := List.eq_append_cons_of_mem blank
  by_cases more : ' ' ∈ rest
  · obtain ⟨path, protocol, rfl, second⟩ := List.eq_append_cons_of_mem more
    have parts : ofText (method ++ ' ' :: (path ++ ' ' :: protocol)) =
        .three method path protocol := by
      simp only [ofText, cut?_cons first, cut?_cons second]
    rw [parts]
    exact ⟨method, path, some protocol, rfl, rfl, rfl, first, second, by simp [List.intercalate]⟩
  · have parts : ofText (method ++ ' ' :: rest) = .two method rest := by
      simp only [ofText, cut?_cons first, cut?_eq_none more]
    rw [parts]
    exact ⟨method, rest, .none, rfl, rfl, rfl, first, more, by simp [List.intercalate]⟩

end RequestParts

/-! ### Fields -/

section Fields

variable (entry : Entry) {name key : String}

theorem get?_withField (value : String) :
    (entry.withField name value).fields.get? key =
      if key = name then some value else entry.fields.get? key := by
  by_cases own : key = name
  · rw [if_pos own, own]
    exact SortedMap.get?_insert_self ..
  · rw [if_neg own]
    exact SortedMap.get?_insert_of_ne _ own _

theorem get?_withKnown (value : List Char) :
    (withKnown entry name value).fields.get? key =
      if key = name ∧ value ≠ ['-'] then some (.ofList value) else entry.fields.get? key := by
  unfold withKnown
  by_cases dash : value = ['-']
  · rw [if_pos dash, if_neg fun both => both.2 dash]
  · rw [if_neg dash, get?_withField]
    simp only [dash, ne_eq, not_false_eq_true, and_true]

theorem get?_withRequest (parts : RequestParts) :
    (withRequest entry parts).fields.get? key =
      ((if key = "method" then parts.method? else if key = "path" then parts.path?
        else if key = "protocol" then parts.protocol? else none).map String.ofList).or
          (entry.fields.get? key) := by
  cases parts with
  | none =>
    simp only [withRequest, RequestParts.method?, RequestParts.path?, RequestParts.protocol?,
      ite_self, Option.map_none, Option.none_or]
  | two method path =>
    simp only [withRequest, Entry.withLabel, get?_withField, RequestParts.method?,
      RequestParts.path?, RequestParts.protocol?]
    split_ifs <;> simp_all
  | three method path protocol =>
    simp only [withRequest, Entry.withLabel, get?_withField, RequestParts.method?,
      RequestParts.path?, RequestParts.protocol?]
    split_ifs <;> simp_all

theorem get?_withClient (client : Option (List Char × List Char)) :
    (withClient entry client).fields.get? key =
      ((client.bind fun (referer, agent) =>
        if key = "user_agent" then some agent
        else if key = "referer" ∧ referer ≠ ['-'] then some referer else none).map String.ofList).or
          (entry.fields.get? key) := by
  cases client with
  | none => rfl
  | some client =>
    simp only [withClient, get?_withField, get?_withKnown, Option.bind_some]
    split_ifs <;> rfl

end Fields

/-! ### Entries -/

/-- What an entry says of a line that was put together from parts. -/
structure LineForm.Tells (form : LineForm) (entry : Entry) : Prop where
  timestamp : entry.timestamp = some form.time.instant
  level : entry.level =
    if 500 ≤ digitsValue form.status then .error
    else if 400 ≤ digitsValue form.status then .warning else .info
  message : entry.message = .ofList form.request.text
  address : entry.fields.get? "remote_addr" = some (.ofList form.address.text)
  bytes : entry.fields.get? "bytes" = some (.ofList form.bytes)
  status : entry.fields.get? "status" = some (Text.ofNat (digitsValue form.status))
  user : entry.fields.get? "remote_user" =
    if form.user.text = ['-'] then none else some (.ofList form.user.text)
  referer : entry.fields.get? "referer" = form.client.bind fun (referer, _) =>
    if referer.text = ['-'] then none else some (.ofList referer.text)
  agent : entry.fields.get? "user_agent" = form.client.map fun (_, agent) => .ofList agent.text
  whole : ' ' ∉ form.request.text → entry.fields.get? "method" = none ∧
    entry.fields.get? "path" = none ∧ entry.fields.get? "protocol" = none
  split : ' ' ∈ form.request.text → ∃ method path, ∃ protocol : Option (List Char),
    entry.fields.get? "method" = some (.ofList method) ∧
      entry.fields.get? "path" = some (.ofList path) ∧
      entry.fields.get? "protocol" = protocol.map String.ofList ∧ ' ' ∉ method ∧ ' ' ∉ path ∧
      form.request.text = [' '].intercalate (method :: path :: protocol.toList)

/-- An entry that differs from another one at most in fields and labels. -/
def Annotates (next entry : Entry) : Prop := ∃ fields labels, next = { entry with fields, labels }

namespace Annotates

variable {entry next last : Entry}

theorem trans (after : Annotates last next) (before : Annotates next entry) :
    Annotates last entry := by
  obtain ⟨_, _, rfl⟩ := before
  obtain ⟨fields, labels, rfl⟩ := after
  exact ⟨fields, labels, rfl⟩

theorem withField (entry : Entry) (name value : String) :
    Annotates (entry.withField name value) entry := ⟨_, _, rfl⟩

theorem withKnown (entry : Entry) (name : String) (value : List Char) :
    Annotates (withKnown entry name value) entry := by
  unfold AccessLog.withKnown
  split
  next => exact ⟨_, _, rfl⟩
  next => exact withField entry name _

theorem withRequest (entry : Entry) (parts : RequestParts) :
    Annotates (withRequest entry parts) entry := by
  cases parts <;> exact ⟨_, _, rfl⟩

theorem withClient (entry : Entry) (client : Option (List Char × List Char)) :
    Annotates (withClient entry client) entry := by
  cases client with
  | none => exact ⟨_, _, rfl⟩
  | some client => exact (withField _ _ _).trans (withKnown entry _ _)

end Annotates

/-- What stands beside fields and labels is settled at the start. -/
theorem entryOf_annotates (text : String) (line : Line) (instant : Time.Instant) (status : Nat) :
    Annotates (entryOf text line instant status)
      { timestamp := some instant, level := Level.ofStatus status, kind := "access",
        message := .ofList line.request, raw := text } :=
  (Annotates.withClient _ _).trans <| (Annotates.withKnown _ _ _).trans <|
    (Annotates.withRequest _ _).trans ⟨_, _, rfl⟩

theorem readLine_text (form : LineForm) :
    readLine (String.ofList form.text) =
      .ok (entryOf (String.ofList form.text) form.line form.time.instant
        (digitsValue form.status)) := by
  have status : Text.natural? form.status = some (digitsValue form.status) := by
    obtain ⟨length, digits⟩ := form.threeDigits
    have some : form.status ≠ [] := by
      rw [← List.length_pos_iff, length]
      decide
    exact if_pos ⟨some, List.all_eq_true.2 digits⟩
  have line := ofText?_text form
  have time : Time.readInstant Time.accessLogPattern form.line.time = .ok form.time.instant :=
    form.time.readInstant_text
  have code : Text.natural? form.line.status = some (digitsValue form.status) := status
  simp only [readLine, String.toList_ofList, line, time, code]

/-- All the fields of an entry, those of the client and of the request first. -/
theorem get?_entryOf (text : String) (line : Line) (instant : Time.Instant) (status : Nat)
    (key : String) :
    (entryOf text line instant status).fields.get? key =
      ((line.client.bind fun (referer, agent) =>
        if key = "user_agent" then some agent
        else if key = "referer" ∧ referer ≠ ['-'] then some referer else none).map String.ofList).or
      (if key = "remote_user" ∧ line.user ≠ ['-'] then some (.ofList line.user)
      else
        let parts := RequestParts.ofText line.request
        ((if key = "method" then parts.method? else if key = "path" then parts.path?
          else if key = "protocol" then parts.protocol? else none).map String.ofList).or
        (if key = "bytes" then some (.ofList line.bytes)
        else if key = "status" then some (Text.ofNat status)
        else if key = "remote_addr" then some (.ofList line.address) else none)) := by
  have labelled (entry : Entry) (name value : String) :
      (entry.withLabel name value).fields = entry.fields := rfl
  simp only [entryOf, get?_withClient, get?_withKnown, get?_withRequest, get?_withField, labelled,
    SortedMap.get?_empty]

theorem tells_entryOf (form : LineForm) (text : String) :
    form.Tells (entryOf text form.line form.time.instant (digitsValue form.status)) := by
  obtain ⟨fields, labels, beside⟩ := entryOf_annotates text form.line form.time.instant
    (digitsValue form.status)
  constructor
  case timestamp => exact congrArg Entry.timestamp beside
  case level => exact congrArg Entry.level beside
  case message => exact congrArg Entry.message beside
  case address | bytes | status | user | agent =>
    rw [get?_entryOf]
    cases client : form.client <;> simp [LineForm.line, client]
  case referer =>
    rw [get?_entryOf]
    cases client : form.client <;> simp [LineForm.line, client, apply_ite]
  case whole =>
    intro whole
    simp [get?_entryOf, LineForm.line, RequestParts.ofText_of_notMem whole, RequestParts.method?,
      RequestParts.path?, RequestParts.protocol?]
  case split =>
    intro blank
    obtain ⟨method, path, protocol, methods, paths, protocols, first, second, joined⟩ :=
      RequestParts.ofText_of_mem blank
    refine ⟨method, path, protocol, ?_, ?_, ?_, first, second, joined⟩
    · simp [get?_entryOf, LineForm.line, methods]
    · simp [get?_entryOf, LineForm.line, paths]
    · simp [get?_entryOf, LineForm.line, protocols]

/-- Reading undoes writing: any line that is put together from parts is read, and the entry tells
those parts. -/
theorem read_line_text (form : LineForm) :
    ∃ entry, accessLog.read (String.ofList form.text) = .entry entry ∧ form.Tells entry := by
  refine ⟨_, ?_, tells_entryOf form (String.ofList form.text)⟩
  change Outcome.ofExcept (readLine _) = _
  rw [readLine_text]
  rfl

end LogCensus.Format.AccessLog
