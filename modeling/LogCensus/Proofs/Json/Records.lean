import LogCensus.Entry

/-!
What a record holds of one of its members was read from the text of the record: from the only value
under the name of the member in an object, and from the value at its place in an array.
-/

namespace LogCensus.Json

def Members.get? (name : String) : Members → Option Node
  | .member (.ok key) _ _ value rest => if key = name then some value else rest.get? name
  | .member (.error _) _ _ _ rest => rest.get? name
  | _ => none

def Items.get? : (index : Nat) → Items → Option Node
  | 0, .item _ value _ _ => some value
  | index + 1, .item _ _ _ rest => rest.get? index
  | _, _ => none

/-- The value that a record reads as one of its members, by its name or by its place. -/
def Node.memberAt? (name : String) (index : Nat) : Node → Option Node
  | .object _ members => members.get? name
  | .array _ items => items.get? index
  | _ => none

namespace Record

variable {ρ α β : Type} {spec : Record ρ α} {origin : Origin} {member : Member ρ}
  {front behind : List (Member ρ)} {project : ρ → β} {record made : ρ}

def Spares (project : ρ → β) (member : Member ρ) : Prop :=
  ∀ origin node before after, member.read origin node before = .ok after →
    project after = project before

def Stems (project : ρ → β) (member : Member ρ) (origin : Origin) (made : ρ) (node : Node) : Prop :=
  ∃ before after, member.read origin node before = .ok after ∧ project made = project after

theorem spares_member {γ : Type} {name : String} {presence : Presence} {reader : Reader γ}
    {store : ρ → γ → ρ} (kept : ∀ record value, project (store record value) = project record) :
    Spares project (Json.member name presence reader store) := by
  intro origin node before after read
  change (reader origin node).map (store before) = .ok after at read
  cases value : reader origin node <;> rw [value] at read <;> cases read
  exact kept before _

/-- A name that has been seen is not read again, and one that has not been is read where it stands
first. -/
theorem stems_of_readMembers
    (known : spec.members.find? (fun other => other.name == member.name) = some member)
    (others : ∀ other ∈ spec.members, other.name ≠ member.name → Spares project other)
    {seen names : List String} {tree : Members} {stop : Nat}
    (read : spec.readMembers origin seen record tree = .ok (names, made, stop)) :
    (member.name ∈ seen → project made = project record) ∧
      (member.name ∉ seen → member.name ∈ names →
        ∃ node, tree.get? member.name = some node ∧ Stems project member origin made node) := by
  fun_induction readMembers spec origin seen record tree with
  | case1 seen record stop =>
    cases read
    exact ⟨fun _ => rfl, fun fresh there => absurd there fresh⟩
  | case6 seen record keyStop mark value rest key unknown _ _ ih =>
    have apart : key ≠ member.name := by
      rintro rfl
      rw [known] at unknown
      cases unknown
    rw [Members.get?, if_neg apart]
    exact ih read
  | case9 seen record keyStop mark value rest key other found fresh after stored ih =>
    obtain ⟨again, later⟩ := ih read
    have named : other.name = key := by simpa using List.find?_some found
    by_cases own : key = member.name
    · -- this is the only place where the member is read
      subst own
      rw [known] at found
      cases found
      have unseen : member.name ∉ seen := by simpa using fresh
      refine ⟨fun there => absurd there unseen, fun _ _ => ⟨value, if_pos rfl, ?_⟩⟩
      exact ⟨record, after, stored, again List.mem_cons_self⟩
    · have spared := others other (List.mem_of_find?_eq_some found) (named ▸ own)
        origin value record after stored
      rw [Members.get?, if_neg own]
      constructor
      · intro there
        rw [again (List.mem_cons_of_mem key there), spared]
      · intro absent
        exact later fun there => (List.mem_cons.1 there).elim (fun same => own same.symm) absent
  | case2 => cases read
  | case3 => cases read
  | case4 => cases read
  | case5 => cases read
  | case7 => cases read
  | case8 => cases read

/-! ### Arrays -/

theorem project_readElements {members : List (Member ρ)}
    (spared : ∀ other ∈ members, Spares project other) {count : Nat} {items left : Items}
    (read : spec.readElements origin members count record items = .ok (made, left)) :
    project made = project record := by
  fun_induction readElements spec origin members count record items with
  | case1 => cases read; rfl
  | case3 head members count record start value mark rest after stored ih =>
    obtain ⟨own, others⟩ := List.forall_mem_cons.1 spared
    rw [ih others read, own origin value record after stored]
  | case5 head members count record stop free ih =>
    exact ih (List.forall_mem_cons.1 spared).2 read
  | case2 => cases read
  | case4 => cases read
  | case6 => cases read

/-- A member that may not be missing is read at its place. -/
theorem stems_of_readElements (needed : member.presence ≠ .defaulted)
    (spared : ∀ other ∈ behind, Spares project other) {count : Nat} {items left : Items}
    (read : spec.readElements origin (front ++ member :: behind) count record items =
      .ok (made, left)) :
    ∃ node, items.get? front.length = some node ∧ Stems project member origin made node := by
  induction front generalizing count record items with
  | nil =>
    rw [List.nil_append] at read
    cases items with
    | broken faults => cases read
    | close stop =>
      rw [readElements, if_neg (by simpa using needed)] at read
      cases read
    | item start value mark rest =>
      rw [readElements] at read
      split at read
      next => cases read
      next after stored =>
        exact ⟨value, rfl, record, after, stored, project_readElements spared read⟩
  | cons head front ih =>
    rw [List.cons_append] at read
    cases items with
    | broken faults => cases read
    | close stop =>
      rw [readElements] at read
      split at read
      next =>
        -- behind the end of the array nothing can be read at all
        obtain ⟨node, found, -⟩ := ih read
        cases front <;> cases found
      next => cases read
    | item start value mark rest =>
      rw [readElements] at read
      split at read
      next => cases read
      next after _ => exact ih read

/-! ### Whole records -/

/-- What a record holds of a member that has to be there was read from the value of that member. -/
theorem stems_of_read (listed : spec.members = front ++ member :: behind)
    (needed : member.presence = .required)
    (others : ∀ other ∈ spec.members, other.name ≠ member.name → Spares project other)
    (apart : ∀ other ∈ front ++ behind, other.name ≠ member.name) {node : Node} {result : α}
    (read : spec.read origin node = .ok result) :
    ∃ record value, spec.finish record = .ok result ∧
      node.memberAt? member.name front.length = some value ∧
        Stems project member origin record value := by
  have known : spec.members.find? (fun other => other.name == member.name) = some member := by
    rw [listed, List.find?_append, List.find?_eq_none.2, List.find?_cons_of_pos (by simp)]
    · rfl
    · intro other among
      simpa using apart other (List.mem_append_left _ among)
  have last : ∀ other ∈ behind, Spares project other := fun other among =>
    others other (by rw [listed]; exact List.mem_append_right _ (List.mem_cons_of_mem _ among))
      (apart other (List.mem_append_right _ among))
  cases node with
  | scalar content stop => cases read
  | broken faults => cases read
  | object start members =>
    simp only [Record.read] at read
    split at read
    next => cases read
    next names record stop stored =>
      split at read
      next => cases read
      next complete =>
        have there : member.name ∈ names := by
          rw [missing?, Option.map_eq_none_iff, List.find?_eq_none] at complete
          have seen := complete member (List.mem_of_find?_eq_some known)
          simpa [needed] using seen
        obtain ⟨value, found, stems⟩ :=
          (stems_of_readMembers known others stored).2 List.not_mem_nil there
        refine ⟨record, value, ?_, found, stems⟩
        cases finished : spec.finish record <;> rw [finished] at read <;> cases read
        rfl
  | array start items =>
    simp only [Record.read] at read
    split at read
    next => cases read
    next record left stored =>
      rw [listed] at stored
      obtain ⟨value, found, stems⟩ := stems_of_readElements (by rw [needed]; nofun) last stored
      refine ⟨record, value, ?_, found, stems⟩
      split at read
      next => cases read
      next finished _ =>
        cases read
        exact finished
      next => split at read <;> cases read

end Record

end LogCensus.Json
