import LogCensus.Registry
import Mathlib.Data.List.Induction
import Mathlib.Data.List.Nodup

/-!
A registry after any registrations: each kind stands where it was registered first, with the format
that was registered last under it, and lines are told by the first format in this order that takes
them.
-/

namespace LogCensus

inductive Registration where
  | whole (format : Format)
  | lines (format : Format)
  | groups (format : Format) (framing : Framing)

namespace Registration

def format : Registration → Format
  | whole format => format
  | lines format => { format with framing := none }
  | groups format framing => { format with framing := some framing }

end Registration

namespace Registry

def ofRegistrations (registrations : List Registration) : Registry :=
  registrations.foldl (fun registry registration => registry.register registration.format) empty

def lastOf? (formats : List Format) (kind : String) : Option Format :=
  formats.reverse.find? fun format => format.kind = kind

variable {format other : Format} {formats : List Format} {kind : String}

theorem lastOf?_concat_self : lastOf? (formats ++ [format]) format.kind = some format := by
  simp [lastOf?]

theorem lastOf?_concat_of_ne (apart : format.kind ≠ kind) :
    lastOf? (formats ++ [format]) kind = lastOf? formats kind := by
  simp [lastOf?, apart]

theorem eraseDups_concat_of_mem {items : List String} {item : String} (known : item ∈ items) :
    (items ++ [item]).eraseDups = items.eraseDups := by
  have nothing : [item].removeAll items = [] := by simp [List.removeAll, known]
  rw [List.eraseDups_append, nothing, List.eraseDups_nil, List.append_nil]

theorem eraseDups_concat_of_notMem {items : List String} {item : String} (fresh : item ∉ items) :
    (items ++ [item]).eraseDups = items.eraseDups ++ [item] := by
  have whole : [item].removeAll items = [item] := by simp [List.removeAll, fresh]
  rw [List.eraseDups_append, whole]
  rfl

/-! ### One registration -/

theorem kinds_placed_of_mem (known : format.kind ∈ formats.map Format.kind) :
    (placed format formats).map Format.kind = formats.map Format.kind := by
  induction formats with
  | nil => cases known
  | cons head rest ih =>
    by_cases same : head.kind = format.kind
    · rw [placed, if_pos same, List.map_cons, List.map_cons, same]
    · have later : format.kind ∈ rest.map Format.kind :=
        (List.mem_cons.1 known).resolve_left (Ne.symm same)
      rw [placed, if_neg same, List.map_cons, List.map_cons, ih later]

theorem placed_of_notMem (unknown : format.kind ∉ formats.map Format.kind) :
    placed format formats = formats ++ [format] := by
  induction formats with
  | nil => rfl
  | cons head rest ih =>
    obtain ⟨apart, later⟩ := not_or.1 (mt List.mem_cons.2 unknown)
    rw [placed, if_neg (Ne.symm apart), ih later, List.cons_append]

/-- Where kinds are distinct, the format registered is the only one left of its kind. -/
theorem mem_placed_cases (distinct : (formats.map Format.kind).Nodup)
    (member : other ∈ placed format formats) :
    other = format ∨ other ∈ formats ∧ format.kind ≠ other.kind := by
  induction formats with
  | nil => exact .inl (List.mem_singleton.1 member)
  | cons head rest ih =>
    obtain ⟨alone, later⟩ := List.nodup_cons.1 distinct
    by_cases same : head.kind = format.kind
    · rw [placed, if_pos same] at member
      rcases List.mem_cons.1 member with rfl | inside
      · exact .inl rfl
      · refine .inr ⟨List.mem_cons_of_mem _ inside, fun again => alone ?_⟩
        rw [same, again]
        exact List.mem_map_of_mem inside
    · rw [placed, if_neg same] at member
      rcases List.mem_cons.1 member with rfl | inside
      · exact .inr ⟨List.mem_cons_self, Ne.symm same⟩
      · exact (ih later inside).imp_right (.imp_left (List.mem_cons_of_mem _))

/-! ### Any registrations -/

/-- A registry of the formats that were registered so far, the last one of them at the end. -/
structure Holds (registry : Registry) (formats : List Format) : Prop where
  order : registry.kinds = (formats.map Format.kind).eraseDups
  distinct : registry.kinds.Nodup
  newest : ∀ format ∈ registry.formats, lastOf? formats format.kind = some format

theorem Holds.register {registry : Registry} (holds : registry.Holds formats) (format : Format) :
    (registry.register format).Holds (formats ++ [format]) := by
  have newest : ∀ other ∈ (registry.register format).formats,
      lastOf? (formats ++ [format]) other.kind = some other := by
    intro other member
    rcases mem_placed_cases holds.distinct member with rfl | ⟨inside, apart⟩
    · exact lastOf?_concat_self
    · rw [lastOf?_concat_of_ne apart]
      exact holds.newest other inside
  have registered : format.kind ∈ registry.kinds ↔ format.kind ∈ formats.map Format.kind := by
    rw [holds.order, List.mem_eraseDups]
  by_cases known : format.kind ∈ registry.kinds
  · have kept : (registry.register format).kinds = registry.kinds := kinds_placed_of_mem known
    refine ⟨?_, kept ▸ holds.distinct, newest⟩
    rw [kept, holds.order, List.map_append]
    exact (eraseDups_concat_of_mem (registered.1 known)).symm
  · have grown : (registry.register format).kinds = registry.kinds ++ [format.kind] := by
      change (placed format registry.formats).map Format.kind = _
      rw [placed_of_notMem known, List.map_append]
      rfl
    refine ⟨?_, ?_, newest⟩
    · rw [grown, holds.order, List.map_append]
      exact (eraseDups_concat_of_notMem (mt registered.2 known)).symm
    · rw [grown, List.nodup_append]
      refine ⟨holds.distinct, List.nodup_singleton _, ?_⟩
      rintro one inside other last rfl
      exact known (List.mem_singleton.1 last ▸ inside)

theorem holds_ofRegistrations (registrations : List Registration) :
    (ofRegistrations registrations).Holds (registrations.map Registration.format) := by
  induction registrations using List.reverseRecOn with
  | nil => exact ⟨rfl, List.nodup_nil, nofun⟩
  | append_singleton registrations last ih =>
    rw [ofRegistrations, List.foldl_append, List.map_append]
    exact ih.register last.format

end Registry

end LogCensus
