import LogCensus.FileSystem
import LogCensus.Proofs.Path
import LogCensus.Proofs.SortedMap
import Mathlib.Data.List.Induction

/-!
Trees of files and the paths of what they hold. Whatever a tree holds lies below directories of the
tree, and where nothing is a link the path of a location leads there and nowhere else.
-/

namespace LogCensus

open LogCensus.Path (slash pieces dot)

namespace FileTree

variable {tree : FileTree} {location base way : Location} {node : Node}

theorem directory_of_below (below : way ≠ []) (held : tree.node? (location ++ way) = some node) :
    tree.node? location = some .directory := by
  induction way using List.reverseRecOn generalizing node with
  | nil => exact absurd rfl below
  | append_singleton way name ih =>
    rw [← List.append_assoc] at held
    have parent := tree.parent_directory _ _ _ held
    by_cases last : way = []
    · rw [last, List.append_nil] at parent
      exact parent
    · exact ih last parent

theorem isName_of_mem (held : tree.node? location = some node) :
    ∀ name ∈ location, isName name = true := by
  induction location using List.reverseRecOn generalizing node with
  | nil => exact fun _ member => absurd member List.not_mem_nil
  | append_singleton front name ih =>
    intro other member
    rcases List.mem_append.1 member with inside | last
    · exact ih (tree.parent_directory _ _ _ held) other inside
    · rw [List.mem_singleton.1 last]
      exact tree.names _ _ _ held

theorem isFile_iff : tree.isFile location = true ↔
    ∃ content, tree.node? location = some (.file content) := by
  unfold isFile
  split
  next content held => exact iff_of_true rfl ⟨content, held⟩
  next other => exact iff_of_false Bool.false_ne_true fun ⟨content, held⟩ => other content held

theorem isFile_of_directory (held : tree.node? location = some .directory) :
    tree.isFile location = false := by
  rw [isFile, held]

theorem below?_eq_some : below? base location = some way ↔ location = base ++ way := by
  induction base generalizing location with
  | nil => exact Option.some_inj
  | cons name base ih =>
    cases location with
    | nil => simp [below?]
    | cons other rest =>
      by_cases same : name = other
      · rw [below?, if_pos same, ih, same, List.cons_append, List.cons.injEq, and_iff_right rfl]
      · rw [below?, if_neg same]
        simp [Ne.symm same]

theorem mem_filesBelow {depth : Option Nat} : way ∈ tree.filesBelow base depth ↔
    tree.isFile (base ++ way) = true ∧ depth.all (way.length ≤ ·) = true := by
  rw [filesBelow, List.mem_filterMap, isFile_iff]
  constructor
  · rintro ⟨⟨location, node⟩, member, found⟩
    have held := SortedMap.mem_toList.1 member
    dsimp only at found
    split at found
    next content below known =>
      split_ifs at found with short
      cases found
      rw [below?_eq_some] at known
      exact ⟨⟨content, known ▸ held⟩, short⟩
    next => cases found
  · rintro ⟨⟨content, held⟩, short⟩
    refine ⟨(base ++ way, .file content), SortedMap.mem_toList.2 held, ?_⟩
    have known : below? base (base ++ way) = some way := below?_eq_some.2 rfl
    simp only [known, short, if_true]

def WithoutLinks (tree : FileTree) : Prop :=
  ∀ (location : Location) (target : Path), tree.node? location ≠ some (.link target)

end FileTree

namespace FileSystem

variable {tree : FileTree} {here there : Location} {names : List (List UInt8)}
  {node : FileTree.Node}

def IsStep (name : List UInt8) : Prop := name ≠ [] ∧ name ≠ [dot] ∧ name ≠ [dot, dot] ∧ slash ∉ name

theorem isStep_of_isName {name : List UInt8} (valid : FileTree.isName name = true) : IsStep name := by
  obtain ⟨nonempty, current, up, free, -⟩ := Location.isName_iff.1 valid
  exact ⟨nonempty, current, up, free⟩

theorem leg_step {name : List UInt8} (step : IsStep name) (inside : tree.isFile here = false)
    (rest : List (List UInt8)) : leg tree here (name :: rest) =
      if nameLimit < name.length then .fault .nameTooLong
      else
        match tree.node? (here ++ [name]) with
        | none => .goal (.gap here name rest)
        | some (.link target) => .link here target rest
        | some _ => leg tree (here ++ [name]) rest := by
  obtain ⟨nonempty, current, up, -⟩ := step
  rw [leg, if_neg (by simp [inside]), if_neg (by simp [nonempty, current])]
  exact if_neg up

/-- Steps down that lead somewhere lead to where they say. -/
theorem leg_eq_place (steps : ∀ name ∈ names, IsStep name)
    (ends : leg tree here names = .goal (.place there)) : there = here ++ names := by
  induction names generalizing here with
  | nil =>
    cases ends
    exact (List.append_nil _).symm
  | cons name names ih =>
    cases inside : tree.isFile here with
    | true =>
      rw [leg, if_pos inside] at ends
      cases ends
    | false =>
      rw [leg_step (steps name List.mem_cons_self) inside] at ends
      split_ifs at ends
      split at ends
      next => cases ends
      next => cases ends
      next =>
        rw [ih (fun other member => steps other (List.mem_cons_of_mem _ member)) ends,
          List.append_assoc, List.singleton_append]

theorem leg_ne_link (free : tree.WithoutLinks) (here : Location) (names : List (List UInt8))
    (parent : Location) (target : Path) (beyond : List (List UInt8)) :
    leg tree here names ≠ .link parent target beyond := by
  induction names generalizing here with
  | nil => exact nofun
  | cons name names ih =>
    rw [leg]
    split_ifs
    · exact nofun
    · exact ih here
    · exact ih here.dropLast
    · exact nofun
    · split
      next => exact nofun
      next other held => exact absurd held (free _ _)
      next => exact ih (here ++ [name])

/-- What the tree holds is where its path leads, unless it is a link itself: the way to it goes
through directories. -/
theorem leg_of_node (held : tree.node? (here ++ names) = some node)
    (solid : ∀ target, node ≠ .link target) :
    leg tree here names = .goal (.place (here ++ names)) := by
  have short := (tree.short _ _ held).1
  induction names generalizing here with
  | nil => rw [List.append_nil, leg]
  | cons name names ih =>
    have inside := FileTree.isFile_of_directory
      (FileTree.directory_of_below (List.cons_ne_nil name names) held)
    rw [List.append_cons] at held short ⊢
    rw [leg_step (isStep_of_isName (FileTree.isName_of_mem held name (by simp))) inside,
      if_neg (Nat.not_lt.2 (short name (by simp)))]
    have next : ∃ one, tree.node? (here ++ [name]) = some one ∧ ∀ target, one ≠ .link target := by
      by_cases last : names = []
      · exact ⟨node, by rwa [last, List.append_nil] at held, solid⟩
      · exact ⟨.directory, FileTree.directory_of_below last held, nofun⟩
    obtain ⟨one, known, plain⟩ := next
    have later := ih held short
    cases one with
    | link target => exact absurd rfl (plain target)
    | directory =>
      rw [known]
      exact later
    | file content =>
      rw [known]
      exact later

/-! ### Paths of locations -/

variable {files : FileSystem} {front base : Location}

/-- The pieces of the path of a location are its names, but for empty ones in front. -/
theorem leg_pieces (steps : ∀ name ∈ front, IsStep name) :
    leg tree [] (pieces (Location.octets front)) = leg tree [] front := by
  have root : tree.isFile [] = false := FileTree.isFile_of_directory tree.root_directory
  have skip (rest : List (List UInt8)) : leg tree [] ([] :: rest) = leg tree [] rest := by
    rw [leg, if_neg (by simp [root]), if_pos (.inl rfl)]
  by_cases top : front = []
  · subst top
    exact (skip [[]]).trans (skip [])
  · rw [Location.octets_of_ne_nil top,
      Location.pieces_rooted fun name member => (steps name member).2.2.2, skip]

theorem follow_eq (free : tree.WithoutLinks) (links : Nat) (here : Location)
    (names : List (List UInt8)) : follow tree links here names =
      match leg tree here names with
      | .goal goal => .ok goal
      | .fault fault => .error fault
      | .link _ _ _ => .error .tooManyLinks := by
  cases known : leg tree here names with
  | goal goal =>
    unfold follow
    simp only [known]
  | fault fault =>
    unfold follow
    simp only [known]
  | link parent target beyond => exact absurd known (leg_ne_link free here names _ _ _)

theorem isAbsolute_path (location : Location) : (Location.path location).isAbsolute = true := by
  cases location <;> rfl

/-- The path of a location leads to that location if it leads anywhere. -/
theorem eq_of_locate_path (free : files.tree.WithoutLinks) (steps : ∀ name ∈ front, IsStep name)
    (found : files.locate (Location.path front) = .ok base) : base = front := by
  unfold locate goal at found
  rw [isAbsolute_path, if_pos rfl, follow_eq free, Location.path, leg_pieces steps] at found
  split at found
  next there ends =>
    cases found
    split_ifs at ends
    split at ends
    next goal known =>
      cases ends
      exact leg_eq_place steps known
    next => cases ends
    next => cases ends
  next => cases found
  next => cases found

theorem follow_of_goal {goal : Goal} (ends : leg tree here names = .goal goal) (links : Nat) :
    follow tree links here names = .ok goal := by
  unfold follow
  simp only [ends]

theorem locate_path {node : FileTree.Node} (held : files.tree.node? front = some node)
    (solid : ∀ target, node ≠ .link target) : files.locate (Location.path front) = .ok front := by
  have names := FileTree.isName_of_mem held
  have short := (files.tree.short _ _ held).2
  have steps : ∀ name ∈ front, IsStep name := fun name member =>
    isStep_of_isName (names name member)
  have whole : (Location.octets front).contains 0 = false := by
    rw [List.contains_eq_mem, decide_eq_false_iff_not]
    exact Location.zero_not_mem_octets fun name member =>
      (Location.isName_iff.1 (names name member)).2.2.2.2
  have nonempty : (Location.octets front).isEmpty = false := by
    cases front <;> rfl
  have ends : leg files.tree [] front = .goal (.place front) := leg_of_node held solid
  unfold locate goal
  rw [isAbsolute_path, if_pos rfl, Location.path, follow_of_goal ((leg_pieces steps).trans ends),
    whole, nonempty, if_neg Bool.false_ne_true, if_neg Bool.false_ne_true,
    if_neg (Nat.not_le.2 short)]

theorem locate_path_of_isFile (held : files.tree.isFile front = true) :
    files.locate (Location.path front) = .ok front := by
  obtain ⟨content, node⟩ := FileTree.isFile_iff.1 held
  exact locate_path node nofun

end FileSystem

end LogCensus
