import LogCensus.Proofs.Pool.Acts
import Mathlib.Data.Finset.Card
import Mathlib.Data.List.Nodup

/-!
What the line at the queue of jobs changes, and what not. The workers in line all want a job, so the
one in front can take any turn that a worker at the queue can take: where something can happen in a
workshop, something can happen with the line before it. Each worker joins the line once for each job
it looks for, so the number of turns stays bounded.
-/

namespace LogCensus.Pool

variable {State Event J R E : Type} {workshop : Workshop State Event J R E}

/-- The workers of a workshop look and act, and nothing else; if one worker can look at the queue,
so can any that wants a job. -/
structure Workshop.Regular (workshop : Workshop State Event J R E) : Prop where
  look : ∀ {state next event}, workshop.looks event = true →
    workshop.after? state event = some next →
    ∃ worker, workshop.worker? event = some worker ∧
      Look (workshop.pool state) worker (workshop.pool next)
  act : ∀ {state next event worker}, workshop.looks event = false →
    workshop.worker? event = some worker → workshop.after? state event = some next →
    Act (workshop.pool state) worker (workshop.pool next)
  evenly : ∀ {state next event other}, workshop.looks event = true →
    workshop.after? state event = some next → (workshop.pool state).wantsJob other = true →
    ∃ same, workshop.looks same = true ∧ workshop.worker? same = some other ∧
      (workshop.after? state same).isSome

/-- A workshop in which what `holds` goes on to hold, and then nobody but a worker itself puts an end
to its wish for a job. -/
structure Workshop.Lawful (workshop : Workshop State Event J R E) (holds : State → Prop) : Prop
    extends workshop.Regular where
  kept : ∀ {state next event}, holds state → workshop.after? state event = some next → holds next
  owner : ∀ {state next event worker}, holds state → workshop.worker? event = none →
    workshop.after? state event = some next → (workshop.pool state).wantsJob worker = true →
    (workshop.pool next).wantsJob worker = true

namespace Lined

variable {holds : State → Prop} {first : State} {lined next : Lined State} {move : Move Event}
  {event : Event} {worker : Nat}

/-- The effects of a move on the line. -/
theorem after?_cases (taken : lined.after? workshop move = some next) :
    (∃ worker, move = .join worker ∧ (workshop.pool lined.state).wantsJob worker = true ∧
      worker ∉ lined.line ∧ next = { lined with line := lined.line ++ [worker] }) ∨
    (∃ event worker rest state, move = .act event ∧ workshop.looks event = true ∧
      workshop.worker? event = some worker ∧ lined.line = worker :: rest ∧
      workshop.after? lined.state event = some state ∧ next = { state, line := rest }) ∨
    ∃ event state, move = .act event ∧ workshop.looks event = false ∧
      workshop.after? lined.state event = some state ∧ next = { lined with state } := by
  cases move with
  | join worker =>
    left
    simp only [after?] at taken
    split at taken
    next ready =>
      rw [Option.some.injEq] at taken
      rw [Bool.and_eq_true, Bool.not_eq_true', List.contains_eq_mem, decide_eq_false_iff_not]
        at ready
      exact ⟨worker, rfl, ready.1, ready.2, taken.symm⟩
    next => cases taken
  | act event =>
    right
    simp only [after?] at taken
    by_cases looking : workshop.looks event = true
    · left
      rw [if_pos looking] at taken
      split at taken
      next => cases taken
      next front rest shape =>
        split at taken
        next turn =>
          obtain ⟨state, happened, rfl⟩ := Option.map_eq_some_iff.1 taken
          exact ⟨event, front, rest, state, rfl, looking, turn, shape, happened, rfl⟩
        next => cases taken
    · right
      rw [if_neg looking] at taken
      obtain ⟨state, happened, rfl⟩ := Option.map_eq_some_iff.1 taken
      exact ⟨event, state, rfl, by simpa using looking, happened, rfl⟩

structure Ordered (workshop : Workshop State Event J R E) (lined : Lined State) : Prop where
  nodup : lined.line.Nodup
  wants : ∀ worker ∈ lined.line, (workshop.pool lined.state).wantsJob worker = true

theorem Ordered.begin (workshop : Workshop State Event J R E) (first : State) :
    Ordered workshop { state := first } where
  nodup := .nil
  wants := fun _ member => nomatch member

/-- An event keeps the line in order: one that is no look leaves it as it is. -/
theorem Ordered.away (lawful : workshop.Lawful holds) (ordered : Ordered workshop lined)
    (held : holds lined.state) (looking : workshop.looks event = false) {state : State}
    (happened : workshop.after? lined.state event = some state) :
    Ordered workshop { lined with state } := by
  refine ⟨ordered.nodup, fun worker member => ?_⟩
  have idle := ordered.wants worker member
  cases turn : workshop.worker? event with
  | none => exact lawful.owner held turn happened idle
  | some other => exact (lawful.act looking turn happened).wantsJob_of idle

theorem Ordered.after? (lawful : workshop.Lawful holds) (ordered : Ordered workshop lined)
    (held : holds lined.state) (taken : lined.after? workshop move = some next) :
    Ordered workshop next := by
  rcases after?_cases taken with ⟨worker, rfl, idle, outside, rfl⟩ |
    ⟨event, worker, rest, state, rfl, looking, turn, shape, happened, rfl⟩ |
    ⟨event, state, rfl, looking, happened, rfl⟩
  · refine ⟨List.concat_eq_append ▸ ordered.nodup.concat outside, fun other member => ?_⟩
    rcases List.mem_append.1 member with old | new
    · exact ordered.wants other old
    · exact List.mem_singleton.1 new ▸ idle
  · have nodup := ordered.nodup
    rw [shape, List.nodup_cons] at nodup
    refine ⟨nodup.2, fun other member => ?_⟩
    obtain ⟨front, same, look⟩ := lawful.look looking happened
    rw [turn, Option.some.injEq] at same
    subst same
    refine look.wantsJob_iff.2 ⟨ordered.wants other (shape ▸ List.mem_cons_of_mem _ member), ?_⟩
    rintro rfl
    exact nodup.1 member
  · exact ordered.away lawful held looking happened

/-- What every event keeps, and the order of the line, are kept by every run of moves. -/
theorem Reachable.ordered (lawful : workshop.Lawful holds) (fresh : holds first)
    (reached : Reachable workshop first lined) : holds lined.state ∧ Ordered workshop lined := by
  induction reached with
  | begun => exact ⟨fresh, .begin workshop first⟩
  | moved before taken ih =>
    refine ⟨?_, ih.2.after? lawful ih.1 taken⟩
    rcases after?_cases taken with ⟨worker, rfl, idle, outside, rfl⟩ |
      ⟨event, worker, rest, state, rfl, looking, turn, shape, happened, rfl⟩ |
      ⟨event, state, rfl, looking, happened, rfl⟩
    · exact ih.1
    · exact lawful.kept ih.1 happened
    · exact lawful.kept ih.1 happened

theorem Reachable.afterAll? (moves : List (Move Event))
    (reached : Reachable workshop first lined)
    (taken : lined.afterAll? workshop moves = some next) : Reachable workshop first next := by
  induction moves generalizing lined with
  | nil => exact Option.some.inj taken ▸ reached
  | cons move rest ih =>
    obtain ⟨middle, one, later⟩ := Option.bind_eq_some_iff.1 taken
    exact ih (reached.moved one) later

/-! ### Somebody can move -/

theorem isSome_join (idle : (workshop.pool lined.state).wantsJob worker = true)
    (outside : worker ∉ lined.line) : (lined.after? workshop (.join worker)).isSome := by
  simp [after?, idle, outside]

theorem isSome_front {rest : List Nat} (shape : lined.line = worker :: rest)
    (looking : workshop.looks event = true) (turn : workshop.worker? event = some worker)
    (happens : (workshop.after? lined.state event).isSome) :
    (lined.after? workshop (.act event)).isSome := by
  simp only [after?, if_pos looking, shape, if_pos turn, Option.isSome_map]
  exact happens

theorem isSome_act (looking : workshop.looks event = false)
    (happens : (workshop.after? lined.state event).isSome) :
    (lined.after? workshop (.act event)).isSome := by
  simp only [after?, looking, Bool.false_eq_true, if_false, Option.isSome_map]
  exact happens

/-- Where an event can happen in a workshop, it can happen with the line, or a worker can move. -/
theorem exists_move (regular : workshop.Regular) (ordered : Ordered workshop lined)
    (happens : (workshop.after? lined.state event).isSome) :
    ∃ move, (lined.after? workshop move).isSome ∧
      (move = .act event ∨ (move.worker? workshop).isSome) := by
  by_cases looking : workshop.looks event = true
  · obtain ⟨state, happened⟩ := Option.isSome_iff_exists.1 happens
    obtain ⟨worker, _, look⟩ := regular.look looking happened
    cases shape : lined.line with
    | nil =>
      exact ⟨.join worker, isSome_join look.wantsJob (by simp [shape]), .inr rfl⟩
    | cons front rest =>
      have idle := ordered.wants front (by simp [shape])
      obtain ⟨same, looks, turn, possible⟩ := regular.evenly looking happened idle
      exact ⟨.act same, isSome_front shape looks turn possible, .inr (by simp [Move.worker?, turn])⟩
  · exact ⟨.act event, isSome_act (by simpa using looking) happens, .inl rfl⟩

/-! ### How many moves are left -/

def outside (workshop : Workshop State Event J R E) (lined : Lined State) : Finset Nat :=
  (Finset.range (workshop.pool lined.state).workers.length).filter fun worker =>
    (workshop.pool lined.state).wantsJob worker = true ∧ worker ∉ lined.line

theorem mem_outside : worker ∈ outside workshop lined ↔
    (workshop.pool lined.state).wantsJob worker = true ∧ worker ∉ lined.line := by
  rw [outside, Finset.mem_filter, Finset.mem_range, and_iff_right_iff_imp]
  rintro ⟨idle, _⟩
  exact (List.getElem?_eq_some_iff.1 (wantsJob_iff.1 idle)).1

theorem card_outside_join (idle : (workshop.pool lined.state).wantsJob worker = true)
    (away : worker ∉ lined.line) :
    (outside workshop { lined with line := lined.line ++ [worker] }).card + 1 =
      (outside workshop lined).card := by
  have left : outside workshop { lined with line := lined.line ++ [worker] } =
      (outside workshop lined).erase worker := by
    ext other
    rw [mem_outside, Finset.mem_erase, mem_outside, List.mem_append, List.mem_singleton, not_or]
    tauto
  rw [left]
  exact Finset.card_erase_add_one (mem_outside.2 ⟨idle, away⟩)

theorem card_outside_look {state : State} {rest : List Nat} (shape : lined.line = worker :: rest)
    (look : Look (workshop.pool lined.state) worker (workshop.pool state)) :
    (outside workshop { state, line := rest }).card ≤ (outside workshop lined).card := by
  apply Finset.card_le_card
  intro other member
  obtain ⟨wants, absent⟩ := mem_outside.1 member
  obtain ⟨before, apart⟩ := look.wantsJob_iff.1 wants
  refine mem_outside.2 ⟨before, ?_⟩
  rw [shape, List.mem_cons, not_or]
  exact ⟨apart, absent⟩

theorem card_outside_act {state : State}
    (act : Act (workshop.pool lined.state) worker (workshop.pool state)) :
    (outside workshop { lined with state }).card ≤ (outside workshop lined).card + 1 := by
  refine le_trans (Finset.card_le_card ?_) (Finset.card_insert_le worker _)
  intro other member
  obtain ⟨wants, absent⟩ := mem_outside.1 member
  rw [Finset.mem_insert]
  rcases act.wantsJob_or wants with before | same
  · exact .inr (mem_outside.2 ⟨before, absent⟩)
  · exact .inl same

/-- The most moves that are left, if `steps` are left without the line: a worker may join the line
after each step. -/
def toil (workshop : Workshop State Event J R E) (steps : State → Nat) (lined : Lined State) :
    Nat :=
  2 * steps lined.state + (outside workshop lined).card

/-- What concerns no worker brings none to the line. -/
theorem toil_of_owner (workshop : Workshop State Event J R E) (steps : State → Nat) {state : State}
    (same : (workshop.pool state).workers = (workshop.pool lined.state).workers) :
    toil workshop steps { lined with state } =
      2 * steps state + (outside workshop lined).card := by
  have outsiders : outside workshop { lined with state } = outside workshop lined := by
    unfold outside wantsJob
    rw [same]
  rw [toil, outsiders]

variable {steps : State → Nat}

/-- Joining the line, looking and acting all bring the end nearer. -/
theorem toil_lt_of_worker (regular : workshop.Regular)
    (fewer : ∀ {state event worker}, workshop.worker? event = some worker →
      workshop.after? lined.state event = some state → steps state < steps lined.state)
    (turn : (move.worker? workshop).isSome) (taken : lined.after? workshop move = some next) :
    toil workshop steps next < toil workshop steps lined := by
  unfold toil
  rcases after?_cases taken with ⟨worker, rfl, idle, away, rfl⟩ |
    ⟨event, worker, rest, state, rfl, looking, acting, shape, happened, rfl⟩ |
    ⟨event, state, rfl, looking, happened, rfl⟩
  · have joined := card_outside_join idle away
    dsimp only
    omega
  · obtain ⟨front, same, look⟩ := regular.look looking happened
    rw [acting, Option.some.injEq] at same
    subst same
    have waiting := card_outside_look shape look
    have less := fewer acting happened
    dsimp only
    omega
  · obtain ⟨worker, acting⟩ := Option.isSome_iff_exists.1 turn
    have waiting := card_outside_act (regular.act looking acting happened)
    have less := fewer acting happened
    dsimp only
    omega

end Lined

end LogCensus.Pool
