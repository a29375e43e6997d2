import LogCensus.Pool.History

/-!
The line at the queue of jobs. Only one worker at a time looks at the queue, and it stays there
until there is a job for it or there will be none. Other workers that want a job stand in line and
move up as those in front of them leave.

A workshop is a system in which the workers of a pool have their turns. `Lined` puts the line before
the queue of a workshop: a look at the queue is a turn of the worker in front only.
-/

namespace LogCensus.Pool

def Event.worker? {P J R E : Type} : Event P J R E → Option Nat
  | .proceed worker | .finish worker _ | .defer worker _ | .crash worker | .release worker =>
    some worker
  | _ => none

def Event.looks {P J R E : Type} : Event P J R E → Bool
  | .proceed _ => true
  | _ => false

structure Workshop (State Event J R E : Type) where
  pool : State → Pool J R E
  after? : State → Event → Option State
  worker? : Event → Option Nat
  looks : Event → Bool

def History.workshop {P J R E : Type} : Workshop (History P J R E) (Event P J R E) J R E where
  pool := History.pool
  after? := History.after?
  worker? := Event.worker?
  looks := Event.looks

def wantsJob {J R E : Type} (pool : Pool J R E) (worker : Nat) : Bool :=
  match pool.workers[worker]? with
  | some .idle => true
  | _ => false

/-- A state of a workshop with the workers that stand in line. -/
structure Lined (State : Type) where
  state : State
  line : List Nat := []

namespace Lined

inductive Move (Event : Type) where
  | join (worker : Nat)
  | act (event : Event)

variable {State Event J R E : Type} (workshop : Workshop State Event J R E)

def Move.worker? : Move Event → Option Nat
  | .join worker => some worker
  | .act event => workshop.worker? event

def after? (lined : Lined State) : Move Event → Option (Lined State)
  | .join worker =>
    if (workshop.pool lined.state).wantsJob worker && !lined.line.contains worker then
      some { lined with line := lined.line ++ [worker] }
    else none
  | .act event =>
    if workshop.looks event then
      match lined.line with
      | [] => none
      | front :: rest =>
        if workshop.worker? event = some front then
          (workshop.after? lined.state event).map fun state => { state, line := rest }
        else none
    else (workshop.after? lined.state event).map fun state => { lined with state }

def afterAll? (lined : Lined State) : List (Move Event) → Option (Lined State)
  | [] => some lined
  | move :: rest => (lined.after? workshop move).bind fun next => next.afterAll? rest

inductive Reachable (first : State) : Lined State → Prop where
  | begun : Reachable first { state := first }
  | moved {lined next : Lined State} {move : Move Event} (before : Reachable first lined)
      (taken : lined.after? workshop move = some next) : Reachable first next

end Lined

end LogCensus.Pool
