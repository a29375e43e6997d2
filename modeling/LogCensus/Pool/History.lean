import LogCensus.Pool.Basic

/-!
What can happen to a pool, in any order. A history is a pool with what has happened to it so far:
the jobs that it accepted, those that went into a processor, each with that processor, and what came
of them there.

A place that becomes free is promised to the worker that has waited longest. Until that worker takes
it, or drops its outcome because the pool is cancelled, another outcome finds no room; this is the
event `defer`.

`after?` says what an event makes of a history, and that it cannot happen where it gives nothing;
`Reachable` holds of the histories of all orders of events.
-/

namespace LogCensus.Pool

/-- What can happen to a pool with processors of type `P`. Its owner acts at any time, a worker
when it is its turn. -/
inductive Event (P J R E : Type) where
  | start (processor : P)
  | submit (job : J)
  | cancel
  | close
  | closed
  | takeResults
  | takeErrors
  | dropResults
  | dropErrors
  | receiveResult
  | receiveError
  | proceed (worker : Nat)
  | finish (worker : Nat) (outcome : Except E R)
  | defer (worker : Nat) (outcome : Except E R)
  | crash (worker : Nat)
  | release (worker : Nat)

structure History (P J R E : Type) where
  pool : Pool J R E
  processor : Option P := none
  accepted : List J := []
  entered : List (P × J) := []
  crashed : List J := []
  returned : List (J × Except E R) := []
  /-- The outcomes that found no room when they were first offered. -/
  deferred : List (J × Except E R) := []

namespace History

variable {P J R E : Type}

def create (size capacity : Nat) : History P J R E := { pool := Pool.create size capacity }

/-- The history after a start, which has an effect only on a pool that has not been started. -/
def start (history : History P J R E) (processor : P) : History P J R E :=
  let pool := history.pool.start
  if history.pool.started = pool.started then history
  else { history with pool, processor := some processor }

/-- The history after a job was submitted; a job that has to wait is not submitted yet. -/
def submit? (history : History P J R E) (job : J) : Option (History P J R E) :=
  match history.pool.submit job with
  | .accepted pool => some { history with pool, accepted := history.accepted ++ [job] }
  | .rejected _ => some history
  | .waits => none

def proceed? (history : History P J R E) (worker : Nat) : Option (History P J R E) :=
  (history.pool.proceed? worker).map fun (pool : Pool J R E) =>
    match history.processor, pool.workers[worker]? with
    | some processor, some (.running job) =>
      { history with pool, entered := history.entered ++ [(processor, job)] }
    | _, _ => { history with pool }

def finish? (history : History P J R E) (worker : Nat) (outcome : Except E R) :
    Option (History P J R E) :=
  match history.pool.workers[worker]? with
  | some (.running job) =>
    (history.pool.finish? worker outcome).map fun (pool : Pool J R E) =>
      { history with
        pool
        returned := history.returned ++ [(job, outcome)]
        deferred :=
          if (history.pool.deliver? worker job outcome).isSome then history.deferred
          else history.deferred ++ [(job, outcome)] }
  | _ => none

def defer? (history : History P J R E) (worker : Nat) (outcome : Except E R) :
    Option (History P J R E) :=
  match history.pool.workers[worker]? with
  | some (.running job) =>
    (history.pool.defer? worker outcome).map fun (pool : Pool J R E) =>
      { history with
        pool
        returned := history.returned ++ [(job, outcome)]
        deferred := history.deferred ++ [(job, outcome)] }
  | _ => none

def crash? (history : History P J R E) (worker : Nat) : Option (History P J R E) :=
  match history.pool.workers[worker]? with
  | some (.running job) =>
    (history.pool.crash? worker).map fun (pool : Pool J R E) =>
      { history with pool, crashed := history.crashed ++ [job] }
  | _ => none

def after? (history : History P J R E) : Event P J R E → Option (History P J R E)
  | .start processor => some (history.start processor)
  | .submit job => history.submit? job
  | .cancel => some { history with pool := history.pool.cancel }
  | .close => some { history with pool := history.pool.close }
  | .closed => history.pool.closed?.map fun pool => { history with pool }
  | .takeResults => history.pool.takeResults.map fun pool => { history with pool }
  | .takeErrors => history.pool.takeErrors.map fun pool => { history with pool }
  | .dropResults => some { history with pool := history.pool.dropResults }
  | .dropErrors => some { history with pool := history.pool.dropErrors }
  | .receiveResult => history.pool.receiveResult?.map fun (_, pool) => { history with pool }
  | .receiveError => history.pool.receiveError?.map fun (_, pool) => { history with pool }
  | .proceed worker => history.proceed? worker
  | .finish worker outcome => history.finish? worker outcome
  | .defer worker outcome => history.defer? worker outcome
  | .crash worker => history.crash? worker
  | .release worker => (history.pool.release? worker).map fun pool => { history with pool }

def afterAll? (history : History P J R E) : List (Event P J R E) → Option (History P J R E)
  | [] => some history
  | event :: rest => (history.after? event).bind fun next => next.afterAll? rest

inductive Reachable (size capacity : Nat) : History P J R E → Prop where
  | created : Reachable size capacity (create size capacity)
  | step {history next : History P J R E} {event : Event P J R E}
      (before : Reachable size capacity history) (happens : history.after? event = some next) :
      Reachable size capacity next

end History

end LogCensus.Pool
