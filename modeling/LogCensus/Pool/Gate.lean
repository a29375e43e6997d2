import LogCensus.Pool.Basic

/-!
A pool run in turns. Jobs may have to wait at a gate that lets one job pass for each permit; when a
job is let pass, its worker goes on until it has to wait again. All waiting is first come, first
served, so a run has no choices.
-/

namespace LogCensus

/-- What comes of a job that has been let pass, or that has been stopped at the gate: an outcome, or
nothing if it crashes. -/
structure Processing (J R E : Type) where
  outcome : (stopped : Bool) → J → Option (Except E R)

structure GatedPool (J R E : Type) where
  pool : Pool J R E
  gated : Bool := false
  permits : Nat := 0
  /-- The workers at the gate, the one that came first in front. -/
  atGate : List Nat := []
  holding : List Nat := []
  peak : Nat := 0
  done : Nat := 0

namespace GatedPool

variable {J R E : Type}

def leave (processing : Processing J R E) (stopped : Bool) (index : Nat)
    (run : GatedPool J R E) : GatedPool J R E :=
  match run.pool.workers[index]? with
  | some (.running job) =>
    let run := { run with done := run.done + 1 }
    match processing.outcome stopped job with
    | none => { run with pool := (run.pool.crash? index).getD run.pool }
    | some outcome => { run with pool := (run.pool.finish? index outcome).getD run.pool }
  | _ => run

/-- A worker goes on until it waits for a job, for a permit or for room. Each turn takes a job. -/
def resume (processing : Processing J R E) (index : Nat) :
    (turns : Nat) → GatedPool J R E → GatedPool J R E
  | 0, run => run
  | turns + 1, run =>
    match run.pool.workers[index]? with
    | some (.holding _ _) =>
      if run.holding.contains index then run else { run with holding := run.holding ++ [index] }
    | some .idle =>
      match run.pool.proceed? index with
      | none => run
      | some pool =>
        let run := { run with pool, peak := max run.peak pool.active }
        match pool.workers[index]? with
        | some (.running _) =>
          if !run.gated then resume processing index turns (run.leave processing false index)
          else if 0 < run.permits then
            resume processing index turns
              ({ run with permits := run.permits - 1 }.leave processing false index)
          else { run with atGate := run.atGate ++ [index] }
        | _ => run
    | _ => run

def turns (run : GatedPool J R E) : Nat := run.pool.jobs.length + 2

def resumeAll (processing : Processing J R E) (run : GatedPool J R E) (indices : List Nat) :
    GatedPool J R E :=
  indices.foldl (fun run index => run.resume processing index run.turns) run

def passAll (processing : Processing J R E) (stopped : Bool) (run : GatedPool J R E)
    (indices : List Nat) : GatedPool J R E :=
  indices.foldl
    (fun run index => (run.leave processing stopped index).resume processing index run.turns) run

def workerIndices (run : GatedPool J R E) : List Nat := List.range run.pool.workers.length

def start (processing : Processing J R E) (gated : Bool) (run : GatedPool J R E) :
    GatedPool J R E :=
  if run.pool.started then run
  else
    let run := { run with pool := run.pool.start, gated }
    run.resumeAll processing run.workerIndices

def submit (processing : Processing J R E) (job : J) (run : GatedPool J R E) :
    Pool.Submission J R E × GatedPool J R E :=
  match run.pool.submit job with
  | .accepted pool =>
    let run := { run with pool }
    (.accepted pool, run.resumeAll processing run.workerIndices)
  | other => (other, run)

def addPermits (processing : Processing J R E) (count : Nat) (run : GatedPool J R E) :
    GatedPool J R E :=
  let passing := run.atGate.take count
  let run := { run with
    atGate := run.atGate.drop count
    permits := run.permits + (count - passing.length) }
  run.passAll processing false passing

def refill (processing : Processing J R E) (run : GatedPool J R E) : GatedPool J R E :=
  run.holding.foldl
    (fun run index =>
      match run.pool.release? index with
      | none => run
      | some pool =>
        let run := { run with pool, holding := run.holding.filter (· != index) }
        run.resume processing index run.turns)
    run

def cancel (processing : Processing J R E) (run : GatedPool J R E) : GatedPool J R E :=
  let waiting := run.atGate
  let run := { run with pool := run.pool.cancel, atGate := [] }
  let run := run.passAll processing true waiting
  let run := run.refill processing
  run.resumeAll processing run.workerIndices

def dropResults (processing : Processing J R E) (run : GatedPool J R E) : GatedPool J R E :=
  { run with pool := run.pool.dropResults }.refill processing

def close (processing : Processing J R E) (run : GatedPool J R E) : Bool × GatedPool J R E :=
  let run := { run with pool := run.pool.close }
  let run := run.resumeAll processing run.workerIndices
  match run.pool.closed? with
  | some pool => (true, { run with pool })
  | none => (false, run)

def drain {α : Type} (processing : Processing J R E)
    (receive? : Pool J R E → Option (α × Pool J R E)) :
    (limit : Nat) → GatedPool J R E → List α × GatedPool J R E
  | 0, run => ([], run)
  | limit + 1, run =>
    match receive? run.pool with
    | none => ([], run)
    | some (value, pool) =>
      let (values, run) := drain processing receive? limit ({ run with pool }.refill processing)
      (value :: values, run)

def itemLimit (run : GatedPool J R E) : Nat :=
  run.pool.jobs.length + run.pool.workers.length + run.pool.results.queue.length
    + run.pool.errors.queue.length + 1

def drainResults (processing : Processing J R E) (run : GatedPool J R E) :
    List R × GatedPool J R E :=
  run.drain processing Pool.receiveResult? run.itemLimit

def drainErrors (processing : Processing J R E) (run : GatedPool J R E) :
    List E × GatedPool J R E :=
  run.drain processing Pool.receiveError? run.itemLimit

end GatedPool

end LogCensus
