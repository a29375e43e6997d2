import LogCensus.Analysis
import LogCensus.Pool.Line

/-!
The analysis of many files by many workers. One party submits the files, the workers of a pool
inspect them, and one party gathers the outcomes; whose turn it is next is open. An analysis is
over when the pool is closed and nothing waits to be gathered.

`after?` says what a turn makes of a run; `Reachable` holds of the runs of all orders of turns.
-/

namespace LogCensus.Analysis

structure Run where
  waiting : List Path
  pool : Pool Path Tally Failure
  gathered : Analysis
  /-- The files whose inspection has ended, with the number of lines that had been read when it saw
  the cancellation, if it did. -/
  inspected : List (Path × Option Nat) := []

inductive Turn where
  | submit
  | close
  | closed
  | cancel
  | proceed (worker : Nat)
  | finish (worker : Nat) (seenAfter : Option Nat)
  | defer (worker : Nat) (seenAfter : Option Nat)
  | release (worker : Nat)
  | gatherTally
  | gatherFailure
  deriving DecidableEq, Repr

structure Subject where
  registry : Registry
  settings : Settings
  files : FileSystem

namespace Subject

def workers (subject : Subject) : Nat := subject.settings.workers.toNat

def capacity (subject : Subject) : Nat :=
  (resolveBufferSize subject.settings.bufferSize subject.settings.workers).toNat

end Subject

namespace Run

/-- The pool of an analysis before anything has happened: both receivers belong to the party that
gathers, and the workers wait. -/
def freshPool (workers capacity : Nat) : Pool Path Tally Failure :=
  { Pool.create workers capacity with
    results := { receiver := .taken }
    errors := { receiver := .taken } : Pool Path Tally Failure }.start

def begin (workers capacity : Nat) (paths : List Path) : Run where
  waiting := paths
  pool := freshPool workers capacity
  gathered := .ofCount paths.length {}

/-- Whether a scan sees the cancellation, which it does after so many lines, or never. -/
def sees (seenAfter : Option Nat) (scan : Scan) : Bool := seenAfter.any (· ≤ scan.lines)

def outcomeOf (subject : Subject) (seenAfter : Option Nat) (path : Path) : Except Failure Tally :=
  (Inspection.ofPath subject.registry subject.settings (fun _ => sees seenAfter) subject.files
    path).outcome

/-- The next file is submitted. Where it is rejected, all files that wait are given up. -/
def submit? (run : Run) : Option Run :=
  match run.waiting with
  | [] => none
  | path :: rest =>
    match run.pool.submit path with
    | .accepted pool => some { run with waiting := rest, pool }
    | .rejected _ => some { run with waiting := [] }
    | .waits => none

/-- A worker's inspection ends, and `offer?` offers the outcome to its queue. The inspection cannot
have seen a cancellation that has not happened. -/
def endInspection? (subject : Subject) (run : Run) (worker : Nat) (seenAfter : Option Nat)
    (offer? : Except Failure Tally → Option (Pool Path Tally Failure)) : Option Run :=
  match run.pool.workers[worker]? with
  | some (.running path) =>
    if seenAfter.isSome && !run.pool.cancelled then none
    else
      (offer? (outcomeOf subject seenAfter path)).map fun pool =>
        { run with pool, inspected := run.inspected ++ [(path, seenAfter)] }
  | _ => none

/-- What a turn makes of a run; `none` where it is not this turn. -/
def after? (subject : Subject) (run : Run) : Turn → Option Run
  | .submit => run.submit?
  | .close =>
    if run.waiting.isEmpty && run.pool.phase = .open then some { run with pool := run.pool.close }
    else none
  | .closed =>
    if run.pool.phase = .closing then run.pool.closed?.map fun pool => { run with pool } else none
  | .cancel => if run.pool.cancelled then none else some { run with pool := run.pool.cancel }
  | .proceed worker => (run.pool.proceed? worker).map fun pool => { run with pool }
  | .finish worker seenAfter => run.endInspection? subject worker seenAfter (run.pool.finish? worker)
  | .defer worker seenAfter => run.endInspection? subject worker seenAfter (run.pool.defer? worker)
  | .release worker => (run.pool.release? worker).map fun pool => { run with pool }
  | .gatherTally =>
    run.pool.receiveResult?.map fun (tally, pool) =>
      { run with pool, gathered := run.gathered.addTally tally }
  | .gatherFailure =>
    run.pool.receiveError?.map fun (failure, pool) =>
      { run with pool, gathered := run.gathered.addFailure failure }

def afterAll? (subject : Subject) (run : Run) : List Turn → Option Run
  | [] => some run
  | turn :: rest => (run.after? subject turn).bind fun next => next.afterAll? subject rest

def worker? : Turn → Option Nat
  | .proceed worker | .finish worker _ | .defer worker _ | .release worker => some worker
  | _ => none

def looks : Turn → Bool
  | .proceed _ => true
  | _ => false

def workshop (subject : Subject) : Pool.Workshop Run Turn Path Tally Failure where
  pool := pool
  after? := after? subject
  worker? := worker?
  looks := looks

def isOver (run : Run) : Bool :=
  run.pool.phase = .closed && run.pool.results.queue.isEmpty && run.pool.errors.queue.isEmpty

inductive Reachable (subject : Subject) (workers capacity : Nat) (paths : List Path) : Run → Prop
    where
  | begun : Reachable subject workers capacity paths (begin workers capacity paths)
  | turn {run next : Run} {turn : Turn} (before : Reachable subject workers capacity paths run)
      (taken : run.after? subject turn = some next) :
      Reachable subject workers capacity paths next

end Run

end LogCensus.Analysis
