/-!
A pool of workers that share one bounded queue of jobs. The outcome of a job goes to one of two
bounded queues, for results and for errors; a worker whose outcome finds no room waits with it.
Cancelling stops the workers: those that wait for a job take no more, those that wait with an
outcome drop it.

A pool is a value, and each thing that can happen next is a function on it: what the owner of the
pool does always has an answer, what a worker does happens only if it is that worker's turn.
-/

namespace LogCensus

inductive Worker (J R E : Type) where
  | idle
  | running (job : J)
  | holding (job : J) (outcome : Except E R)
  | stopped

inductive Receiver where
  | kept
  | taken
  | dropped
  deriving DecidableEq, Repr

structure Channel (J α : Type) where
  queue : List (J × α) := []
  receiver : Receiver := .kept
  received : List (J × α) := []

/-- Why an accepted job has no outcome in a queue: its processing crashed, its outcome still waited
for room when the pool was cancelled, or the receiver of its outcome was dropped. -/
inductive Loss (R E : Type) where
  | crashed
  | cancelled (outcome : Except E R)
  | unwanted (outcome : Except E R)

inductive Phase where
  | open
  | closing
  | closed
  deriving DecidableEq, Repr

inductive Rejection where
  | cancelled
  | closed
  deriving DecidableEq, Repr

def Rejection.message : Rejection → String
  | cancelled => "Operation cancelled"
  | closed => "Worker pool is closed"

structure Pool (J R E : Type) where
  size : Nat
  capacity : Nat
  started : Bool := false
  workers : List (Worker J R E) := []
  jobs : List J := []
  results : Channel J R := {}
  errors : Channel J E := {}
  cancelled : Bool := false
  phase : Phase := .open
  lost : List (J × Loss R E) := []

namespace Channel

variable {J α : Type}

def push (channel : Channel J α) (job : J) (value : α) : Channel J α :=
  { channel with queue := channel.queue ++ [(job, value)] }

def receive? (channel : Channel J α) : Option (α × Channel J α) :=
  match channel.queue with
  | [] => none
  | (job, value) :: rest =>
    some (value, { channel with queue := rest, received := channel.received ++ [(job, value)] })

end Channel

namespace Pool

variable {J R E : Type}

def create (size capacity : Nat) : Pool J R E := { size, capacity }

/-- The most items that a queue can be made for, `2 ^ 61 - 1`. -/
def mostItems : Nat := 0x1FFFFFFFFFFFFFFF

def create? (size capacity : Nat) : Option (Pool J R E) :=
  if 0 < capacity ∧ capacity ≤ mostItems then some (create size capacity) else none

def setWorker (pool : Pool J R E) (index : Nat) (worker : Worker J R E) : Pool J R E :=
  { pool with workers := pool.workers.set index worker }

def lose (pool : Pool J R E) (job : J) (loss : Loss R E) : Pool J R E :=
  { pool with lost := pool.lost ++ [(job, loss)] }

def isStopped : Worker J R E → Bool
  | .stopped => true
  | _ => false

def allStopped (pool : Pool J R E) : Bool := pool.workers.all isStopped

def active (pool : Pool J R E) : Nat :=
  pool.workers.countP fun | .running _ => true | _ => false

/-! ### What the owner does -/

def start (pool : Pool J R E) : Pool J R E :=
  if pool.started || pool.phase = .closed then pool
  else { pool with started := true, workers := List.replicate pool.size .idle }

inductive Submission (J R E : Type) where
  | accepted (pool : Pool J R E)
  | rejected (rejection : Rejection)
  | waits

def submit (pool : Pool J R E) (job : J) : Submission J R E :=
  if pool.phase ≠ .open then .rejected .closed
  else if pool.cancelled then .rejected .cancelled
  else if pool.jobs.length < pool.capacity then
    .accepted { pool with jobs := pool.jobs ++ [job] }
  else .waits

def cancel (pool : Pool J R E) : Pool J R E := { pool with cancelled := true }

def close (pool : Pool J R E) : Pool J R E :=
  if pool.phase = .open then { pool with phase := .closing } else pool

def closed? (pool : Pool J R E) : Option (Pool J R E) :=
  if pool.phase ≠ .open ∧ pool.allStopped then some { pool with phase := .closed } else none

def takeResults (pool : Pool J R E) : Option (Pool J R E) :=
  if pool.results.receiver = .kept then
    some { pool with results := { pool.results with receiver := .taken } }
  else none

def takeErrors (pool : Pool J R E) : Option (Pool J R E) :=
  if pool.errors.receiver = .kept then
    some { pool with errors := { pool.errors with receiver := .taken } }
  else none

/-- The receiving end of the results is thrown away, with all that is in the queue. -/
def dropResults (pool : Pool J R E) : Pool J R E :=
  if pool.results.receiver = .taken then
    { pool with
      results := { pool.results with receiver := .dropped, queue := [] }
      lost := pool.lost ++ pool.results.queue.map fun item => (item.1, .unwanted (.ok item.2)) }
  else pool

def dropErrors (pool : Pool J R E) : Pool J R E :=
  if pool.errors.receiver = .taken then
    { pool with
      errors := { pool.errors with receiver := .dropped, queue := [] }
      lost := pool.lost ++ pool.errors.queue.map fun item => (item.1, .unwanted (.error item.2)) }
  else pool

def receiveResult? (pool : Pool J R E) : Option (R × Pool J R E) :=
  if pool.results.receiver = .taken then
    pool.results.receive?.map fun (value, results) => (value, { pool with results })
  else none

def receiveError? (pool : Pool J R E) : Option (E × Pool J R E) :=
  if pool.errors.receiver = .taken then
    pool.errors.receive?.map fun (value, errors) => (value, { pool with errors })
  else none

/-! ### What a worker does -/

def proceed? (pool : Pool J R E) (index : Nat) : Option (Pool J R E) :=
  match pool.workers[index]? with
  | some .idle =>
    if pool.cancelled then some (pool.setWorker index .stopped)
    else
      match pool.jobs with
      | job :: rest => some ({ pool with jobs := rest }.setWorker index (.running job))
      | [] => if pool.phase = .open then none else some (pool.setWorker index .stopped)
  | _ => none

def receiverFor (pool : Pool J R E) : Except E R → Receiver
  | .ok _ => pool.results.receiver
  | .error _ => pool.errors.receiver

def queuedFor (pool : Pool J R E) : Except E R → Nat
  | .ok _ => pool.results.queue.length
  | .error _ => pool.errors.queue.length

def push (pool : Pool J R E) (job : J) (outcome : Except E R) : Pool J R E :=
  { pool with
    results := match outcome with
      | .ok value => pool.results.push job value
      | .error _ => pool.results
    errors := match outcome with
      | .ok _ => pool.errors
      | .error value => pool.errors.push job value }

/-- The pool with an outcome offered to its queue; `none` if there is no room. -/
def deliver? (pool : Pool J R E) (index : Nat) (job : J) (outcome : Except E R) :
    Option (Pool J R E) :=
  if pool.receiverFor outcome = .dropped then
    some ((pool.lose job (.unwanted outcome)).setWorker index .stopped)
  else if pool.queuedFor outcome < pool.capacity then
    some ((pool.push job outcome).setWorker index .idle)
  else none

def finish? (pool : Pool J R E) (index : Nat) (outcome : Except E R) : Option (Pool J R E) :=
  match pool.workers[index]? with
  | some (.running job) =>
    some ((pool.deliver? index job outcome).getD (pool.setWorker index (.holding job outcome)))
  | _ => none

def together : Except E R → Except E R → Bool
  | .ok _, .ok _ => true
  | .error _, .error _ => true
  | _, _ => false

def waitingFor (pool : Pool J R E) (outcome : Except E R) : Nat :=
  pool.workers.countP fun | .holding _ other => together outcome other | _ => false

/-- The job of a worker ends with an outcome, but each free place of its queue is promised to a
worker that waits. -/
def defer? (pool : Pool J R E) (index : Nat) (outcome : Except E R) : Option (Pool J R E) :=
  match pool.workers[index]? with
  | some (.running job) =>
    if pool.receiverFor outcome ≠ .dropped
        ∧ pool.capacity ≤ pool.queuedFor outcome + pool.waitingFor outcome then
      some (pool.setWorker index (.holding job outcome))
    else none
  | _ => none

def crash? (pool : Pool J R E) (index : Nat) : Option (Pool J R E) :=
  match pool.workers[index]? with
  | some (.running job) => some ((pool.lose job .crashed).setWorker index .stopped)
  | _ => none

/-- A worker that waits with an outcome drops it when the pool is cancelled, and else hands it on
if there is room by now. -/
def release? (pool : Pool J R E) (index : Nat) : Option (Pool J R E) :=
  match pool.workers[index]? with
  | some (.holding job outcome) =>
    if pool.cancelled then some ((pool.lose job (.cancelled outcome)).setWorker index .stopped)
    else pool.deliver? index job outcome
  | _ => none

end Pool

end LogCensus
