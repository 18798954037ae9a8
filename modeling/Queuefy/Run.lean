import Queuefy.Clock

/-! # Runs and the tasks they are built from

A run is one execution of one task. Everything a store keeps of it stands here except its id,
which is the one thing a store names for itself; a `Row` is a run together with that id.
Payloads and results are JSON values no store looks into, so their type is a parameter.
-/

namespace Queuefy

inductive RunStatus
  | pending | running | done | failed | canceled
deriving DecidableEq

/-- A run in one of these is over, and nothing claims it again. -/
def RunStatus.settled : RunStatus → Bool
  | .pending | .running => false
  | .done | .failed | .canceled => true

inductive RetryPolicy
  | fixed | linear | exponential | exponentialJitter
deriving DecidableEq

structure Run (V : Type) where
  name : String
  queue : String
  payload : V
  key : Option String
  status : RunStatus
  priority : Int
  dueAt : Instant
  attempts : Int
  maxAttempts : Int
  timeout : Option ℚ
  retryPolicy : RetryPolicy
  retryDelay : ℚ
  maxRetryDelay : ℚ
  worker : Option String
  leaseUntil : Option Instant
  createdAt : Instant
  startedAt : Option Instant
  finishedAt : Option Instant
  result : Option V
  error : Option String
  errorType : Option String
deriving DecidableEq

/-- A run a store holds, under the id that store gave it. -/
structure Row (ι V : Type) extends Run V where
  id : ι
deriving DecidableEq

def Run.exhausted {V : Type} (run : Run V) : Bool := decide (run.maxAttempts ≤ run.attempts)

/-! ## Limits every store shares -/

/-- How many rows past the asked-for limit a claim looks at. -/
def claimSpread : Nat := 5

/-- How many expired leases one pass takes back. -/
def reclaimBatch : Nat := 500

/-- The most attempts a run may be allowed. -/
def attemptLimit : Int := 2 ^ 31 - 1

/-- A task may be tried once. -/
theorem once_tried : (1 : Int) ≤ 1 := le_rfl

theorem once_counted : 1 ≤ attemptLimit := by decide

/-! ## Tasks -/

/-- Whether calling a handler answers a coroutine or runs it to its end on a thread. -/
inductive Handler
  | coroutine | plain
deriving DecidableEq

/-- What turns an instant into the next one a recurring task is due; nothing is the error
working it out raised. -/
structure Trigger where
  nextAfter : Instant → Option Instant

/-- Every `span` microseconds, counted from the epoch. -/
structure Interval where
  span : Int
  positive : 0 < span

def Interval.nextAfter (every : Interval) (moment : Instant) : Option Instant :=
  Instant.epoch.plus (every.span * (moment.micro / every.span + 1))

def Interval.trigger (every : Interval) : Trigger := ⟨every.nextAfter⟩

/-- A task as `register` lets it through; the two bounds are the ones `policed` asks for. -/
structure Task where
  name : String
  handler : Handler
  queue : String
  trigger : Option Trigger
  maxAttempts : Int
  timeout : Option ℚ
  retryPolicy : RetryPolicy
  retryDelay : ℚ
  maxRetryDelay : ℚ
  priority : Int
  tried : 1 ≤ maxAttempts
  counted : maxAttempts ≤ attemptLimit

/-- The registry looked up by name; nothing is the `UnknownTask` it raises. -/
def taskFor (tasks : List Task) (name : String) : Option Task := tasks.find? (·.name = name)

/-- The run `Queuefy.build` writes, past the guards on its arguments. `createdAt` is the clock
the dataclass reads as the run is built. -/
def build {V : Type} (task : Task) (dueAt createdAt : Instant) (payload : V)
    (key : Option String) (priority : Option Int) : Run V where
  name := task.name
  queue := task.queue
  payload := payload
  key := key
  status := .pending
  priority := priority.getD task.priority
  dueAt := dueAt
  attempts := 0
  maxAttempts := task.maxAttempts
  timeout := task.timeout
  retryPolicy := task.retryPolicy
  retryDelay := task.retryDelay
  maxRetryDelay := task.maxRetryDelay
  worker := none
  leaseUntil := none
  createdAt := createdAt
  startedAt := none
  finishedAt := none
  result := none
  error := none
  errorType := none

end Queuefy
