import Queuefy.Lib.Reach
import Queuefy.Store.MemorySpec
import Queuefy.Worker.Attempt

/-! # A fleet of workers over one store

Any number of workers claim from one store, spawn an attempt for each run they came away with
and beat for it while it works. A call of an attempt is issued at one step and takes effect at
another, any number of steps later, so calls overtake each other freely; a call that is lost
is one that never takes effect. A worker dies by taking no further step.

Every claim the store ever granted stays in the list, in the order they were granted. Its
field `holds` is a history variable: it is set by the grant and cleared for good as soon as
the run is seen not running or is granted again, whatever made that happen.
-/

namespace Queuefy

/-- A worker as `Worker.__init__` lets it through. The lease was measured against the clock of
that moment, and is added to the clock of every claim made later. -/
structure Worker where
  name : String
  queues : List String
  lease : Int
  tasks : List Task
  builtAt : Instant
  leased : 0 < lease
  leaseWaited : waited lease builtAt

/-- The handler under a name; nothing is the `UnknownTask` of a name not declared here. -/
def Worker.handler (w : Worker) (name : String) : Option Handler :=
  (taskFor w.tasks name).map (·.handler)

/-- Where `Worker.run` is: polling, waiting out its grace, or gone with its pool shut down. -/
inductive Loop
  | polling | draining | ended
deriving DecidableEq

structure Shift where
  loop : Loop
  stopping : Bool

/-- A claim the store granted, the attempt spawned for it, and the beats it has in flight,
each under the instant it was issued at. -/
structure Claim (V : Type) extends Attempt V where
  worker : Nat
  beats : List Instant
  holds : Bool

/-- `written` and `entries` are history: the runs the store ever took, and the run of every
handler that was ever entered, one entry for each time. -/
structure Fleet (V : Type) where
  store : MemoryStore V
  claims : List (Claim V)
  shifts : Nat → Shift
  written : List (Row Nat V)
  entries : List Nat

inductive Event (V : Type)
  | add (task : Task) (dueAt createdAt : Instant) (payload : V) (key : Option String)
      (priority : Option Int)
  | claim (worker limit : Nat) (moment : Instant) (heard : Bool)
  | reclaim (moment : Instant)
  | cancel (id : Nat) (moment : Instant)
  | purge (before : Instant) (limit : Nat)
  | push (claim : Nat) (moment : Instant)
  | beatLands (claim beat : Nat)
  | move (claim : Nat) (m : Move V)
  | lands (claim : Nat)
  | stop (worker : Nat)
  | drain (worker : Nat)
  | shut (worker : Nat)

/-- The claim a step is about, when it is about one. -/
def Event.subject {V : Type} : Event V → Option Nat
  | .push i _ | .beatLands i _ | .move i _ | .lands i => some i
  | _ => none

section

variable {V : Type}

/-- Whether a claim whose ending the store took was handed back with its attempt. -/
def Claim.released (c : Claim V) : Bool :=
  match c.phase with
  | .answered (.release ..) true => true
  | _ => false

/-- An attempt as the store first knows of it. A claim whose answer never reached a worker is
one no attempt is ever made of. -/
def spawn (worker : Nat) (heard : Bool) (row : Row Nat V) : Claim V where
  row := row
  phase := if heard then .starting else .gone
  work := .idle
  worker := worker
  beats := []
  holds := true

/-- What the history of a claim becomes once the store is `store` and the runs of `granted`
were granted anew. -/
def watch (store : MemoryStore V) (granted : List Nat) (c : Claim V) : Claim V :=
  { c with
    holds := c.holds && (store.get c.row.id).any (·.status = .running) && c.row.id ∉ granted }

/-- The rows that are running in `after` and were not in `before`. -/
def turned (before after : MemoryStore V) : List (Row Nat V) :=
  after.runs.filter fun row =>
    row.status = .running ∧ ¬ (before.get row.id).any (·.status = .running)

end

namespace Fleet

variable {V : Type}

def start : Fleet V := ⟨.empty, [], fun _ => ⟨.polling, false⟩, [], []⟩

def replace (s : Fleet V) (i : Nat) (c : Claim V) : Fleet V :=
  { s with claims := s.claims.set i c }

def setLoop (s : Fleet V) (worker : Nat) (loop : Loop) : Fleet V :=
  { s with shifts := Function.update s.shifts worker { s.shifts worker with loop := loop } }

/-- Writes the history of a step that granted the claims of `fresh`. -/
def observe (s : Fleet V) (fresh : List (Claim V)) : Fleet V :=
  { s with claims := s.claims.map (watch s.store (fresh.map (·.row.id))) ++ fresh }

variable (team : Nat → Worker)

/-- The store's side of an ending, asked under the claim it belongs to. -/
def end_ (store : MemoryStore V) (c : Claim V) : Ending V → Bool × MemoryStore V
  | .complete moment result =>
      store.complete c.row.id (team c.worker).name c.row.attempts moment result
  | .fail moment error errorType =>
      store.fail c.row.id (team c.worker).name c.row.attempts moment error errorType
  | .retryLater dueAt error errorType =>
      store.retryLater c.row.id (team c.worker).name c.row.attempts dueAt error errorType
  | .release dueAt error errorType =>
      store.release c.row.id (team c.worker).name c.row.attempts dueAt error errorType

def beat (store : MemoryStore V) (c : Claim V) (moment : Instant) :
    Except OverflowError Bool × MemoryStore V :=
  store.heartbeat c.row.id (team c.worker).name c.row.attempts (team c.worker).lease moment

/-- One claim of a worker. A claim is only ever heard by a worker that is still polling, and
one that raised is heard by nobody. -/
def claim (s : Fleet V) (worker limit : Nat) (moment : Instant) (heard : Bool) :
    Option (Fleet V × List (Claim V)) :=
  if heard = true ∧ (s.shifts worker).loop ≠ .polling then none
  else
    let w := team worker
    match s.store.claim w.name w.queues limit w.lease moment with
    | (.ok rows, store) => some ({ s with store := store }, rows.map (spawn worker heard))
    | (.error _, store) =>
        some ({ s with store := store }, (turned s.store store).map (spawn worker false))

/-- What a step makes of the fleet, and the claims the store granted in it. -/
def act (s : Fleet V) : Event V → Option (Fleet V × List (Claim V))
  | .add task dueAt createdAt payload key priority =>
      let (row, store) := s.store.add (build task dueAt createdAt payload key priority)
      some ({ s with store := store, written := s.written ++ row.toList }, [])
  | .claim worker limit moment heard => s.claim team worker limit moment heard
  | .reclaim moment => some ({ s with store := (s.store.reclaim moment).2 }, [])
  | .cancel id moment => some ({ s with store := (s.store.cancel id moment).2 }, [])
  | .purge before limit => some ({ s with store := (s.store.purge before limit).2 }, [])
  | .push i moment =>
      match s.claims[i]? with
      | none => none
      | some c =>
          match c.phase with
          | .gone => none
          | _ => some (s.replace i { c with beats := c.beats ++ [moment] }, [])
  | .beatLands i k =>
      match s.claims[i]? with
      | none => none
      | some c =>
          match c.beats[k]? with
          | none => none
          | some moment =>
              some ({ s.replace i { c with beats := c.beats.eraseIdx k } with
                store := (beat team s.store c moment).2 }, [])
  | .move i m =>
      match s.claims[i]? with
      | none => none
      | some c =>
          let pool := decide ((s.shifts c.worker).loop ≠ .ended)
          match c.toAttempt.move ((team c.worker).handler c.row.name) pool m with
          | none => none
          | some a =>
              some ({ s.replace i { c with toAttempt := a } with
                entries := s.entries ++ if c.enters a then [c.row.id] else [] }, [])
  | .lands i =>
      match s.claims[i]? with
      | none => none
      | some c =>
          match c.phase with
          | .asked ending =>
              let (taken, store) := end_ team s.store c ending
              some ({ s.replace i { c with phase := .answered ending taken } with
                store := store }, [])
          | _ => none
  | .stop worker =>
      some ({ s with
        shifts := Function.update s.shifts worker { s.shifts worker with stopping := true } }, [])
  | .drain worker =>
      match s.shifts worker with
      | ⟨.polling, true⟩ => some (s.setLoop worker .draining, [])
      | _ => none
  | .shut worker => some (s.setLoop worker .ended, [])

def step (s : Fleet V) (e : Event V) : Option (Fleet V) :=
  (s.act team e).map fun moved => moved.1.observe moved.2

/-- The claim under which the call landing at this step was made, and what the store answers
it. A beat that raises is answered nothing. -/
def landing (s : Fleet V) : Event V → Option (Claim V × Bool)
  | .beatLands i k =>
      match s.claims[i]? with
      | none => none
      | some c => (c.beats[k]?).map fun moment => (c, (beat team s.store c moment).1 == .ok true)
  | .lands i =>
      match s.claims[i]? with
      | none => none
      | some c =>
          match c.phase with
          | .asked ending => some (c, (end_ team s.store c ending).1)
          | _ => none
  | _ => none

end Fleet

end Queuefy
