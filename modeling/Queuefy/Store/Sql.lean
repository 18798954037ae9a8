import Queuefy.Lib.Interleave
import Queuefy.Store.Base
import Queuefy.Store.Rows

/-! # The SQL store

One table, whose rows the database tells apart by a primary key it counts up itself. Every method
is a few statements: a select reads the rows as they are committed, and an update, a delete or an
insert evaluates its condition and writes in one step, in its own transaction. A comparison with
what a column does not hold is never true.
-/

namespace Queuefy

structure Table (V : Type) where
  rows : List (Row Nat V)
  primary : (rows.map (·.id)).Nodup

variable {V : Type}

abbrev Condition (V : Type) := Row Nat V → Bool

inductive Statement (V : Type)
  | update (condition : Condition V) (values : Run V → Run V)
  | delete (condition : Condition V)
  | insert (id : Nat) (run : Run V)

namespace Table

def empty : Table V := ⟨[], List.nodup_nil⟩

def get (t : Table V) (id : Nat) : Option (Row Nat V) := t.rows.find? (·.id = id)

/-- The runs of a table by id. -/
def runs (t : Table V) : Rows Nat V := fun id => (t.get id).map (·.toRun)

def written (condition : Condition V) (values : Run V → Run V) (row : Row Nat V) : Row Nat V :=
  if condition row then { row with toRun := values row.toRun } else row

def update (t : Table V) (condition : Condition V) (values : Run V → Run V) : Table V where
  rows := t.rows.map (written condition values)
  primary := by
    have hids : (fun row : Row Nat V => (written condition values row).id) = (·.id) := by
      funext row
      unfold written
      split <;> rfl
    rw [List.map_map, Function.comp_def, hids]
    exact t.primary

def delete (t : Table V) (condition : Condition V) : Table V where
  rows := t.rows.filter fun row => !condition row
  primary := t.primary.sublist (List.filter_sublist.map _)

/-- What the database refuses with an `IntegrityError`: a primary key or a unique one that is
taken, where a key that is not there is never taken. -/
def refuses (t : Table V) (id : Nat) (run : Run V) : Bool :=
  t.rows.any fun row => row.id = id ∨ run.key.isSome ∧ row.key = run.key

def insert (t : Table V) (id : Nat) (run : Run V) (h : t.refuses id run = false) : Table V where
  rows := t.rows ++ [⟨run, id⟩]
  primary := by
    rw [List.map_append, List.nodup_append]
    refine ⟨t.primary, by simp, ?_⟩
    intro a ha b hb heq
    obtain ⟨row, hrow, rfl⟩ := List.mem_map.mp ha
    have hid : row.id = id := by simpa [heq] using hb
    simp only [refuses, List.any_eq_false] at h
    exact h row hrow (by simp [hid])

/-- One statement: the rows it wrote, as it left them or, of a delete, as it found them. -/
def exec : Statement V → Table V → List (Row Nat V) × Table V
  | .update condition values, t =>
      ((t.rows.filter condition).map fun row => { row with toRun := values row.toRun },
        t.update condition values)
  | .delete condition, t => (t.rows.filter condition, t.delete condition)
  | .insert id run, t =>
      if h : t.refuses id run = false then ([⟨run, id⟩], t.insert id run h) else ([], t)

end Table

namespace SqlStore

open MemoryStore (claimed completed failed requeued beaten calledOff expired isOver)

abbrev Session (V α : Type) := Prog (Table V) (Statement V) (List (Row Nat V)) α

/-- Writes a run under the id the database hands out. A run without a key has no other one to be
refused for. -/
def add (id : Nat) (run : Run V) : Session V (Option (Row Nat V)) :=
  .write (.insert id run) fun rows => .done rows.head?

/-! ## Claiming -/

def candidates (t : Table V) (queues : List String) (limit : Nat) (moment : Instant) : List Nat :=
  (((t.rows.filter fun row => row.queue ∈ queues ∧ row.status = .pending ∧ row.dueAt ≤ moment
    ).insertionSort fun a b => MemoryStore.claimKey a ≤ MemoryStore.claimKey b).map
      (·.id)).take (limit * claimSpread)

/-- One row, if it still is in the state it was read in. -/
def take (worker : String) (moment lease : Instant) (id : Nat) : Statement V :=
  .update (fun row => row.id = id ∧ row.status = .pending ∧ row.dueAt ≤ moment)
    (claimed worker moment lease)

def takeEach (worker : String) (limit : Nat) (moment lease : Instant) :
    List Nat → List (Row Nat V) → Session V (List (Row Nat V))
  | [], taken => .done taken
  | id :: rest, taken =>
      if taken.length = limit then .done taken
      else .write (take worker moment lease id) fun rows =>
        -- the row is read back in the transaction that took it
        takeEach worker limit moment lease rest
          (if rows.length = 1 then taken ++ rows else taken)

/-- The lease is added up at the first candidate, where one past the range is raised. -/
def claim (worker : String) (queues : List String) (limit : Nat) (lease : Int)
    (moment : Instant) : Session V (Except OverflowError (List (Row Nat V))) :=
  .read fun t =>
    match moment.plus lease with
    | none =>
        if candidates t queues limit moment = [] then .done (.ok [])
        else .done (.error .dateValueOutOfRange)
    | some leaseEnd =>
        (takeEach worker limit moment leaseEnd (candidates t queues limit moment) []).map .ok

/-! ## What an attempt asks -/

def holding (id : Nat) (worker : String) (attempt : Int) : Condition V := fun row =>
  row.id = id ∧ row.worker = some worker ∧ row.attempts = attempt ∧ row.status = .running

def write (condition : Condition V) (values : Run V → Run V) : Session V Bool :=
  .write (.update condition values) fun rows => .done (rows.length = 1)

def heartbeat (id : Nat) (worker : String) (attempt lease : Int) (moment : Instant) :
    Session V (Except OverflowError Bool) :=
  match moment.plus lease with
  | none => .done (.error .dateValueOutOfRange)
  | some leaseEnd => (write (holding id worker attempt) (beaten leaseEnd)).map .ok

def complete (id : Nat) (worker : String) (attempt : Int) (moment : Instant)
    (result : Option V) : Session V Bool :=
  write (holding id worker attempt) (completed moment result)

def fail (id : Nat) (worker : String) (attempt : Int) (moment : Instant)
    (error errorType : String) : Session V Bool :=
  write (holding id worker attempt) (failed moment error errorType)

def retryLater (id : Nat) (worker : String) (attempt : Int) (dueAt : Instant)
    (error errorType : String) : Session V Bool :=
  write (holding id worker attempt) (requeued dueAt error errorType 0)

def release (id : Nat) (worker : String) (attempt : Int) (dueAt : Instant)
    (error errorType : String) : Session V Bool :=
  write (holding id worker attempt) (requeued dueAt error errorType (-1))

/-! ## Housekeeping -/

/-- The rows one statement is allowed to touch, by id. -/
def batch (t : Table V) (condition : Condition V) (size : Nat) : List Nat :=
  (((t.rows.filter condition).map (·.id)).insertionSort fun a b => a ≤ b).take size

/-- A batch read and then written, what it was read for asked again by the write. -/
def takeBack {α : Type} (condition : Condition V) (size : Nat) (values : Run V → Run V)
    (next : Nat → Session V α) : Session V α :=
  .read fun t =>
    if batch t condition size = [] then next 0
    else .write (.update (fun row => row.id ∈ batch t condition size ∧ condition row) values)
      fun rows => next rows.length

def gaveUp (moment : Instant) (run : Run V) : Run V :=
  { run with
    status := .failed
    finishedAt := some moment
    error := some "the worker holding this run stopped answering"
    errorType := some "LeaseExpired"
    worker := none
    leaseUntil := none
    startedAt := none }

def givenBack (moment : Instant) (run : Run V) : Run V :=
  { run with
    status := .pending
    dueAt := moment
    worker := none
    leaseUntil := none
    startedAt := none }

def spent (moment : Instant) : Condition V := fun row =>
  expired moment row.toRun ∧ row.maxAttempts ≤ row.attempts

def unspent (moment : Instant) : Condition V := fun row =>
  expired moment row.toRun ∧ row.attempts < row.maxAttempts

def sweep (moment : Instant) : Session V Nat :=
  takeBack (spent moment) reclaimBatch (gaveUp moment) fun failures =>
    takeBack (unspent moment) (reclaimBatch - failures) (givenBack moment) fun requeues =>
      .done (failures + requeues)

def ended (before : Instant) : Condition V := fun row => isOver before row.toRun

def purge (before : Instant) (limit : Nat) : Session V Nat :=
  .read fun t =>
    if batch t (ended before) limit = [] then .done 0
    else .write (.delete fun row => row.id ∈ batch t (ended before) limit ∧ ended before row)
      fun rows => .done rows.length

def cancel (id : Nat) (moment : Instant) : Session V Bool :=
  write (fun row => row.id = id ∧ row.status = .pending) (calledOff moment)

/-! ## Reading -/

def one (condition : Condition V) : Session V (Option (Row Nat V)) :=
  .read fun t => .done (t.rows.find? condition)

def get (id : Nat) : Session V (Option (Row Nat V)) := one fun row => row.id = id

def find (key : String) : Session V (Option (Row Nat V)) := one fun row => row.key = some key

/-- What a call does to the table; `id` is the one the database would hand out next. -/
def session (id : Nat) : Request Nat V → Session V (Answer Nat V)
  | .add run => (add id run).map .row
  | .claim worker queues limit lease moment => (claim worker queues limit lease moment).map .rows
  | .heartbeat id worker attempt lease moment =>
      (heartbeat id worker attempt lease moment).map .told
  | .complete id worker attempt moment result =>
      (complete id worker attempt moment result).map fun held => .told (.ok held)
  | .fail id worker attempt moment error errorType =>
      (fail id worker attempt moment error errorType).map fun held => .told (.ok held)
  | .retryLater id worker attempt dueAt error errorType =>
      (retryLater id worker attempt dueAt error errorType).map fun held => .told (.ok held)
  | .release id worker attempt dueAt error errorType =>
      (release id worker attempt dueAt error errorType).map fun held => .told (.ok held)
  | .reclaim moment => (sweep moment).map .counted
  | .cancel id moment => (cancel id moment).map fun off => .told (.ok off)
  | .purge before limit => (purge before limit).map .counted
  | .find key => (find key).map .row
  | .get id => (get id).map .row

end SqlStore

end Queuefy
