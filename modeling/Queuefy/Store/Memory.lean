import Queuefy.Run

/-! # The memory store

Runs held in a dictionary keyed by id, in the order they were written. Ids come off one
counter and are never handed out twice, so the rows stand in the order of their ids and none
is past the counter; both facts are fields of the state. Every method is one atomic step,
because each runs to its end under one lock.
-/

namespace Queuefy

structure MemoryStore (V : Type) where
  runs : List (Row Nat V)
  sequence : Nat
  ordered : runs.Pairwise fun a b => a.id < b.id
  bounded : ∀ row ∈ runs, row.id ≤ sequence

namespace MemoryStore

variable {V : Type}

@[ext] theorem ext {s t : MemoryStore V} (hr : s.runs = t.runs) (hs : s.sequence = t.sequence) :
    s = t := by
  cases s; cases t; cases hr; cases hs; rfl

def empty : MemoryStore V := ⟨[], 0, .nil, by simp⟩

/-! ## The three ways rows change -/

/-- One row after the runs named by `ids` were changed by `f`. -/
def amended (ids : List Nat) (f : Run V → Run V) (row : Row Nat V) : Row Nat V :=
  if row.id ∈ ids then { row with toRun := f row.toRun } else row

@[simp] theorem amended_id (ids : List Nat) (f : Run V → Run V) (row : Row Nat V) :
    (amended ids f row).id = row.id := by
  unfold amended
  split <;> rfl

def amend (s : MemoryStore V) (ids : List Nat) (f : Run V → Run V) : MemoryStore V where
  runs := s.runs.map (amended ids f)
  sequence := s.sequence
  ordered := by
    rw [List.pairwise_map]
    exact s.ordered.imp fun h => by simpa using h
  bounded := by
    intro row hrow
    obtain ⟨old, hold, rfl⟩ := List.mem_map.mp hrow
    simpa using s.bounded old hold

def drop (s : MemoryStore V) (ids : List Nat) : MemoryStore V where
  runs := s.runs.filter fun row => row.id ∉ ids
  sequence := s.sequence
  ordered := s.ordered.filter _
  bounded := fun row hrow => s.bounded row (List.mem_filter.mp hrow).1

def write (s : MemoryStore V) (run : Run V) : MemoryStore V where
  runs := s.runs ++ [⟨run, s.sequence + 1⟩]
  sequence := s.sequence + 1
  ordered := by
    rw [List.pairwise_append]
    refine ⟨s.ordered, List.pairwise_singleton _ _, ?_⟩
    intro a ha b hb
    rw [List.mem_singleton.mp hb]
    exact Nat.lt_succ_of_le (s.bounded a ha)
  bounded := by
    intro row hrow
    rcases List.mem_append.mp hrow with h | h
    · exact Nat.le_succ_of_le (s.bounded row h)
    · rw [List.mem_singleton.mp h]

/-! ## Reading -/

def get (s : MemoryStore V) (id : Nat) : Option (Row Nat V) := s.runs.find? (·.id = id)

def find (s : MemoryStore V) (key : String) : Option (Row Nat V) :=
  s.runs.find? (·.key = some key)

/-- The attempt names the holder: the row answers only to the worker and the number it is
running under. -/
def held (s : MemoryStore V) (id : Nat) (worker : String) (attempt : Int) :
    Option (Row Nat V) :=
  (s.get id).filter fun row =>
    row.worker = some worker ∧ row.status = .running ∧ row.attempts = attempt

/-! ## Writing a run -/

def taken (s : MemoryStore V) (key : Option String) : Bool :=
  key.isSome && s.runs.any (·.key = key)

def add (s : MemoryStore V) (run : Run V) : Option (Row Nat V) × MemoryStore V :=
  if s.taken run.key then (none, s) else (some ⟨run, s.sequence + 1⟩, s.write run)

/-! ## Claiming -/

def claimable (queues : List String) (moment : Instant) (run : Run V) : Bool :=
  run.status = .pending ∧ run.queue ∈ queues ∧ run.dueAt ≤ moment

/-- What a claim sorts by: priority descending, then when the run came due, then its id. -/
def claimKey (row : Row Nat V) : ℤ ×ₗ Instant ×ₗ ℕ :=
  toLex (-row.priority, toLex (row.dueAt, row.id))

def ready (s : MemoryStore V) (queues : List String) (moment : Instant) : List (Row Nat V) :=
  (s.runs.filter (claimable queues moment ·.toRun)).insertionSort
    fun a b => claimKey a ≤ claimKey b

/-- The fields a claim has written by the time it works the lease out. -/
def started (worker : String) (moment : Instant) (run : Run V) : Run V :=
  { run with
    status := .running
    worker := some worker
    attempts := run.attempts + 1
    startedAt := some moment }

def claimed (worker : String) (moment lease : Instant) (run : Run V) : Run V :=
  { started worker moment run with leaseUntil := some lease }

/-- The loop of a claim. The lease is added up last, so an instant it cannot name raises with
the row already marked as running. -/
def claimEach (worker : String) (limit : Nat) (lease : Int) (moment : Instant) :
    List (Row Nat V) → MemoryStore V → List (Row Nat V) →
      Except OverflowError (List (Row Nat V)) × MemoryStore V
  | [], s, taken => (.ok taken, s)
  | row :: rest, s, taken =>
      if taken.length = limit then (.ok taken, s)
      else
        match moment.plus lease with
        | none => (.error .dateValueOutOfRange, s.amend [row.id] (started worker moment))
        | some leaseEnd =>
            claimEach worker limit lease moment rest
              (s.amend [row.id] (claimed worker moment leaseEnd))
              (taken ++ [{ row with toRun := claimed worker moment leaseEnd row.toRun }])

def claim (s : MemoryStore V) (worker : String) (queues : List String) (limit : Nat)
    (lease : Int) (moment : Instant) :
    Except OverflowError (List (Row Nat V)) × MemoryStore V :=
  claimEach worker limit lease moment ((s.ready queues moment).take (limit * claimSpread)) s []

/-! ## What an attempt asks -/

def beaten (lease : Instant) (run : Run V) : Run V := { run with leaseUntil := some lease }

def heartbeat (s : MemoryStore V) (id : Nat) (worker : String) (attempt : Int) (lease : Int)
    (moment : Instant) : Except OverflowError Bool × MemoryStore V :=
  match s.held id worker attempt with
  | none => (.ok false, s)
  | some _ =>
      match moment.plus lease with
      | none => (.error .dateValueOutOfRange, s)
      | some leaseEnd => (.ok true, s.amend [id] (beaten leaseEnd))

/-- Changes the run an attempt holds, and answers whether it held one. -/
def settle (s : MemoryStore V) (id : Nat) (worker : String) (attempt : Int)
    (f : Run V → Run V) : Bool × MemoryStore V :=
  match s.held id worker attempt with
  | none => (false, s)
  | some _ => (true, s.amend [id] f)

def completed (moment : Instant) (result : Option V) (run : Run V) : Run V :=
  { run with
    status := .done
    finishedAt := some moment
    result := result
    error := none
    errorType := none
    worker := none
    leaseUntil := none }

def complete (s : MemoryStore V) (id : Nat) (worker : String) (attempt : Int)
    (moment : Instant) (result : Option V) : Bool × MemoryStore V :=
  s.settle id worker attempt (completed moment result)

def failed (moment : Instant) (error errorType : String) (run : Run V) : Run V :=
  { run with
    status := .failed
    finishedAt := some moment
    error := some error
    errorType := some errorType
    worker := none
    leaseUntil := none }

def fail (s : MemoryStore V) (id : Nat) (worker : String) (attempt : Int) (moment : Instant)
    (error errorType : String) : Bool × MemoryStore V :=
  s.settle id worker attempt (failed moment error errorType)

def requeued (dueAt : Instant) (error errorType : String) (counted : Int) (run : Run V) :
    Run V :=
  { run with
    status := .pending
    dueAt := dueAt
    attempts := run.attempts + counted
    error := some error
    errorType := some errorType
    worker := none
    leaseUntil := none
    startedAt := none }

def requeue (s : MemoryStore V) (id : Nat) (worker : String) (attempt : Int) (dueAt : Instant)
    (error errorType : String) (counted : Int) : Bool × MemoryStore V :=
  s.settle id worker attempt (requeued dueAt error errorType counted)

def retryLater (s : MemoryStore V) (id : Nat) (worker : String) (attempt : Int)
    (dueAt : Instant) (error errorType : String) : Bool × MemoryStore V :=
  s.requeue id worker attempt dueAt error errorType 0

def release (s : MemoryStore V) (id : Nat) (worker : String) (attempt : Int) (dueAt : Instant)
    (error errorType : String) : Bool × MemoryStore V :=
  s.requeue id worker attempt dueAt error errorType (-1)

/-! ## Housekeeping -/

def expired (moment : Instant) (run : Run V) : Bool :=
  run.status = .running ∧ run.leaseUntil.any (· < moment)

def abandoned (s : MemoryStore V) (moment : Instant) : List (Row Nat V) :=
  (s.runs.filter (expired moment ·.toRun)).take reclaimBatch

def takenBack (moment : Instant) (run : Run V) : Run V :=
  let freed := { run with worker := none, leaseUntil := none, startedAt := none }
  if run.exhausted then
    { freed with
      status := .failed
      finishedAt := some moment
      error := some "the worker holding this run stopped answering"
      errorType := some "LeaseExpired" }
  else { freed with status := .pending, dueAt := moment }

def reclaim (s : MemoryStore V) (moment : Instant) : Nat × MemoryStore V :=
  ((s.abandoned moment).length,
    s.amend ((s.abandoned moment).map (·.id)) (takenBack moment))

def calledOff (moment : Instant) (run : Run V) : Run V :=
  { run with status := .canceled, finishedAt := some moment }

def cancel (s : MemoryStore V) (id : Nat) (moment : Instant) : Bool × MemoryStore V :=
  match (s.get id).filter (·.status = .pending) with
  | none => (false, s)
  | some _ => (true, s.amend [id] (calledOff moment))

def isOver (before : Instant) (run : Run V) : Bool :=
  run.status.settled ∧ run.finishedAt.any (· < before)

def gone (s : MemoryStore V) (before : Instant) (limit : Nat) : List (Row Nat V) :=
  (s.runs.filter (isOver before ·.toRun)).take limit

def purge (s : MemoryStore V) (before : Instant) (limit : Nat) : Nat × MemoryStore V :=
  ((s.gone before limit).length, s.drop ((s.gone before limit).map (·.id)))

end MemoryStore

end Queuefy
