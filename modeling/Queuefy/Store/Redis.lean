import Queuefy.Lib.SortedSet
import Queuefy.Store.Lua

/-! # The Redis store

A run is a hash of texts under its id, and its id is in at most one of the sorted sets: the lane
of its queue and priority while it is pending, the leases while it is running, the settled ones
once it is over. Each script is one atomic step of the server, written here statement by
statement over the whole of what the store owns there. Key names are kept apart by their kind,
which is the second word of each under the store's own first.
-/

namespace Queuefy

inductive Field
  | id | key | name | queue | payload | status | priority | dueAt | attempts | maxAttempts
  | timeout | retryPolicy | retryDelay | maxRetryDelay | worker | leaseUntil | createdAt
  | startedAt | finishedAt | result | error | errorType
deriving DecidableEq

abbrev Hash := Field → Option String

/-- `HSET` of several fields. -/
def Hash.set (h : Hash) (pairs : List (Field × String)) : Hash :=
  pairs.foldl (fun h p => Function.update h p.1 (some p.2)) h

/-- How json values and floats are written down as text and read back. A float reads back as the
double it is; of a whole number no double holds that is not said. -/
structure Codec (V : Type) where
  dumps : V → String
  loads : String → Option V
  str : ℚ → String
  float : String → Option ℚ
  loads_dumps : ∀ v, loads (dumps v) = some v
  dumps_ne_empty : ∀ v, dumps v ≠ ""
  float_str : ∀ q, IsDouble q → float (str q) = some q
  str_ne_empty : ∀ q, str q ≠ ""

/-- The sorted sets a run can wait in. -/
inductive SetName
  | queue (queue level : String)
  | leased
  | settled
deriving DecidableEq

structure Redis where
  runs : String → Option Hash
  sets : SetName → SortedSet String Int
  priorities : String → SortedSet String Int
  keys : String → Option String
  sequence : Nat

namespace Redis

/-! ## Commands -/

def empty : Redis := ⟨fun _ => none, fun _ => .empty, fun _ => .empty, fun _ => none, 0⟩

def hget (s : Redis) (id : String) (field : Field) : Option String :=
  (s.runs id).bind fun h => h field

def hset (s : Redis) (id : String) (pairs : List (Field × String)) : Redis :=
  { s with
    runs := Function.update s.runs id (some (Hash.set ((s.runs id).getD fun _ => none) pairs)) }

/-- A number the server counts with, which is one of 64 bits. -/
def counted (n : Int) : Option Int := if -2 ^ 63 ≤ n ∧ n < 2 ^ 63 then some n else none

/-- What a field comes to with `n` more, one that is not there as a zero. Nothing is the error of a
text that names no number of 64 bits, and of a sum that is none. -/
def summed (s : Redis) (id : String) (field : Field) (n : Int) : Option Int :=
  match s.hget id field with
  | none => counted n
  | some text => ((intOf text).bind counted).bind fun held => counted (held + n)

/-- `HINCRBY`; nothing is the error it answers with, which stops the script that sent it. -/
def hincrby (s : Redis) (id : String) (field : Field) (n : Int) : Option Redis :=
  (s.summed id field n).map fun total => s.hset id [(field, total.repr)]

def del (s : Redis) (id : String) : Redis := { s with runs := Function.update s.runs id none }

def zadd (s : Redis) (set : SetName) (score : Int) (id : String) : Redis :=
  { s with sets := Function.update s.sets set ((s.sets set).add id score) }

def zrem (s : Redis) (set : SetName) (id : String) : Redis :=
  { s with sets := Function.update s.sets set ((s.sets set).remove id) }

/-- The lane a run waits in, read off its hash. -/
def laneOf (s : Redis) (id : String) : SetName :=
  .queue ((s.hget id .queue).getD "") ((s.hget id .priority).getD "")

/-! ## Scripts -/

/-- `CLAIM`: what a lane has ready, with the lane it was read from. -/
structure Ready where
  id : String
  dueAt : Int
  lane : SetName

/-- The levels of every queue served, highest first. -/
def levels (s : Redis) (queues : List String) : List String :=
  ((queues.flatMap fun queue => (s.priorities queue).entries.map Prod.fst).dedup).insertionSort
    fun left right => number right ≤ number left

/-- Every lane of one level, merged by when each run came due and then by its id. -/
def ready (s : Redis) (queues : List String) (moment : String) (window : Nat) (level : String) :
    List Ready :=
  (queues.flatMap fun queue =>
    ((s.sets (.queue queue level)).range (fun due => due ≤ number moment) window).map fun e =>
      ⟨e.1, e.2, .queue queue level⟩).insertionSort
    fun left right => toLex (left.dueAt, number left.id) ≤ toLex (right.dueAt, number right.id)

/-- Takes one ready run, unless it is no longer in its lane or its hash is gone. Nothing is the
error that stops the script, with what it wrote until then. -/
def takeOne (worker moment lease : String) (s : Redis) (entry : Ready) :
    Option (Option Hash) × Redis :=
  if (s.sets entry.lane).has entry.id then
    let s := s.zrem entry.lane entry.id
    if (s.runs entry.id).isSome then
      let s := s.hset entry.id
        [(.status, "running"), (.worker, worker), (.startedAt, moment), (.leaseUntil, lease)]
      match s.hincrby entry.id .attempts 1 with
      | none => (none, s)
      | some s =>
          let s := s.zadd .leased (number lease) entry.id
          (some (s.runs entry.id), s)
    else (some none, s)
  else (some none, s)

def takeReady (worker moment lease : String) (wanted : Nat) :
    List Ready → List Hash → Redis → Option (List Hash) × Redis
  | [], taken, s => (some taken, s)
  | entry :: rest, taken, s =>
      if wanted ≤ taken.length then (some taken, s)
      else
        match takeOne worker moment lease s entry with
        | (none, s) => (none, s)
        | (some hash, s) => takeReady worker moment lease wanted rest (taken ++ hash.toList) s

def takeLevels (queues : List String) (worker moment lease : String) (wanted window : Nat) :
    List String → List Hash → Redis → Option (List Hash) × Redis
  | [], taken, s => (some taken, s)
  | level :: rest, taken, s =>
      if wanted ≤ taken.length then (some taken, s)
      else
        match takeReady worker moment lease wanted (s.ready queues moment window level) taken s with
        | (none, s) => (none, s)
        | (some taken, s) => takeLevels queues worker moment lease wanted window rest taken s

def CLAIM (s : Redis) (queues : List String) (moment worker lease : String)
    (wanted window : Nat) : Option (List Hash) × Redis :=
  takeLevels queues worker moment lease wanted window (s.levels queues) [] s

/-- What `RECLAIM` does of one expired lease. -/
def reclaimOne (moment : String) (s : Redis) (id : String) : Redis :=
  let s := s.zrem .leased id
  match s.hget id .attempts with
  | none => s
  | some attempts =>
      if number ((s.hget id .maxAttempts).getD "") ≤ number attempts then
        let s := s.hset id
          [(.status, "failed"), (.finishedAt, moment),
           (.error, "the worker holding this run stopped answering"),
           (.errorType, "LeaseExpired"), (.worker, ""), (.leaseUntil, ""), (.startedAt, "")]
        s.zadd .settled (number moment) id
      else
        let s := s.hset id
          [(.status, "pending"), (.dueAt, moment), (.worker, ""), (.leaseUntil, ""),
           (.startedAt, "")]
        s.zadd (s.laneOf id) (number moment) id

def RECLAIM (s : Redis) (moment : String) (batch : Nat) : Nat × Redis :=
  let expired := ((s.sets .leased).range (fun lease => lease < number moment) batch).map Prod.fst
  (expired.length, expired.foldl (reclaimOne moment) s)

/-- The attempt that holds a run is the worker, the status and the number in its hash. -/
def holds (s : Redis) (id worker : String) (attempt : Int) : Prop :=
  s.hget id .worker = some worker ∧ s.hget id .status = some "running" ∧
    (s.hget id .attempts).bind tonumber = tonumber attempt.repr

instance (s : Redis) (id worker : String) (attempt : Int) : Decidable (s.holds id worker attempt) :=
  inferInstanceAs (Decidable (_ ∧ _ ∧ _))

def SETTLE (s : Redis) (id worker : String) (values : List (Field × String)) (dueAt : String)
    (counted attempt : Int) : Option Nat × Redis :=
  if s.holds id worker attempt then
    let s := s.zrem .leased id
    let s := s.hset id values
    match s.hincrby id .attempts counted with
    | none => (none, s)
    | some s =>
        if dueAt ≠ "" then (some 1, s.zadd (s.laneOf id) (number dueAt) id)
        else (some 1, s.zadd .settled (number ((s.hget id .finishedAt).getD "")) id)
  else (some 0, s)

def HEARTBEAT (s : Redis) (id worker lease : String) (attempt : Int) : Nat × Redis :=
  if s.holds id worker attempt then
    let s := s.hset id [(.leaseUntil, lease)]
    (1, s.zadd .leased (number lease) id)
  else (0, s)

/-- Writes a reservation, where there is a key to reserve. -/
def reserve (s : Redis) (key id : String) : Redis :=
  if key ≠ "" then { s with keys := Function.update s.keys key (some id) } else s

/-- Nothing is the error of a counter that counts no further. -/
def ADD (s : Redis) (key : String) (fields : List (Field × String)) (queue priority : String)
    (set : SetName) (score : String) : Option (Option String) × Redis :=
  if key ≠ "" ∧ (s.keys key).isSome then (some none, s)
  else
    let s := s.reserve key ""
    if s.sequence + 1 < 2 ^ 63 then
      let id := tostring (s.sequence + 1)
      let s := { s with sequence := s.sequence + 1 }
      let s := s.hset id (fields ++ [(.id, id)])
      let s := { s with
        priorities := Function.update s.priorities queue
          ((s.priorities queue).add priority (number priority)) }
      let s := if score ≠ "" then s.zadd set (number score) id else s
      (some (some id), s.reserve key id)
    else (none, s)

def CANCEL (s : Redis) (id moment : String) : Nat × Redis :=
  if s.hget id .status = some "pending" then
    let s := s.zrem (s.laneOf id) id
    let s := s.hset id [(.status, "canceled"), (.finishedAt, moment)]
    (1, s.zadd .settled (number moment) id)
  else (0, s)

/-- What `PURGE` does of one settled run. -/
def purgeOne (s : Redis) (id : String) : Redis :=
  let s := match s.hget id .key with
    | none => s
    | some named =>
        if named ≠ "" then { s with keys := Function.update s.keys named none } else s
  let s := s.del id
  s.zrem .settled id

def PURGE (s : Redis) (before : String) (limit : Nat) : Nat × Redis :=
  let gone := ((s.sets .settled).range (fun finish => finish < number before) limit).map Prod.fst
  (gone.length, gone.foldl purgeOne s)

end Redis

/-! ## What the methods of the store hand to them -/

namespace RedisStore

variable {V : Type} (codec : Codec V)

def toHash (id : String) (run : Run V) : Hash
  | .id => some id
  | .key => some (run.key.getD "")
  | .name => some run.name
  | .queue => some run.queue
  | .payload => some (codec.dumps run.payload)
  | .status => some run.status.value
  | .priority => some run.priority.repr
  | .dueAt => some (stamp (some run.dueAt))
  | .attempts => some run.attempts.repr
  | .maxAttempts => some run.maxAttempts.repr
  | .timeout => some ((run.timeout.map codec.str).getD "")
  | .retryPolicy => some run.retryPolicy.value
  | .retryDelay => some (codec.str run.retryDelay)
  | .maxRetryDelay => some (codec.str run.maxRetryDelay)
  | .worker => some (run.worker.getD "")
  | .leaseUntil => some (stamp run.leaseUntil)
  | .createdAt => some (stamp (some run.createdAt))
  | .startedAt => some (stamp run.startedAt)
  | .finishedAt => some (stamp run.finishedAt)
  | .result => some ((run.result.map codec.dumps).getD "")
  | .error => some (run.error.getD "")
  | .errorType => some (run.errorType.getD "")

/-- A text read back as `value or None` reads one. -/
def orNone (text : String) : Option String := if text = "" then none else some text

/-- A hash read back as a run; nothing is the error of a field that is missing or reads as nothing
a run can hold. -/
def toRun (stored : Hash) : Option (Row String V) := do
  let id ← stored .id
  let key ← stored .key
  let name ← stored .name
  let queue ← stored .queue
  let payload ← (stored .payload).bind codec.loads
  let status ← (stored .status).bind RunStatus.ofValue
  let priority ← (stored .priority).bind intOf
  let dueAt ← ((stored .dueAt).bind momentOf).join
  let attempts ← (stored .attempts).bind intOf
  let maxAttempts ← (stored .maxAttempts).bind intOf
  let timeout ← (stored .timeout).bind fun text =>
    if text = "" then some none else (codec.float text).map some
  let retryPolicy ← (stored .retryPolicy).bind RetryPolicy.ofValue
  let retryDelay ← (stored .retryDelay).bind codec.float
  let maxRetryDelay ← (stored .maxRetryDelay).bind codec.float
  let worker ← stored .worker
  let leaseUntil ← (stored .leaseUntil).bind momentOf
  let createdAt ← ((stored .createdAt).bind momentOf).join
  let startedAt ← (stored .startedAt).bind momentOf
  let finishedAt ← (stored .finishedAt).bind momentOf
  let result ← (stored .result).bind fun text =>
    if text = "" then some none else (codec.loads text).map some
  let error ← stored .error
  let errorType ← stored .errorType
  some {
    id := id, key := orNone key, name := name, queue := queue, payload := payload,
    status := status, priority := priority, dueAt := dueAt, attempts := attempts,
    maxAttempts := maxAttempts, timeout := timeout, retryPolicy := retryPolicy,
    retryDelay := retryDelay, maxRetryDelay := maxRetryDelay, worker := orNone worker,
    leaseUntil := leaseUntil, createdAt := createdAt, startedAt := startedAt,
    finishedAt := finishedAt, result := result, error := orNone error,
    errorType := orNone errorType }

/-- Every field a run is written with but its id, which the script names. -/
def fieldsOf (run : Run V) : List (Field × String) :=
  [(.key, run.key.getD ""), (.name, run.name), (.queue, run.queue),
   (.payload, codec.dumps run.payload), (.status, run.status.value),
   (.priority, run.priority.repr), (.dueAt, stamp (some run.dueAt)),
   (.attempts, run.attempts.repr), (.maxAttempts, run.maxAttempts.repr),
   (.timeout, (run.timeout.map codec.str).getD ""), (.retryPolicy, run.retryPolicy.value),
   (.retryDelay, codec.str run.retryDelay), (.maxRetryDelay, codec.str run.maxRetryDelay),
   (.worker, run.worker.getD ""), (.leaseUntil, stamp run.leaseUntil),
   (.createdAt, stamp (some run.createdAt)), (.startedAt, stamp run.startedAt),
   (.finishedAt, stamp run.finishedAt), (.result, (run.result.map codec.dumps).getD ""),
   (.error, run.error.getD ""), (.errorType, run.errorType.getD "")]

/-- The set a run written from outside belongs in, and what that set orders it by. -/
def waitingIn (run : Run V) : SetName × String :=
  match run.status with
  | .pending => (.queue run.queue run.priority.repr, stamp (some run.dueAt))
  | .running => (.leased, stamp run.leaseUntil)
  | .done | .failed | .canceled => (.settled, stamp run.finishedAt)

/-- The run that was written, where its key was free; nothing is the error of a script that
stopped. -/
def add (s : Redis) (run : Run V) : Option (Option (Row String V)) × Redis :=
  let (set, score) := waitingIn run
  let (written, s) := s.ADD (run.key.getD "") (fieldsOf codec run) run.queue run.priority.repr set
    score
  (written.map fun id => id.map fun id => ⟨run, id⟩, s)

/-- The runs a claim took, each read back; nothing is the error of a script that stopped, or of a
run that does not read back. -/
def claim (s : Redis) (worker : String) (queues : List String) (limit : Nat) (lease : Int)
    (moment : Instant) : Except OverflowError (Option (List (Row String V))) × Redis :=
  match moment.plus lease with
  | none => (.error .dateValueOutOfRange, s)
  | some leaseEnd =>
      let (taken, s) := s.CLAIM queues (stamp (some moment)) worker (stamp (some leaseEnd)) limit
        (limit * claimSpread)
      (.ok (taken.bind fun taken => taken.mapM (toRun codec)), s)

def heartbeat (s : Redis) (id worker : String) (attempt lease : Int) (moment : Instant) :
    Except OverflowError Bool × Redis :=
  match moment.plus lease with
  | none => (.error .dateValueOutOfRange, s)
  | some leaseEnd =>
      let (moved, s) := s.HEARTBEAT id worker (stamp (some leaseEnd)) attempt
      (.ok (moved = 1), s)

def settle (s : Redis) (id worker : String) (attempt : Int) (values : List (Field × String))
    (dueAt : Option Instant) (counted : Int) : Option Bool × Redis :=
  let (taken, s) := s.SETTLE id worker values (stamp dueAt) counted attempt
  (taken.map fun taken => taken = 1, s)

def complete (s : Redis) (id worker : String) (attempt : Int) (moment : Instant)
    (result : Option V) : Option Bool × Redis :=
  settle s id worker attempt
    [(.status, "done"), (.finishedAt, stamp (some moment)),
     (.result, (result.map codec.dumps).getD ""), (.error, ""), (.errorType, ""), (.worker, ""),
     (.leaseUntil, "")] none 0

def fail (s : Redis) (id worker : String) (attempt : Int) (moment : Instant)
    (error errorType : String) : Option Bool × Redis :=
  settle s id worker attempt
    [(.status, "failed"), (.finishedAt, stamp (some moment)), (.error, error),
     (.errorType, errorType), (.worker, ""), (.leaseUntil, "")] none 0

def requeued (dueAt : Instant) (error errorType : String) : List (Field × String) :=
  [(.status, "pending"), (.dueAt, stamp (some dueAt)), (.error, error), (.errorType, errorType),
   (.worker, ""), (.leaseUntil, ""), (.startedAt, "")]

def retryLater (s : Redis) (id worker : String) (attempt : Int) (dueAt : Instant)
    (error errorType : String) : Option Bool × Redis :=
  settle s id worker attempt (requeued dueAt error errorType) (some dueAt) 0

def release (s : Redis) (id worker : String) (attempt : Int) (dueAt : Instant)
    (error errorType : String) : Option Bool × Redis :=
  settle s id worker attempt (requeued dueAt error errorType) (some dueAt) (-1)

def reclaim (s : Redis) (moment : Instant) : Nat × Redis :=
  s.RECLAIM (stamp (some moment)) reclaimBatch

def purge (s : Redis) (before : Instant) (limit : Nat) : Nat × Redis :=
  s.PURGE (stamp (some before)) limit

def cancel (s : Redis) (id : String) (moment : Instant) : Bool × Redis :=
  let (off, s) := s.CANCEL id (stamp (some moment))
  (off = 1, s)

/-- What a read answers: no run, or one, unless its hash does not read back. -/
def get (s : Redis) (id : String) : Option (Option (Row String V)) :=
  match s.runs id with
  | none => some none
  | some stored => (toRun codec stored).map some

def find (s : Redis) (key : String) : Option (Option (Row String V)) :=
  match s.keys key with
  | none => some none
  | some id => if id = "" then some none else get codec s id

end RedisStore

end Queuefy
