import Queuefy.Store.Memory
import Queuefy.Store.Redis

/-! # What the Redis store holds

One run is spread over a hash, at most one sorted set and a reservation. `Represents` says that
a state is the spreading of a map from ids to runs and of nothing else; every script moves one
such map to another, and the sets with it.
-/

namespace Queuefy

variable {V : Type}

/-- The set a run waits in and its score there, for a run that waits in one. -/
def place (run : Run V) : Option (SetName × Int) :=
  match run.status with
  | .pending => some (.queue run.queue run.priority.repr, double run.dueAt.micro)
  | .running => run.leaseUntil.map fun lease => (.leased, double lease.micro)
  | .done | .failed | .canceled => run.finishedAt.map fun finish => (.settled, double finish.micro)

open RedisStore (toHash)

structure Represents (codec : Codec V) (rows : String → Option (Run V)) (s : Redis) : Prop where
  hashed : ∀ id, s.runs id = (rows id).map (toHash codec id)
  placed : ∀ id set score, (id, score) ∈ s.sets set ↔
    ∃ run, rows id = some run ∧ place run = some (set, score)
  listed : ∀ id run, rows id = some run →
    (run.priority.repr, double run.priority) ∈ s.priorities run.queue
  levels : ∀ queue level score, (level, score) ∈ s.priorities queue →
    ∃ priority : Int, level = priority.repr ∧ score = double priority
  reserved : ∀ key id, s.keys key = some id ↔
    key ≠ "" ∧ ∃ run, rows id = some run ∧ run.key.getD "" = key

namespace Redis

/-! ## What the commands leave -/

theorem runs_zrem (s : Redis) (set : SetName) (id : String) : (s.zrem set id).runs = s.runs := rfl

theorem runs_zadd (s : Redis) (set : SetName) (score : Int) (id : String) :
    (s.zadd set score id).runs = s.runs := rfl

theorem sets_hset (s : Redis) (id : String) (pairs : List (Field × String)) :
    (s.hset id pairs).sets = s.sets := rfl

theorem mem_zrem {s : Redis} {set set' : SetName} {id i : String} {score : Int} :
    (i, score) ∈ (s.zrem set id).sets set' ↔ (i, score) ∈ s.sets set' ∧ (set' = set → i ≠ id) := by
  by_cases hset : set' = set
  · subst hset
    simp [zrem, and_comm]
  · simp [zrem, hset]

theorem mem_zadd {s : Redis} {set set' : SetName} {id i : String} {score score' : Int} :
    (i, score') ∈ (s.zadd set score id).sets set' ↔
      (set' = set ∧ i = id ∧ score' = score) ∨
        ((i, score') ∈ s.sets set' ∧ (set' = set → i ≠ id)) := by
  by_cases hset : set' = set
  · subst hset
    simp [zadd, and_comm]
  · simp [zadd, hset]

theorem hget_eq {s : Redis} {id : String} {h : Hash} (hid : s.runs id = some h) (field : Field) :
    s.hget id field = h field := by
  simp [hget, hid]

theorem runs_hset {s : Redis} {id : String} {h : Hash} (hid : s.runs id = some h)
    (pairs : List (Field × String)) :
    (s.hset id pairs).runs = Function.update s.runs id (some (h.set pairs)) := by
  simp [hset, hid]

theorem runs_hset_self {s : Redis} {id : String} {h : Hash} (hid : s.runs id = some h)
    (pairs : List (Field × String)) : (s.hset id pairs).runs id = some (h.set pairs) := by
  rw [runs_hset hid, Function.update_self]

theorem counted_eq_some {n m : Int} : counted n = some m ↔ (-2 ^ 63 ≤ n ∧ n < 2 ^ 63) ∧ m = n := by
  unfold counted
  split <;> simp_all [eq_comm]

/-- A number the server holds, and has room for `n` more. -/
structure Room (a n : Int) : Prop where
  low : -2 ^ 63 ≤ a
  high : a < 2 ^ 63
  low' : -2 ^ 63 ≤ a + n
  high' : a + n < 2 ^ 63

/-- Counting a whole number comes to an error exactly where there is no room. -/
theorem summed_iff {s : Redis} {id : String} {h : Hash} {a n : Int} (hid : s.runs id = some h)
    (ha : h .attempts = some a.repr) {m : Int} :
    s.summed id .attempts n = some m ↔ Room a n ∧ m = a + n := by
  simp only [summed, hget_eq hid, ha, intOf_repr, Option.bind_some, Option.bind_eq_some_iff,
    counted_eq_some]
  constructor
  · rintro ⟨held, ⟨⟨hlow, hhigh⟩, rfl⟩, ⟨hlow', hhigh'⟩, rfl⟩
    exact ⟨⟨hlow, hhigh, hlow', hhigh'⟩, rfl⟩
  · rintro ⟨hroom, rfl⟩
    exact ⟨a, ⟨⟨hroom.low, hroom.high⟩, rfl⟩, ⟨hroom.low', hroom.high'⟩, rfl⟩

theorem hincrby_eq {s : Redis} {id : String} {h : Hash} {a n : Int} (hid : s.runs id = some h)
    (ha : h .attempts = some a.repr) (hroom : Room a n) :
    s.hincrby id .attempts n = some (s.hset id [(.attempts, (a + n).repr)]) := by
  rw [hincrby, (summed_iff hid ha).2 ⟨hroom, rfl⟩, Option.map_some]

/-- What writing a run under a free key leaves, part by part. -/
structure Added (s t : Redis) (key : String) (fields : List (Field × String))
    (queue priority : String) (set : SetName) (score id : String) : Prop where
  runs : t.runs = (s.hset id (fields ++ [(.id, id)])).runs
  sets : t.sets = if score ≠ "" then (s.zadd set (number score) id).sets else s.sets
  priorities : t.priorities =
    Function.update s.priorities queue ((s.priorities queue).add priority (number priority))
  keys : t.keys = if key ≠ "" then Function.update s.keys key (some id) else s.keys
  sequence : t.sequence = s.sequence + 1

theorem runs_reserve (s : Redis) (key id : String) : (s.reserve key id).runs = s.runs := by
  unfold reserve
  split <;> rfl

theorem sequence_reserve (s : Redis) (key id : String) :
    (s.reserve key id).sequence = s.sequence := by
  unfold reserve
  split <;> rfl

/-- A free key is not one that is taken. -/
theorem not_taken {s : Redis} {key : String} (h : key ≠ "" → s.keys key = none) :
    ¬ (key ≠ "" ∧ (s.keys key).isSome) := by
  rintro ⟨hkey, htaken⟩
  rw [h hkey] at htaken
  cases htaken

theorem ADD_of_free {s : Redis} {key : String} (h : key ≠ "" → s.keys key = none)
    (hnext : s.sequence + 1 < 2 ^ 63) (fields : List (Field × String)) (queue priority : String)
    (set : SetName) (score : String) :
    ∃ t, s.ADD key fields queue priority set score = (some (some (tostring (s.sequence + 1))), t) ∧
      Added s t key fields queue priority set score (tostring (s.sequence + 1)) := by
  have hgo := not_taken h
  have hsequence := s.sequence_reserve key ""
  refine ⟨(s.ADD key fields queue priority set score).2, ?_, ?_, ?_, ?_, ?_, ?_⟩
  · simp only [ADD, if_neg hgo, hsequence, if_pos hnext]
  all_goals
    simp only [ADD, if_neg hgo, hsequence, if_pos hnext]
    generalize tostring (s.sequence + 1) = id
    generalize number score = value
    unfold reserve
    split <;> split <;> simp [zadd, hset]

/-- A counter that counts no further leaves the reservation of a run that is never written. -/
theorem ADD_of_full {s : Redis} {key : String} (h : key ≠ "" → s.keys key = none)
    (hnext : ¬ s.sequence + 1 < 2 ^ 63) (fields : List (Field × String)) (queue priority : String)
    (set : SetName) (score : String) :
    s.ADD key fields queue priority set score = (none, s.reserve key "") := by
  simp only [ADD, if_neg (not_taken h), sequence_reserve, if_neg hnext]

end Redis

namespace Represents

variable {codec : Codec V} {rows : String → Option (Run V)} {s : Redis}

theorem empty (codec : Codec V) : Represents codec (fun _ => none) Redis.empty := by
  constructor <;> simp [Redis.empty]

theorem runs_eq (hR : Represents codec rows s) {id : String} {run : Run V}
    (hrow : rows id = some run) : s.runs id = some (toHash codec id run) := by
  rw [hR.hashed, hrow, Option.map_some]

theorem row_of_runs (hR : Represents codec rows s) {id : String} {h : Hash}
    (hid : s.runs id = some h) : ∃ run, rows id = some run ∧ h = toHash codec id run := by
  rw [hR.hashed] at hid
  obtain ⟨run, hrow, heq⟩ := Option.map_eq_some_iff.mp hid
  exact ⟨run, hrow, heq.symm⟩

theorem row_of_mem (hR : Represents codec rows s) {id : String} {set : SetName} {score : Int}
    (h : (id, score) ∈ s.sets set) : ∃ run, rows id = some run ∧ place run = some (set, score) :=
  (hR.placed id set score).1 h

/-- A run that changes moves to the set its new state waits in; its queue, its priority and its
key are its own for good. -/
theorem move (hR : Represents codec rows s) {id : String} {run run' : Run V} {t : Redis}
    (hrow : rows id = some run) (hqueue : run'.queue = run.queue)
    (hpriority : run'.priority = run.priority) (hkey : run'.key = run.key)
    (hruns : t.runs = Function.update s.runs id (some (toHash codec id run')))
    (hsets : ∀ i set score, (i, score) ∈ t.sets set ↔
      (i ≠ id ∧ (i, score) ∈ s.sets set) ∨ (i = id ∧ place run' = some (set, score)))
    (hpriorities : t.priorities = s.priorities) (hkeys : t.keys = s.keys) :
    Represents codec (Function.update rows id (some run')) t := by
  refine ⟨fun i => ?_, fun i set score => ?_, fun i r hr => ?_, ?_, fun key i => ?_⟩
  · rw [hruns]
    by_cases hi : i = id
    · subst hi
      simp
    · simp [Function.update_of_ne hi, hR.hashed]
  · rw [hsets, hR.placed]
    by_cases hi : i = id
    · subst hi
      simp
    · simp [hi]
  · rw [hpriorities]
    by_cases hi : i = id
    · subst hi
      obtain rfl : run' = r := by simpa using hr
      rw [hqueue, hpriority]
      exact hR.listed i run hrow
    · exact hR.listed i r (by simpa [Function.update_of_ne hi] using hr)
  · rw [hpriorities]
    exact hR.levels
  · rw [hkeys, hR.reserved]
    by_cases hi : i = id
    · subst hi
      simp [hrow, hkey]
    · simp [hi]

/-- The sets after a run left the one it waited in for another. -/
theorem moved_sets (hR : Represents codec rows s) {id : String} {run : Run V} {old new : SetName}
    {score : Int} (hrow : rows id = some run)
    (hplace : ∀ set score, place run = some (set, score) → set = old) {t : Redis}
    (ht : t.sets = (s.zrem old id).sets) (i : String) (set : SetName) (score' : Int) :
    (i, score') ∈ (t.zadd new score id).sets set ↔
      (i ≠ id ∧ (i, score') ∈ s.sets set) ∨ (i = id ∧ set = new ∧ score' = score) := by
  rw [Redis.mem_zadd, ht, Redis.mem_zrem]
  by_cases hi : i = id
  · subst hi
    constructor
    · rintro (⟨rfl, -, rfl⟩ | ⟨⟨hmem, hne⟩, -⟩)
      · exact Or.inr ⟨rfl, rfl, rfl⟩
      · obtain ⟨run', hrow', hplace'⟩ := hR.row_of_mem hmem
        obtain rfl := Option.some.inj (hrow.symm.trans hrow')
        exact absurd rfl (hne (hplace _ _ hplace'))
    · rintro (⟨hne, -⟩ | ⟨-, rfl, rfl⟩)
      · exact absurd rfl hne
      · exact Or.inl ⟨rfl, rfl, rfl⟩
  · simp [hi]

/-! ## Endings and beats -/

theorem holds_iff (hR : Represents codec rows s) {id worker : String} {attempt : Int} :
    s.holds id worker attempt ↔ ∃ run, rows id = some run ∧ run.worker.getD "" = worker ∧
      run.status = .running ∧ double run.attempts = double attempt := by
  have hvalue : ∀ status : RunStatus, status.value = "running" ↔ status = .running := by
    intro status
    cases status <;> decide
  cases hrow : rows id with
  | none => simp [Redis.holds, Redis.hget, hR.hashed, hrow]
  | some run =>
      simp [Redis.holds, Redis.hget, hR.runs_eq hrow, toHash, tonumber_repr, hvalue]

/-- A running run waits on its lease or nowhere. -/
theorem place_running {run : Run V} (h : run.status = .running) {set : SetName} {score : Int}
    (hplace : place run = some (set, score)) : set = .leased := by
  simp only [place, h, Option.map_eq_some_iff, Prod.mk.injEq] at hplace
  obtain ⟨lease, -, heq, -⟩ := hplace
  exact heq.symm

/-- What a settling script is handed makes `run'` of the run it finds. -/
structure Settles (codec : Codec V) (id : String) (run run' : Run V)
    (values : List (Field × String)) (dueAt : String) (counted : Int) : Prop where
  hash : ((toHash codec id run).set values).set [(.attempts, (run.attempts + counted).repr)] =
    toHash codec id run'
  attempts : ((toHash codec id run).set values) .attempts = some run.attempts.repr
  queue : run'.queue = run.queue
  priority : run'.priority = run.priority
  key : run'.key = run.key
  place : place run' =
    if dueAt ≠ "" then some (.queue run'.queue run'.priority.repr, number dueAt)
    else some (.settled, number (((toHash codec id run') .finishedAt).getD ""))

theorem settle_spec (hR : Represents codec rows s) {id worker : String} {attempt counted : Int}
    {values : List (Field × String)} {dueAt : String} {run run' : Run V}
    (hrow : rows id = some run) (hholds : s.holds id worker attempt)
    (hroom : Redis.Room run.attempts counted) (h : Settles codec id run run' values dueAt counted) :
    (s.SETTLE id worker values dueAt counted attempt).1 = some 1 ∧
      Represents codec (Function.update rows id (some run'))
        (s.SETTLE id worker values dueAt counted attempt).2 := by
  obtain ⟨other, hother, -, hrunning, -⟩ := hR.holds_iff.1 hholds
  obtain rfl := Option.some.inj (hrow.symm.trans hother)
  have hid : (s.zrem .leased id).runs id = some (toHash codec id run) := hR.runs_eq hrow
  have hwritten := Redis.runs_hset_self hid values
  have hcounted := Redis.hincrby_eq hwritten h.attempts hroom
  have hruns : (((s.zrem .leased id).hset id values).hset id
      [(.attempts, (run.attempts + counted).repr)]).runs =
        Function.update s.runs id (some (toHash codec id run')) := by
    rw [Redis.runs_hset hwritten, h.hash, Redis.runs_hset hid, Function.update_idem,
      Redis.runs_zrem]
  have hafter : (((s.zrem .leased id).hset id values).hset id
      [(.attempts, (run.attempts + counted).repr)]).runs id = some (toHash codec id run') := by
    rw [hruns, Function.update_self]
  have hplace := h.place
  have hold : ∀ set score, place run = some (set, score) → set = .leased := fun set score hset =>
    place_running hrunning hset
  by_cases hdue : dueAt = ""
  · simp only [Redis.SETTLE, if_pos hholds, hcounted, hdue, ne_eq, not_true_eq_false, if_false]
      at hplace ⊢
    refine ⟨trivial, hR.move hrow h.queue h.priority h.key hruns (fun i set score => ?_) rfl rfl⟩
    refine (hR.moved_sets hrow hold rfl i set score).trans ?_
    rw [hplace, Redis.hget_eq hafter]
    simp [eq_comm]
  · simp only [Redis.SETTLE, if_pos hholds, hcounted, hdue, ne_eq, not_false_eq_true, if_true]
      at hplace ⊢
    refine ⟨trivial, hR.move hrow h.queue h.priority h.key hruns (fun i set score => ?_) rfl rfl⟩
    refine (hR.moved_sets hrow hold rfl i set score).trans ?_
    rw [hplace, Redis.laneOf, Redis.hget_eq hafter, Redis.hget_eq hafter]
    simp [toHash, eq_comm, and_comm]

theorem settles_completed (codec : Codec V) (id : String) (run : Run V) (moment : Instant)
    (result : Option V) :
    Settles codec id run (MemoryStore.completed moment result run)
      [(.status, "done"), (.finishedAt, stamp (some moment)),
       (.result, (result.map codec.dumps).getD ""), (.error, ""), (.errorType, ""), (.worker, ""),
       (.leaseUntil, "")] "" 0 where
  hash := by
    funext field
    cases field <;> simp [Hash.set, toHash, MemoryStore.completed, RunStatus.value, stamp]
  attempts := by simp [Hash.set, toHash]
  queue := rfl
  priority := rfl
  key := rfl
  place := by simp [place, MemoryStore.completed, toHash, stamp]

theorem settles_failed (codec : Codec V) (id : String) (run : Run V) (moment : Instant)
    (error errorType : String) :
    Settles codec id run (MemoryStore.failed moment error errorType run)
      [(.status, "failed"), (.finishedAt, stamp (some moment)), (.error, error),
       (.errorType, errorType), (.worker, ""), (.leaseUntil, "")] "" 0 where
  hash := by
    funext field
    cases field <;> simp [Hash.set, toHash, MemoryStore.failed, RunStatus.value, stamp]
  attempts := by simp [Hash.set, toHash]
  queue := rfl
  priority := rfl
  key := rfl
  place := by simp [place, MemoryStore.failed, toHash, stamp]

theorem settles_requeued (codec : Codec V) (id : String) (run : Run V) (dueAt : Instant)
    (error errorType : String) (counted : Int) :
    Settles codec id run (MemoryStore.requeued dueAt error errorType counted run)
      (RedisStore.requeued dueAt error errorType) (stamp (some dueAt)) counted where
  hash := by
    funext field
    cases field <;> simp [Hash.set, RedisStore.requeued, toHash, MemoryStore.requeued,
      RunStatus.value, stamp]
  attempts := by simp [Hash.set, RedisStore.requeued, toHash]
  queue := rfl
  priority := rfl
  key := rfl
  place := by simp [place, MemoryStore.requeued, stamp, repr_ne_empty]

theorem heartbeat_spec (hR : Represents codec rows s) {id worker : String} {attempt : Int}
    (lease : Instant) {run : Run V} (hrow : rows id = some run)
    (hholds : s.holds id worker attempt) :
    (s.HEARTBEAT id worker (stamp (some lease)) attempt).1 = 1 ∧
      Represents codec (Function.update rows id (some (MemoryStore.beaten lease run)))
        (s.HEARTBEAT id worker (stamp (some lease)) attempt).2 := by
  obtain ⟨other, hother, -, hrunning, -⟩ := hR.holds_iff.1 hholds
  obtain rfl := Option.some.inj (hrow.symm.trans hother)
  have hhash : (toHash codec id run).set [(.leaseUntil, stamp (some lease))] =
      toHash codec id (MemoryStore.beaten lease run) := by
    funext field
    cases field <;> simp [Hash.set, toHash, MemoryStore.beaten]
  simp only [Redis.HEARTBEAT, if_pos hholds]
  refine ⟨trivial, hR.move hrow rfl rfl rfl ?_ (fun i set score => ?_) rfl rfl⟩
  · rw [Redis.runs_zadd, Redis.runs_hset (hR.runs_eq hrow), hhash]
  · have hbeaten : place (MemoryStore.beaten lease run) = some (.leased, double lease.micro) := by
      simp [place, MemoryStore.beaten, hrunning]
    rw [Redis.mem_zadd, Redis.sets_hset, hbeaten]
    by_cases hi : i = id
    · subst hi
      have hold : ∀ score', (i, score') ∈ s.sets set → set = .leased := fun score' hmem => by
        obtain ⟨run', hrow', hplace'⟩ := hR.row_of_mem hmem
        obtain rfl := Option.some.inj (hrow.symm.trans hrow')
        exact place_running hrunning hplace'
      constructor
      · rintro (⟨rfl, -, rfl⟩ | ⟨hmem, hne⟩)
        · exact Or.inr ⟨rfl, by simp [stamp]⟩
        · exact absurd rfl (hne (hold _ hmem))
      · rintro (⟨hne, -⟩ | ⟨-, heq⟩)
        · exact absurd rfl hne
        · cases heq
          exact Or.inl ⟨rfl, rfl, by simp [stamp]⟩
    · simp [hi]

/-! ## Calling off -/

theorem cancel_spec (hR : Represents codec rows s) {id : String} (moment : Instant) {run : Run V}
    (hrow : rows id = some run) (hpending : run.status = .pending) :
    (s.CANCEL id (stamp (some moment))).1 = 1 ∧
      Represents codec (Function.update rows id (some (MemoryStore.calledOff moment run)))
        (s.CANCEL id (stamp (some moment))).2 := by
  have hstatus : s.hget id .status = some "pending" := by
    rw [Redis.hget_eq (hR.runs_eq hrow)]
    simp [toHash, hpending, RunStatus.value]
  have hlane : s.laneOf id = .queue run.queue run.priority.repr := by
    rw [Redis.laneOf, Redis.hget_eq (hR.runs_eq hrow), Redis.hget_eq (hR.runs_eq hrow)]
    rfl
  have hold : ∀ set score, place run = some (set, score) → set = s.laneOf id := by
    intro set score hplace
    rw [hlane]
    simp only [place, hpending, Option.some.injEq, Prod.mk.injEq] at hplace
    exact hplace.1.symm
  have hhash : (toHash codec id run).set
      [(.status, "canceled"), (.finishedAt, stamp (some moment))] =
        toHash codec id (MemoryStore.calledOff moment run) := by
    funext field
    cases field <;> simp [Hash.set, toHash, MemoryStore.calledOff, RunStatus.value]
  simp only [Redis.CANCEL, if_pos hstatus]
  refine ⟨trivial, hR.move hrow rfl rfl rfl ?_ (fun i set score => ?_) rfl rfl⟩
  · have hid : (s.zrem (s.laneOf id) id).runs id = some (toHash codec id run) := hR.runs_eq hrow
    rw [Redis.runs_zadd, Redis.runs_hset hid, hhash, Redis.runs_zrem]
  · refine (hR.moved_sets hrow hold rfl i set score).trans ?_
    simp [place, MemoryStore.calledOff, stamp, eq_comm]

/-- A run that is not waiting to be claimed, or not there, is not called off. -/
theorem cancel_refused (hR : Represents codec rows s) {id : String} (moment : String)
    (h : ∀ run, rows id = some run → run.status ≠ .pending) : s.CANCEL id moment = (0, s) := by
  rw [Redis.CANCEL, if_neg]
  intro hstatus
  cases hrow : rows id with
  | none => simp [Redis.hget, hR.hashed, hrow] at hstatus
  | some run =>
      rw [Redis.hget_eq (hR.runs_eq hrow)] at hstatus
      apply h run hrow
      revert hstatus
      simp only [toHash]
      cases run.status <;> decide

/-! ## Writing a run -/

theorem hash_fieldsOf (h : Hash) (id : String) (run : Run V) :
    h.set (RedisStore.fieldsOf codec run ++ [(.id, id)]) = toHash codec id run := by
  funext field
  cases field <;> simp [Hash.set, RedisStore.fieldsOf, toHash]

/-- What a run written from outside waits in is where its state belongs, under the score its
state has there. -/
theorem waitingIn_spec (run : Run V) (set : SetName) (score : Int) :
    (RedisStore.waitingIn run).2 ≠ "" ∧ (RedisStore.waitingIn run).1 = set ∧
      number (RedisStore.waitingIn run).2 = score ↔ place run = some (set, score) := by
  have hcase : ∀ (name : SetName) (moment : Option Instant),
      stamp moment ≠ "" ∧ name = set ∧ number (stamp moment) = score ↔
        (moment.map fun t => (name, double t.micro)) = some (set, score) := by
    intro name moment
    cases moment with
    | none => simp [stamp]
    | some t => simp [stamp, repr_ne_empty]
  cases hstatus : run.status with
  | pending => simpa [RedisStore.waitingIn, place, hstatus] using hcase _ (some run.dueAt)
  | running => simpa [RedisStore.waitingIn, place, hstatus] using hcase _ run.leaseUntil
  | done => simpa [RedisStore.waitingIn, place, hstatus] using hcase _ run.finishedAt
  | failed => simpa [RedisStore.waitingIn, place, hstatus] using hcase _ run.finishedAt
  | canceled => simpa [RedisStore.waitingIn, place, hstatus] using hcase _ run.finishedAt

theorem add_refused {run : Run V} (hkey : run.key.getD "" ≠ "")
    (htaken : (s.keys (run.key.getD "")).isSome) :
    RedisStore.add codec s run = (some none, s) := by
  have hrefused : s.ADD (run.key.getD "") (RedisStore.fieldsOf codec run) run.queue
      run.priority.repr (RedisStore.waitingIn run).1 (RedisStore.waitingIn run).2 =
        (some none, s) := by
    rw [Redis.ADD, if_pos ⟨hkey, htaken⟩]
  simp only [RedisStore.add, hrefused, Option.map_some, Option.map_none]

section

variable {t : Redis} {run : Run V} {id : String}

theorem placed_added (hR : Represents codec rows s) (hid : rows id = none)
    (hsets : t.sets = if (RedisStore.waitingIn run).2 ≠ "" then
      (s.zadd (RedisStore.waitingIn run).1 (number (RedisStore.waitingIn run).2) id).sets
      else s.sets) (i : String) (set : SetName) (score : Int) :
    (i, score) ∈ t.sets set ↔
      ∃ r, Function.update rows id (some run) i = some r ∧ place r = some (set, score) := by
  have hnone : ∀ set score, ¬ (id, score) ∈ s.sets set := by
    intro set score hmem
    obtain ⟨other, hother, -⟩ := hR.row_of_mem hmem
    rw [hid] at hother
    cases hother
  rw [hsets]
  by_cases hi : i = id
  · subst hi
    have hspec := waitingIn_spec run set score
    split
    · rename_i hscore
      rw [Redis.mem_zadd]
      simpa [hnone, hscore, eq_comm] using hspec
    · rename_i hscore
      simpa [hnone, hscore] using hspec
  · rw [Function.update_of_ne hi, ← hR.placed]
    split
    · rw [Redis.mem_zadd]
      simp [hi]
    · rfl

theorem listed_added (hR : Represents codec rows s)
    (hpriorities : t.priorities = Function.update s.priorities run.queue
      ((s.priorities run.queue).add run.priority.repr (number run.priority.repr))) (i : String)
    (r : Run V) (hr : Function.update rows id (some run) i = some r) :
    (r.priority.repr, double r.priority) ∈ t.priorities r.queue := by
  rw [hpriorities]
  by_cases hi : i = id
  · subst hi
    obtain rfl : run = r := by simpa using hr
    simp
  · have hlisted := hR.listed i r (by simpa [hi] using hr)
    by_cases hqueue : r.queue = run.queue
    · by_cases hpriority : r.priority.repr = run.priority.repr
      · have hsame : r.priority = run.priority := by
          have := congrArg intOf hpriority
          simpa using this
        simp [hqueue, hsame]
      · simpa [hqueue, hpriority] using hlisted
    · simpa [hqueue] using hlisted

theorem levels_added (hR : Represents codec rows s)
    (hpriorities : t.priorities = Function.update s.priorities run.queue
      ((s.priorities run.queue).add run.priority.repr (number run.priority.repr)))
    (queue level : String) (score : Int) (hmem : (level, score) ∈ t.priorities queue) :
    ∃ priority : Int, level = priority.repr ∧ score = double priority := by
  rw [hpriorities] at hmem
  by_cases hqueue : queue = run.queue
  · subst hqueue
    simp only [Function.update_self, SortedSet.mem_add, number_repr] at hmem
    rcases hmem with ⟨hlevel, hscore⟩ | ⟨-, hmem⟩
    · exact ⟨run.priority, hlevel, hscore⟩
    · exact hR.levels _ _ _ hmem
  · exact hR.levels queue level score (by simpa [hqueue] using hmem)

theorem reserved_added (hR : Represents codec rows s) (hid : rows id = none)
    (hfree : run.key.getD "" ≠ "" → s.keys (run.key.getD "") = none)
    (hkeys : t.keys = if run.key.getD "" ≠ "" then
      Function.update s.keys (run.key.getD "") (some id) else s.keys) (key i : String) :
    t.keys key = some i ↔
      key ≠ "" ∧ ∃ r, Function.update rows id (some run) i = some r ∧ r.key.getD "" = key := by
  rw [hkeys]
  by_cases hi : i = id
  · subst hi
    have hunused : s.keys key ≠ some i := by
      intro hkey
      obtain ⟨-, other, hother, -⟩ := (hR.reserved key i).1 hkey
      rw [hid] at hother
      cases hother
    by_cases hkey : key = run.key.getD ""
    · subst hkey
      split <;> simp_all
    · split <;> simp [hkey, hunused, Ne.symm hkey]
  · rw [Function.update_of_ne hi, ← hR.reserved]
    split
    · rename_i hnamed
      by_cases hkey : key = run.key.getD ""
      · subst hkey
        simp [hfree hnamed, Ne.symm hi]
      · simp [hkey]
    · rfl

end

/-- A run whose key is free is written under the text of the next number, and where no stored run
has that text for its id yet, that run is all the new state holds more. -/
theorem add_spec (hR : Represents codec rows s) {run : Run V}
    (hfree : run.key.getD "" ≠ "" → s.keys (run.key.getD "") = none)
    (hnext : s.sequence + 1 < 2 ^ 63) (hid : rows (tostring (s.sequence + 1)) = none) :
    (RedisStore.add codec s run).1 = some (some ⟨run, tostring (s.sequence + 1)⟩) ∧
      Represents codec (Function.update rows (tostring (s.sequence + 1)) (some run))
        (RedisStore.add codec s run).2 := by
  obtain ⟨t, ht, hadded⟩ := Redis.ADD_of_free hfree hnext (RedisStore.fieldsOf codec run)
    run.queue run.priority.repr (RedisStore.waitingIn run).1 (RedisStore.waitingIn run).2
  simp only [RedisStore.add, ht, Option.map_some, true_and]
  generalize tostring (s.sequence + 1) = id at hid hadded ⊢
  have hhashed : ∀ i, t.runs i =
      (Function.update rows id (some run) i).map (toHash codec i) := by
    intro i
    rw [hadded.runs]
    by_cases hi : i = id
    · subst hi
      simp [Redis.hset, hash_fieldsOf]
    · simp [Redis.hset, hi, hR.hashed]
  exact ⟨hhashed, hR.placed_added hid hadded.sets, hR.listed_added hadded.priorities,
    hR.levels_added hadded.priorities, hR.reserved_added hid hfree hadded.keys⟩

end Represents

end Queuefy
