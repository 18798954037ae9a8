import Queuefy.Lib.Reach
import Queuefy.Store.Base
import Queuefy.Store.Handout
import Queuefy.Store.Plain

/-! # Every state of the Redis store

The store is a system whose labels are the calls of its methods. Every script moves the rows it
represents to other rows, so the index sets and the reservations stay those of the runs. What no
script checks is the text of the id a new run is written under, and a counter past fourteen digits
is written down in the same text many times over.
-/

namespace Queuefy

open RedisStore (toHash)
open MemoryStore (claimed completed failed requeued beaten calledOff)

namespace RedisStore

variable {V : Type} (codec : Codec V)

/-- A row that was read back, or the error of one that was not. -/
def answerRow : Option (Option (Row String V)) → Answer String V
  | none => .raised
  | some found => .row found

def answerTold : Option Bool → Answer String V
  | none => .raised
  | some held => .told (.ok held)

theorem negative_answerRow {found : Option (Option (Row String V))} :
    (answerRow found).negative = true ↔ found = some none := by
  rcases found with _ | _ | row <;> simp [answerRow, Answer.negative]

theorem negative_answerTold {held : Option Bool} :
    (answerTold held : Answer String V).negative = true ↔ held = some false := by
  rcases held with _ | held
  · simp [answerTold, Answer.negative]
  · simp [answerTold]

def answerRows : Except OverflowError (Option (List (Row String V))) → Answer String V
  | .error e => .rows (.error e)
  | .ok none => .raised
  | .ok (some taken) => .rows (.ok taken)

def perform (s : Redis) : Request String V → Answer String V × Redis
  | .add run => (answerRow (add codec s run).1, (add codec s run).2)
  | .claim worker queues limit lease moment =>
      (answerRows (claim codec s worker queues limit lease moment).1,
        (claim codec s worker queues limit lease moment).2)
  | .heartbeat id worker attempt lease moment =>
      (.told (heartbeat s id worker attempt lease moment).1,
        (heartbeat s id worker attempt lease moment).2)
  | .complete id worker attempt moment result =>
      (answerTold (complete codec s id worker attempt moment result).1,
        (complete codec s id worker attempt moment result).2)
  | .fail id worker attempt moment error errorType =>
      (answerTold (fail s id worker attempt moment error errorType).1,
        (fail s id worker attempt moment error errorType).2)
  | .retryLater id worker attempt dueAt error errorType =>
      (answerTold (retryLater s id worker attempt dueAt error errorType).1,
        (retryLater s id worker attempt dueAt error errorType).2)
  | .release id worker attempt dueAt error errorType =>
      (answerTold (release s id worker attempt dueAt error errorType).1,
        (release s id worker attempt dueAt error errorType).2)
  | .reclaim moment => (.counted (reclaim s moment).1, (reclaim s moment).2)
  | .cancel id moment => (.told (.ok (cancel s id moment).1), (cancel s id moment).2)
  | .purge before limit => (.counted (purge s before limit).1, (purge s before limit).2)
  | .find key => (answerRow (find codec s key), s)
  | .get id => (answerRow (get codec s id), s)

def step (s : Redis) (request : Request String V) : Option Redis :=
  some (perform codec s request).2

end RedisStore

/-! ## What a state should hold -/

/-- A run waits where its state waits and nowhere else, and a key is reserved for the run that
carries it. -/
structure Coherent {V : Type} (codec : Codec V) (s : Redis) : Prop where
  readable : ∀ id h, s.runs id = some h → ∃ run, h = toHash codec id run
  pending : ∀ id run, s.runs id = some (toHash codec id run) → run.status = .pending →
    ∀ set score, (id, score) ∈ s.sets set ↔
      set = .queue run.queue run.priority.repr ∧ score = double run.dueAt.micro
  leased : ∀ id run lease, s.runs id = some (toHash codec id run) → run.status = .running →
    run.leaseUntil = some lease → ∀ set score, (id, score) ∈ s.sets set ↔
      set = .leased ∧ score = double lease.micro
  settled : ∀ id run finish, s.runs id = some (toHash codec id run) → run.status.settled = true →
    run.finishedAt = some finish → ∀ set score, (id, score) ∈ s.sets set ↔
      set = .settled ∧ score = double finish.micro
  nowhere : ∀ id run, s.runs id = some (toHash codec id run) →
    run.status = .running ∧ run.leaseUntil = none ∨
      run.status.settled = true ∧ run.finishedAt = none →
        ∀ set score, ¬ (id, score) ∈ s.sets set
  hashed : ∀ id set score, (id, score) ∈ s.sets set → (s.runs id).isSome
  listed : ∀ id queue level score, (id, score) ∈ s.sets (.queue queue level) →
    ∃ number, (level, number) ∈ s.priorities queue
  reserved : ∀ key id, s.keys key = some id ↔ key ≠ "" ∧ s.hget id .key = some key

variable {V : Type} {codec : Codec V} {rows : Rows String V} {s : Redis}

theorem place_of_hash {id : String} {run run' : Run V}
    (h : toHash codec id run = toHash codec id run') : place run = place run' := by
  have hfield : ∀ field, toHash codec id run field = toHash codec id run' field := congrFun h
  have hstatus : run.status = run'.status := by
    have := congrArg (Option.bind · RunStatus.ofValue) (hfield .status)
    simpa [toHash] using this
  have hqueue : run.queue = run'.queue := Option.some.inj (hfield .queue)
  have hpriority : run.priority.repr = run'.priority.repr := Option.some.inj (hfield .priority)
  have hinstant : ∀ {a b : Option Instant}, some (stamp a) = some (stamp b) → a = b := by
    intro a b hab
    have := congrArg (Option.bind · momentOf) hab
    simpa using this
  have hdue : run.dueAt = run'.dueAt := Option.some.inj (hinstant (hfield .dueAt))
  have hlease := hinstant (hfield .leaseUntil)
  have hfinish := hinstant (hfield .finishedAt)
  simp only [place, hstatus, hqueue, hpriority, hdue, hlease, hfinish]

namespace Represents

theorem placed_of_hash (hR : Represents codec rows s) {id : String} {run : Run V}
    (h : s.runs id = some (toHash codec id run)) (set : SetName) (score : Int) :
    (id, score) ∈ s.sets set ↔ place run = some (set, score) := by
  obtain ⟨other, hrow, heq⟩ := hR.row_of_runs h
  rw [hR.placed, place_of_hash heq, hrow]
  simp

theorem coherent (hR : Represents codec rows s) : Coherent codec s where
  readable := fun id h hid =>
    let ⟨run, _, heq⟩ := hR.row_of_runs hid
    ⟨run, heq⟩
  pending := by
    intro id run hid hstatus set score
    rw [hR.placed_of_hash hid]
    simp [place, hstatus, eq_comm]
  leased := by
    intro id run lease hid hstatus hlease set score
    rw [hR.placed_of_hash hid]
    simp [place, hstatus, hlease, eq_comm]
  settled := by
    intro id run finish hid hstatus hfinish set score
    rw [hR.placed_of_hash hid]
    cases hs : run.status with
    | pending | running =>
        rw [hs] at hstatus
        cases hstatus
    | done | failed | canceled => simp [place, hs, hfinish, eq_comm]
  nowhere := by
    intro id run hid hnone set score
    rw [hR.placed_of_hash hid]
    rcases hnone with ⟨hstatus, hlease⟩ | ⟨hstatus, hfinish⟩
    · simp [place, hstatus, hlease]
    · cases hs : run.status with
      | pending | running =>
          rw [hs] at hstatus
          cases hstatus
      | done | failed | canceled => simp [place, hs, hfinish]
  hashed := by
    intro id set score hmem
    obtain ⟨run, hrow, -⟩ := hR.row_of_mem hmem
    simp [hR.runs_eq hrow]
  listed := by
    intro id queue level score hmem
    obtain ⟨run, hrow, -, rfl, rfl, -⟩ := hR.mem_lane.1 hmem
    exact ⟨_, hR.listed id run hrow⟩
  reserved := by
    intro key id
    rw [hR.reserved]
    constructor
    · rintro ⟨hkey, run, hrow, heq⟩
      exact ⟨hkey, by rw [Redis.hget_eq (hR.runs_eq hrow)]; simp [toHash, heq]⟩
    · rintro ⟨hkey, hget⟩
      cases hrow : rows id with
      | none => simp [Redis.hget, hR.hashed, hrow] at hget
      | some run =>
          rw [Redis.hget_eq (hR.runs_eq hrow)] at hget
          exact ⟨hkey, run, rfl, by simpa [toHash] using hget⟩

/-! ## What one call leaves -/

/-- A call leaves the runs of ids that had one, but for the run an add writes. -/
structure Moves (codec : Codec V) (rows : Rows String V) (s t : Redis) (rows' : Rows String V) :
    Prop where
  represents : Represents codec rows' t
  sequence : s.sequence ≤ t.sequence
  ids : ∀ id, (rows' id).isSome → (rows id).isSome ∨
    t.sequence = s.sequence + 1 ∧ id = tostring t.sequence

theorem moves_self (hR : Represents codec rows s) : Moves codec rows s s rows :=
  ⟨hR, le_rfl, fun _ h => Or.inl h⟩

theorem moves_update {t : Redis} {id : String} {run run' : Run V} (hrow : rows id = some run)
    (hR : Represents codec (Function.update rows id (some run')) t)
    (hsequence : t.sequence = s.sequence) :
    Moves codec rows s t (Function.update rows id (some run')) := by
  refine ⟨hR, le_of_eq hsequence.symm, fun i h => Or.inl ?_⟩
  by_cases hi : i = id
  · subst hi
    simp [hrow]
  · simpa [hi] using h

theorem moves_revise {t : Redis} {ids : List String} {g : Run V → Option (Run V)}
    (hR : Represents codec (rows.revise ids g) t) (hsequence : t.sequence = s.sequence) :
    Moves codec rows s t (rows.revise ids g) := by
  refine ⟨hR, le_of_eq hsequence.symm, fun id h => Or.inl ?_⟩
  unfold Rows.revise at h
  cases hrow : rows id with
  | none => simp [hrow] at h
  | some run => rfl

end Represents

/-! ## The counter -/

namespace Redis

theorem sequence_hincrby {s t : Redis} {id : String} {field : Field} {n : Int}
    (h : s.hincrby id field n = some t) : t.sequence = s.sequence := by
  rcases Option.map_eq_some_iff.1 h with ⟨total, -, rfl⟩
  rfl

theorem sequence_SETTLE (s : Redis) (id worker : String) (values : List (Field × String))
    (dueAt : String) (counted attempt : Int) :
    (s.SETTLE id worker values dueAt counted attempt).2.sequence = s.sequence := by
  unfold SETTLE
  split
  · dsimp only
    split
    · rfl
    · rename_i s' hs
      have hsame := sequence_hincrby hs
      split <;> exact hsame
  · rfl

theorem sequence_HEARTBEAT (s : Redis) (id worker lease : String) (attempt : Int) :
    (s.HEARTBEAT id worker lease attempt).2.sequence = s.sequence := by
  unfold HEARTBEAT
  split <;> rfl

theorem sequence_CANCEL (s : Redis) (id moment : String) :
    (s.CANCEL id moment).2.sequence = s.sequence := by
  unfold CANCEL
  split <;> rfl

theorem sequence_reclaimOne (moment : String) (s : Redis) (id : String) :
    (reclaimOne moment s id).sequence = s.sequence := by
  unfold reclaimOne
  dsimp only
  split
  · rfl
  · split <;> rfl

theorem sequence_purgeOne (s : Redis) (id : String) : (purgeOne s id).sequence = s.sequence := by
  unfold purgeOne
  dsimp only
  split
  · rfl
  · split <;> rfl

theorem sequence_foldl {f : Redis → String → Redis}
    (hf : ∀ s id, (f s id).sequence = s.sequence) (ids : List String) (s : Redis) :
    (ids.foldl f s).sequence = s.sequence := by
  induction ids generalizing s with
  | nil => rfl
  | cons id ids ih => rw [List.foldl_cons, ih, hf]

theorem sequence_takeOne (worker moment lease : String) (s : Redis) (entry : Ready) :
    (takeOne worker moment lease s entry).2.sequence = s.sequence := by
  unfold takeOne
  split
  · dsimp only
    split
    · split
      · rfl
      · rename_i s' hs
        have hsame := sequence_hincrby hs
        exact hsame
    · rfl
  · rfl

theorem sequence_takeReady (worker moment lease : String) (wanted : Nat) (entries : List Ready)
    (taken : List Hash) (s : Redis) :
    (takeReady worker moment lease wanted entries taken s).2.sequence = s.sequence := by
  induction entries generalizing taken s with
  | nil => rfl
  | cons entry rest ih =>
      have hone := sequence_takeOne worker moment lease s entry
      unfold takeReady
      split
      · rfl
      · split
        · rename_i heq
          rwa [heq] at hone
        · rename_i heq
          rw [heq] at hone
          rw [ih, hone]

theorem sequence_takeLevels (queues : List String) (worker moment lease : String)
    (wanted window : Nat) (levels : List String) (taken : List Hash) (s : Redis) :
    (takeLevels queues worker moment lease wanted window levels taken s).2.sequence =
      s.sequence := by
  induction levels generalizing taken s with
  | nil => rfl
  | cons level rest ih =>
      have hlevel := sequence_takeReady worker moment lease wanted
        (s.ready queues moment window level) taken s
      unfold takeLevels
      split
      · rfl
      · split
        · rename_i heq
          rwa [heq] at hlevel
        · rename_i heq
          rw [heq] at hlevel
          rw [ih, hlevel]

end Redis

theorem RedisStore.sequence_of_not_add {q : Request String V} (hq : ∀ run, q ≠ .add run) :
    (RedisStore.perform codec s q).2.sequence = s.sequence := by
  cases q with
  | add run => exact absurd rfl (hq run)
  | find | get => rfl
  | complete | fail | retryLater | release => exact Redis.sequence_SETTLE _ _ _ _ _ _ _
  | cancel id moment => exact Redis.sequence_CANCEL _ _ _
  | reclaim moment => exact Redis.sequence_foldl (Redis.sequence_reclaimOne _) _ _
  | purge before limit => exact Redis.sequence_foldl Redis.sequence_purgeOne _ _
  | heartbeat id worker attempt lease moment =>
      simp only [RedisStore.perform, RedisStore.heartbeat]
      cases moment.plus lease with
      | none => rfl
      | some leaseEnd => exact Redis.sequence_HEARTBEAT _ _ _ _ _
  | claim worker queues limit lease moment =>
      simp only [RedisStore.perform, RedisStore.claim]
      cases moment.plus lease with
      | none => rfl
      | some leaseEnd => exact Redis.sequence_takeLevels _ _ _ _ _ _ _ _ _

/-! ## The step and the run -/

/-- Where the next number is to be used, the counter comes to it, and no stored run has its text
for its id. -/
def Named (s : Redis) : Request String V → Prop
  | .add run => (run.key.getD "" ≠ "" → s.keys (run.key.getD "") = none) →
      s.sequence + 1 < 2 ^ 63 ∧ s.runs (tostring (s.sequence + 1)) = none
  | _ => True

instance (s : Redis) (call : Request String V) : Decidable (Named s call) :=
  match call with
  | .add _ => inferInstanceAs (Decidable ((_ → _) → _))
  | .claim .. | .heartbeat .. | .complete .. | .fail .. | .retryLater .. | .release ..
  | .reclaim _ | .cancel .. | .purge .. | .find _ | .get _ => isTrue trivial

/-- The server has a number for the attempts of each run the call counts on or off, and for what
they come to. -/
def Roomy (s : Redis) : Request String V → Prop
  | .claim _ queues limit _ moment =>
      ∀ id ∈ gather limit [] (s.offered queues moment (limit * claimSpread)),
        (s.summed id .attempts 1).isSome
  | .complete id worker attempt .. | .fail id worker attempt ..
  | .retryLater id worker attempt .. =>
      s.holds id worker attempt → (s.summed id .attempts 0).isSome
  | .release id worker attempt .. =>
      s.holds id worker attempt → (s.summed id .attempts (-1)).isSome
  | .add _ | .heartbeat .. | .reclaim _ | .cancel .. | .purge .. | .find _ | .get _ => True

instance (s : Redis) (call : Request String V) : Decidable (Roomy s call) :=
  match call with
  | .claim .. => inferInstanceAs (Decidable (∀ id ∈ (_ : List String), _))
  | .complete .. | .fail .. | .retryLater .. | .release .. => inferInstanceAs (Decidable (_ → _))
  | .add _ | .heartbeat .. | .reclaim _ | .cancel .. | .purge .. | .find _ | .get _ =>
      isTrue trivial

/-- The server lets a call come to its end, and no run it writes lands on another. -/
def Unbroken (s : Redis) (call : Request String V) : Prop := Named s call ∧ Roomy s call

instance (s : Redis) (call : Request String V) : Decidable (Unbroken s call) :=
  inferInstanceAs (Decidable (_ ∧ _))

/-- An add whose key is taken changes nothing, and any other writes one run more. -/
theorem Represents.add_cases (hR : Represents codec rows s) {run : Run V}
    (hnamed : Named s (.add run : Request String V)) :
    (run.key.getD "" ≠ "" ∧ s.keys (run.key.getD "") ≠ none ∧
      RedisStore.add codec s run = (some none, s)) ∨
    ((run.key.getD "" ≠ "" → s.keys (run.key.getD "") = none) ∧
      rows (tostring (s.sequence + 1)) = none ∧
      (RedisStore.add codec s run).1 = some (some ⟨run, tostring (s.sequence + 1)⟩) ∧
      (RedisStore.add codec s run).2.sequence = s.sequence + 1 ∧
      Represents codec (Function.update rows (tostring (s.sequence + 1)) (some run))
        (RedisStore.add codec s run).2) := by
  by_cases hfree : run.key.getD "" ≠ "" → s.keys (run.key.getD "") = none
  · right
    obtain ⟨hnext, hunused⟩ := hnamed hfree
    have hnone : rows (tostring (s.sequence + 1)) = none := by
      rwa [hR.hashed, Option.map_eq_none_iff] at hunused
    obtain ⟨t, ht, hadded⟩ := Redis.ADD_of_free hfree hnext (RedisStore.fieldsOf codec run)
      run.queue run.priority.repr (RedisStore.waitingIn run).1 (RedisStore.waitingIn run).2
    have hsequence : (RedisStore.add codec s run).2.sequence = s.sequence + 1 := by
      simp only [RedisStore.add, ht, hadded.sequence]
    obtain ⟨hone, hafter⟩ := hR.add_spec hfree hnext hnone
    exact ⟨hfree, hnone, hone, hsequence, hafter⟩
  · left
    push Not at hfree
    exact ⟨hfree.1, hfree.2, add_refused hfree.1 (Option.isSome_iff_ne_none.mpr hfree.2)⟩

/-- The attempts of a stored run are what its field is summed from. -/
theorem Represents.room_iff (hR : Represents codec rows s) {id : String} {run : Run V}
    (hrow : rows id = some run) (n : Int) :
    (s.summed id .attempts n).isSome ↔ Redis.Room run.attempts n := by
  have hattempts : toHash codec id run .attempts = some run.attempts.repr := rfl
  simp [Option.isSome_iff_exists, Redis.summed_iff (hR.runs_eq hrow) hattempts]

theorem Represents.claim_cases (hR : Represents codec rows s) {worker : String}
    {queues : List String} {limit : Nat} {lease : Int} {moment : Instant}
    (hroomy : Roomy s (.claim worker queues limit lease moment : Request String V)) :
    (moment.plus lease = none ∧ (RedisStore.claim codec s worker queues limit lease moment).2 = s) ∨
    ∃ leaseEnd, moment.plus lease = some leaseEnd ∧
      Represents codec (rows.taken worker moment leaseEnd
        (gather limit [] (s.offered queues moment (limit * claimSpread))))
        (RedisStore.claim codec s worker queues limit lease moment).2 := by
  cases hlease : moment.plus lease with
  | none => exact Or.inl ⟨rfl, by simp only [RedisStore.claim, hlease]⟩
  | some leaseEnd =>
      obtain ⟨t, ht, hRt⟩ := hR.claim_spec queues worker moment leaseEnd limit
        (limit * claimSpread) fun id hid run hrow => (hR.room_iff hrow 1).1 (hroomy id hid)
      exact Or.inr ⟨leaseEnd, rfl, by simpa only [RedisStore.claim, hlease, ht] using hRt⟩

theorem Represents.heartbeat_cases (hR : Represents codec rows s) (id worker : String)
    (attempt lease : Int) (moment : Instant) :
    ((∀ leaseEnd, moment.plus lease = some leaseEnd → ¬ s.holds id worker attempt) ∧
      (RedisStore.heartbeat s id worker attempt lease moment).2 = s) ∨
    ∃ run leaseEnd, rows id = some run ∧ run.status = .running ∧ s.holds id worker attempt ∧
      moment.plus lease = some leaseEnd ∧
      Represents codec (Function.update rows id (some (MemoryStore.beaten leaseEnd run)))
        (RedisStore.heartbeat s id worker attempt lease moment).2 := by
  cases hlease : moment.plus lease with
  | none => exact Or.inl ⟨by simp, by simp only [RedisStore.heartbeat, hlease]⟩
  | some leaseEnd =>
      simp only [RedisStore.heartbeat, hlease]
      by_cases hholds : s.holds id worker attempt
      · obtain ⟨run, hrow, -, hrunning, -⟩ := hR.holds_iff.1 hholds
        have hafter := (hR.heartbeat_spec leaseEnd hrow hholds).2
        exact Or.inr ⟨run, leaseEnd, hrow, hrunning, hholds, rfl, hafter⟩
      · exact Or.inl ⟨fun _ _ => hholds, by rw [Redis.HEARTBEAT, if_neg hholds]⟩

theorem Represents.settle_cases (hR : Represents codec rows s) {id worker : String}
    {attempt counted : Int} {values : List (Field × String)} {dueAt : Option Instant}
    {f : Run V → Run V} (h : ∀ run, Settles codec id run (f run) values (stamp dueAt) counted)
    (hroomy : s.holds id worker attempt → (s.summed id .attempts counted).isSome) :
    (¬ s.holds id worker attempt ∧
      (RedisStore.settle s id worker attempt values dueAt counted).2 = s) ∨
    ∃ run, rows id = some run ∧ run.status = .running ∧ s.holds id worker attempt ∧
      Represents codec (Function.update rows id (some (f run)))
        (RedisStore.settle s id worker attempt values dueAt counted).2 := by
  by_cases hholds : s.holds id worker attempt
  · obtain ⟨run, hrow, -, hrunning, -⟩ := hR.holds_iff.1 hholds
    have hroom := (hR.room_iff hrow counted).1 (hroomy hholds)
    exact Or.inr ⟨run, hrow, hrunning, hholds, (hR.settle_spec hrow hholds hroom (h run)).2⟩
  · exact Or.inl ⟨hholds, by simp only [RedisStore.settle, Redis.SETTLE, if_neg hholds]⟩

theorem Represents.cancel_cases (hR : Represents codec rows s) (id : String) (moment : Instant) :
    ((∀ run, rows id = some run → run.status ≠ .pending) ∧
      RedisStore.cancel s id moment = (false, s)) ∨
    ∃ run, rows id = some run ∧ run.status = .pending ∧ (RedisStore.cancel s id moment).1 = true ∧
      Represents codec (Function.update rows id (some (MemoryStore.calledOff moment run)))
        (RedisStore.cancel s id moment).2 := by
  by_cases hpending : ∃ run, rows id = some run ∧ run.status = .pending
  · obtain ⟨run, hrow, hstatus⟩ := hpending
    obtain ⟨hone, hafter⟩ := hR.cancel_spec moment hrow hstatus
    exact Or.inr ⟨run, hrow, hstatus, by simp [RedisStore.cancel, hone], hafter⟩
  · push Not at hpending
    have hrefused := hR.cancel_refused (stamp (some moment)) hpending
    exact Or.inl ⟨hpending, by simp [RedisStore.cancel, hrefused]⟩

theorem Represents.settle_moves (hR : Represents codec rows s) {id worker : String}
    {attempt counted : Int} {values : List (Field × String)} {dueAt : Option Instant}
    (f : Run V → Run V)
    (h : ∀ run, Settles codec id run (f run) values (stamp dueAt) counted)
    (hroomy : s.holds id worker attempt → (s.summed id .attempts counted).isSome) :
    ∃ rows', Moves codec rows s (RedisStore.settle s id worker attempt values dueAt counted).2
      rows' := by
  have hsequence := Redis.sequence_SETTLE s id worker values (stamp dueAt) counted attempt
  rcases hR.settle_cases h hroomy with ⟨-, hsame⟩ | ⟨run, hrow, -, -, hafter⟩
  · exact ⟨rows, hsame.symm ▸ hR.moves_self⟩
  · exact ⟨_, moves_update hrow hafter hsequence⟩

/-- One call moves the rows to other rows, as long as it comes to its end and writes no run over
another. -/
theorem Represents.step (hR : Represents codec rows s) {call : Request String V} {t : Redis}
    (hunbroken : Unbroken s call) (ht : RedisStore.step codec s call = some t) :
    ∃ rows', Moves codec rows s t rows' := by
  rcases hunbroken with ⟨hnamed, hroomy⟩
  have hsame : (∀ run, call ≠ .add run) → t.sequence = s.sequence := by
    cases ht
    exact RedisStore.sequence_of_not_add
  cases ht
  cases call with
  | find key | get id => exact ⟨rows, hR.moves_self⟩
  | add run =>
      rcases hR.add_cases hnamed with ⟨-, -, hrefused⟩ | ⟨-, -, -, hsequence, hafter⟩
      · simp only [RedisStore.perform, hrefused]
        exact ⟨rows, hR.moves_self⟩
      · refine ⟨_, hafter, by simp only [RedisStore.perform]; omega, fun id hid => ?_⟩
        by_cases hi : id = tostring (s.sequence + 1)
        · exact Or.inr ⟨hsequence, by rw [hi, ← hsequence]; rfl⟩
        · exact Or.inl (by simpa [hi] using hid)
  | claim worker queues limit lease moment =>
      rcases hR.claim_cases hroomy with ⟨-, hleft⟩ | ⟨leaseEnd, -, hafter⟩
      · exact ⟨rows, by simpa only [RedisStore.perform, hleft] using hR.moves_self⟩
      · exact ⟨_, moves_revise hafter (hsame (by simp))⟩
  | heartbeat id worker attempt lease moment =>
      rcases hR.heartbeat_cases id worker attempt lease moment with
        ⟨-, hleft⟩ | ⟨run, leaseEnd, hrow, -, -, -, hafter⟩
      · exact ⟨rows, by simpa only [RedisStore.perform, hleft] using hR.moves_self⟩
      · exact ⟨_, moves_update hrow hafter (hsame (by simp))⟩
  | complete id worker attempt moment result =>
      exact hR.settle_moves _ (fun run => settles_completed codec id run moment result) hroomy
  | fail id worker attempt moment error errorType =>
      exact hR.settle_moves _ (fun run => settles_failed codec id run moment error errorType)
        hroomy
  | retryLater id worker attempt dueAt error errorType =>
      exact hR.settle_moves _ (fun run => settles_requeued codec id run dueAt error errorType 0)
        hroomy
  | release id worker attempt dueAt error errorType =>
      exact hR.settle_moves _ (fun run => settles_requeued codec id run dueAt error errorType (-1))
        hroomy
  | reclaim moment =>
      exact ⟨_, moves_revise (hR.reclaim_spec moment reclaimBatch).2 (hsame (by simp))⟩
  | cancel id moment =>
      rcases hR.cancel_cases id moment with ⟨-, hleft⟩ | ⟨run, hrow, -, -, hafter⟩
      · exact ⟨rows, by simpa only [RedisStore.perform, hleft] using hR.moves_self⟩
      · exact ⟨_, moves_update hrow hafter (hsame (by simp))⟩
  | purge before limit =>
      exact ⟨_, moves_revise (hR.purge_spec before limit).2 (hsame (by simp))⟩

theorem reach_represents (h : Reach (RedisStore.step codec) Unbroken Redis.empty s) :
    ∃ rows, Represents codec rows s := by
  apply h.invariant ⟨_, Represents.empty codec⟩
  rintro s t call - ⟨rows, hR⟩ hunbroken ht
  obtain ⟨rows', hmoves⟩ := hR.step hunbroken ht
  exact ⟨rows', hmoves.represents⟩

/-- In every run whose calls each come to their end, the writes with an id unused, every state is
coherent. -/
theorem reach_coherent
    (h : Reach (RedisStore.step codec) Unbroken Redis.empty s) : Coherent codec s := by
  obtain ⟨rows, hR⟩ := reach_represents h
  exact hR.coherent

namespace Plain

/-- A run written, claimed, taken back and called off. -/
def calls : List (Request String Unit) :=
  [.add (run "mail" 0 Instant.epoch), .claim "worker" ["mail"] 1 30000000 Instant.epoch,
   .reclaim ⟨40000000, by decide, by decide⟩, .cancel "1" ⟨50000000, by decide, by decide⟩]

end Plain

theorem reach_coherent_calls : ∃ s,
    runAll (RedisStore.step Plain.codec) Redis.empty Plain.calls = some s ∧
      s.hget "1" .status = some "canceled" ∧ Coherent Plain.codec s := by
  have hmeets : Meets (RedisStore.step Plain.codec) Unbroken Redis.empty Plain.calls := by
    decide +kernel
  exact ⟨_, rfl, by decide +kernel, reach_coherent (.of_meets .start hmeets rfl)⟩

/-! ## Where a script stops halfway -/

namespace Plain

/-- A run that comes with as many attempts as the server counts to. -/
def worn : Run Unit := { run "mail" 0 Instant.epoch with attempts := 2 ^ 63 - 1 }

/-- It is written and claimed. -/
def halfway : List (Request String Unit) :=
  [.add worn, .claim "worker" ["mail"] 1 30000000 Instant.epoch]

end Plain

/-- The attempts of such a run go no further, so the script that claims it stops after it has taken
the run out of its lane and before it puts it on a lease. -/
theorem claim_stops_halfway : ∃ s,
    runAll (RedisStore.step Plain.codec) Redis.empty Plain.halfway = some s ∧
      s.hget "1" .status = some "running" ∧ ¬ Coherent Plain.codec s := by
  have hend : (runAll (RedisStore.step Plain.codec) Redis.empty Plain.halfway).map
      (fun s => (s.hget "1" .status, (s.sets .leased).entries)) = some (some "running", []) := by
    decide +kernel
  have hhash : (runAll (RedisStore.step Plain.codec) Redis.empty Plain.halfway).bind (·.runs "1") =
      some (toHash Plain.codec "1" { Plain.worn with
        status := .running, worker := some "worker", startedAt := some Instant.epoch,
        leaseUntil := Instant.epoch.plus 30000000 }) := by
    refine congrArg some (funext fun field => ?_)
    cases field <;> decide +kernel
  rcases Option.map_eq_some_iff.1 hend with ⟨s, hs, heq⟩
  rcases Prod.mk.inj heq with ⟨hstatus, hempty⟩
  rw [hs] at hhash
  refine ⟨s, hs, hstatus, fun hcoherent => ?_⟩
  have hleased := (hcoherent.leased "1" _ _ hhash rfl rfl .leased _).2 ⟨rfl, rfl⟩
  change _ ∈ (s.sets .leased).entries at hleased
  rw [hempty] at hleased
  cases hleased

/-! ## Where the counter leaves fourteen digits -/

theorem tostring_inj {m n : Nat} (hm : m < 10 ^ 14) (hn : n < 10 ^ 14)
    (h : tostring m = tostring n) : m = n := by
  rw [tostring_of_lt hm, tostring_of_lt hn] at h
  have hdigits := congrArg (fun text => natOf text.toList) h
  simpa [Nat.repr, natOf_toDigits] using hdigits

/-- No number up to the first of fifteen digits is written down as one before it. -/
theorem tostring_succ_ne {k n : Nat} (hk : k ≤ n) (hn : n < 10 ^ 14) :
    tostring (n + 1) ≠ tostring k := by
  intro heq
  rcases Nat.lt_or_eq_of_le (Nat.succ_le_of_lt hn) with hlt | hlast
  · have hsame := tostring_inj hlt (by omega) heq
    omega
  · have hfirst : tostring (n + 1) = "1e+14" := by
      rw [show n + 1 = 10 ^ 14 from hlast]
      decide +kernel
    rw [hfirst, tostring_of_lt (by omega)] at heq
    have hdigits := congrArg (fun text => natOf text.toList) heq
    have hnone : natOf "1e+14".toList = none := by decide
    simp only [Nat.repr, String.toList_ofList, natOf_toDigits, hnone] at hdigits
    cases hdigits

/-- Every id is the text of a number the counter came past. -/
def Numbered (rows : Rows String V) (n : Nat) : Prop :=
  ∀ id, (rows id).isSome → ∃ m ≤ n, id = tostring m

theorem Represents.named_of_lt (hR : Represents codec rows s) (hrows : Numbered rows s.sequence)
    (hlt : s.sequence + 1 < 10 ^ 14) (call : Request String V) : Named s call := by
  cases call with
  | add run =>
      refine fun _ => ⟨hlt.trans (by decide), ?_⟩
      rw [hR.hashed, Option.map_eq_none_iff]
      by_contra hsome
      obtain ⟨m, hm, htext⟩ := hrows _ (Option.isSome_iff_ne_none.mpr hsome)
      have := tostring_inj (by omega) hlt htext.symm
      omega
  | _ => trivial

theorem reach_numbered
    (h : Reach (RedisStore.step codec) (fun s call => s.sequence + 1 < 10 ^ 14 ∧ Roomy s call)
      Redis.empty s) :
    ∃ rows, Represents codec rows s ∧ Numbered rows s.sequence := by
  apply h.invariant ⟨_, Represents.empty codec, fun id hid => by cases hid⟩
  rintro s t call - ⟨rows, hR, hrows⟩ ⟨hlt, hroomy⟩ ht
  obtain ⟨rows', hmoves⟩ := hR.step ⟨hR.named_of_lt hrows hlt call, hroomy⟩ ht
  refine ⟨rows', hmoves.represents, fun id hid => ?_⟩
  rcases hmoves.ids id hid with hold | ⟨-, htext⟩
  · obtain ⟨m, hm, htext⟩ := hrows id hold
    exact ⟨m, hm.trans hmoves.sequence, htext⟩
  · exact ⟨t.sequence, le_rfl, htext⟩

/-- Up to the last number of fourteen digits no write finds its id taken. -/
theorem reach_coherent_of_lt
    (h : Reach (RedisStore.step codec) (fun s call => s.sequence + 1 < 10 ^ 14 ∧ Roomy s call)
      Redis.empty s) : Coherent codec s := by
  obtain ⟨rows, hR, -⟩ := reach_numbered h
  exact hR.coherent

/-- Writing is all it takes for the counter to come to any number. -/
theorem reach_sequence (codec : Codec V) (run : Run V) (hkey : run.key = none) {n : Nat}
    (hn : n < 2 ^ 63) :
    ∃ s, Reach (RedisStore.step codec) Unconditional Redis.empty s ∧ s.sequence = n := by
  induction n with
  | zero => exact ⟨_, .start, rfl⟩
  | succ n ih =>
      obtain ⟨s, hs, rfl⟩ := ih (by omega)
      have hfree : run.key.getD "" ≠ "" → s.keys (run.key.getD "") = none := by simp [hkey]
      obtain ⟨t, ht, hadded⟩ := Redis.ADD_of_free hfree hn (RedisStore.fieldsOf codec run)
        run.queue run.priority.repr (RedisStore.waitingIn run).1 (RedisStore.waitingIn run).2
      refine ⟨t, .next (e := .add run) hs trivial ?_, hadded.sequence⟩
      simp only [RedisStore.step, RedisStore.perform, RedisStore.add, ht]

theorem add_pending (codec : Codec V) (s : Redis) (run : Run V) (hkey : run.key = none)
    (hpending : run.status = .pending) (hnext : s.sequence + 1 < 2 ^ 63) :
    ∃ t, RedisStore.step codec s (.add run) = some t ∧ t.sequence = s.sequence + 1 ∧
      t.runs (tostring (s.sequence + 1)) =
        some (toHash codec (tostring (s.sequence + 1)) run) ∧
      t.sets = (s.zadd (.queue run.queue run.priority.repr) (double run.dueAt.micro)
        (tostring (s.sequence + 1))).sets := by
  have hfree : run.key.getD "" ≠ "" → s.keys (run.key.getD "") = none := by simp [hkey]
  obtain ⟨t, ht, hadded⟩ := Redis.ADD_of_free hfree hnext (RedisStore.fieldsOf codec run)
    run.queue run.priority.repr (RedisStore.waitingIn run).1 (RedisStore.waitingIn run).2
  refine ⟨t, by simp only [RedisStore.step, RedisStore.perform, RedisStore.add, ht],
    hadded.sequence, ?_, ?_⟩
  · rw [hadded.runs]
    simp [Redis.hset, Represents.hash_fieldsOf]
  · rw [hadded.sets]
    simp [RedisStore.waitingIn, hpending, stamp, repr_ne_empty]

/-- The last number of fourteen digits behind it, the store writes two runs under one id, and the
lane of the first still holds the id of the second. -/
theorem coherent_of_every_run_fails :
    ¬ ∀ s, Reach (RedisStore.step Plain.codec) Unconditional Redis.empty s →
      Coherent Plain.codec s := by
  intro hall
  have hlast : 10 ^ 14 - 1 < 2 ^ 63 := by decide
  obtain ⟨s, hs, hsequence⟩ := reach_sequence Plain.codec (Plain.run "mail" 0 Instant.epoch) rfl
    hlast
  obtain ⟨t, ht, htn, -, htsets⟩ := add_pending Plain.codec s
    (Plain.run "mail" 0 Instant.epoch) rfl rfl (by rw [hsequence]; decide)
  obtain ⟨u, hu, -, huruns, husets⟩ := add_pending Plain.codec t
    (Plain.run "news" 0 Instant.epoch) rfl rfl (by rw [htn, hsequence]; decide)
  have hfirst : tostring (s.sequence + 1) = "1e+14" := by
    rw [hsequence]
    decide +kernel
  have hsecond : tostring (t.sequence + 1) = "1e+14" := by
    rw [htn, hsequence]
    decide +kernel
  have hcoherent := hall u (.next (.next hs trivial ht) trivial hu)
  rw [hfirst] at htsets
  rw [hsecond] at huruns husets
  have hmem : ("1e+14", double 0) ∈ u.sets (.queue "mail" "0") := by
    rw [husets, Redis.mem_zadd]
    refine Or.inr ⟨?_, by decide⟩
    rw [htsets, Redis.mem_zadd]
    exact Or.inl ⟨by decide, rfl, rfl⟩
  have hlane := (hcoherent.pending _ _ huruns rfl _ _).1 hmem
  exact absurd hlane.1 (by decide)

end Queuefy
