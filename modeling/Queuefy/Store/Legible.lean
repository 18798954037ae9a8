import Queuefy.Store.Scripts

/-! # What every stored hash can be read for

A script writes to the hash of a run only where there is one, or writes every field of it. So the
status and the queue of a run can be read off its hash in every state, also in one where a run was
written over another.
-/

namespace Queuefy

/-- The hash holds the status and the queue of a run. -/
def Hash.Legible (h : Hash) : Prop := (h .status).isSome ∧ (h .queue).isSome

theorem Hash.Legible.set {h : Hash} (hh : h.Legible) (pairs : List (Field × String)) :
    (h.set pairs).Legible := by
  unfold Hash.set
  induction pairs generalizing h with
  | nil => exact hh
  | cons pair rest ih =>
      apply ih
      constructor
      · by_cases hfield : Field.status = pair.1
        · simp [← hfield]
        · simpa [Function.update_of_ne hfield] using hh.1
      · by_cases hfield : Field.queue = pair.1
        · simp [← hfield]
        · simpa [Function.update_of_ne hfield] using hh.2

/-- There are only so many runs, and the hash of each holds its status and its queue. -/
structure Redis.Legible (s : Redis) : Prop where
  finite : {id | (s.runs id).isSome}.Finite
  fields : ∀ id h, s.runs id = some h → h.Legible

namespace Redis

variable {s t : Redis}

theorem Legible.of_runs (h : s.Legible) (hruns : t.runs = s.runs) : t.Legible := by
  constructor
  · rw [hruns]
    exact h.finite
  · rw [hruns]
    exact h.fields

theorem Legible.write (h : s.Legible) {id : String} {new : Hash} (hnew : new.Legible)
    (hruns : t.runs = Function.update s.runs id (some new)) : t.Legible := by
  constructor
  · apply (h.finite.insert id).subset
    intro other hother
    rw [hruns] at hother
    by_cases hid : other = id
    · exact .inl hid
    · exact .inr (by simpa [hid] using hother)
  · intro other found hfound
    rw [hruns] at hfound
    by_cases hid : other = id
    · subst hid
      simp only [Function.update_self, Option.some.injEq] at hfound
      rw [← hfound]
      exact hnew
    · exact h.fields other found (by simpa [hid] using hfound)

/-- Writing fields of a run there is. -/
theorem Legible.hset (h : s.Legible) {id : String} (hid : (s.runs id).isSome)
    (pairs : List (Field × String)) : (s.hset id pairs).Legible := by
  obtain ⟨old, hold⟩ := Option.isSome_iff_exists.mp hid
  exact h.write ((h.fields id old hold).set pairs) (runs_hset hold pairs)

theorem isSome_hset (s : Redis) (id : String) (pairs : List (Field × String)) :
    ((s.hset id pairs).runs id).isSome := by
  simp [Redis.hset]

theorem isSome_of_hget {id : String} {field : Field} (h : (s.hget id field).isSome) :
    (s.runs id).isSome := by
  cases hid : s.runs id with
  | none => simp [hget, hid] at h
  | some found => rfl

theorem isSome_of_holds {id worker : String} {attempt : Int} (h : s.holds id worker attempt) :
    (s.runs id).isSome := by
  have hworker : (s.hget id .worker).isSome := by
    rw [h.1]
    rfl
  exact isSome_of_hget hworker

/-! ## Script by script -/

theorem Legible.empty : Redis.empty.Legible := by
  constructor
  · simp [Redis.empty]
  · intro id h hid
    cases hid

theorem Legible.hincrby (h : s.Legible) {id : String} (hid : (s.runs id).isSome) {field : Field}
    {n : Int} (ht : s.hincrby id field n = some t) : t.Legible := by
  obtain ⟨total, -, rfl⟩ := Option.map_eq_some_iff.1 ht
  exact h.hset hid _

theorem Legible.takeOne (h : s.Legible) (worker moment lease : String) (entry : Ready) :
    (takeOne worker moment lease s entry).2.Legible := by
  unfold Redis.takeOne
  split
  · dsimp only
    split
    · rename_i hid
      have htaken := h.of_runs (runs_zrem s entry.lane entry.id)
      have hmarked := htaken.hset hid
        [(.status, "running"), (.worker, worker), (.startedAt, moment), (.leaseUntil, lease)]
      split
      · exact hmarked
      · rename_i s' hs
        have hcounted := hmarked.hincrby (isSome_hset _ _ _) hs
        exact hcounted.of_runs (runs_zadd _ _ _ _)
    · exact h.of_runs (runs_zrem s entry.lane entry.id)
  · exact h

theorem Legible.takeReady (worker moment lease : String) (wanted : Nat) (entries : List Ready)
    (taken : List Hash) {s : Redis} (h : s.Legible) :
    (takeReady worker moment lease wanted entries taken s).2.Legible := by
  induction entries generalizing taken s with
  | nil => exact h
  | cons entry rest ih =>
      have hone := h.takeOne worker moment lease entry
      unfold Redis.takeReady
      split
      · exact h
      · split
        · rename_i heq
          rwa [heq] at hone
        · rename_i heq
          rw [heq] at hone
          exact ih _ hone

theorem Legible.takeLevels (queues : List String) (worker moment lease : String)
    (wanted window : Nat) (levels : List String) (taken : List Hash) {s : Redis} (h : s.Legible) :
    (takeLevels queues worker moment lease wanted window levels taken s).2.Legible := by
  induction levels generalizing taken s with
  | nil => exact h
  | cons level rest ih =>
      have hlevel := h.takeReady worker moment lease wanted (s.ready queues moment window level)
        taken
      unfold Redis.takeLevels
      split
      · exact h
      · split
        · rename_i heq
          rwa [heq] at hlevel
        · rename_i heq
          rw [heq] at hlevel
          exact ih _ hlevel

theorem Legible.reclaimOne (h : s.Legible) (moment id : String) :
    (reclaimOne moment s id).Legible := by
  have htaken := h.of_runs (runs_zrem s .leased id)
  unfold Redis.reclaimOne
  dsimp only
  split
  · exact htaken
  · rename_i attempts hattempts
    have hid : ((s.zrem .leased id).runs id).isSome := by
      apply isSome_of_hget
      rw [hattempts]
      rfl
    split
    · exact (htaken.hset hid _).of_runs (runs_zadd _ _ _ _)
    · exact (htaken.hset hid _).of_runs (runs_zadd _ _ _ _)

theorem Legible.purgeOne (h : s.Legible) (id : String) : (purgeOne s id).Legible := by
  have hruns : (Redis.purgeOne s id).runs = Function.update s.runs id none := by
    unfold Redis.purgeOne
    dsimp only
    split
    · rfl
    · split <;> rfl
  constructor
  · apply h.finite.subset
    intro other hother
    rw [hruns] at hother
    by_cases hid : other = id
    · simp [hid] at hother
    · simpa [hid] using hother
  · intro other found hfound
    rw [hruns] at hfound
    by_cases hid : other = id
    · simp [hid] at hfound
    · exact h.fields other found (by simpa [hid] using hfound)

theorem Legible.foldl {f : Redis → String → Redis}
    (hstep : ∀ {s : Redis}, s.Legible → ∀ id, (f s id).Legible) (ids : List String) {s : Redis}
    (h : s.Legible) : (ids.foldl f s).Legible := by
  induction ids generalizing s with
  | nil => exact h
  | cons id rest ih => exact ih (hstep h id)

theorem Legible.settle (h : s.Legible) (id worker : String) (values : List (Field × String))
    (dueAt : String) (counted attempt : Int) :
    (s.SETTLE id worker values dueAt counted attempt).2.Legible := by
  unfold Redis.SETTLE
  split
  · rename_i hholds
    have htaken := h.of_runs (runs_zrem s .leased id)
    have hwritten := htaken.hset (isSome_of_holds hholds) values
    dsimp only
    split
    · exact hwritten
    · rename_i s' hs
      have hcounted := hwritten.hincrby (isSome_hset _ _ _) hs
      split
      · exact hcounted.of_runs (runs_zadd _ _ _ _)
      · exact hcounted.of_runs (runs_zadd _ _ _ _)
  · exact h

theorem Legible.heartbeat (h : s.Legible) (id worker lease : String) (attempt : Int) :
    (s.HEARTBEAT id worker lease attempt).2.Legible := by
  unfold Redis.HEARTBEAT
  split
  · rename_i hholds
    exact (h.hset (isSome_of_holds hholds) _).of_runs (runs_zadd _ _ _ _)
  · exact h

theorem Legible.cancel (h : s.Legible) (id moment : String) : (s.CANCEL id moment).2.Legible := by
  unfold Redis.CANCEL
  split
  · rename_i hpending
    have hid : (s.runs id).isSome := by
      apply isSome_of_hget
      rw [hpending]
      rfl
    have htaken := h.of_runs (runs_zrem s (s.laneOf id) id)
    exact (htaken.hset hid _).of_runs (runs_zadd _ _ _ _)
  · exact h

variable {V : Type} {codec : Codec V}

/-- A write names every field of the run, whatever was under its id before. -/
theorem runs_add {run : Run V} (hfree : run.key.getD "" ≠ "" → s.keys (run.key.getD "") = none)
    (hnext : s.sequence + 1 < 2 ^ 63) :
    (RedisStore.add codec s run).2.runs = Function.update s.runs (tostring (s.sequence + 1))
      (some (RedisStore.toHash codec (tostring (s.sequence + 1)) run)) := by
  obtain ⟨t, ht, hadded⟩ := ADD_of_free hfree hnext (RedisStore.fieldsOf codec run) run.queue
    run.priority.repr (RedisStore.waitingIn run).1 (RedisStore.waitingIn run).2
  simp only [RedisStore.add, ht, hadded.runs, Redis.hset, Represents.hash_fieldsOf]

theorem Legible.add (h : s.Legible) (run : Run V) : (RedisStore.add codec s run).2.Legible := by
  by_cases htaken : run.key.getD "" ≠ "" ∧ (s.keys (run.key.getD "")).isSome
  · rw [Represents.add_refused htaken.1 htaken.2]
    exact h
  · have hfree : run.key.getD "" ≠ "" → s.keys (run.key.getD "") = none := by
      intro hkey
      rw [not_and, Bool.not_eq_true, Option.isSome_eq_false_iff] at htaken
      exact Option.isNone_iff_eq_none.mp (htaken hkey)
    by_cases hnext : s.sequence + 1 < 2 ^ 63
    · have hnew : (RedisStore.toHash codec (tostring (s.sequence + 1)) run).Legible := ⟨rfl, rfl⟩
      exact h.write hnew (runs_add hfree hnext)
    · simp only [RedisStore.add, ADD_of_full hfree hnext]
      exact h.of_runs (runs_reserve _ _ _)

/-! ## In every state -/

theorem Legible.step (h : s.Legible) {request : Request String V}
    (ht : RedisStore.step codec s request = some t) : t.Legible := by
  cases ht
  cases request with
  | add run => exact h.add run
  | claim worker queues limit lease moment =>
      simp only [RedisStore.perform, RedisStore.claim]
      split
      · exact h
      · exact h.takeLevels queues worker _ _ _ _ _ _
  | heartbeat id worker attempt lease moment =>
      simp only [RedisStore.perform, RedisStore.heartbeat]
      split
      · exact h
      · exact h.heartbeat id worker _ attempt
  | complete id worker attempt moment result => exact h.settle id worker _ _ _ attempt
  | fail id worker attempt moment error errorType => exact h.settle id worker _ _ _ attempt
  | retryLater id worker attempt dueAt error errorType => exact h.settle id worker _ _ _ attempt
  | release id worker attempt dueAt error errorType => exact h.settle id worker _ _ _ attempt
  | reclaim moment => exact h.foldl (fun hs id => hs.reclaimOne _ id) _
  | cancel id moment => exact h.cancel id _
  | purge before limit => exact h.foldl (fun hs id => hs.purgeOne id) _
  | find key => exact h
  | get id => exact h

/-- A write over another run is no exception: every state a run of calls comes to is legible. -/
theorem legible_of_reach
    (h : Reach (RedisStore.step codec) Unconditional Redis.empty s) : s.Legible :=
  h.invariant Legible.empty fun _ hs _ ht => hs.step ht

end Redis

end Queuefy
