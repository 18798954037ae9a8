import Queuefy.Store.Coherence
import Queuefy.Store.Rows

/-! # What a batch leaves

A script that works through a batch of ids does one thing to each of them, and no id comes up
twice, so what it leaves is what it makes of each run on its own.
-/

namespace Queuefy

variable {V : Type} {codec : Codec V} {rows : Rows String V} {s : Redis}

open RedisStore (toHash)

namespace Represents

/-- The induction every batch rests on: each id still holds the run the batch was read with when
its turn comes. -/
theorem foldl_spec {f : Redis → String → Redis} {g : Run V → Option (Run V)} {P : Run V → Prop}
    (hf : ∀ {rows : Rows String V} {s : Redis} {id : String} {run : Run V},
      Represents codec rows s → rows id = some run → P run →
        Represents codec (Function.update rows id (g run)) (f s id))
    {ids : List String} (hids : ids.Nodup) (hR : Represents codec rows s)
    (hrows : ∀ id ∈ ids, ∃ run, rows id = some run ∧ P run) :
    Represents codec (rows.revise ids g) (ids.foldl f s) := by
  induction ids generalizing rows s with
  | nil => rwa [Rows.revise_nil]
  | cons id ids ih =>
      obtain ⟨hid, hids⟩ := List.nodup_cons.mp hids
      obtain ⟨run, hrow, hP⟩ := hrows id List.mem_cons_self
      have hstep := hf hR hrow hP
      have hrest : ∀ i ∈ ids, ∃ r, Function.update rows id (g run) i = some r ∧ P r := by
        intro i hi
        have hne : i ≠ id := fun heq => hid (heq ▸ hi)
        rw [Function.update_of_ne hne]
        exact hrows i (List.mem_cons_of_mem _ hi)
      have hall := ih hids hstep hrest
      have hbind : g run = (rows id).bind g := by rw [hrow, Option.bind_some]
      rwa [hbind, Rows.revise_cons rows g hid] at hall

end Represents

/-! ## Leases nobody renewed -/

/-- A run taken back the way the script takes one back, both counts read through a double. -/
def Run.reclaimed (moment : Instant) (run : Run V) : Run V :=
  let freed := { run with worker := none, leaseUntil := none, startedAt := none }
  if double run.maxAttempts ≤ double run.attempts then
    { freed with
      status := .failed
      finishedAt := some moment
      error := some "the worker holding this run stopped answering"
      errorType := some "LeaseExpired" }
  else { freed with status := .pending, dueAt := moment }

theorem Run.reclaimed_eq {run : Run V} (hattempts : run.attempts.natAbs ≤ 2 ^ 53)
    (hmax : run.maxAttempts.natAbs ≤ 2 ^ 53) (moment : Instant) :
    run.reclaimed moment = MemoryStore.takenBack moment run := by
  simp only [Run.reclaimed, MemoryStore.takenBack, Run.exhausted, double_of_natAbs_le hattempts,
    double_of_natAbs_le hmax, decide_eq_true_eq]

namespace Represents

theorem reclaimOne_spec (moment : Instant) (hR : Represents codec rows s) {id : String}
    {run : Run V} (hrow : rows id = some run) (hrunning : run.status = .running) :
    Represents codec (Function.update rows id (some (run.reclaimed moment)))
      (Redis.reclaimOne (stamp (some moment)) s id) := by
  have hid : (s.zrem .leased id).runs id = some (toHash codec id run) := hR.runs_eq hrow
  have hold : ∀ set score, place run = some (set, score) → set = .leased := fun set score hset =>
    place_running hrunning hset
  have hmax : number (((s.zrem .leased id).hget id .maxAttempts).getD "") =
      double run.maxAttempts := by
    rw [Redis.hget_eq hid]
    simp [toHash]
  have hattempts : (s.zrem .leased id).hget id .attempts = some run.attempts.repr :=
    Redis.hget_eq hid _
  simp only [Redis.reclaimOne, hattempts, hmax, number_repr]
  by_cases hspent : double run.maxAttempts ≤ double run.attempts
  · have hhash : (toHash codec id run).set
        [(.status, "failed"), (.finishedAt, stamp (some moment)),
         (.error, "the worker holding this run stopped answering"),
         (.errorType, "LeaseExpired"), (.worker, ""), (.leaseUntil, ""), (.startedAt, "")] =
          toHash codec id (run.reclaimed moment) := by
      funext field
      cases field <;>
        simp [Hash.set, toHash, Run.reclaimed, hspent, RunStatus.value, stamp]
    have hplace : place (run.reclaimed moment) = some (.settled, double moment.micro) := by
      simp [place, Run.reclaimed, hspent]
    rw [if_pos hspent]
    refine hR.move hrow ?_ ?_ ?_ ?_ (fun i set score => ?_) rfl rfl
    · simp [Run.reclaimed, hspent]
    · simp [Run.reclaimed, hspent]
    · simp [Run.reclaimed, hspent]
    · rw [Redis.runs_zadd, Redis.runs_hset hid, hhash, Redis.runs_zrem]
    · refine (hR.moved_sets hrow hold rfl i set score).trans ?_
      rw [hplace]
      simp [stamp, eq_comm]
  · have hhash : (toHash codec id run).set
        [(.status, "pending"), (.dueAt, stamp (some moment)), (.worker, ""), (.leaseUntil, ""),
         (.startedAt, "")] = toHash codec id (run.reclaimed moment) := by
      funext field
      cases field <;>
        simp [Hash.set, toHash, Run.reclaimed, hspent, RunStatus.value, stamp]
    have hplace : place (run.reclaimed moment) =
        some (.queue run.queue run.priority.repr, double moment.micro) := by
      simp [place, Run.reclaimed, hspent]
    have hafter := Redis.runs_hset_self hid
      [(.status, "pending"), (.dueAt, stamp (some moment)), (.worker, ""), (.leaseUntil, ""),
       (.startedAt, "")]
    rw [if_neg hspent]
    refine hR.move hrow ?_ ?_ ?_ ?_ (fun i set score => ?_) rfl rfl
    · simp [Run.reclaimed, hspent]
    · simp [Run.reclaimed, hspent]
    · simp [Run.reclaimed, hspent]
    · rw [Redis.runs_zadd, Redis.runs_hset hid, hhash, Redis.runs_zrem]
    · refine (hR.moved_sets hrow hold rfl i set score).trans ?_
      rw [hplace, Redis.laneOf, Redis.hget_eq hafter, Redis.hget_eq hafter]
      simp [Hash.set, toHash, stamp, eq_comm]

theorem mem_leased (hR : Represents codec rows s) {id : String} {score : Int} :
    (id, score) ∈ s.sets .leased ↔ ∃ run lease, rows id = some run ∧ run.status = .running ∧
      run.leaseUntil = some lease ∧ double lease.micro = score := by
  rw [hR.placed]
  constructor
  · rintro ⟨run, hrow, hplace⟩
    cases hstatus : run.status with
    | running =>
        simp only [place, hstatus, Option.map_eq_some_iff, Prod.mk.injEq, true_and] at hplace
        obtain ⟨lease, hlease, hscore⟩ := hplace
        exact ⟨run, lease, hrow, hstatus, hlease, hscore⟩
    | pending => simp [place, hstatus] at hplace
    | done => simp [place, hstatus] at hplace
    | failed => simp [place, hstatus] at hplace
    | canceled => simp [place, hstatus] at hplace
  · rintro ⟨run, lease, hrow, hstatus, hlease, rfl⟩
    exact ⟨run, hrow, by simp [place, hstatus, hlease]⟩

theorem mem_settled (hR : Represents codec rows s) {id : String} {score : Int} :
    (id, score) ∈ s.sets .settled ↔ ∃ run finish, rows id = some run ∧
      run.status.settled = true ∧ run.finishedAt = some finish ∧ double finish.micro = score := by
  rw [hR.placed]
  constructor
  · rintro ⟨run, hrow, hplace⟩
    cases hstatus : run.status with
    | running => simp [place, hstatus] at hplace
    | pending => simp [place, hstatus] at hplace
    | done | failed | canceled =>
        simp only [place, hstatus, Option.map_eq_some_iff, Prod.mk.injEq, true_and] at hplace
        obtain ⟨finish, hfinish, hscore⟩ := hplace
        exact ⟨run, finish, hrow, by simp [hstatus, RunStatus.settled], hfinish, hscore⟩
  · rintro ⟨run, finish, hrow, hstatus, hfinish, rfl⟩
    refine ⟨run, hrow, ?_⟩
    cases hs : run.status <;> simp_all [place, RunStatus.settled]

/-- The ids a reclaim takes back. -/
def leases (s : Redis) (moment : Instant) (batch : Nat) : List String :=
  ((s.sets .leased).range (fun lease => lease < number (stamp (some moment))) batch).map Prod.fst

theorem reclaim_spec (hR : Represents codec rows s) (moment : Instant) (batch : Nat) :
    (s.RECLAIM (stamp (some moment)) batch).1 = (leases s moment batch).length ∧
      Represents codec
        (rows.revise (leases s moment batch) fun run => some (run.reclaimed moment))
        (s.RECLAIM (stamp (some moment)) batch).2 := by
  refine ⟨rfl, foldl_spec (P := fun run => run.status = .running)
    (fun hR hrow hP => hR.reclaimOne_spec moment hrow hP)
    ((s.sets .leased).range_members_nodup _ _) hR fun id hid => ?_⟩
  obtain ⟨⟨i, score⟩, hmem, rfl⟩ := List.mem_map.mp hid
  obtain ⟨run, -, hrow, hrunning, -, -⟩ := hR.mem_leased.1 (SortedSet.mem_of_range hmem).1
  exact ⟨run, hrow, hrunning⟩

/-! ## Pruning -/

/-- A run that is dropped leaves its set and its reservation. -/
theorem erase (hR : Represents codec rows s) {id : String} {run : Run V} {t : Redis}
    (hrow : rows id = some run) (hruns : t.runs = Function.update s.runs id none)
    (hsets : ∀ i set score, (i, score) ∈ t.sets set ↔ i ≠ id ∧ (i, score) ∈ s.sets set)
    (hpriorities : t.priorities = s.priorities)
    (hkeys : ∀ key, t.keys key = if key ≠ "" ∧ key = run.key.getD "" then none else s.keys key) :
    Represents codec (Function.update rows id none) t := by
  refine ⟨fun i => ?_, fun i set score => ?_, fun i r hr => ?_, ?_, fun key i => ?_⟩
  · rw [hruns]
    by_cases hi : i = id
    · subst hi
      simp
    · simp [hi, hR.hashed]
  · rw [hsets, hR.placed]
    by_cases hi : i = id
    · subst hi
      simp
    · simp [hi]
  · rw [hpriorities]
    by_cases hi : i = id
    · subst hi
      simp at hr
    · exact hR.listed i r (by simpa [hi] using hr)
  · rw [hpriorities]
    exact hR.levels
  · rw [hkeys]
    have hthis := hR.reserved key id
    by_cases hi : i = id
    · subst hi
      split
      · simp
      · rename_i hother
        rw [hthis, hrow]
        simp only [Option.some.injEq, exists_eq_left', Function.update_self, reduceCtorEq,
          false_and, exists_false, and_false, iff_false]
        rintro ⟨hkey, heq⟩
        exact hother ⟨hkey, heq.symm⟩
    · rw [Function.update_of_ne hi, ← hR.reserved]
      split
      · rename_i hkey
        have hnamed : s.keys key = some id := hthis.2 ⟨hkey.1, run, hrow, hkey.2.symm⟩
        simp [hnamed, Ne.symm hi]
      · rfl

theorem purgeOne_spec (hR : Represents codec rows s) {id : String} {run : Run V}
    (hrow : rows id = some run) (hplaced : ∃ score, place run = some (.settled, score)) :
    Represents codec (Function.update rows id none) (Redis.purgeOne s id) := by
  have hkey : s.hget id .key = some (run.key.getD "") := Redis.hget_eq (hR.runs_eq hrow) _
  obtain ⟨score, hplace⟩ := hplaced
  refine hR.erase hrow ?_ (fun i set score' => ?_) ?_ fun key => ?_
  · simp only [Redis.purgeOne, hkey]
    split <;> rfl
  · have hsets : ∀ t : Redis, t.sets = s.sets → ((i, score') ∈ (t.zrem .settled id).sets set ↔
        i ≠ id ∧ (i, score') ∈ s.sets set) := by
      intro t ht
      rw [Redis.mem_zrem, ht]
      by_cases hi : i = id
      · subst hi
        simp only [ne_eq, not_true_eq_false, imp_false, false_and, iff_false, not_and, not_not]
        intro hmem
        obtain ⟨other, hother, hset⟩ := hR.row_of_mem hmem
        obtain rfl := Option.some.inj (hrow.symm.trans hother)
        rw [hplace] at hset
        simp only [Option.some.injEq, Prod.mk.injEq] at hset
        exact hset.1.symm
      · simp [hi]
    simp only [Redis.purgeOne, hkey]
    split <;> exact hsets _ rfl
  · simp only [Redis.purgeOne, hkey]
    split <;> rfl
  · simp only [Redis.purgeOne, hkey]
    split
    · rename_i hnamed
      show Function.update s.keys (run.key.getD "") none key = _
      by_cases hk : key = run.key.getD ""
      · subst hk
        simp [hnamed]
      · simp [hk]
    · rename_i hnamed
      rw [if_neg]
      · rfl
      · rintro ⟨hne, rfl⟩
        exact hnamed hne

/-- The ids a pruning drops. -/
def finishes (s : Redis) (before : Instant) (limit : Nat) : List String :=
  ((s.sets .settled).range (fun finish => finish < number (stamp (some before))) limit).map
    Prod.fst

theorem purge_spec (hR : Represents codec rows s) (before : Instant) (limit : Nat) :
    (s.PURGE (stamp (some before)) limit).1 = (finishes s before limit).length ∧
      Represents codec (rows.revise (finishes s before limit) fun _ => none)
        (s.PURGE (stamp (some before)) limit).2 := by
  refine ⟨rfl, foldl_spec (P := fun run => ∃ score, place run = some (.settled, score))
    (fun hR hrow hP => hR.purgeOne_spec hrow hP)
    ((s.sets .settled).range_members_nodup _ _) hR fun id hid => ?_⟩
  obtain ⟨⟨i, score⟩, hmem, rfl⟩ := List.mem_map.mp hid
  obtain ⟨run, hrow, hplace⟩ := hR.row_of_mem (SortedSet.mem_of_range hmem).1
  exact ⟨run, hrow, score, hplace⟩

end Represents

end Queuefy
