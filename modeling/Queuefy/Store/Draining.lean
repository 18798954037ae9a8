import Queuefy.Store.Alike

/-! # Draining is the same in every store

A pass of housekeeping takes one batch, and each store picks it in an order of its own: the order
of writing, of the scores, of two statements that share one bound. So single passes differ, but
pass after pass the three come to one state, whatever the size of the backlog.
-/

namespace Queuefy

variable {ι κ V : Type}

open MemoryStore (takenBack expired isOver)

/-- A run that was taken back is not running any more. -/
theorem expired_takenBack (moment : Instant) (run : Run V) :
    expired moment (takenBack moment run) = false := by
  unfold takenBack
  split <;> simp [expired]

theorem Renames.drained {ρ : ι → κ} {rows : Rows ι V} {rows' : Rows κ V} (h : Renames ρ rows rows')
    (P : Run V → Bool) (g : Run V → Option (Run V)) :
    Renames ρ (rows.drained P g) (rows'.drained P g) := by
  have hsome : ∀ {i}, (rows.drained P g i).isSome → (rows i).isSome := by
    intro i hi
    cases hrow : rows i with
    | none => simp [Rows.drained, hrow] at hi
    | some run => rfl
  refine ⟨fun i run hrun => ?_, fun k run hrun => ?_, fun i j hi hj => ?_⟩
  · obtain ⟨old, hold, hnew⟩ := Option.bind_eq_some_iff.mp hrun
    rw [Rows.drained, h.kept i old hold]
    exact hnew
  · obtain ⟨old, hold, hnew⟩ := Option.bind_eq_some_iff.mp hrun
    obtain ⟨i, rfl, hi⟩ := h.onto k old hold
    refine ⟨i, rfl, ?_⟩
    rw [Rows.drained, hi]
    exact hnew
  · exact h.distinct i j (hsome hi) (hsome hj)

/-! ## Each store drains -/

theorem MemoryStore.reclaim_drains (m : MemoryStore V) (moment : Instant) :
    Drains (fun m => m.reclaim moment) (fun m rows => m.rows = rows)
      (Rows.backlog (expired moment)) reclaimBatch m
      (m.rows.drained (expired moment) fun run => some (takenBack moment run)) := by
  refine drains_of (fun _ => True) (fun run new _ hnew => ?_) (fun _ _ _ _ _ => trivial) ?_
    (by decide) rfl fun _ _ _ => trivial
  · exact Option.some.inj hnew ▸ expired_takenBack moment run
  · rintro m rows rfl -
    exact m.reclaim_batch moment

theorem MemoryStore.purge_drains (m : MemoryStore V) (before : Instant) {limit : Nat}
    (hlimit : 1 ≤ limit) :
    Drains (fun m => m.purge before limit) (fun m rows => m.rows = rows)
      (Rows.backlog (isOver before)) limit m (m.rows.drained (isOver before) fun _ => none) := by
  refine drains_of (fun _ => True) (fun run new _ hnew => ?_) (fun _ _ _ _ _ => trivial) ?_
    hlimit rfl fun _ _ _ => trivial
  · cases hnew
  · rintro m rows rfl -
    exact m.purge_batch before limit

theorem SqlStore.sweep_drains (t : Table V) (moment : Instant) :
    Drains ((SqlStore.sweep moment).run Table.exec) (fun t rows => t.runs = rows)
      (Rows.backlog (expired moment)) reclaimBatch t
      (t.runs.drained (expired moment) fun run => some (takenBack moment run)) := by
  refine drains_of (fun _ => True) (fun run new _ hnew => ?_) (fun _ _ _ _ _ => trivial) ?_
    (by decide) rfl fun _ _ _ => trivial
  · exact Option.some.inj hnew ▸ expired_takenBack moment run
  · rintro t rows rfl -
    exact SqlStore.sweep_batch t moment

theorem SqlStore.purge_drains (t : Table V) (before : Instant) {limit : Nat}
    (hlimit : 1 ≤ limit) :
    Drains ((SqlStore.purge before limit).run Table.exec) (fun t rows => t.runs = rows)
      (Rows.backlog (isOver before)) limit t (t.runs.drained (isOver before) fun _ => none) := by
  refine drains_of (fun _ => True) (fun run new _ hnew => ?_) (fun _ _ _ _ _ => trivial) ?_
    hlimit rfl fun _ _ _ => trivial
  · cases hnew
  · rintro t rows rfl -
    exact SqlStore.purge_batch t before limit

section

variable {codec : Codec V} {rows : Rows String V} {s : Redis}

theorem RedisStore.reclaim_drains (hR : Represents codec rows s)
    (hscored : ∀ i run, rows i = some run → Scored run) {moment : Instant}
    (hmoment : moment.Exact) :
    Drains (fun s => RedisStore.reclaim s moment) (fun s rows => Represents codec rows s)
      (Rows.backlog (expired moment)) reclaimBatch s
      (rows.drained (expired moment) fun run => some (takenBack moment run)) := by
  refine drains_of Scored (fun run new _ hnew => ?_) (fun run new hrun _ hnew => ?_) ?_
    (by decide) hR hscored
  · exact Option.some.inj hnew ▸ expired_takenBack moment run
  · exact Option.some.inj hnew ▸ hrun.takenBack hmoment
  · intro s rows hR hscored
    exact RedisStore.reclaim_batch hR hscored hmoment

theorem RedisStore.purge_drains (hR : Represents codec rows s)
    (hscored : ∀ i run, rows i = some run → Scored run) {before : Instant}
    (hbefore : before.Exact) {limit : Nat} (hlimit : 1 ≤ limit) :
    Drains (fun s => RedisStore.purge s before limit) (fun s rows => Represents codec rows s)
      (Rows.backlog (isOver before)) limit s (rows.drained (isOver before) fun _ => none) := by
  refine drains_of Scored (fun run new _ hnew => ?_) (fun run new _ _ hnew => ?_) ?_ hlimit hR
    hscored
  · cases hnew
  · cases hnew
  · intro s rows hR hscored
    exact RedisStore.purge_batch hR hscored hbefore limit

end

/-! ## To one state -/

/-- Pass after pass each of three stores takes as much as it may of what is left, and they come to
the same runs under the same ids: `g` was done of every run `P` was true of, and of no other. -/
structure DrainAlike (codec : Codec V) (ρ : Nat → String) (σ : Nat → Nat) (m : MemoryStore V)
    (rows : Rows String V) (s : Redis) (t : Table V) (P : Run V → Bool)
    (g : Run V → Option (Run V)) (size : Nat) (memory : MemoryStore V → Nat × MemoryStore V)
    (redis : Redis → Nat × Redis) (sql : Table V → Nat × Table V) : Prop where
  memory : Drains memory (fun m rows => m.rows = rows) (Rows.backlog P) size m
    (m.rows.drained P g)
  redis : Drains redis (fun s rows => Represents codec rows s) (Rows.backlog P) size s
    (rows.drained P g)
  sql : Drains sql (fun t rows => t.runs = rows) (Rows.backlog P) size t (t.runs.drained P g)
  memoryRedis : Renames ρ (m.rows.drained P g) (rows.drained P g)
  memorySql : Renames σ (m.rows.drained P g) (t.runs.drained P g)

theorem stores_drain_alike {codec : Codec V} {ρ : Nat → String} {σ : Nat → Nat}
    {m : MemoryStore V} {rows : Rows String V} {s : Redis} {t : Table V}
    (hR : Represents codec rows s) (hρ : Renames ρ m.rows rows) (hσ : Renames σ m.rows t.runs)
    (hscored : ∀ i run, m.rows i = some run → Scored run) {moment before : Instant}
    (hmoment : moment.Exact) (hbefore : before.Exact) {limit : Nat} (hlimit : 1 ≤ limit) :
    DrainAlike codec ρ σ m rows s t (expired moment) (fun run => some (takenBack moment run))
        reclaimBatch (fun m => m.reclaim moment) (fun s => RedisStore.reclaim s moment)
        ((SqlStore.sweep moment).run Table.exec) ∧
      DrainAlike codec ρ σ m rows s t (isOver before) (fun _ => none) limit
        (fun m => m.purge before limit) (fun s => RedisStore.purge s before limit)
        ((SqlStore.purge before limit).run Table.exec) := by
  have hscored' : ∀ k run, rows k = some run → Scored run := by
    intro k run hrow
    obtain ⟨i, -, hi⟩ := hρ.onto k run hrow
    exact hscored i run hi
  constructor
  · exact ⟨m.reclaim_drains moment, RedisStore.reclaim_drains hR hscored' hmoment,
      SqlStore.sweep_drains t moment, hρ.drained _ _, hσ.drained _ _⟩
  · exact ⟨m.purge_drains before hlimit, RedisStore.purge_drains hR hscored' hbefore hlimit,
      SqlStore.purge_drains t before hlimit, hρ.drained _ _, hσ.drained _ _⟩

namespace Plain

/-- A run an attempt holds until an instant. -/
def leased (attempts : Int) (lease : Instant) : Run Unit :=
  { run "mail" 0 Instant.epoch with
    status := .running
    worker := some "worker"
    attempts := attempts
    leaseUntil := some lease }

/-- A run that was over at an instant. -/
def finished (finish : Instant) : Run Unit :=
  { run "mail" 0 Instant.epoch with status := .done, finishedAt := some finish }

theorem kept_leased {attempts : Int} (hlow : 1 ≤ attempts) (hhigh : attempts ≤ 3)
    {lease : Instant} (hlease : 0 ≤ lease.micro) : Kept (leased attempts lease) := by
  constructor <;> simp [leased, run, heldSpans] <;> omega

theorem kept_finished {finish : Instant} (hfinish : 0 ≤ finish.micro) :
    Kept (finished finish) := by
  constructor <;> simp [finished, run, heldSpans]
  omega

/-- Three stores that were handed each of some runs, the first of them last. -/
def handed : List (Run Unit) → MemoryStore Unit × Redis × Table Unit
  | [] => (.empty, .empty, .empty)
  | run :: rest =>
      (((handed rest).1.perform (.add run)).2,
        (RedisStore.perform codec (handed rest).2.1 (.add run)).2,
        (SqlStore.perform (handed rest).2.2 (rest.length + 1) (.add run)).2)

theorem written_handed {runs : List (Run Unit)} (h : ∀ run ∈ runs, Kept run ∧ run.key = none)
    (hlength : runs.length ≤ 10 ^ 14) :
    Written codec runs.length (handed runs).1 (handed runs).2.1 (handed runs).2.2 := by
  induction runs with
  | nil => exact written_writes 0 (by decide)
  | cons run rest ih =>
      rw [List.length_cons] at hlength
      rcases List.forall_mem_cons.mp h with ⟨hrun, hrest⟩
      exact (ih hrest (by omega)).next (by omega) hrun.1 hrun.2

/-- Two runs that are over, and three that attempts hold: of those, each written after the one
held longer, and the second at its last attempt. -/
def backlog : List (Run Unit) :=
  [finished ⟨10, by decide, by decide⟩, finished ⟨20, by decide, by decide⟩,
    leased 1 ⟨10, by decide, by decide⟩, leased 3 ⟨20, by decide, by decide⟩,
    leased 1 ⟨30, by decide, by decide⟩]

theorem kept_backlog : ∀ run ∈ backlog, Kept run ∧ run.key = none := by
  simp only [backlog, List.forall_mem_cons, List.not_mem_nil, false_imp_iff, implies_true,
    and_true]
  exact ⟨⟨kept_finished (by decide), rfl⟩, ⟨kept_finished (by decide), rfl⟩,
    ⟨kept_leased (by decide) (by decide) (by decide), rfl⟩,
    ⟨kept_leased (by decide) (by decide) (by decide), rfl⟩,
    kept_leased (by decide) (by decide) (by decide), rfl⟩

def sweepAt : Instant := (Instant.epoch.plus 62000000).get rfl

end Plain

/-- Three stores that pick the expired runs in three orders, and the first run to drop in two. -/
theorem stores_drain_alike_held : ∃ ρ σ m rows s t,
    ((m.abandoned Plain.sweepAt).map (·.id) = [1, 2, 3] ∧
      Represents.leases s Plain.sweepAt reclaimBatch = ["3", "2", "1"] ∧
      SqlStore.batch t (SqlStore.spent Plain.sweepAt) reclaimBatch = [2]) ∧
    ((m.gone Plain.sweepAt 1).map (·.id) = [4] ∧
      ((s.sets .settled).range (· < number (stamp (some Plain.sweepAt))) 1).map Prod.fst = ["5"]) ∧
    DrainAlike Plain.codec ρ σ m rows s t (expired Plain.sweepAt)
      (fun run => some (takenBack Plain.sweepAt run)) reclaimBatch
      (fun m => m.reclaim Plain.sweepAt) (fun s => RedisStore.reclaim s Plain.sweepAt)
      ((SqlStore.sweep Plain.sweepAt).run Table.exec) ∧
    DrainAlike Plain.codec ρ σ m rows s t (isOver Plain.sweepAt) (fun _ => none) 1
      (fun m => m.purge Plain.sweepAt 1) (fun s => RedisStore.purge s Plain.sweepAt 1)
      ((SqlStore.purge Plain.sweepAt 1).run Table.exec) := by
  have hwritten := Plain.written_handed Plain.kept_backlog (by decide)
  obtain ⟨ρ, σ, halike⟩ := hwritten.alike
  obtain ⟨rows, hR, -, hρ⟩ := halike.redis
  have hexact : Plain.sweepAt.Exact := by
    show (62000000 : Int).natAbs ≤ 2 ^ 53
    decide
  have hlimit : 1 ≤ 1 := le_rfl
  have halike' := stores_drain_alike hR hρ halike.sql
    (fun i run hrow => (halike.kept i run hrow).scored) hexact hexact hlimit
  exact ⟨ρ, σ, _, rows, _, _, by decide +kernel, by decide +kernel, halike'.1, halike'.2⟩

end Queuefy
