import Queuefy.Fleet.Late

/-! # What every run satisfies

The seven fields a run changes in are written by ten operations, each a different subset of
them. What they keep together is the count of the attempts and the shape of the rest. The count
also needs the claims, because neither a claim nor a retry asks whether any attempt is left; the
shape needs every lease to name an instant.
-/

namespace Queuefy

variable {V : Type}

/-- The attempts of a run are within its bound, with one left while it waits. -/
structure Counted (run : Run V) : Prop where
  low : 0 ≤ run.attempts
  high : run.attempts ≤ run.maxAttempts
  waiting : run.status = .pending → run.attempts < run.maxAttempts
  counting : run.status = .running → 1 ≤ run.attempts

/-- The holder, the lease and the end of a run are there exactly when its status says so. -/
structure Shaped (run : Run V) : Prop where
  held : run.status = .running → run.worker.isSome ∧ run.leaseUntil.isSome
  free : run.status ≠ .running → run.worker = none ∧ run.leaseUntil = none
  finished : run.status.settled = true → run.finishedAt.isSome

theorem Shaped.running_iff {run : Run V} (h : Shaped run) :
    run.status = .running ↔ run.worker.isSome ∧ run.leaseUntil.isSome := by
  constructor
  · exact h.held
  · rintro ⟨hworker, -⟩
    by_contra hstatus
    simp [(h.free hstatus).1] at hworker

/-! ## What each operation keeps -/

theorem counted_build (task : Task) (dueAt createdAt : Instant) (payload : V)
    (key : Option String) (priority : Option Int) :
    Counted (build task dueAt createdAt payload key priority) := by
  have htried := task.tried
  constructor <;> simp [build] <;> omega

theorem shaped_build (task : Task) (dueAt createdAt : Instant) (payload : V)
    (key : Option String) (priority : Option Int) :
    Shaped (build task dueAt createdAt payload key priority) := by
  constructor <;> simp [build, RunStatus.settled]

theorem Counted.granted {w : Worker} {moment : Instant} {run run' : Run V} (h : Counted run)
    (hpending : run.status = .pending) (hrun : Fleet.Granted w moment run run') :
    Counted run' := by
  obtain ⟨hrunning, -, hattempts, hmax⟩ := hrun.running
  have hlow := h.low
  have hroom := h.waiting hpending
  constructor <;> simp only [hattempts, hmax, hrunning] <;> first | omega | simp

theorem shaped_claimed (worker : String) (moment lease : Instant) (run : Run V) :
    Shaped (MemoryStore.claimed worker moment lease run) := by
  constructor <;> simp [MemoryStore.claimed, MemoryStore.started, RunStatus.settled]

theorem Shaped.beaten {run : Run V} (h : Shaped run) (hrunning : run.status = .running)
    (lease : Instant) : Shaped (MemoryStore.beaten lease run) where
  held := fun hr => ⟨(h.held hr).1, rfl⟩
  free := fun hr => absurd hrunning hr
  finished := h.finished

/-- Only an ending that asks for another attempt needs one to be left. -/
theorem Counted.applied {run : Run V} (h : Counted run) (hrunning : run.status = .running)
    (ending : Ending V)
    (hroom : ∀ dueAt error errorType, ending = .retryLater dueAt error errorType →
      run.attempts < run.maxAttempts) : Counted (ending.applied run) := by
  have hlow := h.low
  have hhigh := h.high
  have hcount := h.counting hrunning
  cases ending with
  | complete moment result =>
      constructor <;> simp [Ending.applied, MemoryStore.completed] <;> omega
  | fail moment error errorType =>
      constructor <;> simp [Ending.applied, MemoryStore.failed] <;> omega
  | retryLater dueAt error errorType =>
      have := hroom dueAt error errorType rfl
      constructor <;> simp [Ending.applied, MemoryStore.requeued] <;> omega
  | release dueAt error errorType =>
      constructor <;> simp [Ending.applied, MemoryStore.requeued] <;> omega

theorem shaped_applied (ending : Ending V) (run : Run V) : Shaped (ending.applied run) := by
  cases ending <;> constructor <;> simp [Ending.applied, MemoryStore.completed,
    MemoryStore.failed, MemoryStore.requeued, RunStatus.settled]

theorem Counted.takenBack {run : Run V} (h : Counted run) (moment : Instant) :
    Counted (MemoryStore.takenBack moment run) := by
  have hlow := h.low
  have hhigh := h.high
  unfold MemoryStore.takenBack
  dsimp only
  split
  · constructor <;> simp <;> omega
  · rename_i hleft
    simp only [Run.exhausted, decide_eq_true_eq, not_le] at hleft
    constructor <;> simp <;> omega

theorem shaped_takenBack (moment : Instant) (run : Run V) :
    Shaped (MemoryStore.takenBack moment run) := by
  unfold MemoryStore.takenBack
  dsimp only
  split <;> constructor <;> simp [RunStatus.settled]

theorem Counted.calledOff {run : Run V} (h : Counted run) (moment : Instant) :
    Counted (MemoryStore.calledOff moment run) := by
  refine ⟨h.low, h.high, ?_, ?_⟩ <;> simp [MemoryStore.calledOff]

theorem Shaped.calledOff {run : Run V} (h : Shaped run) (hpending : run.status = .pending)
    (moment : Instant) : Shaped (MemoryStore.calledOff moment run) := by
  have hfree := h.free (by rw [hpending]; decide)
  exact ⟨fun hr => by simp [MemoryStore.calledOff] at hr, fun _ => hfree, fun _ => rfl⟩

namespace Fleet

variable (team : Nat → Worker)

/-! ## The attempts a run was written with -/

/-- Every run and every claim of it carries the bound the run was written with. -/
structure Recorded (s : Fleet V) : Prop where
  known : ∀ w ∈ s.written, w.id ≤ s.store.sequence
  tried : ∀ w ∈ s.written, 1 ≤ w.maxAttempts
  distinct : ∀ w ∈ s.written, ∀ w' ∈ s.written, w.id = w'.id → w = w'
  stored : ∀ id row, s.store.get id = some row →
    ∃ w ∈ s.written, w.id = id ∧ w.maxAttempts = row.maxAttempts
  claimed : ∀ c ∈ s.claims, ∃ w ∈ s.written, w.id = c.row.id ∧
    w.maxAttempts = c.row.maxAttempts

theorem recorded_start : Recorded (start : Fleet V) := by
  constructor <;> simp [start]

variable {team}

theorem Turn.maxAttempts {s : Fleet V} {e : Event V} {fresh : List (Claim V)} {id : Nat}
    {row row' : Row Nat V} (h : Turn team s e fresh id (some row) (some row')) :
    row'.maxAttempts = row.maxAttempts := by
  cases h with
  | kept => rfl
  | granted _ _ worker limit moment heard he hget hchosen hid hrun => exact hrun.running.2.2.2
  | beaten => rfl
  | ended _ i c ending => cases ending <;> rfl
  | takenBack =>
      unfold MemoryStore.takenBack
      dsimp only
      split <;> rfl
  | calledOff => rfl

theorem Recorded.step {s t : Fleet V} {e : Event V} (hR : Recorded s)
    (h : s.step team e = some t) : Recorded t := by
  obtain ⟨u, fresh, hact, rfl⟩ := (step_eq_some team).1 h
  have hsequence := act_sequence team hact
  refine ⟨?_, ?_, ?_, ?_, ?_⟩
  · intro w hw
    change w ∈ u.written at hw
    change w.id ≤ u.store.sequence
    rcases mem_written hact hw with hold | ⟨_, _, _, _, _, _, rfl, hstore⟩
    · exact (hR.known w hold).trans hsequence
    · rw [hstore]
      exact le_rfl
  · intro w hw
    change w ∈ u.written at hw
    rcases mem_written hact hw with hold | ⟨task, _, _, _, _, _, rfl, -⟩
    · exact hR.tried w hold
    · exact task.tried
  · intro w hw w' hw' hid
    change w ∈ u.written at hw
    change w' ∈ u.written at hw'
    rcases act_written team hact with ⟨heq, -⟩ | ⟨_, _, _, _, _, _, -, heq, -⟩
    · exact hR.distinct w (heq ▸ hw) w' (heq ▸ hw') hid
    · rw [heq, List.mem_append, List.mem_singleton] at hw hw'
      rcases hw with hw | rfl <;> rcases hw' with hw' | rfl
      · exact hR.distinct w hw w' hw' hid
      · have := hR.known w hw
        simp only at hid
        omega
      · have := hR.known w' hw'
        simp only at hid
        omega
      · rfl
  · intro id row' hrow'
    change u.store.get id = some row' at hrow'
    have hturn := act_turn team hact id
    rw [hrow'] at hturn
    cases hbefore : s.store.get id with
    | none => exact ⟨row', (act_born hact hbefore hrow').1, MemoryStore.get_id hrow', rfl⟩
    | some row =>
        rw [hbefore] at hturn
        obtain ⟨w, hw, hid, hmax⟩ := hR.stored id row hbefore
        exact ⟨w, act_keeps_written hact hw, hid, hmax.trans hturn.maxAttempts.symm⟩
  · intro c hc
    obtain ⟨i, hci⟩ := List.getElem?_of_mem hc
    rcases step_claim team hact hci with ⟨c₀, c₁, hc₀, hadv, rfl⟩ | ⟨-, hf⟩
    · obtain ⟨w, hw, hid, hmax⟩ := hR.claimed c₀ (List.mem_of_getElem? hc₀)
      rw [watch_row, hadv.same.row]
      exact ⟨w, act_keeps_written hact hw, hid, hmax⟩
    · obtain ⟨row, hrow, -, -, hmax⟩ := Fenced.fresh_pending hact (List.mem_of_getElem? hf)
      obtain ⟨w, hw, hid, hwmax⟩ := hR.stored _ row hrow
      exact ⟨w, act_keeps_written hact hw, hid, hwmax.trans hmax.symm⟩

theorem reach_recorded {ok : Fleet V → Event V → Prop} {s : Fleet V}
    (h : Reach (Fleet.step team) ok start s) : Recorded s :=
  h.invariant recorded_start fun _ hR _ hstep => hR.step hstep

/-- An attempt that asks for another one has one left, of the run as the store holds it. -/
theorem Recorded.retries {s : Fleet V} (hR : Recorded s) (hF : Fenced team s) {c : Claim V}
    (hc : c ∈ s.claims) {ending : Ending V} (hasked : c.phase = .asked ending) {row : Row Nat V}
    (hheld : s.store.held c.row.id (team c.worker).name c.row.attempts = some row)
    (dueAt : Instant) (error errorType : String)
    (hretry : ending = .retryLater dueAt error errorType) : row.attempts < row.maxAttempts := by
  subst hretry
  obtain ⟨hget, -, -, hattempts⟩ := MemoryStore.held_eq_some.1 hheld
  obtain ⟨w, hw, hid, hmax⟩ := hR.stored _ row hget
  obtain ⟨w', hw', hid', hmax'⟩ := hR.claimed c hc
  have heq := hR.distinct w hw w' hw' (hid.trans hid'.symm)
  have hleft := (hF.sound c hc).retried dueAt error errorType (by rw [hasked]; rfl)
  rw [hattempts, ← hmax, heq, hmax']
  exact hleft

/-! ## Every run, in every fleet reached -/

theorem counted_step {s t : Fleet V} {e : Event V} (hF : Fenced team s) (hR : Recorded s)
    (hC : ∀ id row, s.store.get id = some row → Counted row.toRun)
    (h : s.step team e = some t) {id : Nat} {row' : Row Nat V}
    (hrow' : t.store.get id = some row') : Counted row'.toRun := by
  obtain ⟨u, fresh, hact, rfl⟩ := (step_eq_some team).1 h
  have hturn := act_turn team hact id
  change u.store.get id = some row' at hrow'
  rw [hrow'] at hturn
  generalize hbefore : s.store.get id = before at hturn
  cases hturn with
  | kept => exact hC id row' hbefore
  | born task dueAt createdAt payload key priority =>
      exact counted_build task dueAt createdAt payload key priority
  | granted row _ worker limit moment heard he hget hchosen hid hrun =>
      exact (hC id row hget).granted (MemoryStore.mem_chosen hchosen).2.1 hrun
  | beaten row i k c moment leaseEnd he hc hbeat hid hheld hlease hfresh =>
      have hcounted := hC id row (MemoryStore.held_eq_some.1 hheld).1
      exact ⟨hcounted.low, hcounted.high, hcounted.waiting, hcounted.counting⟩
  | ended row i c ending he hc hasked hid hheld hfresh =>
      obtain ⟨hget, -, hrunning, -⟩ := MemoryStore.held_eq_some.1 hheld
      exact (hC id row hget).applied hrunning ending
        (hR.retries hF (List.mem_of_getElem? hc) hasked (hid ▸ hheld))
  | takenBack row moment => exact (hC id row hbefore).takenBack moment
  | calledOff row moment => exact (hC id row hbefore).calledOff moment

/-- The attempts of a run stay within their bound in every run, whatever the leases are. -/
theorem reach_counted {ok : Fleet V → Event V → Prop} {s : Fleet V}
    (h : Reach (Fleet.step team) ok start s) :
    ∀ id row, s.store.get id = some row → Counted row.toRun :=
  h.invariant (fun id row hrow => by simp [start] at hrow) fun hs hC _ hstep _ _ hrow' =>
    counted_step (reach_fenced team hs) (reach_recorded hs) hC hstep hrow'

variable (team)

/-- A claim that finds a run to take can name the instant its lease runs out at. -/
def LeaseNamed (s : Fleet V) (e : Event V) : Prop :=
  ∀ worker limit moment heard, e = .claim worker limit moment heard →
    s.store.chosen (team worker).queues limit moment ≠ [] →
      (moment.plus (team worker).lease).isSome

variable {team}

theorem shaped_step {s t : Fleet V} {e : Event V} (hok : LeaseNamed team s e)
    (hS : ∀ id row, s.store.get id = some row → Shaped row.toRun)
    (h : s.step team e = some t) {id : Nat} {row' : Row Nat V}
    (hrow' : t.store.get id = some row') : Shaped row'.toRun := by
  obtain ⟨u, fresh, hact, rfl⟩ := (step_eq_some team).1 h
  have hturn := act_turn team hact id
  change u.store.get id = some row' at hrow'
  rw [hrow'] at hturn
  generalize hbefore : s.store.get id = before at hturn
  cases hturn with
  | kept => exact hS id row' hbefore
  | born task dueAt createdAt payload key priority =>
      exact shaped_build task dueAt createdAt payload key priority
  | granted row _ worker limit moment heard he hget hchosen hid hrun =>
      have hnamed := hok worker limit moment heard he (List.ne_nil_of_mem hchosen)
      rcases hrun with ⟨leaseEnd, -, heq⟩ | ⟨hnone, -⟩
      · rw [heq]
        exact shaped_claimed _ _ _ _
      · rw [hnone] at hnamed
        cases hnamed
  | beaten row i k c moment leaseEnd he hc hbeat hid hheld hlease hfresh =>
      obtain ⟨hget, -, hrunning, -⟩ := MemoryStore.held_eq_some.1 hheld
      exact (hS id row hget).beaten hrunning leaseEnd
  | ended row i c ending => exact shaped_applied ending row.toRun
  | takenBack row moment => exact shaped_takenBack moment row.toRun
  | calledOff row moment he hpending => exact (hS id row hbefore).calledOff hpending moment

theorem reach_shaped {s : Fleet V} (h : Reach (Fleet.step team) (LeaseNamed team) start s) :
    ∀ id row, s.store.get id = some row → Shaped row.toRun :=
  h.invariant (fun id row hrow => by simp [start] at hrow) fun _ hS hok hstep _ _ hrow' =>
    shaped_step hok hS hstep hrow'

/-- A run that is over is left alone by every step, but for a pruning that drops it. -/
theorem settled_step {s t : Fleet V} {e : Event V} (h : s.step team e = some t) {id : Nat}
    {row : Row Nat V} (hrow : s.store.get id = some row) (hover : row.status.settled = true) :
    t.store.get id = some row ∨
      (t.store.get id = none ∧ ∃ before limit, e = .purge before limit) := by
  obtain ⟨u, fresh, hact, rfl⟩ := (step_eq_some team).1 h
  have hturn := act_turn team hact id
  have hnot : row.status ≠ .running ∧ row.status ≠ .pending := by
    constructor <;> (intro heq; rw [heq] at hover; cases hover)
  change u.store.get id = some row ∨ (u.store.get id = none ∧ _)
  rw [hrow] at hturn
  generalize u.store.get id = after at hturn
  cases hturn with
  | kept => exact Or.inl rfl
  | granted _ row' worker limit moment heard he hget hchosen hid hrun =>
      exact absurd (MemoryStore.mem_chosen hchosen).2.1 hnot.2
  | beaten _ i k c moment leaseEnd he hc hbeat hid hheld hlease hfresh =>
      exact absurd (MemoryStore.held_eq_some.1 hheld).2.2.1 hnot.1
  | ended _ i c ending he hc hasked hid hheld hfresh =>
      exact absurd (MemoryStore.held_eq_some.1 hheld).2.2.1 hnot.1
  | takenBack _ moment lease he hrunning => exact absurd hrunning hnot.1
  | calledOff _ moment he hpending => exact absurd hpending hnot.2
  | purged _ before limit he => exact Or.inr ⟨rfl, before, limit, he⟩

variable (team)

/-- A worker whose lease reaches as far as its guard lets one: all that was left of the calendar
when the worker was built. -/
def widest : Worker where
  name := "w"
  queues := ["default"]
  lease := 1000000 * widestWait .epoch
  tasks := []
  builtAt := .epoch
  leased := by decide
  leaseWaited := by decide

end Fleet

end Queuefy
