import Queuefy.Store.ClaimOrder
import Queuefy.Store.Concurrent
import Queuefy.Store.Refines

/-! # The life of a run

What becomes of one run is the same in every store: it waits, it is held by one attempt after
another, and once it is over nothing touches it until it is dropped. What it was written with never
changes on the way. A store may lose track of a run only where one of its steps is none of these.
-/

namespace Queuefy

variable {ι V : Type}

open MemoryStore (started claimed beaten completed failed requeued takenBack calledOff expired
  isOver)
open SqlStore (gaveUp givenBack)

/-! ## One step of a run -/

/-- What a run is written with and no call writes again. -/
structure Terms (V : Type) where
  name : String
  queue : String
  payload : V
  key : Option String
  priority : Int
  maxAttempts : Int
  timeout : Option ℚ
  retryPolicy : RetryPolicy
  retryDelay : ℚ
  maxRetryDelay : ℚ
  createdAt : Instant
deriving DecidableEq

def Run.terms (run : Run V) : Terms V where
  name := run.name
  queue := run.queue
  payload := run.payload
  key := run.key
  priority := run.priority
  maxAttempts := run.maxAttempts
  timeout := run.timeout
  retryPolicy := run.retryPolicy
  retryDelay := run.retryDelay
  maxRetryDelay := run.maxRetryDelay
  createdAt := run.createdAt

/-- What one step of a store may make of one run. -/
inductive Run.Becomes : Run V → Run V → Prop
  | started {run : Run V} (worker : String) (moment : Instant) : run.status = .pending →
      Becomes run (started worker moment run)
  | claimed {run : Run V} (worker : String) (moment lease : Instant) : run.status = .pending →
      Becomes run (claimed worker moment lease run)
  | beaten {run : Run V} (lease : Instant) : run.status = .running → Becomes run (beaten lease run)
  | completed {run : Run V} (moment : Instant) (result : Option V) : run.status = .running →
      Becomes run (completed moment result run)
  | failed {run : Run V} (moment : Instant) (error errorType : String) : run.status = .running →
      Becomes run (failed moment error errorType run)
  | requeued {run : Run V} (dueAt : Instant) (error errorType : String) (counted : Int) :
      run.status = .running → counted = 0 ∨ counted = -1 →
      Becomes run (requeued dueAt error errorType counted run)
  | gaveUp {run : Run V} (moment : Instant) : run.status = .running → run.leaseUntil.isSome →
      Becomes run (gaveUp moment run)
  | givenBack {run : Run V} (moment : Instant) : run.status = .running → run.leaseUntil.isSome →
      Becomes run (givenBack moment run)
  | calledOff {run : Run V} (moment : Instant) : run.status = .pending →
      Becomes run (calledOff moment run)

namespace Run

variable {run next : Run V}

theorem Becomes.terms (h : Becomes run next) : next.terms = run.terms := by
  cases h <;> rfl

/-- Step after step. -/
def Lives : Run V → Run V → Prop := Relation.ReflTransGen Becomes

theorem Lives.terms (h : Lives run next) : next.terms = run.terms := by
  induction h with
  | refl => rfl
  | tail _ hstep ih => rw [hstep.terms, ih]

theorem takenBack_becomes (moment : Instant) (hrunning : run.status = .running)
    (hlease : run.leaseUntil.isSome) : Becomes run (takenBack moment run) := by
  unfold takenBack
  split
  · exact .gaveUp moment hrunning hlease
  · exact .givenBack moment hrunning hlease

theorem reclaimed_becomes (moment : Instant) (hrunning : run.status = .running)
    (hlease : run.leaseUntil.isSome) : Becomes run (run.reclaimed moment) := by
  unfold reclaimed
  dsimp only
  split
  · exact .gaveUp moment hrunning hlease
  · exact .givenBack moment hrunning hlease

end Run

/-! ## One step of what an id names -/

/-- What one step of a store may make of the run of one id: it may write one of `added` where there
is none, and drop one of `dropped`. -/
inductive Passes (added dropped : Run V → Prop) : Option (Run V) → Option (Run V) → Prop
  | kept (found : Option (Run V)) : Passes added dropped found found
  | became {run next : Run V} : run.Becomes next → Passes added dropped (some run) (some next)
  | dropped {run : Run V} : dropped run → Passes added dropped (some run) none
  | written {run : Run V} : added run → Passes added dropped none (some run)

theorem Passes.weaken {added added' dropped dropped' : Run V → Prop} {a b : Option (Run V)}
    (h : Passes added dropped a b) (hadded : ∀ run, added run → added' run)
    (hdropped : ∀ run, a = some run → b = none → dropped run → dropped' run) :
    Passes added' dropped' a b := by
  cases h with
  | kept => exact .kept _
  | became hstep => exact .became hstep
  | dropped hrun => exact .dropped (hdropped _ rfl rfl hrun)
  | written hrun => exact .written (hadded _ hrun)

/-- What a whole history makes of it: a stored run is one that was stored or was written, some
steps on, and a run that was stored still is, or lived on to be one of those that were dropped. -/
structure Fate (added dropped : Run V → Prop) (before after : Option (Run V)) : Prop where
  origin : ∀ run, after = some run →
    ∃ first, (before = some first ∨ added first) ∧ Run.Lives first run
  leaves : ∀ run, before = some run → (∃ next, after = some next ∧ Run.Lives run next) ∨
    ∃ last, Run.Lives run last ∧ dropped last

namespace Fate

variable {added added' dropped dropped' : Run V → Prop} {a b c : Option (Run V)}

theorem refl (a : Option (Run V)) : Fate added dropped a a :=
  ⟨fun run h => ⟨run, Or.inl h, .refl⟩, fun run h => Or.inl ⟨run, h, .refl⟩⟩

/-- A history goes on from a step. -/
theorem after (hstep : Passes added dropped a b) (h : Fate added dropped b c) :
    Fate added dropped a c := by
  cases hstep with
  | kept => exact h
  | @became run next hbecomes =>
      constructor
      · intro last hlast
        rcases h.origin last hlast with ⟨first, hfirst | hfirst, hlives⟩
        · cases hfirst
          exact ⟨run, Or.inl rfl, hlives.head hbecomes⟩
        · exact ⟨first, Or.inr hfirst, hlives⟩
      · rintro old ⟨⟩
        rcases h.leaves next rfl with ⟨last, hlast, hlives⟩ | ⟨last, hlives, hdropped⟩
        · exact Or.inl ⟨last, hlast, hlives.head hbecomes⟩
        · exact Or.inr ⟨last, hlives.head hbecomes, hdropped⟩
  | @dropped run hrun =>
      constructor
      · intro last hlast
        rcases h.origin last hlast with ⟨first, hfirst | hfirst, hlives⟩
        · cases hfirst
        · exact ⟨first, Or.inr hfirst, hlives⟩
      · rintro old ⟨⟩
        exact Or.inr ⟨run, .refl, hrun⟩
  | @written run hrun =>
      constructor
      · intro last hlast
        rcases h.origin last hlast with ⟨first, hfirst | hfirst, hlives⟩
        · cases hfirst
          exact ⟨run, Or.inr hrun, hlives⟩
        · exact ⟨first, Or.inr hfirst, hlives⟩
      · intro old hold
        cases hold

theorem weaken (h : Fate added dropped a b) (hadded : ∀ run, added run → added' run)
    (hdropped : ∀ run, dropped run → dropped' run) : Fate added' dropped' a b := by
  constructor
  · intro run hrun
    rcases h.origin run hrun with ⟨first, hfirst, hlives⟩
    exact ⟨first, hfirst.imp_right (hadded first), hlives⟩
  · intro run hrun
    rcases h.leaves run hrun with hleft | ⟨last, hlives, hlast⟩
    · exact Or.inl hleft
    · exact Or.inr ⟨last, hlives, hdropped last hlast⟩

/-- What a stored run was written with. -/
theorem terms (h : Fate added dropped a b) {run : Run V} (hrun : b = some run) :
    ∃ first, (a = some first ∨ added first) ∧ run.terms = first.terms := by
  obtain ⟨first, hfirst, hlives⟩ := h.origin run hrun
  exact ⟨first, hfirst, hlives.terms⟩

end Fate

section

variable {σ ε : Type} {step : σ → ε → Option σ} {ok : σ → ε → Prop}
  (shows : σ → Rows ι V → Prop) (added : ε → ι → Run V → Prop) (dropped : σ → ε → ι → Run V → Prop)

/-- What each step makes of each run a whole run makes of it, and a run that left left at one of its
steps, as what was stored under its id there. -/
theorem fates_of_run
    (hstep : ∀ {s t e a}, shows s a → ok s e → step s e = some t →
      ∃ b, shows t b ∧ ∀ i, Passes (added e i) (dropped s e i) (a i) (b i))
    {es : List ε} {s t : σ} {a : Rows ι V} (hs : shows s a) (hok : Meets step ok s es)
    (h : runAll step s es = some t) :
    ∃ b, shows t b ∧ ∀ i, Fate (fun run => ∃ e ∈ es, added e i run)
      (fun last => Sometime step (fun u e => (∃ c, shows u c ∧ c i = some last) ∧
        dropped u e i last) s es) (a i) (b i) := by
  induction es generalizing s a with
  | nil =>
      cases h
      exact ⟨a, hs, fun i => .refl _⟩
  | cons e rest ih =>
      rcases Option.bind_eq_some_iff.1 h with ⟨u, hu, ht⟩
      rcases hstep hs hok.1 hu with ⟨c, hc, hpasses⟩
      rcases ih hc (hok.2 u hu) ht with ⟨b, hb, hfates⟩
      refine ⟨b, hb, fun i => .after ((hpasses i).weaken ?_ ?_) ((hfates i).weaken ?_ ?_)⟩
      · exact fun run hrun => ⟨e, List.mem_cons_self, hrun⟩
      · exact fun run hrun _ hdropped => Or.inl ⟨⟨a, hs, hrun⟩, hdropped⟩
      · exact fun run ⟨d, hd, hrun⟩ => ⟨d, List.mem_cons_of_mem e hd, hrun⟩
      · exact fun run hrun => Or.inr ⟨u, hu, hrun⟩

end

section

variable [DecidableEq ι] {rows : Rows ι V} {added dropped : Run V → Prop}

theorem Passes.revise {ids : List ι} {g : Run V → Option (Run V)}
    (h : ∀ i ∈ ids, ∀ run, rows i = some run → Passes added dropped (some run) (g run)) (id : ι) :
    Passes added dropped (rows id) (rows.revise ids g id) := by
  by_cases hid : id ∈ ids
  · cases hrow : rows id with
    | none =>
        rw [Rows.revise, if_pos hid, hrow]
        exact .kept none
    | some run =>
        rw [Rows.revise_of_mem hrow hid]
        exact h id hid run hrow
  · rw [Rows.revise_of_not_mem hid]
    exact .kept _

theorem Passes.update {i : ι} {run next : Run V} (hrow : rows i = some run)
    (h : run.Becomes next) (id : ι) :
    Passes added dropped (rows id) (Function.update rows i (some next) id) := by
  by_cases hid : id = i
  · subst hid
    rw [hrow, Function.update_self]
    exact .became h
  · rw [Function.update_of_ne hid]
    exact .kept _

theorem Passes.write {i : ι} {run : Run V} (hrow : rows i = none) (h : added run) (id : ι) :
    Passes added dropped (rows id) (Function.update rows i (some run) id) := by
  by_cases hid : id = i
  · subst hid
    rw [hrow, Function.update_self]
    exact .written h
  · rw [Function.update_of_ne hid]
    exact .kept _

end

/-! ## In memory -/

namespace MemoryStore

variable {m : MemoryStore V} {added dropped : Run V → Prop}

theorem rows_of_get {row : Row Nat V} (h : m.get row.id = some row) :
    m.rows row.id = some row.toRun := rows_eq_some.2 h

/-- Runs changed in place each took the step they were changed by. -/
theorem passes_amend {ids : List Nat} {f : Run V → Run V}
    (h : ∀ i ∈ ids, ∃ row, m.get i = some row ∧ row.toRun.Becomes (f row.toRun)) (id : Nat) :
    Passes added dropped (m.rows id) ((m.amend ids f).rows id) := by
  rw [rows_amend]
  refine Passes.revise (fun i hi run hrow => ?_) id
  rcases h i hi with ⟨row, hget, hbecomes⟩
  rw [rows_eq_some, hget] at hrow
  cases hrow
  exact .became hbecomes

theorem passes_one {row : Row Nat V} {f : Run V → Run V} (hget : m.get row.id = some row)
    (h : row.toRun.Becomes (f row.toRun)) (id : Nat) :
    Passes added dropped (m.rows id) ((m.amend [row.id] f).rows id) :=
  passes_amend (fun _ hi => ⟨row, List.mem_singleton.1 hi ▸ hget, h⟩) id

theorem passes_settle (m : MemoryStore V) (id' : Nat) (worker : String) (attempt : Int)
    {f : Run V → Run V} (hf : ∀ run : Run V, run.status = .running → run.Becomes (f run))
    (id : Nat) :
    Passes added dropped (m.rows id) ((m.settle id' worker attempt f).2.rows id) := by
  rcases m.settle_cases id' worker attempt f with ⟨-, heq⟩ | ⟨row, hheld, heq⟩
  · rw [heq]
    exact .kept _
  · obtain ⟨hget, -, hrunning, -⟩ := held_eq_some.1 hheld
    obtain rfl := get_id hget
    rw [heq]
    exact passes_one hget (hf _ hrunning) id

theorem passes_claim (m : MemoryStore V) (worker : String) (queues : List String) (limit : Nat)
    (lease : Int) (moment : Instant) (id : Nat) :
    Passes added dropped (m.rows id) ((m.claim worker queues limit lease moment).2.rows id) := by
  cases hlease : moment.plus lease with
  | some leaseEnd =>
      simp only [m.claim_of_plus worker queues limit hlease]
      refine passes_amend (fun i hi => ?_) id
      obtain ⟨row, hrow, rfl⟩ := List.mem_map.1 hi
      obtain ⟨hget, hpending, -⟩ := mem_chosen hrow
      exact ⟨row, hget, .claimed worker moment leaseEnd hpending⟩
  | none =>
      rw [m.claim_of_overflow worker queues limit hlease]
      split
      · exact .kept _
      · rename_i row rest hchosen
        obtain ⟨hget, hpending, -⟩ := mem_chosen (hchosen ▸ List.mem_cons_self)
        exact passes_one hget (.started worker moment hpending) id

theorem passes_heartbeat (m : MemoryStore V) (id' : Nat) (worker : String) (attempt lease : Int)
    (moment : Instant) (id : Nat) :
    Passes added dropped (m.rows id)
      ((m.heartbeat id' worker attempt lease moment).2.rows id) := by
  rcases m.heartbeat_cases id' worker attempt lease moment with
    ⟨-, heq⟩ | ⟨-, heq⟩ | ⟨row, leaseEnd, hheld, -, heq⟩
  · rw [heq]
    exact .kept _
  · rw [heq]
    exact .kept _
  · obtain ⟨hget, -, hrunning, -⟩ := held_eq_some.1 hheld
    obtain rfl := get_id hget
    rw [heq]
    exact passes_one hget (.beaten leaseEnd hrunning) id

theorem passes_reclaim (m : MemoryStore V) (moment : Instant) (id : Nat) :
    Passes added dropped (m.rows id) ((m.reclaim moment).2.rows id) := by
  refine passes_amend (fun i hi => ?_) id
  obtain ⟨row, habandoned, rfl⟩ := List.mem_map.1 hi
  obtain ⟨hget, hexpired⟩ := mem_abandoned habandoned
  obtain ⟨hrunning, lease, hlease, -⟩ := expired_iff.1 hexpired
  exact ⟨row, hget, Run.takenBack_becomes moment hrunning (by simp [hlease])⟩

theorem passes_cancel (m : MemoryStore V) (id' : Nat) (moment : Instant) (id : Nat) :
    Passes added dropped (m.rows id) ((m.cancel id' moment).2.rows id) := by
  rcases m.cancel_cases id' moment with ⟨-, heq⟩ | ⟨row, hget, hpending, heq⟩
  · rw [heq]
    exact .kept _
  · obtain rfl := get_id hget
    rw [heq]
    exact passes_one hget (.calledOff moment hpending) id

/-- The call drops a run that was over before its instant. -/
def Prunes (q : Request Nat V) (last : Run V) : Prop :=
  ∃ before limit, q = .purge before limit ∧ isOver before last = true

/-- What one call makes of each run. -/
theorem perform_passes (m : MemoryStore V) (q : Request Nat V) (id : Nat) :
    Passes (fun run => q = .add run) (Prunes q) (m.rows id) ((m.perform q).2.rows id) := by
  cases q with
  | find key | get id' => exact .kept _
  | add run =>
      simp only [perform, add]
      split
      · exact .kept _
      · rw [rows_write]
        exact Passes.write (rows_eq_none.2 (get_past_sequence m.sequence.lt_succ_self)) (by rfl) id
  | claim worker queues limit lease moment =>
      exact m.passes_claim worker queues limit lease moment id
  | heartbeat id' worker attempt lease moment =>
      exact m.passes_heartbeat id' worker attempt lease moment id
  | complete id' worker attempt moment result =>
      exact passes_settle m id' worker attempt (fun _ h => .completed moment result h) id
  | fail id' worker attempt moment error errorType =>
      exact passes_settle m id' worker attempt (fun _ h => .failed moment error errorType h) id
  | retryLater id' worker attempt dueAt error errorType =>
      exact passes_settle m id' worker attempt
        (fun _ h => .requeued dueAt error errorType 0 h (Or.inl rfl)) id
  | release id' worker attempt dueAt error errorType =>
      exact passes_settle m id' worker attempt
        (fun _ h => .requeued dueAt error errorType (-1) h (Or.inr rfl)) id
  | reclaim moment => exact m.passes_reclaim moment id
  | cancel id' moment => exact m.passes_cancel id' moment id
  | purge before limit =>
      simp only [perform, purge, rows_drop]
      refine Passes.revise (fun i hi run hrow => ?_) id
      obtain ⟨row, hgone, rfl⟩ := List.mem_map.1 hi
      obtain ⟨hget, hover⟩ := mem_gone hgone
      rw [rows_of_get hget] at hrow
      cases hrow
      exact .dropped ⟨before, limit, rfl, hover⟩

def step (m : MemoryStore V) (q : Request Nat V) : Option (MemoryStore V) := some (m.perform q).2

/-- Call after call, a run that is stored is one that was stored or written, some steps on, and one
that is stored no more was over when a pruning came by it. -/
theorem runs_live_through_calls {m n : MemoryStore V} {calls : List (Request Nat V)}
    (h : runAll step m calls = some n) (id : Nat) :
    Fate (fun run => .add run ∈ calls)
      (fun last => Sometime step (fun u q => u.rows id = some last ∧ Prunes q last) m calls)
      (m.rows id) (n.rows id) := by
  have hstep : ∀ {m n : MemoryStore V} {q : Request Nat V} {a : Rows Nat V}, m.rows = a →
      Unconditional m q → step m q = some n → ∃ b, n.rows = b ∧
        ∀ id, Passes (fun run => q = .add run) (Prunes q) (a id) (b id) := by
    rintro m n q - rfl - ⟨⟩
    exact ⟨_, rfl, m.perform_passes q⟩
  rcases fates_of_run (fun m a => m.rows = a) (fun q _ run => q = .add run)
    (fun _ q _ => Prunes q) hstep rfl (meets_unconditional m calls) h with
    ⟨rows, rfl, hfates⟩
  refine (hfates id).weaken (fun run => ?_) fun last => Sometime.weaken ?_
  · rintro ⟨q, hq, rfl⟩
    exact hq
  · rintro u q ⟨⟨c, rfl, hrow⟩, hpruned⟩
    exact ⟨hrow, hpruned⟩

end MemoryStore

/-! ## In Redis -/

namespace RedisStore

variable {codec : Codec V} {rows : Rows String V} {s : Redis}

/-- What became of the rows of a state in another. -/
def Follows (codec : Codec V) (added dropped : Run V → Prop) (rows : Rows String V) (t : Redis) :
    Prop :=
  ∃ rows', Represents codec rows' t ∧ ∀ id, Passes added dropped (rows id) (rows' id)

theorem follows_self (hR : Represents codec rows s) (added dropped : Run V → Prop) :
    Follows codec added dropped rows s :=
  ⟨rows, hR, fun _ => .kept _⟩

theorem follows_settle (hR : Represents codec rows s) (added dropped : Run V → Prop)
    {id worker : String} {attempt counted : Int} {values : List (Field × String)}
    {dueAt : Option Instant} {f : Run V → Run V}
    (hf : ∀ run : Run V, run.status = .running → run.Becomes (f run))
    (h : ∀ run, Represents.Settles codec id run (f run) values (stamp dueAt) counted)
    (hroomy : s.holds id worker attempt → (s.summed id .attempts counted).isSome) :
    Follows codec added dropped rows (settle s id worker attempt values dueAt counted).2 := by
  rcases hR.settle_cases h hroomy with ⟨-, hsame⟩ | ⟨run, hrow, hrunning, -, hafter⟩
  · exact hsame.symm ▸ follows_self hR added dropped
  · exact ⟨_, hafter, Passes.update hrow (hf run hrunning)⟩

theorem follows_claim (hR : Represents codec rows s) (added dropped : Run V → Prop)
    {worker : String} {queues : List String} {limit : Nat} {lease : Int} {moment : Instant}
    (hroomy : Roomy s (.claim worker queues limit lease moment : Request String V)) :
    Follows codec added dropped rows (claim codec s worker queues limit lease moment).2 := by
  rcases hR.claim_cases hroomy with ⟨-, hsame⟩ | ⟨leaseEnd, -, hafter⟩
  · exact hsame.symm ▸ follows_self hR added dropped
  · refine ⟨_, hafter, Passes.revise fun id hid run hrow => ?_⟩
    have hoffered := (mem_of_gather hid).resolve_left List.not_mem_nil
    obtain ⟨other, hother, hpending, -⟩ := hR.mem_offered.1 hoffered
    rw [hrow] at hother
    cases hother
    exact .became (.claimed worker moment leaseEnd hpending)

theorem follows_reclaim (hR : Represents codec rows s) (added dropped : Run V → Prop)
    (moment : Instant) : Follows codec added dropped rows (reclaim s moment).2 := by
  refine ⟨_, (hR.reclaim_spec moment reclaimBatch).2, Passes.revise fun id hid run hrow => ?_⟩
  obtain ⟨⟨i, score⟩, hmem, rfl⟩ := List.mem_map.1 hid
  obtain ⟨other, lease, hother, hrunning, hlease, -⟩ :=
    hR.mem_leased.1 (SortedSet.mem_of_range hmem).1
  rw [hrow] at hother
  cases hother
  exact .became (Run.reclaimed_becomes moment hrunning (by simp [hlease]))

/-- The call is a pruning of what was over before its instant, as the scores tell it. -/
def Prunes (q : Request String V) (last : Run V) : Prop :=
  ∃ before limit finish, q = .purge before limit ∧ last.status.settled = true ∧
    last.finishedAt = some finish ∧ double finish.micro < double before.micro

theorem prunes_of_range {set : SortedSet String Int} {id : String} {score : Int}
    {before finish : Instant} {limit : Nat} {run : Run V} (hsettled : run.status.settled = true)
    (hfinish : run.finishedAt = some finish) (hscore : double finish.micro = score)
    (hmem : (id, score) ∈ set.range (fun finish => finish < number (stamp (some before))) limit) :
    Prunes (.purge before limit) run := by
  have hpast := of_decide_eq_true (SortedSet.mem_of_range hmem).2
  rw [stamp, number_repr, ← hscore] at hpast
  exact ⟨before, limit, finish, rfl, hsettled, hfinish, hpast⟩

/-- What one call makes of each run, as long as it comes to its end and writes none over another. -/
theorem perform_passes (hR : Represents codec rows s) {q : Request String V}
    (hunbroken : Unbroken s q) :
    Follows codec (fun run => q = .add run) (Prunes q) rows (perform codec s q).2 := by
  rcases hunbroken with ⟨hnamed, hroomy⟩
  cases q with
  | find key | get id => exact follows_self hR _ _
  | add run =>
      rcases hR.add_cases hnamed with ⟨-, -, hsame⟩ | ⟨-, hnone, -, -, hafter⟩
      · simp only [perform, hsame]
        exact follows_self hR _ _
      · exact ⟨_, hafter, Passes.write hnone (by rfl)⟩
  | claim worker queues limit lease moment => exact follows_claim hR _ _ hroomy
  | heartbeat id worker attempt lease moment =>
      rcases hR.heartbeat_cases id worker attempt lease moment with
        ⟨-, hsame⟩ | ⟨run, leaseEnd, hrow, hrunning, -, -, hafter⟩
      · simpa only [perform, hsame] using follows_self hR _ _
      · exact ⟨_, hafter, Passes.update hrow (.beaten leaseEnd hrunning)⟩
  | complete id worker attempt moment result =>
      exact follows_settle hR _ _ (fun _ h => .completed moment result h)
        (fun run => Represents.settles_completed codec id run moment result) hroomy
  | fail id worker attempt moment error errorType =>
      exact follows_settle hR _ _ (fun _ h => .failed moment error errorType h)
        (fun run => Represents.settles_failed codec id run moment error errorType) hroomy
  | retryLater id worker attempt dueAt error errorType =>
      exact follows_settle hR _ _ (fun _ h => .requeued dueAt error errorType 0 h (Or.inl rfl))
        (fun run => Represents.settles_requeued codec id run dueAt error errorType 0) hroomy
  | release id worker attempt dueAt error errorType =>
      exact follows_settle hR _ _ (fun _ h => .requeued dueAt error errorType (-1) h (Or.inr rfl))
        (fun run => Represents.settles_requeued codec id run dueAt error errorType (-1)) hroomy
  | reclaim moment => exact follows_reclaim hR _ _ moment
  | cancel id moment =>
      rcases hR.cancel_cases id moment with ⟨-, hsame⟩ | ⟨run, hrow, hpending, -, hafter⟩
      · simpa only [perform, hsame] using follows_self hR _ _
      · exact ⟨_, hafter, Passes.update hrow (.calledOff moment hpending)⟩
  | purge before limit =>
      refine ⟨_, (hR.purge_spec before limit).2, Passes.revise fun id hid run hrow => ?_⟩
      obtain ⟨⟨i, score⟩, hmem, rfl⟩ := List.mem_map.1 hid
      obtain ⟨other, finish, hother, hsettled, hfinish, hscore⟩ :=
        hR.mem_settled.1 (SortedSet.mem_of_range hmem).1
      rw [hrow] at hother
      cases hother
      exact .dropped (prunes_of_range hsettled hfinish hscore hmem)

/-- The call finds such a run under an id and leaves nothing there. -/
def Drops (codec : Codec V) (id : String) (last : Run V) (u : Redis) (q : Request String V) :
    Prop :=
  u.runs id = some (toHash codec id last) ∧ Prunes q last ∧ (perform codec u q).2.runs id = none

/-- Script after script, as long as each comes to its end and none writes a run over another: what
the hashes hold is what they held or were written with, some steps on, and a run whose hash is gone
was over when a pruning of this history came by it and dropped it. -/
theorem runs_live_through_scripts {calls : List (Request String V)} {t : Redis}
    (hR : Represents codec rows s) (hunbroken : Meets (step codec) Unbroken s calls)
    (h : runAll (step codec) s calls = some t) :
    ∃ rows', Represents codec rows' t ∧ ∀ id, Fate (fun run => .add run ∈ calls)
      (fun last => Sometime (step codec) (Drops codec id last) s calls) (rows id) (rows' id) := by
  have hstep : ∀ {s t : Redis} {q : Request String V} {a : Rows String V}, Represents codec a s →
      Unbroken s q → step codec s q = some t → ∃ b, Represents codec b t ∧
        ∀ id, Passes (fun run => q = .add run)
          (fun last => Prunes q last ∧ (perform codec s q).2.runs id = none) (a id) (b id) := by
    rintro s t q a hR hunbroken ⟨⟩
    rcases perform_passes hR hunbroken with ⟨b, hR', hpasses⟩
    refine ⟨b, hR', fun id => (hpasses id).weaken (fun _ hrun => hrun) ?_⟩
    intro last _ hgone hpruned
    exact ⟨hpruned, by rw [hR'.hashed, hgone, Option.map_none]⟩
  rcases fates_of_run _ (fun q _ run => q = .add run) _ hstep hR hunbroken h with
    ⟨rows', hR', hfates⟩
  refine ⟨rows', hR', fun id => (hfates id).weaken (fun run => ?_) fun last => ?_⟩
  · rintro ⟨q, hq, rfl⟩
    exact hq
  · refine Sometime.weaken ?_
    rintro u q ⟨⟨c, hc, hrow⟩, hpruned, hgone⟩
    exact ⟨hc.runs_eq hrow, hpruned, hgone⟩

/-- Two runs are written, one is called off and dropped, and the other is taken. -/
def pruned : List (Request String Unit) :=
  [.add (Plain.run "mail" 0 Instant.epoch), .add (Plain.run "mail" 0 Instant.epoch),
   .cancel "1" ((Instant.epoch.plus 42000000).get rfl),
   .purge ((Instant.epoch.plus 50000000).get rfl) 10,
   .claim "worker" ["mail"] 1 45000000 ((Instant.epoch.plus 50000000).get rfl)]

theorem runs_live_through_scripts_pruned : ∃ t rows',
    runAll (step Plain.codec) Redis.empty pruned = some t ∧ t.runs "1" = none ∧
      t.hget "2" .status = some "running" ∧ Represents Plain.codec rows' t ∧
      ∀ id, Fate (fun run => .add run ∈ pruned)
        (fun last => Sometime (step Plain.codec) (Drops Plain.codec id last) Redis.empty pruned)
        none (rows' id) := by
  have hmeets : Meets (step Plain.codec) Unbroken Redis.empty pruned := by
    decide +kernel
  rcases runs_live_through_scripts (.empty Plain.codec) hmeets rfl with ⟨rows', hR, hfate⟩
  exact ⟨_, rows', rfl, by decide +kernel, by decide +kernel, hR, hfate⟩

end RedisStore

/-! ## On the table -/

namespace SqlStore

open Prog (Comes)

/-- A statement that takes each run it writes one step on, drops runs that are over, or writes the
run its call was asked to write. -/
inductive Lawful (call : Asked V) : Statement V → Prop
  | update {condition : Condition V} {values : Run V → Run V} :
      (∀ row, condition row = true → row.toRun.Becomes (values row.toRun)) →
      Lawful call (.update condition values)
  | delete {condition : Condition V} (before : Instant) (limit : Nat) :
      call.2 = .purge before limit →
      (∀ row, condition row = true → isOver before row.toRun = true) →
      Lawful call (.delete condition)
  | insert {run : Run V} : call.2 = .add run → Lawful call (.insert call.1 run)

theorem Lawful.passes {call : Asked V} {d : Statement V} (h : Lawful call d) (t : Table V)
    (id : Nat) :
    Passes (fun run => call = (id, .add run))
      (fun last => ∃ before limit, call.2 = .purge before limit ∧ isOver before last = true)
      (t.runs id) ((Table.exec d t).2.runs id) := by
  cases h with
  | @update condition values hvalues =>
      simp only [Table.exec]
      cases hrun : t.runs id with
      | none =>
          rw [Table.runs_update_none hrun]
          exact .kept none
      | some run =>
          rw [Table.runs_update hrun]
          split
          · rename_i hcond
            exact .became (hvalues _ hcond)
          · exact .kept _
  | @delete condition before limit hpurge hover =>
      simp only [Table.exec]
      cases hrun : t.runs id with
      | none =>
          cases hafter : (t.delete condition).runs id with
          | none => exact .kept none
          | some run =>
              have hold := (Table.runs_delete.1 hafter).1
              rw [hrun] at hold
              cases hold
      | some run =>
          cases hafter : (t.delete condition).runs id with
          | none =>
              cases hcond : condition ⟨run, id⟩ with
              | true => exact .dropped ⟨before, limit, hpurge, hover _ hcond⟩
              | false =>
                  rw [Table.runs_delete.2 ⟨hrun, hcond⟩] at hafter
                  cases hafter
          | some next =>
              have hold := (Table.runs_delete.1 hafter).1
              rw [hrun] at hold
              cases hold
              exact .kept _
  | @insert run hadd =>
      simp only [Table.exec]
      split
      · rename_i hfree
        obtain ⟨hnone, hruns⟩ := Table.runs_insert hfree
        rw [hruns]
        by_cases hid : id = call.1
        · subst hid
          rw [hnone, Function.update_self]
          exact .written (Prod.ext rfl hadd)
        · rw [Function.update_of_ne hid]
          exact .kept _
      · exact .kept _

theorem running_of_holding {id : Nat} {worker : String} {attempt : Int} {row : Row Nat V}
    (h : holding id worker attempt row = true) : row.status = .running :=
  (of_decide_eq_true h).2.2.2

theorem running_of_expired {moment : Instant} {run : Run V} (h : expired moment run = true) :
    run.status = .running ∧ run.leaseUntil.isSome := by
  obtain ⟨hrunning, lease, hlease, -⟩ := MemoryStore.expired_iff.1 h
  exact ⟨hrunning, by simp [hlease]⟩

theorem Sends.lawful {call : Asked V} {d : Statement V} (h : Sends call.1 call.2 d) :
    Lawful call d := by
  rcases call with ⟨n, request⟩
  cases h with
  | written => exact .insert rfl
  | taken leaseEnd id =>
      exact .update fun row hrow => .claimed _ _ leaseEnd (of_decide_eq_true hrow).2.1
  | beaten leaseEnd => exact .update fun row hrow => .beaten leaseEnd (running_of_holding hrow)
  | completed => exact .update fun row hrow => .completed _ _ (running_of_holding hrow)
  | failed => exact .update fun row hrow => .failed _ _ _ (running_of_holding hrow)
  | requeued =>
      exact .update fun row hrow => .requeued _ _ _ 0 (running_of_holding hrow) (Or.inl rfl)
  | released =>
      exact .update fun row hrow => .requeued _ _ _ (-1) (running_of_holding hrow) (Or.inr rfl)
  | calledOff => exact .update fun row hrow => .calledOff _ (of_decide_eq_true hrow).2
  | @swept moment _ hsweeping =>
      rcases hsweeping with ⟨ids, rfl | rfl⟩
      · refine .update fun row hrow => ?_
        rcases running_of_expired (of_decide_eq_true (of_decide_eq_true hrow).2).1 with
          ⟨hrunning, hlease⟩
        exact .gaveUp moment hrunning hlease
      · refine .update fun row hrow => ?_
        rcases running_of_expired (of_decide_eq_true (of_decide_eq_true hrow).2).1 with
          ⟨hrunning, hlease⟩
        exact .givenBack moment hrunning hlease
  | purged hpurging =>
      rcases hpurging with ⟨ids, rfl⟩
      exact .delete _ _ rfl fun row hrow => (of_decide_eq_true hrow).2

theorem asked_lawful {call : Asked V} {ws : List (Statement V × Table V)}
    {q : Session V (Answer Nat V)} (h : Comes Table.exec (asked call) ws q) :
    ∀ w ∈ ws, Lawful call w.1 := fun w hw => (asked_sends h w hw).lawful

/-- One of the calls was asked to write this run, and was handed this id for it. -/
def Wrote (S : Tables V) (id : Nat) (run : Run V) : Prop :=
  ∃ (i : Nat) (q : Session V (Answer Nat V)), S.sessions[i]? = some ((id, .add run), q)

/-- A statement of one of the prunings found this run under this id, over before the instant of its
call, and left none there. -/
def Dropped (S : Tables V) (id : Nat) (last : Run V) : Prop :=
  ∃ (i n : Nat) (d : Statement V) (t : Table V) (before : Instant) (limit : Nat)
    (q : Session V (Answer Nat V)),
    (i, d, t) ∈ S.log ∧ S.sessions[i]? = some ((n, .purge before limit), q) ∧
    t.runs id = some last ∧ isOver before last = true ∧ (Table.exec d t).2.runs id = none

/-- What the log replays to: what each statement of it makes of a run, one after another. -/
theorem fate_of_replays {added dropped : Run V → Prop} {t₀ t : Table V} {id : Nat}
    {log : List (Nat × Statement V × Table V)} (h : Shared.Replays Table.exec t₀ log t)
    (hlog : ∀ i d u, (i, d, u) ∈ log →
      Passes added dropped (u.runs id) ((Table.exec d u).2.runs id)) :
    Fate added dropped (t₀.runs id) (t.runs id) := by
  induction log generalizing t₀ with
  | nil =>
      cases h
      exact .refl _
  | cons entry rest ih =>
      rcases entry with ⟨i, d, u⟩
      rcases h with ⟨rfl, hrest⟩
      exact .after (hlog i d u List.mem_cons_self)
        (ih hrest fun j d' u' hmem => hlog j d' u' (List.mem_cons_of_mem _ hmem))

/-- However calls meet on the table, each a statement at a time and each reading what it reads as
late or as long ago as it may: every statement takes a run one step of its life on, what is stored
at the end is what was stored or written, some steps on, under the terms it was written with, and
what is stored no more a statement of a pruning found over and dropped. -/
theorem runs_live_through_statements {t₀ : Table V} {S : Tables V}
    (h : Reach tables Unconditional (Shared.init t₀) S) :
    (∀ i d t, (i, d, t) ∈ S.log →
      ∀ id, Passes (Wrote S id) (Dropped S id) (t.runs id) ((Table.exec d t).2.runs id)) ∧
    ∀ id, Fate (Wrote S id) (Dropped S id) (t₀.runs id) (S.current.runs id) ∧
      ∀ run, S.current.runs id = some run →
        ∃ first, (t₀.runs id = some first ∨ Wrote S id first) ∧ run.terms = first.terms := by
  have hfollowed := Shared.reach_followed h
  have hpasses : ∀ i d t, (i, d, t) ∈ S.log →
      ∀ id, Passes (Wrote S id) (Dropped S id) (t.runs id) ((Table.exec d t).2.runs id) := by
    intro i d t hlog id
    have hlt := hfollowed.owned i d t hlog
    rcases hcall : S.sessions[i] with ⟨call, q⟩
    have hsession : S.sessions[i]? = some (call, q) := by
      rw [List.getElem?_eq_getElem hlt, hcall]
    have hlawful := asked_lawful (hfollowed.sessions i _ q hsession) _ (mem_writesOf.2 hlog)
    refine (hlawful.passes t id).weaken (fun run hcall' => ?_) fun last hrun hgone => ?_
    · exact ⟨i, q, hcall' ▸ hsession⟩
    · rintro ⟨before, limit, hpurge, hover⟩
      rw [show call = (call.1, .purge before limit) from Prod.ext rfl hpurge] at hsession
      exact ⟨i, call.1, d, t, before, limit, q, hlog, hsession, hrun, hover, hgone⟩
  have hfate : ∀ id, Fate (Wrote S id) (Dropped S id) (t₀.runs id) (S.current.runs id) := fun id =>
    fate_of_replays hfollowed.replays fun i d t hlog => hpasses i d t hlog id
  exact ⟨hpasses, fun id => ⟨hfate id, fun run hrun => (hfate id).terms hrun⟩⟩

/-- A run is written, taken and closed, the pruning that was read for it before comes too early to
drop it, and the next one does drop it. -/
def pruned : List (Shared.Move (Asked Unit)) :=
  [.start (1, .add (Plain.run "mail" 0 Instant.epoch)), .write 0,
   .start (2, .claim "worker" ["mail"] 1 45000000 Instant.epoch), .read 1 0, .write 1,
   .start (2, .purge ((Instant.epoch.plus 55000000).get rfl) 10), .read 2 0,
   .start (2, .complete 1 "worker" 1 ((Instant.epoch.plus 45000000).get rfl) none), .write 3,
   .start (2, .purge ((Instant.epoch.plus 55000000).get rfl) 10), .read 4 0, .write 4]

theorem runs_live_through_statements_pruned : ∃ S,
    runAll tables (Shared.init Table.empty) pruned = some S ∧ S.current.rows = [] ∧
    S.log.length = 4 ∧ ∀ id, Fate (Wrote S id) (Dropped S id) none (S.current.runs id) := by
  have hend : (runAll tables (Shared.init Table.empty) pruned).map
      (fun S => (S.current.rows, S.log.length)) = some ([], 4) := by
    decide +kernel
  obtain ⟨S, hS, heq⟩ := Option.map_eq_some_iff.mp hend
  obtain ⟨hrows, hlength⟩ := Prod.mk.inj heq
  have hfate := (runs_live_through_statements (.of_runAll .start hS)).2
  exact ⟨S, hS, hrows, hlength, fun id => (hfate id).1⟩

end SqlStore

end Queuefy
