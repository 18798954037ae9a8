import Queuefy.Store.Alike
import Queuefy.Store.ClaimOrder

/-! # Three stores through one history

The same calls are made of a memory store, of Redis and of a table, from the start. Redis names a
run by the text of the number the memory store counts it under, and a database hands out some
number past the ones before. Then the three stay the same store, claims among the calls: every
answer is the answer of the memory store under the names of the store asked.
-/

namespace Queuefy

variable {V : Type}

open MemoryStore (claimed handedOut claimKey claimable)

/-! ## A claim on the table, alone -/

namespace SqlStore

variable {σ : Nat → Nat} {m : MemoryStore V} {t : Table V}

theorem rising_rename (hσ : StrictMono σ) {l : List (Row Nat V)} (h : Rising claimKey l) :
    Rising claimKey (l.map (Row.rename σ)) := by
  unfold Rising at h ⊢
  rw [List.pairwise_map]
  refine h.imp fun {a b} hab => ?_
  simp only [claimKey, Prod.Lex.toLex_lt_toLex, Row.rename, hσ.lt_iff_lt] at hab ⊢
  exact hab

theorem due_rename (h : Renames σ m.rows t.runs) (hσ : StrictMono σ) (queues : List String)
    (moment : Instant) :
    (t.rows.filter fun row => row.queue ∈ queues ∧ row.status = .pending ∧ row.dueAt ≤ moment
      ).insertionSort (fun a b => claimKey a ≤ claimKey b) =
        (m.ready queues moment).map (Row.rename σ) := by
  have hids := t.primary.sublist ((List.filter_sublist (p := fun row =>
    decide (row.queue ∈ queues ∧ row.status = .pending ∧ row.dueAt ≤ moment)) (l := t.rows)).map
      (·.id))
  have hkeys : ((t.rows.filter fun row => row.queue ∈ queues ∧ row.status = .pending ∧
      row.dueAt ≤ moment).map claimKey).Nodup := by
    refine List.Nodup.of_map (fun key => (ofLex (ofLex key).2).2) ?_
    rw [List.map_map]
    exact hids
  refine (rising_insertionSort hkeys).eq_of_mem
    (rising_rename hσ (memory_ready_rising m queues moment)) fun row => ?_
  rw [(List.perm_insertionSort _ _).mem_iff, List.mem_filter, List.mem_map]
  constructor
  · rintro ⟨hrow, hdue⟩
    rcases of_decide_eq_true hdue with ⟨hqueue, hpending, hmoment⟩
    rcases h.onto _ _ (Table.runs_of_mem hrow) with ⟨i, hi, hstored⟩
    have hmem := (MemoryStore.get_eq_some.1 (MemoryStore.rows_eq_some.1 hstored)).1
    refine ⟨⟨row.toRun, i⟩, MemoryStore.mem_ready.2 ⟨hmem, ?_⟩, ?_⟩
    · exact MemoryStore.claimable_iff.2 ⟨hpending, hqueue, hmoment⟩
    · simp [Row.rename, hi]
  · rintro ⟨row, hready, rfl⟩
    rcases MemoryStore.mem_ready.1 hready with ⟨hmem, hclaimable⟩
    rcases MemoryStore.claimable_iff.1 hclaimable with ⟨hpending, hqueue, hmoment⟩
    have hstored := h.kept row.id row.toRun
      (MemoryStore.rows_eq_some.2 (MemoryStore.get_of_mem hmem))
    exact ⟨Table.runs_eq_some.1 hstored, decide_eq_true ⟨hqueue, hpending, hmoment⟩⟩

/-- The statements of a claim one after another: each id it goes through is a run that is due, so
each is taken until there are enough. -/
theorem takeEach_run (worker : String) {limit : Nat} {moment : Instant} (lease : Instant)
    {ids : List Nat} (taken : List (Row Nat V)) (hnodup : ids.Nodup)
    (hdue : ∀ id ∈ ids, ∃ run, t.runs id = some run ∧ run.status = .pending ∧
      run.dueAt ≤ moment) (htaken : taken.length ≤ limit) :
    ((takeEach worker limit moment lease ids taken).run Table.exec t).1 =
        taken ++ (ids.take (limit - taken.length)).filterMap (fun id =>
          (t.runs id).map fun run => ⟨claimed worker moment lease run, id⟩) ∧
      ((takeEach worker limit moment lease ids taken).run Table.exec t).2.runs =
        t.runs.revise (ids.take (limit - taken.length)) fun run =>
          some (claimed worker moment lease run) := by
  induction ids generalizing t taken with
  | nil => simp [takeEach, Prog.run, Rows.revise_nil]
  | cons id rest ih =>
      rcases List.nodup_cons.1 hnodup with ⟨hfirst, hrest⟩
      rcases hdue id List.mem_cons_self with ⟨run, hrun, hpending, hmoment⟩
      by_cases hfull : taken.length = limit
      · simp [takeEach, hfull, Prog.run, Rows.revise_nil]
      · have honly : ∀ row : Row Nat V, decide (row.id = id ∧ row.status = .pending ∧
            row.dueAt ≤ moment) = true → row.id = id := fun row hrow => (of_decide_eq_true hrow).1
        have hcond : decide (id = id ∧ run.status = .pending ∧ run.dueAt ≤ moment) = true :=
          decide_eq_true ⟨rfl, hpending, hmoment⟩
        have hone : (Table.exec (take worker moment lease id) t).1 =
            [⟨claimed worker moment lease run, id⟩] := by
          rcases t.update_one _ (claimed worker moment lease) honly with
            ⟨found, hfound, -, hone⟩ | ⟨hnot, -⟩
          · rw [hrun, Option.some.injEq] at hfound
            subst hfound
            exact hone
          · have hmiss := hnot run hrun
            rw [hcond] at hmiss
            cases hmiss
        have hafter : (Table.exec (take worker moment lease id) t).2.runs =
            Function.update t.runs id (some (claimed worker moment lease run)) :=
          Table.runs_update_one _ honly hrun hcond
        have hothers : ∀ i ∈ rest, (Table.exec (take worker moment lease id) t).2.runs i =
            t.runs i := by
          intro i hi
          rw [hafter, Function.update_of_ne]
          rintro rfl
          exact hfirst hi
        have hlater : ∀ i ∈ rest, ∃ r, (Table.exec (take worker moment lease id) t).2.runs i =
            some r ∧ r.status = .pending ∧ r.dueAt ≤ moment := by
          intro i hi
          rw [hothers i hi]
          exact hdue i (List.mem_cons_of_mem id hi)
        have hroom : limit - taken.length = limit - (taken.length + 1) + 1 := by omega
        have hmore := ih (t := (Table.exec (take worker moment lease id) t).2)
          (taken ++ [⟨claimed worker moment lease run, id⟩]) hrest hlater (by simp; omega)
        simp only [List.length_append, List.length_singleton] at hmore
        simp only [takeEach, hfull, if_false, Prog.run, hone, List.length_singleton, if_true]
        rw [hmore.1, hmore.2, hroom, List.take_succ_cons]
        constructor
        · rw [List.filterMap_cons, hrun, Option.map_some, List.append_assoc,
            List.singleton_append]
          congr 2
          refine List.filterMap_congr fun i hi => ?_
          rw [hothers i (List.mem_of_mem_take hi)]
        · have hfresh : id ∉ rest.take (limit - (taken.length + 1)) := fun hmem =>
            hfirst (List.mem_of_mem_take hmem)
          rw [hafter, ← Rows.revise_cons _ _ hfresh, hrun, Option.bind_some]

/-- What a claim on the table goes through: the window of the memory store, under other names. -/
theorem candidates_rename (h : Renames σ m.rows t.runs) (hσ : StrictMono σ) (queues : List String)
    (limit : Nat) (moment : Instant) :
    candidates t queues limit moment =
      ((m.ready queues moment).take (limit * claimSpread)).map fun row => σ row.id := by
  rw [candidates, due_rename h hσ, List.map_map, ← List.map_take]
  rfl

/-- A claim on a table that holds the same runs takes the runs the memory store takes. -/
theorem claim_renamed (h : Renames σ m.rows t.runs) (hσ : StrictMono σ) (worker : String)
    (queues : List String) (limit : Nat) {lease : Int} {moment leaseEnd : Instant}
    (hlease : moment.plus lease = some leaseEnd) (fresh : Nat) :
    (perform t fresh (.claim worker queues limit lease moment)).1 =
        .rows (.ok (((m.chosen queues limit moment).map (handedOut worker moment leaseEnd)).map
          (Row.rename σ))) ∧
      Renames σ (m.amend ((m.chosen queues limit moment).map (·.id))
          (claimed worker moment leaseEnd)).rows
        (perform t fresh (.claim worker queues limit lease moment)).2.runs := by
  have hkept : ∀ row ∈ m.ready queues moment, m.rows row.id = some row.toRun ∧
      row.status = .pending ∧ row.dueAt ≤ moment := by
    intro row hrow
    rcases MemoryStore.mem_ready.1 hrow with ⟨hmem, hclaimable⟩
    rcases MemoryStore.claimable_iff.1 hclaimable with ⟨hpending, -, hmoment⟩
    exact ⟨MemoryStore.rows_eq_some.2 (MemoryStore.get_of_mem hmem), hpending, hmoment⟩
  have hids : (candidates t queues limit moment).Nodup := by
    have hready := ((m.ready_ids_nodup queues moment).sublist
      ((List.take_sublist (limit * claimSpread) _).map _)).map hσ.injective
    rw [candidates_rename h hσ]
    rwa [List.map_map] at hready
  have hdue : ∀ id ∈ candidates t queues limit moment, ∃ run, t.runs id = some run ∧
      run.status = .pending ∧ run.dueAt ≤ moment := by
    intro id hid
    rw [candidates_rename h hσ] at hid
    rcases List.mem_map.1 hid with ⟨row, hrow, rfl⟩
    rcases hkept row (List.mem_of_mem_take hrow) with ⟨hstored, hpending, hmoment⟩
    exact ⟨row.toRun, h.kept _ _ hstored, hpending, hmoment⟩
  have hchosen : (candidates t queues limit moment).take limit =
      (m.chosen queues limit moment).map fun row => σ row.id := by
    have hspread : limit ≤ limit * claimSpread := Nat.le_mul_of_pos_right _ (by decide)
    rw [candidates_rename h hσ, ← List.map_take, List.take_take, Nat.min_eq_left hspread,
      MemoryStore.chosen]
  rcases takeEach_run worker leaseEnd [] hids hdue (Nat.zero_le limit) with ⟨hanswer, hafter⟩
  rw [List.length_nil, Nat.sub_zero, hchosen] at hanswer hafter
  have hrun : perform t fresh (.claim worker queues limit lease moment) =
      (.rows (.ok ((takeEach worker limit moment leaseEnd (candidates t queues limit moment)
          []).run Table.exec t).1),
        ((takeEach worker limit moment leaseEnd (candidates t queues limit moment) []).run
          Table.exec t).2) := by
    simp only [perform, session, Prog.run_map, claim, Prog.run, hlease]
  rw [hrun, hanswer, hafter]
  constructor
  · rw [List.nil_append, List.filterMap_map, List.map_map, ← List.filterMap_eq_map]
    refine congrArg _ (congrArg _ (List.filterMap_congr fun row hrow => ?_))
    have hstored := (hkept row (List.mem_of_mem_take hrow)).1
    simp only [Function.comp_apply, h.kept _ _ hstored, Option.map_some]
    rfl
  · rw [MemoryStore.rows_amend]
    have hsome : ∀ id ∈ (m.chosen queues limit moment).map (·.id), (m.rows id).isSome := by
      intro id hid
      rcases List.mem_map.1 hid with ⟨row, hrow, rfl⟩
      rw [(hkept row (List.mem_of_mem_take hrow)).1]
      rfl
    have hrevised := h.revise hsome fun run => some (claimed worker moment leaseEnd run)
    rwa [List.map_map] at hrevised

end SqlStore

/-! ## The three of them -/

/-- The memory store, Redis and the table. -/
structure Stores (V : Type) where
  memory : MemoryStore V
  redis : Redis
  table : Table V

namespace Stores

def opened : Stores V := ⟨.empty, .empty, .empty⟩

variable (codec : Codec V) (σ : Nat → Nat)

def inMemory (s : Stores V) (q : Request Nat V) : Answer Nat V × MemoryStore V := s.memory.perform q

def inRedis (s : Stores V) (q : Request Nat V) : Answer String V × Redis :=
  RedisStore.perform codec s.redis (q.rename tostring)

def inTable (s : Stores V) (q : Request Nat V) : Answer Nat V × Table V :=
  SqlStore.perform s.table (σ (s.memory.sequence + 1)) (q.rename σ)

/-- One call of all three. -/
def step (s : Stores V) (q : Request Nat V) : Option (Stores V) :=
  some ⟨(s.inMemory q).2, (s.inRedis codec q).2, (s.inTable σ q).2⟩

/-- What a call hands over beside what every store keeps: instants and priorities a double counts
exactly, a lease that ends, a run the counter has room for, a batch that takes all there is to take,
and a claim that finds what it takes within the window of its lane. -/
def Fitting (s : Stores V) : Request Nat V → Prop
  | .add run => run.dueAt.Exact ∧ run.priority.natAbs ≤ 2 ^ 53 ∧ s.memory.sequence + 1 < 10 ^ 14
  | .claim worker queues limit lease moment =>
      worker ≠ "" ∧ 0 < limit ∧ 0 < lease ∧ moment.Exact ∧ (moment.plus lease).isSome ∧
        (∀ row ∈ s.memory.chosen queues limit moment, row.attempts < 2 ^ 53) ∧
          Windowed tostring s.memory queues limit moment
  | .heartbeat _ _ _ lease moment => (moment.plus lease).isSome
  | .retryLater _ _ _ dueAt _ _ | .release _ _ _ dueAt _ _ => dueAt.Exact
  | .reclaim moment => s.memory.runs.countP (MemoryStore.expired moment ·.toRun) ≤ reclaimBatch
  | .purge before limit => s.memory.runs.countP (MemoryStore.isOver before ·.toRun) ≤ limit
  | .complete .. | .fail .. | .cancel .. | .find _ | .get _ => True

instance (t : Instant) : Decidable t.Exact := inferInstanceAs (Decidable (_ ≤ _))

instance (s : Stores V) (q : Request Nat V) : Decidable (s.Fitting q) :=
  match q with
  | .add _ | .claim .. => inferInstanceAs (Decidable (_ ∧ _))
  | .heartbeat .. => inferInstanceAs (Decidable (_ = true))
  | .retryLater _ _ _ dueAt _ _ | .release _ _ _ dueAt _ _ =>
    inferInstanceAs (Decidable dueAt.Exact)
  | .reclaim _ | .purge .. => inferInstanceAs (Decidable (_ ≤ _))
  | .complete .. | .fail .. | .cancel .. | .find _ | .get _ => isTrue trivial

/-- A call every store takes in the same way, about a run that was written. -/
def Expected (s : Stores V) (q : Request Nat V) : Prop :=
  q.Passed ∧ (∀ id, q.names id → id ≤ s.memory.sequence) ∧ s.Fitting q

/-- The three answer alike, each under its own names. -/
def Together (s : Stores V) (q : Request Nat V) : Prop :=
  (s.inRedis codec q).1 = (s.inMemory q).1.rename tostring ∧
    (s.inTable σ q).1 = (s.inMemory q).1.rename σ

/-- What the three have in common between two calls. -/
structure InStep (s : Stores V) : Prop where
  alike : Alike codec tostring σ s.memory s.redis s.table
  counted : s.redis.sequence = s.memory.sequence
  short : s.memory.sequence < 10 ^ 14
  due : ∀ i run, s.memory.rows i = some run → run.dueAt.Exact
  priority : ∀ i run, s.memory.rows i = some run → run.priority.natAbs ≤ 2 ^ 53

theorem inStep_opened : (opened : Stores V).InStep codec σ where
  alike := alike_empty codec tostring σ
  counted := rfl
  short := Nat.pow_pos (by decide)
  due := fun _ _ h => by cases h
  priority := fun _ _ h => by cases h

variable {codec σ} {s : Stores V} {q : Request Nat V}

theorem rows_le {m : MemoryStore V} {i : Nat} (h : (m.rows i).isSome) : i ≤ m.sequence := by
  rcases Option.isSome_iff_exists.1 h with ⟨run, hrun⟩
  exact MemoryStore.get_le_sequence (MemoryStore.rows_eq_some.1 hrun)

namespace InStep

/-- An id that was handed out and holds no run in memory holds none in Redis. -/
theorem free (h : s.InStep codec σ) {i : Nat} (hi : i < 10 ^ 14) (hnone : s.memory.rows i = none) :
    s.redis.runs (tostring i) = none := by
  rcases h.alike.redis with ⟨rows, hR, -, hρ⟩
  rw [hR.hashed, Option.map_eq_none_iff, ← Option.not_isSome_iff_eq_none]
  intro hsome
  rcases Option.isSome_iff_exists.1 hsome with ⟨run, hrun⟩
  rcases hρ.onto _ _ hrun with ⟨j, hj, hrow⟩
  have hle := rows_le (Option.isSome_iff_exists.2 ⟨run, hrow⟩)
  have hshort := h.short
  have hij := tostring_inj (by omega) hi hj
  rw [hij, hnone] at hrow
  cases hrow

theorem free_table (h : s.InStep codec σ) (hσ : StrictMono σ) {i : Nat}
    (hnone : s.memory.rows i = none) : s.table.runs (σ i) = none := by
  rw [← Option.not_isSome_iff_eq_none]
  intro hsome
  rcases Option.isSome_iff_exists.1 hsome with ⟨run, hrun⟩
  rcases h.alike.sql.onto _ _ hrun with ⟨j, hj, hrow⟩
  rw [hσ.injective hj, hnone] at hrow
  cases hrow

theorem follows_table (h : s.InStep codec σ) (hσ : StrictMono σ) :
    Follows σ s.memory.rows (fun id => s.table.runs id = none) σ q :=
  fun _ _ => ⟨fun _ => rfl, fun hnone => h.free_table hσ hnone⟩

theorem new (s : Stores V) : s.memory.rows (s.memory.sequence + 1) = none :=
  MemoryStore.rows_eq_none.2 (MemoryStore.get_past_sequence (Nat.lt_succ_self _))

end InStep

theorem atMost_of_countP {m : MemoryStore V} {P : Run V → Bool} {n : Nat}
    (h : m.runs.countP (P ·.toRun) ≤ n) : AtMost m.rows (fun run => P run = true) n := by
  intro ids hids
  have hlists := m.lists_filter P
  have hperm : ids.Perm ((m.runs.filter (P ·.toRun)).map (·.id)) := by
    refine (List.perm_ext_iff_of_nodup hids.nodup hlists.nodup).2 fun id => ?_
    rw [hids.mem, hlists.mem]
  rw [hperm.length_eq, List.length_map, ← List.countP_eq_length_filter]
  exact h

def claims : Request Nat V → Bool
  | .claim .. => true
  | _ => false

theorem Fitting.fits (h : s.Fitting q) (hq : claims q = false) :
    q.Fits s.memory.rows ∧ q.Dated := by
  cases q with
  | claim => cases hq
  | reclaim moment => exact ⟨atMost_of_countP h, trivial⟩
  | purge before limit => exact ⟨atMost_of_countP h, trivial⟩
  | heartbeat id worker attempt lease moment => exact ⟨trivial, h⟩
  | _ => exact ⟨trivial, trivial⟩

/-- A run that is written, settled or taken back keeps its priority, and comes due when the call
says. -/
theorem Fitting.apart {t : Rows Nat V} {a : Answer Nat V} (h : s.Fitting q) (hpassed : q.Passed)
    (hp : Performs (s.memory.sequence + 1) s.memory.rows q a t)
    (hrows : ∀ i run, s.memory.rows i = some run →
      run.dueAt.Exact ∧ run.priority.natAbs ≤ 2 ^ 53) :
    ∀ i run, t i = some run → run.dueAt.Exact ∧ run.priority.natAbs ≤ 2 ^ 53 := by
  refine hp.every (fun run hrun => ?_) (fun ask hask run hrun hcond => ?_)
    (fun moment hmoment run hrun => ?_) hrows
  · subst hrun
    exact ⟨h.1, h.2.1⟩
  · cases q with
    | add | claim | reclaim | purge | find | get => cases hask
    | heartbeat id worker attempt lease moment =>
        rcases Option.map_eq_some_iff.1 hask with ⟨leaseEnd, -, rfl⟩
        exact hrun
    | retryLater | release =>
        cases hask
        exact ⟨h, hrun.2⟩
    | complete | fail | cancel =>
        cases hask
        exact hrun
  · subst hmoment
    have hexact : moment.Exact := hpassed
    unfold MemoryStore.takenBack
    split
    · exact hrun
    · exact ⟨hexact, hrun.2⟩

theorem sequence_of_not_add {m : MemoryStore V} (hq : ∀ run, q ≠ .add run) :
    (m.perform q).2.sequence = m.sequence := by
  have hsettle : ∀ (id : Nat) (worker : String) (attempt : Int) (f : Run V → Run V),
      (m.settle id worker attempt f).2.sequence = m.sequence := by
    intro id worker attempt f
    rcases m.settle_cases id worker attempt f with ⟨-, heq⟩ | ⟨row, -, heq⟩
    · rw [heq]
    · rw [heq]
      rfl
  cases q with
  | add run => exact absurd rfl (hq run)
  | claim worker queues limit lease moment =>
      simp only [MemoryStore.perform]
      cases hlease : moment.plus lease with
      | none =>
          rw [m.claim_of_overflow worker queues limit hlease]
          split <;> rfl
      | some leaseEnd =>
          rw [m.claim_of_plus worker queues limit hlease]
          rfl
  | heartbeat id worker attempt lease moment =>
      simp only [MemoryStore.perform]
      rcases m.heartbeat_cases id worker attempt lease moment with
        ⟨-, heq⟩ | ⟨-, heq⟩ | ⟨held, leaseEnd, -, -, heq⟩
      · rw [heq]
      · rw [heq]
      · rw [heq]
        rfl
  | complete | fail | retryLater | release => exact hsettle _ _ _ _
  | cancel id moment =>
      simp only [MemoryStore.perform]
      rcases m.cancel_cases id moment with ⟨-, heq⟩ | ⟨found, -, -, heq⟩
      · rw [heq]
      · rw [heq]
        rfl
  | reclaim | purge | find | get => rfl

theorem add_cases (m : MemoryStore V) (run : Run V) :
    m.add run = (none, m) ∨ m.add run = (some ⟨run, m.sequence + 1⟩, m.write run) := by
  unfold MemoryStore.add
  split
  · exact Or.inl rfl
  · exact Or.inr rfl

theorem counted_perform (h : s.InStep codec σ) (hfitting : s.Fitting q)
    (htold : (s.inRedis codec q).1 = (s.inMemory q).1.rename tostring) :
    (s.inRedis codec q).2.sequence = (s.inMemory q).2.sequence ∧
      (s.inMemory q).2.sequence < 10 ^ 14 := by
  have hcounted := h.counted
  have hshort := h.short
  by_cases hadd : ∃ run, q = .add run
  · rcases hadd with ⟨run, rfl⟩
    have hroom : s.memory.sequence + 1 < 10 ^ 14 := hfitting.2.2
    have hfree : Named s.redis (.add run : Request String V) := fun _ => by
      rw [hcounted]
      exact ⟨by omega, h.free hroom (InStep.new s)⟩
    rcases h.alike.redis with ⟨rows, hR, -, -⟩
    rcases hR.add_cases hfree with ⟨-, -, hrefused⟩ | ⟨-, -, hone, hsequence, -⟩
    · have hnone : (s.memory.add run).1 = none := by
        simp only [inRedis, inMemory, Request.rename, RedisStore.perform, hrefused,
          MemoryStore.perform, Answer.rename, RedisStore.answerRow, Answer.row.injEq] at htold
        exact Option.map_eq_none_iff.1 htold.symm
      have hsame : (s.memory.add run).2 = s.memory := by
        rcases add_cases s.memory run with heq | heq
        · rw [heq]
        · rw [heq] at hnone
          cases hnone
      simp only [inRedis, inMemory, Request.rename, RedisStore.perform, hrefused,
        MemoryStore.perform, hsame]
      exact ⟨hcounted, hshort⟩
    · have hmore : (s.memory.add run).2.sequence = s.memory.sequence + 1 := by
        simp only [inRedis, inMemory, Request.rename, RedisStore.perform, hone,
          MemoryStore.perform, Answer.rename, RedisStore.answerRow, Answer.row.injEq] at htold
        rcases add_cases s.memory run with heq | heq
        · rw [heq] at htold
          cases htold
        · rw [heq]
          rfl
      simp only [inRedis, inMemory, Request.rename, RedisStore.perform, hsequence,
        MemoryStore.perform, hmore, hcounted, true_and]
      exact hroom
  · have hnot : ∀ run, q ≠ .add run := fun run hrun => hadd ⟨run, hrun⟩
    have hnot' : ∀ run, q.rename tostring ≠ .add run := by
      intro run hrun
      cases q with
      | add other => exact hnot other rfl
      | _ => cases hrun
    rw [inRedis, inMemory, RedisStore.sequence_of_not_add hnot', sequence_of_not_add hnot]
    exact ⟨hcounted, hshort⟩

/-! ## One call -/

theorem InStep.plain (h : s.InStep codec σ) (hσ : StrictMono σ) (hexpected : s.Expected q)
    (hq : claims q = false) :
    Together codec σ s q ∧
      Alike codec tostring σ (s.inMemory q).2 (s.inRedis codec q).2 (s.inTable σ q).2 ∧
        ∀ i run, (s.inMemory q).2.rows i = some run →
          run.dueAt.Exact ∧ run.priority.natAbs ≤ 2 ^ 53 := by
  rcases hexpected with ⟨hpassed, hids, hfitting⟩
  rcases hfitting.fits hq with ⟨hfits, hdated⟩
  rcases h.alike.redis with ⟨rows, hR, hempty, hρ⟩
  have hunique := hρ.unique (hR.unique (hρ.kept_rows h.alike.kept))
  have hm : Performs _ s.memory.rows q (s.inMemory q).1 (s.inMemory q).2.rows :=
    MemoryStore.performs hfits hdated
  have hnamed : Named s.redis (q.rename tostring) := by
    cases q with
    | add run =>
        intro _
        have hroom : s.memory.sequence + 1 < 10 ^ 14 := hfitting.2.2
        rw [h.counted]
        exact ⟨by omega, h.free hroom (InStep.new s)⟩
    | _ => trivial
  have hfollows : Follows tostring s.memory.rows (fun k => rows k = none) tostring q := by
    intro i hi
    refine ⟨fun _ => rfl, fun hnone => ?_⟩
    have hle := hids i hi
    have hshort := h.short
    have hfree := h.free (by omega) hnone
    rwa [hR.hashed, Option.map_eq_none_iff] at hfree
  rcases RedisStore.performs hR (hρ.kept_rows h.alike.kept) hempty (hpassed.rename tostring)
    (hρ.fits hfits tostring) (hdated.rename tostring) hnamed with ⟨rows', hredis, hR'⟩
  rw [h.counted] at hredis
  have hunused : ∀ run, q = .add run →
      (∀ k r, rows k = some r → run.key.isSome → r.key ≠ run.key) →
        rows (tostring (s.memory.sequence + 1)) = none := by
    rintro run rfl -
    have hfree := h.free hfitting.2.2 (InStep.new s)
    rwa [hR.hashed, Option.map_eq_none_iff] at hfree
  rcases hm.renamed hρ hunique hfollows (InStep.new s) hunused hredis with ⟨htold, hρ'⟩
  have hnew := h.free_table hσ (InStep.new s)
  have hsql := SqlStore.performs hnew (h.alike.sql.fits hfits σ) (hdated.rename σ)
  rcases hm.renamed h.alike.sql hunique (h.follows_table hσ) (InStep.new s) (fun _ _ _ => hnew)
    hsql with ⟨htable, hσ'⟩
  have hstill : rows' "" = none := hredis.absent hempty (Ne.symm (tostring_ne_empty _))
  refine ⟨⟨htold, htable⟩, ⟨⟨rows', hR', hstill, hρ'⟩, hσ', hm.kept hpassed h.alike.kept⟩, ?_⟩
  exact hfitting.apart hpassed hm fun i run hrun => ⟨h.due i run hrun, h.priority i run hrun⟩

theorem InStep.twins (h : s.InStep codec σ) {rows : Rows String V}
    (hR : Represents codec rows s.redis) (hρ : Renames tostring s.memory.rows rows) :
    Twins codec tostring s.memory rows s.redis where
  represents := hR
  renames := hρ
  rising := by
    intro i j hi hj hij
    have hshort := h.short
    have hi' := rows_le hi
    have hj' := rows_le hj
    rw [number_tostring (by omega), number_tostring (by omega)]
    omega
  due := h.due
  priority := h.priority
  room i run hrun := (h.alike.kept i run hrun).room (by omega) le_rfl

theorem kept_claimed {worker : String} {moment leaseEnd : Instant} (hworker : worker ≠ "")
    (hlease : -2 ^ 53 ≤ leaseEnd.micro) {run : Run V} (h : Kept run)
    (hattempts : run.attempts < 2 ^ 53) : Kept (claimed worker moment leaseEnd run) := by
  have hlow := h.low
  exact { h with
    lease := fun t ht => Option.some.inj ht ▸ hlease
    low := by
      show 0 ≤ run.attempts + 1
      omega
    high := by
      show run.attempts + 1 ≤ 2 ^ 53
      omega
    counting := by
      show _ → 1 ≤ run.attempts + 1
      omega
    worker := fun heq => hworker (Option.some.inj heq) }

theorem mapM_toHash {taken : List (Row Nat V)} (h : ∀ row ∈ taken, Spelled row.toRun) :
    (taken.map fun row => RedisStore.toHash codec (tostring row.id) row.toRun).mapM
        (RedisStore.toRun codec) = some (taken.map (Row.rename tostring)) := by
  induction taken with
  | nil => rfl
  | cons row rest ih =>
      have hrest := ih fun other hother => h other (List.mem_cons_of_mem row hother)
      have hfirst := RedisStore.toRun_toHash codec (tostring row.id) (h row List.mem_cons_self)
      simp [List.mapM_cons, hfirst, hrest, Row.rename]

theorem rows_claimed {m : MemoryStore V} {worker : String} {queues : List String} {limit : Nat}
    {moment leaseEnd : Instant} {i : Nat} {run : Run V}
    (h : (m.amend ((m.chosen queues limit moment).map (·.id))
      (claimed worker moment leaseEnd)).rows i = some run) :
    m.rows i = some run ∨ ∃ row ∈ m.chosen queues limit moment, m.rows row.id = some row.toRun ∧
      run = claimed worker moment leaseEnd row.toRun := by
  rw [MemoryStore.rows_amend] at h
  by_cases hi : i ∈ (m.chosen queues limit moment).map (·.id)
  · rcases List.mem_map.1 hi with ⟨row, hrow, rfl⟩
    have hstored := MemoryStore.rows_eq_some.2 (MemoryStore.mem_chosen hrow).1
    rw [Rows.revise_of_mem hstored hi, Option.some.injEq] at h
    exact Or.inr ⟨row, hrow, hstored, h.symm⟩
  · rw [Rows.revise_of_not_mem hi] at h
    exact Or.inl h

theorem InStep.claim (h : s.InStep codec σ) (hσ : StrictMono σ) {worker : String}
    {queues : List String} {limit : Nat} {lease : Int} {moment : Instant}
    (hfitting : s.Fitting (.claim worker queues limit lease moment)) :
    Together codec σ s (.claim worker queues limit lease moment) ∧
      Alike codec tostring σ (s.inMemory (.claim worker queues limit lease moment)).2
        (s.inRedis codec (.claim worker queues limit lease moment)).2
        (s.inTable σ (.claim worker queues limit lease moment)).2 ∧
      ∀ i run, (s.inMemory (.claim worker queues limit lease moment)).2.rows i = some run →
        run.dueAt.Exact ∧ run.priority.natAbs ≤ 2 ^ 53 := by
  rcases hfitting with ⟨hworker, hlimit, hpositive, hexact, hdated, hattempts, hwindowed⟩
  rcases Option.isSome_iff_exists.1 hdated with ⟨leaseEnd, hlease⟩
  rcases h.alike.redis with ⟨rows, hR, hempty, hρ⟩
  have htwins := h.twins hR hρ
  have hlate : -2 ^ 53 ≤ leaseEnd.micro := by
    have hsum := Instant.plus_eq_some.1 hlease
    have hmoment := hexact.late
    omega
  have hdue : DueAlike s.memory queues moment := by
    intro row _ _ _ hdouble
    rwa [double_of_natAbs_le hexact] at hdouble
  rcases (claimsAlike_iff htwins worker queues hlimit hlease).2 ⟨hdue, hwindowed⟩ with
    ⟨taken, left, t, rows', hmemory, hredis, hR', hρ'⟩
  have hplus := s.memory.claim_of_plus worker queues limit hlease
  rw [hplus, Prod.mk.injEq, Except.ok.injEq] at hmemory
  rcases hmemory with ⟨rfl, rfl⟩
  have hkept : ∀ i run, (s.memory.amend ((s.memory.chosen queues limit moment).map (·.id))
      (claimed worker moment leaseEnd)).rows i = some run → Kept run := by
    intro i run hrun
    rcases rows_claimed hrun with hold | ⟨row, hrow, hstored, rfl⟩
    · exact h.alike.kept i run hold
    · exact kept_claimed hworker hlate (h.alike.kept _ _ hstored) (hattempts row hrow)
  have hbounds : ∀ i run, (s.memory.amend ((s.memory.chosen queues limit moment).map (·.id))
      (claimed worker moment leaseEnd)).rows i = some run →
        run.dueAt.Exact ∧ run.priority.natAbs ≤ 2 ^ 53 := by
    intro i run hrun
    rcases rows_claimed hrun with hold | ⟨row, hrow, hstored, rfl⟩
    · exact ⟨h.due i run hold, h.priority i run hold⟩
    · have hdue := h.due _ _ hstored
      have hpriority := h.priority _ _ hstored
      exact ⟨hdue, hpriority⟩
  have hspelled : ∀ row ∈ (s.memory.chosen queues limit moment).map
      (handedOut worker moment leaseEnd), Spelled row.toRun := by
    intro row hrow
    rcases List.mem_map.1 hrow with ⟨old, hold, rfl⟩
    have hstored := MemoryStore.rows_eq_some.2 (MemoryStore.mem_chosen hold).1
    exact (kept_claimed hworker hlate (h.alike.kept _ _ hstored) (hattempts old hold)).spelled
  rcases SqlStore.claim_renamed h.alike.sql hσ worker queues limit hlease
    (σ (s.memory.sequence + 1)) with ⟨htable, hσ'⟩
  have hstill : rows' "" = none := by
    rw [← Option.not_isSome_iff_eq_none]
    intro hsome
    rcases Option.isSome_iff_exists.1 hsome with ⟨run, hrun⟩
    rcases hρ'.onto _ _ hrun with ⟨i, hi, -⟩
    exact tostring_ne_empty i hi
  have hanswer : (s.inRedis codec (.claim worker queues limit lease moment)) =
      (.rows (.ok (((s.memory.chosen queues limit moment).map
        (handedOut worker moment leaseEnd)).map (Row.rename tostring))), t) := by
    simp only [inRedis, Request.rename, RedisStore.perform, RedisStore.claim, hlease, hredis,
      Option.bind_some, mapM_toHash hspelled, RedisStore.answerRows]
  simp only [Together, hanswer, inMemory, MemoryStore.perform, hplus, inTable, Request.rename]
  exact ⟨⟨rfl, htable⟩, ⟨⟨rows', hR', hstill, hρ'⟩, hσ', hkept⟩, hbounds⟩

theorem InStep.next (h : s.InStep codec σ) (hσ : StrictMono σ) (hexpected : s.Expected q) :
    Together codec σ s q ∧
      InStep codec σ ⟨(s.inMemory q).2, (s.inRedis codec q).2, (s.inTable σ q).2⟩ := by
  have hone : Together codec σ s q ∧
      Alike codec tostring σ (s.inMemory q).2 (s.inRedis codec q).2 (s.inTable σ q).2 ∧
        ∀ i run, (s.inMemory q).2.rows i = some run →
          run.dueAt.Exact ∧ run.priority.natAbs ≤ 2 ^ 53 := by
    cases hq : claims q with
    | false => exact h.plain hσ hexpected hq
    | true =>
        cases q with
        | claim worker queues limit lease moment => exact h.claim hσ hexpected.2.2
        | _ => cases hq
  rcases hone with ⟨htogether, halike, hbounds⟩
  rcases counted_perform h hexpected.2.2 htogether.1 with ⟨hcounted, hshort⟩
  exact ⟨htogether, halike, hcounted, hshort, fun i run hrun => (hbounds i run hrun).1,
    fun i run hrun => (hbounds i run hrun).2⟩

/-! ## A whole history -/

/-- The three stores are one store through any history of calls, the claims among them: after each
call they hold the same runs, and each call is answered alike by all three. -/
theorem stores_stay_one (hσ : StrictMono σ)
    (h : Reach (step codec σ) Expected opened s) :
    Alike codec tostring σ s.memory s.redis s.table ∧
      ∀ q, s.Expected q → Together codec σ s q := by
  have hstep : s.InStep codec σ := h.invariant (inStep_opened codec σ) fun _ hs hexpected ht => by
    rw [← Option.some.inj ht]
    exact (hs.next hσ hexpected).2
  exact ⟨hstep.alike, fun q hq => (hstep.next hσ hq).1⟩

/-- A second past the epoch. -/
def secondAfter : Instant := (Instant.epoch.plus 1000000).get rfl

/-- Two runs are written and claimed; one comes back a second later and the other is done. -/
def oneComesBack : List (Request Nat Unit) :=
  [.add (Plain.run "mail" 0 Instant.epoch), .add (Plain.run "mail" 1 Instant.epoch),
   .claim "worker" ["mail"] 2 30000000 Instant.epoch,
   .retryLater 1 "worker" 1 secondAfter "refused" "OSError",
   .complete 2 "worker" 1 Instant.epoch none]

/-- The next claim, by a database that hands out every third number. -/
theorem stores_stay_one_oneComesBack : ∃ s,
    runAll (step Plain.codec (3 * ·)) opened oneComesBack = some s ∧
      s.memory.rows 1 = s.table.runs 3 ∧
      Together Plain.codec (3 * ·) s (.claim "worker" ["mail"] 1 30000000 secondAfter) := by
  have hσ : StrictMono (3 * · : Nat → Nat) := fun a b hab => by
    show 3 * a < 3 * b
    omega
  have hnone : ∀ {q : Request Nat Unit} {n : Nat}, (∀ id, ¬ q.names id) →
      ∀ id, q.names id → id ≤ n :=
    fun hnot id hid => absurd hid (hnot id)
  have hmeets : Meets (step Plain.codec (3 * ·)) Expected opened oneComesBack := by
    refine ⟨⟨Plain.kept_run, hnone fun _ h => h, by decide +kernel⟩, fun _ h => ?_⟩
    cases h
    refine ⟨⟨by constructor <;> simp [Plain.run, Plain.heldSpans], hnone fun _ h => h,
      by decide +kernel⟩, fun _ h => ?_⟩
    cases h
    refine ⟨⟨trivial, hnone fun _ h => h, by decide +kernel⟩, fun _ h => ?_⟩
    cases h
    refine ⟨⟨⟨by decide, by decide, by decide, by decide⟩, fun id hid => ?_, by decide +kernel⟩,
      fun _ h => ?_⟩
    · cases hid
      decide +kernel
    cases h
    refine ⟨⟨⟨by decide, by decide, by decide⟩, fun id hid => ?_, by decide +kernel⟩,
      fun _ _ => trivial⟩
    cases hid
    decide +kernel
  have hreach := fun (s : Stores Unit)
      (hs : runAll (step Plain.codec (3 * ·)) opened oneComesBack = some s) =>
    Reach.of_meets .start hmeets hs
  refine ⟨_, rfl, by decide +kernel, ?_⟩
  exact (stores_stay_one hσ (hreach _ rfl)).2 _ ⟨trivial, hnone fun _ h => h, by decide +kernel⟩

end Stores

end Queuefy
