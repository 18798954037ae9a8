import Queuefy.Store.Plain
import Queuefy.Store.TableSpec

/-! # Calls that meet on the table

Any number of calls work on one table, each a statement at a time, and what a call read may be of
long ago. Every write asks its condition again, so what a call wrote is told from its own writes
and the tables they found, whatever came in between.
-/

namespace Queuefy

variable {V : Type}

namespace SqlStore

open Prog (Comes)
open MemoryStore (claimed expired isOver)

/-- A call with the id the database would hand out to it. -/
abbrev Asked (V : Type) := Nat × Request Nat V

def asked (call : Asked V) : Session V (Answer Nat V) := session call.1 call.2

/-- Every table that calls come to, one statement after another. -/
abbrev Tables (V : Type) :=
  Shared (Table V) (Statement V) (List (Row Nat V)) (Answer Nat V) (Asked V)

def tables : Tables V → Shared.Move (Asked V) → Option (Tables V) := Shared.step Table.exec asked

/-! ## Taking -/

/-- A run goes from waiting to running. -/
def Turned (t u : Table V) (id : Nat) : Prop :=
  ∃ run run', t.runs id = some run ∧ run.status = .pending ∧
    u.runs id = some run' ∧ run'.status = .running

/-- The rows a list of writes handed back. -/
def handed (writes : List (Statement V × Table V)) : List (Row Nat V) :=
  writes.flatMap fun w => (Table.exec w.1 w.2).1

theorem take_cases (worker : String) (moment lease : Instant) (id : Nat) (t : Table V) :
    (Table.exec (take worker moment lease id) t).1 = [] ∨
      ∃ run, t.runs id = some run ∧ run.status = .pending ∧
        (Table.exec (take worker moment lease id) t).1 =
          [⟨claimed worker moment lease run, id⟩] := by
  rcases t.update_one (fun row => row.id = id ∧ row.status = .pending ∧ row.dueAt ≤ moment)
    (claimed worker moment lease) (fun row hrow => (of_decide_eq_true hrow).1) with
      ⟨run, hrun, hcond, hone⟩ | ⟨-, hnone⟩
  · exact Or.inr ⟨run, hrun, (of_decide_eq_true hcond).2.1, hone⟩
  · exact Or.inl (congrArg Prod.fst hnone)

/-- What a claim did: it took rows, one a statement, and answers with those it was handed. -/
theorem takeEach_comes {worker : String} {limit : Nat} {moment lease : Instant} {ids : List Nat}
    {taken : List (Row Nat V)} {ws : List (Statement V × Table V)}
    {q : Session V (List (Row Nat V))}
    (h : Comes Table.exec (takeEach worker limit moment lease ids taken) ws q) :
    (∀ w ∈ ws, ∃ id, w.1 = take worker moment lease id) ∧
      ∀ answer, q = .done answer → answer = taken ++ handed ws := by
  induction ids generalizing taken ws with
  | nil =>
      obtain ⟨rfl, rfl⟩ := h.of_done
      exact ⟨fun w hw => absurd hw List.not_mem_nil, fun answer heq => by
        cases heq
        simp [handed]⟩
  | cons id rest ih =>
      unfold takeEach at h
      split at h
      · obtain ⟨rfl, rfl⟩ := h.of_done
        exact ⟨fun w hw => absurd hw List.not_mem_nil, fun answer heq => by
          cases heq
          simp [handed]⟩
      · rcases h.of_write with ⟨rfl, rfl⟩ | ⟨t, later, rfl, hlater⟩
        · exact ⟨fun w hw => absurd hw List.not_mem_nil, fun answer heq => by cases heq⟩
        · obtain ⟨hwrites, hanswer⟩ := ih hlater
          refine ⟨fun w hw => ?_, fun answer heq => ?_⟩
          · rcases List.mem_cons.mp hw with rfl | hw
            · exact ⟨id, rfl⟩
            · exact hwrites w hw
          · rw [hanswer answer heq]
            rcases take_cases worker moment lease id t with hnone | ⟨run, -, -, hone⟩
            · simp [handed, hnone]
            · simp [handed, hone]

theorem turned_take {worker : String} {moment lease : Instant} {id : Nat} {t : Table V}
    {row : Row Nat V} (h : row ∈ (Table.exec (take worker moment lease id) t).1) :
    row.id = id ∧ Turned t (Table.exec (take worker moment lease id) t).2 id := by
  obtain ⟨old, hold, rfl⟩ := List.mem_map.mp h
  obtain ⟨hmem, hcond⟩ := List.mem_filter.mp hold
  obtain ⟨rfl, hpending, hdue⟩ := of_decide_eq_true hcond
  refine ⟨rfl, old.toRun, _, Table.runs_of_mem hmem, hpending,
    Table.runs_update (Table.runs_of_mem hmem), ?_⟩
  rw [if_pos (by simpa using ⟨hpending, hdue⟩)]
  rfl

theorem take_of_turned {worker : String} {moment lease : Instant} {id i : Nat} {t : Table V}
    (h : Turned t (Table.exec (take worker moment lease id) t).2 i) :
    (Table.exec (take worker moment lease id) t).1.map (·.id) = [i] := by
  obtain ⟨run, run', hrun, hpending, hafter, hrunning⟩ := h
  obtain ⟨old, hold, heq⟩ := Table.runs_of_update hafter
  obtain rfl := Option.some.inj (hrun.symm.trans hold)
  have hcond : (⟨run, i⟩ : Row Nat V).id = id ∧ run.status = .pending ∧ run.dueAt ≤ moment := by
    by_contra hno
    rw [if_neg (by simpa using hno)] at heq
    rw [heq, hpending] at hrunning
    cases hrunning
  rcases take_cases worker moment lease id t with hnone | ⟨_, -, -, hone⟩
  · have hmem : (⟨run, i⟩ : Row Nat V) ∈ t.rows := Table.runs_eq_some.1 hrun
    simp only [take, Table.exec, List.map_eq_nil_iff, List.filter_eq_nil_iff] at hnone
    exact absurd (decide_eq_true hcond) (hnone _ hmem)
  · rw [hone, List.map_singleton, ← hcond.1]

/-! ## What never turns a run -/

/-- A statement that turns no waiting run into a running one. -/
def Quiet (d : Statement V) : Prop := ∀ t id, ¬ Turned t (Table.exec d t).2 id

theorem quiet_update {condition : Condition V} {values : Run V → Run V}
    (h : ∀ run, run.status = .pending → (values run).status ≠ .running) :
    Quiet (.update condition values) := by
  rintro t id ⟨run, run', hrun, hpending, hafter, hrunning⟩
  obtain ⟨old, hold, rfl⟩ := Table.runs_of_update hafter
  obtain rfl := Option.some.inj (hrun.symm.trans hold)
  split at hrunning
  · exact h run hpending hrunning
  · rw [hpending] at hrunning
    cases hrunning

theorem quiet_delete (condition : Condition V) : Quiet (.delete condition) := by
  rintro t id ⟨run, run', hrun, hpending, hafter, hrunning⟩
  obtain rfl := Option.some.inj (hrun.symm.trans (Table.runs_delete.1 hafter).1)
  rw [hpending] at hrunning
  cases hrunning

theorem quiet_insert (i : Nat) (new : Run V) : Quiet (.insert i new) := by
  rintro t id ⟨run, run', hrun, hpending, hafter, hrunning⟩
  have hsame : run' = run := by
    simp only [Table.exec] at hafter
    split at hafter
    · rename_i hfree
      obtain ⟨hnone, hruns⟩ := Table.runs_insert hfree
      have hne : id ≠ i := by
        rintro rfl
        rw [hnone] at hrun
        cases hrun
      rw [hruns, Function.update_of_ne hne, hrun] at hafter
      exact (Option.some.inj hafter).symm
    · exact Option.some.inj (hafter.symm.trans hrun)
  rw [hsame, hpending] at hrunning
  cases hrunning

/-! ## Single writes -/

theorem write_comes {condition : Condition V} {values : Run V → Run V} {q : Session V Bool}
    {ws : List (Statement V × Table V)} (h : Comes Table.exec (write condition values) ws q) :
    ∀ w ∈ ws, w.1 = .update condition values := by
  rcases h.of_write with ⟨rfl, -⟩ | ⟨t, rest, rfl, hrest⟩
  · exact fun w hw => absurd hw List.not_mem_nil
  · obtain ⟨rfl, -⟩ := hrest.of_done
    exact fun w hw => by rw [List.mem_singleton.mp hw]

/-! ## Batches -/

/-- How many rows a list of writes matched. -/
def matched (writes : List (Statement V × Table V)) : Nat :=
  (writes.map fun w => (Table.exec w.1 w.2).1.length).sum

/-- The write of a batch: the rows that were read for a condition and still meet it. -/
def asking (ids : List Nat) (condition : Condition V) : Condition V :=
  fun row => row.id ∈ ids ∧ condition row

theorem batch_length_le (t : Table V) (condition : Condition V) (size : Nat) :
    (batch t condition size).length ≤ size :=
  List.length_take_le _ _

theorem takeBack_comes {α : Type} {condition : Condition V} {size : Nat} {values : Run V → Run V}
    {next : Nat → Session V α} {ws : List (Statement V × Table V)} {q : Session V α}
    (h : Comes Table.exec (takeBack condition size values next) ws q) :
    (ws = [] ∧ ∀ a, q ≠ .done a) ∨ Comes Table.exec (next 0) ws q ∨
    ∃ ids t rest, ids.length ≤ size ∧ ws = (.update (asking ids condition) values, t) :: rest ∧
      Comes Table.exec (next (Table.exec (.update (asking ids condition) values) t).1.length)
        rest q := by
  rcases h.of_read with ⟨rfl, rfl⟩ | ⟨t, ht⟩
  · exact Or.inl ⟨rfl, fun a heq => by cases heq⟩
  · split at ht
    · exact Or.inr (Or.inl ht)
    · rcases ht.of_write with ⟨rfl, rfl⟩ | ⟨u, rest, rfl, hrest⟩
      · exact Or.inl ⟨rfl, fun a heq => by cases heq⟩
      · exact Or.inr (Or.inr ⟨_, u, rest, batch_length_le t condition size, rfl, hrest⟩)

theorem matched_asking_le (ids : List Nat) (condition : Condition V) (values : Run V → Run V)
    (t : Table V) :
    (Table.exec (.update (asking ids condition) values) t).1.length ≤ ids.length := by
  rw [Table.exec, List.length_map]
  exact t.length_filter_le _ ids fun row hrow => (of_decide_eq_true hrow).1

/-- A write of a sweep at an instant. -/
def Sweeping (moment : Instant) (d : Statement V) : Prop :=
  ∃ ids, d = .update (asking ids (spent moment)) (gaveUp moment) ∨
    d = .update (asking ids (unspent moment)) (givenBack moment)

theorem requeue_comes {moment : Instant} {failures : Nat} {ws : List (Statement V × Table V)}
    {q : Session V Nat}
    (h : Comes Table.exec (takeBack (unspent moment) (reclaimBatch - failures) (givenBack moment)
      fun requeues => .done (failures + requeues)) ws q) :
    (∀ w ∈ ws, Sweeping moment w.1) ∧ matched ws ≤ reclaimBatch - failures ∧
      ∀ n, q = .done n → n = failures + matched ws := by
  rcases takeBack_comes h with ⟨rfl, hunfinished⟩ | hnone | ⟨ids, t, rest, hids, rfl, hrest⟩
  · exact ⟨fun w hw => absurd hw List.not_mem_nil, Nat.zero_le _,
      fun n hn => absurd hn (hunfinished n)⟩
  · obtain ⟨rfl, rfl⟩ := hnone.of_done
    refine ⟨fun w hw => absurd hw List.not_mem_nil, Nat.zero_le _, fun n hn => ?_⟩
    cases hn
    rfl
  · obtain ⟨rfl, rfl⟩ := hrest.of_done
    have hle := matched_asking_le ids (unspent moment) (givenBack moment) t
    refine ⟨fun w hw => ?_, ?_, fun n hn => ?_⟩
    · rw [List.mem_singleton.mp hw]
      exact ⟨ids, Or.inr rfl⟩
    · simp only [matched, List.map_cons, List.map_nil, List.sum_cons, List.sum_nil]
      omega
    · cases hn
      simp [matched]

/-- A sweep writes one batch after another, the second no larger than what the first left of the
bound, and answers with the rows the two matched. -/
theorem sweep_comes {moment : Instant} {ws : List (Statement V × Table V)} {q : Session V Nat}
    (h : Comes Table.exec (sweep moment) ws q) :
    (∀ w ∈ ws, Sweeping moment w.1) ∧ matched ws ≤ reclaimBatch ∧
      ∀ n, q = .done n → n = matched ws := by
  rcases takeBack_comes h with ⟨rfl, hunfinished⟩ | hnone | ⟨ids, t, rest, hids, rfl, hrest⟩
  · exact ⟨fun w hw => absurd hw List.not_mem_nil, Nat.zero_le _,
      fun n hn => absurd hn (hunfinished n)⟩
  · obtain ⟨hwrites, hle, hanswer⟩ := requeue_comes hnone
    refine ⟨hwrites, by omega, fun n hn => ?_⟩
    rw [hanswer n hn]
    omega
  · obtain ⟨hwrites, hle, hanswer⟩ := requeue_comes hrest
    have hfirst := matched_asking_le ids (spent moment) (gaveUp moment) t
    refine ⟨fun w hw => ?_, ?_, fun n hn => ?_⟩
    · rcases List.mem_cons.mp hw with rfl | hw
      · exact ⟨ids, Or.inl rfl⟩
      · exact hwrites w hw
    · simp only [matched, List.map_cons, List.sum_cons] at hle ⊢
      omega
    · rw [hanswer n hn]
      simp [matched]

/-- A write of a pruning. -/
def Purging (before : Instant) (d : Statement V) : Prop :=
  ∃ ids, d = .delete (asking ids (ended before))

theorem purge_comes {before : Instant} {limit : Nat} {ws : List (Statement V × Table V)}
    {q : Session V Nat} (h : Comes Table.exec (purge before limit) ws q) :
    (∀ w ∈ ws, Purging before w.1) ∧ ∀ n, q = .done n → n = matched ws := by
  rcases h.of_read with ⟨rfl, rfl⟩ | ⟨t, ht⟩
  · exact ⟨fun w hw => absurd hw List.not_mem_nil, fun n hn => by cases hn⟩
  · split at ht
    · obtain ⟨rfl, rfl⟩ := ht.of_done
      refine ⟨fun w hw => absurd hw List.not_mem_nil, fun n hn => ?_⟩
      cases hn
      rfl
    · rcases ht.of_write with ⟨rfl, rfl⟩ | ⟨u, rest, rfl, hrest⟩
      · exact ⟨fun w hw => absurd hw List.not_mem_nil, fun n hn => by cases hn⟩
      · obtain ⟨rfl, rfl⟩ := hrest.of_done
        refine ⟨fun w hw => ?_, fun n hn => ?_⟩
        · rw [List.mem_singleton.mp hw]
          exact ⟨_, rfl⟩
        · cases hn
          simp [matched]

theorem claim_comes {worker : String} {queues : List String} {limit : Nat} {lease : Int}
    {moment : Instant} {ws : List (Statement V × Table V)}
    {q : Session V (Except OverflowError (List (Row Nat V)))}
    (h : Comes Table.exec (claim worker queues limit lease moment) ws q) :
    (∀ w ∈ ws, ∃ leaseEnd id, w.1 = take worker moment leaseEnd id) ∧
      ∀ answer, q = .done answer →
        answer = .ok (handed ws) ∨ (answer = .error .dateValueOutOfRange ∧ ws = []) := by
  rcases h.of_read with ⟨rfl, rfl⟩ | ⟨t, ht⟩
  · exact ⟨fun w hw => absurd hw List.not_mem_nil, fun answer hn => by cases hn⟩
  · split at ht
    · split at ht
      · obtain ⟨rfl, rfl⟩ := ht.of_done
        refine ⟨fun w hw => absurd hw List.not_mem_nil, fun answer hn => ?_⟩
        cases hn
        exact Or.inl rfl
      · obtain ⟨rfl, rfl⟩ := ht.of_done
        refine ⟨fun w hw => absurd hw List.not_mem_nil, fun answer hn => ?_⟩
        cases hn
        exact Or.inr ⟨rfl, rfl⟩
    · rename_i leaseEnd _
      obtain ⟨r, rfl, hr⟩ := ht.of_map
      obtain ⟨hwrites, hanswer⟩ := takeEach_comes hr
      refine ⟨fun w hw => ⟨leaseEnd, hwrites w hw⟩, fun answer hn => ?_⟩
      obtain ⟨rows, rfl, rfl⟩ := Prog.map_eq_done hn
      rw [hanswer rows rfl]
      exact Or.inl rfl

/-! ## Rows changed -/

/-- How many rows a list of writes changed. -/
noncomputable def changes (writes : List (Statement V × Table V)) : Nat :=
  (writes.map fun w => (Table.changed w.2 (Table.exec w.1 w.2).2).ncard).sum

theorem changes_eq_matched {writes : List (Statement V × Table V)}
    (h : ∀ w ∈ writes,
      (Table.changed w.2 (Table.exec w.1 w.2).2).ncard = (Table.exec w.1 w.2).1.length) :
    changes writes = matched writes := by
  unfold changes matched
  rw [List.map_congr_left h]

/-- A sweep changes what it matches: runs that are running on a lease that ran out. -/
theorem changed_sweeping {moment : Instant} {d : Statement V} (h : Sweeping moment d)
    (t : Table V) :
    (Table.changed t (Table.exec d t).2).ncard = (Table.exec d t).1.length ∧
      ∀ id ∈ Table.changed t (Table.exec d t).2, ∃ run lease, t.runs id = some run ∧
        run.status = .running ∧ run.leaseUntil = some lease ∧ lease < moment := by
  obtain ⟨ids, condition, values, rfl, hexpired, hvalues⟩ : ∃ ids condition values,
      d = .update (asking ids condition) values ∧
        (∀ row : Row Nat V, condition row → expired moment row.toRun = true) ∧
          ∀ run : Run V, (values run).status ≠ .running := by
    obtain ⟨ids, rfl | rfl⟩ := h
    · exact ⟨ids, _, _, rfl, fun row hrow => (of_decide_eq_true hrow).1,
        fun run hrun => by cases hrun⟩
    · exact ⟨ids, _, _, rfl, fun row hrow => (of_decide_eq_true hrow).1,
        fun run hrun => by cases hrun⟩
  have hmatched : ∀ row : Row Nat V, asking ids condition row → expired moment row.toRun = true :=
    fun row hrow => hexpired row (of_decide_eq_true hrow).2
  have hchanged := Table.changed_update (t := t) values fun row _ hrow heq => by
    have hrunning := (MemoryStore.expired_iff.1 (hmatched row hrow)).1
    rw [← heq] at hrunning
    exact hvalues _ hrunning
  refine ⟨?_, fun id hid => ?_⟩
  · simp only [Table.exec]
    rw [Table.ncard_changed hchanged, List.length_map]
  · obtain ⟨row, hrow, hask, rfl⟩ := (hchanged id).1 hid
    obtain ⟨hrunning, lease, hlease, hlt⟩ := MemoryStore.expired_iff.1 (hmatched row hask)
    exact ⟨row.toRun, lease, Table.runs_of_mem hrow, hrunning, hlease, hlt⟩

/-- A pruning drops what it matches: settled runs that finished before the instant. -/
theorem changed_purging {before : Instant} {d : Statement V} (h : Purging before d) (t : Table V) :
    (Table.changed t (Table.exec d t).2).ncard = (Table.exec d t).1.length ∧
      ∀ id ∈ Table.changed t (Table.exec d t).2, (Table.exec d t).2.runs id = none ∧
        ∃ run finish, t.runs id = some run ∧ run.status.settled = true ∧
          run.finishedAt = some finish ∧ finish < before := by
  obtain ⟨ids, rfl⟩ := h
  have hchanged := Table.changed_delete t (asking ids (ended before))
  refine ⟨Table.ncard_changed hchanged, fun id hid => ?_⟩
  obtain ⟨row, hrow, hask, rfl⟩ := (hchanged id).1 hid
  obtain ⟨hsettled, finish, hfinish, hlt⟩ :=
    MemoryStore.isOver_iff.1 (show isOver before row.toRun = true from (of_decide_eq_true hask).2)
  refine ⟨?_, row.toRun, finish, Table.runs_of_mem hrow, hsettled, hfinish, hlt⟩
  rw [← Option.not_isSome_iff_eq_none]
  intro hsome
  obtain ⟨run, hrun⟩ := Option.isSome_iff_exists.mp hsome
  obtain ⟨hold, hnot⟩ := Table.runs_delete.1 hrun
  obtain rfl := Option.some.inj ((Table.runs_of_mem hrow).symm.trans hold)
  rw [hask] at hnot
  cases hnot

/-! ## What holds of every interleaving -/

/-- A statement a call sends; `n` is the id it was handed. -/
inductive Sends (n : Nat) : Request Nat V → Statement V → Prop
  | written {run : Run V} : Sends n (.add run) (.insert n run)
  | taken {worker : String} {queues : List String} {limit : Nat} {lease : Int} {moment : Instant}
      (leaseEnd : Instant) (id : Nat) :
      Sends n (.claim worker queues limit lease moment) (take worker moment leaseEnd id)
  | beaten {id : Nat} {worker : String} {attempt lease : Int} {moment : Instant}
      (leaseEnd : Instant) :
      Sends n (.heartbeat id worker attempt lease moment)
        (.update (holding id worker attempt) (MemoryStore.beaten leaseEnd))
  | completed {id : Nat} {worker : String} {attempt : Int} {moment : Instant}
      {result : Option V} :
      Sends n (.complete id worker attempt moment result)
        (.update (holding id worker attempt) (MemoryStore.completed moment result))
  | failed {id : Nat} {worker : String} {attempt : Int} {moment : Instant}
      {error errorType : String} :
      Sends n (.fail id worker attempt moment error errorType)
        (.update (holding id worker attempt) (MemoryStore.failed moment error errorType))
  | requeued {id : Nat} {worker : String} {attempt : Int} {dueAt : Instant}
      {error errorType : String} :
      Sends n (.retryLater id worker attempt dueAt error errorType)
        (.update (holding id worker attempt) (MemoryStore.requeued dueAt error errorType 0))
  | released {id : Nat} {worker : String} {attempt : Int} {dueAt : Instant}
      {error errorType : String} :
      Sends n (.release id worker attempt dueAt error errorType)
        (.update (holding id worker attempt) (MemoryStore.requeued dueAt error errorType (-1)))
  | calledOff {id : Nat} {moment : Instant} :
      Sends n (.cancel id moment)
        (.update (fun row => row.id = id ∧ row.status = .pending) (MemoryStore.calledOff moment))
  | swept {moment : Instant} {d : Statement V} : Sweeping moment d → Sends n (.reclaim moment) d
  | purged {before : Instant} {limit : Nat} {d : Statement V} :
      Purging before d → Sends n (.purge before limit) d

/-- Every statement of every call is one of these, whatever the call read. -/
theorem asked_sends {n : Nat} {request : Request Nat V} {ws : List (Statement V × Table V)}
    {q : Session V (Answer Nat V)} (h : Comes Table.exec (asked (n, request)) ws q) :
    ∀ w ∈ ws, Sends n request w.1 := by
  have hwrite : ∀ {condition values} {f : Bool → Answer Nat V},
      Sends n request (.update condition values) →
      Comes Table.exec ((write condition values).map f) ws q → ∀ w ∈ ws, Sends n request w.1 := by
    intro condition values f hsends hcomes w hw
    rcases hcomes.of_map with ⟨r, -, hr⟩
    rwa [write_comes hr w hw]
  cases request with
  | add run =>
      rcases h.of_map with ⟨r, -, hr⟩
      rcases hr.of_write with ⟨rfl, -⟩ | ⟨t, rest, rfl, hrest⟩
      · exact fun w hw => absurd hw List.not_mem_nil
      · rcases hrest.of_done with ⟨rfl, -⟩
        intro w hw
        rw [List.mem_singleton.mp hw]
        exact .written
  | claim worker queues limit lease moment =>
      rcases h.of_map with ⟨r, -, hr⟩
      intro w hw
      rcases (claim_comes hr).1 w hw with ⟨leaseEnd, id, heq⟩
      exact heq ▸ .taken leaseEnd id
  | heartbeat id worker attempt lease moment =>
      rcases h.of_map with ⟨r, -, hr⟩
      unfold heartbeat at hr
      split at hr
      · rcases hr.of_done with ⟨rfl, -⟩
        exact fun w hw => absurd hw List.not_mem_nil
      · rename_i leaseEnd _
        rcases hr.of_map with ⟨u, -, hu⟩
        intro w hw
        rw [write_comes hu w hw]
        exact .beaten leaseEnd
  | complete id worker attempt moment result => exact hwrite .completed h
  | fail id worker attempt moment error errorType => exact hwrite .failed h
  | retryLater id worker attempt dueAt error errorType => exact hwrite .requeued h
  | release id worker attempt dueAt error errorType => exact hwrite .released h
  | cancel id moment => exact hwrite .calledOff h
  | reclaim moment =>
      rcases h.of_map with ⟨r, -, hr⟩
      exact fun w hw => .swept ((sweep_comes hr).1 w hw)
  | purge before limit =>
      rcases h.of_map with ⟨r, -, hr⟩
      exact fun w hw => .purged ((purge_comes hr).1 w hw)
  | find key | get id =>
      rcases h.of_map with ⟨r, -, hr⟩
      rcases hr.of_read with ⟨rfl, -⟩ | ⟨t, ht⟩
      · exact fun w hw => absurd hw List.not_mem_nil
      · rcases ht.of_done with ⟨rfl, -⟩
        exact fun w hw => absurd hw List.not_mem_nil

/-- A call that is not a claim turns no waiting run into a running one. -/
theorem Sends.quiet {n : Nat} {request : Request Nat V} {d : Statement V}
    (h : Sends n request d)
    (hclaim : ∀ worker queues limit lease moment,
      request ≠ .claim worker queues limit lease moment) : Quiet d := by
  cases h with
  | written => exact quiet_insert n _
  | taken => exact absurd rfl (hclaim _ _ _ _ _)
  | beaten leaseEnd =>
      refine quiet_update fun run hpending => ?_
      rw [MemoryStore.beaten, hpending]
      decide
  | completed | failed | requeued | released | calledOff =>
      exact quiet_update fun run _ hrun => by cases hrun
  | swept hsweeping =>
      rcases hsweeping with ⟨ids, rfl | rfl⟩
      · exact quiet_update fun run _ hrun => by cases hrun
      · exact quiet_update fun run _ hrun => by cases hrun
  | purged hpurging =>
      rcases hpurging with ⟨ids, rfl⟩
      exact quiet_delete _

/-- What no interleaving breaks. A write in the log is of one session, so a run that was turned is
handed to one claim; sweeps and prunings change what at the write met their condition, and answer
with how much that was. -/
structure Safe (t₀ : Table V) (S : Tables V) : Prop where
  replays : Shared.Replays Table.exec t₀ S.log S.current
  turned : ∀ i d t, (i, d, t) ∈ S.log → ∀ id, Turned t (Table.exec d t).2 id →
    ∃ n worker queues limit lease moment q,
      S.sessions[i]? = some ((n, .claim worker queues limit lease moment), q) ∧
        (Table.exec d t).1.map (·.id) = [id]
  claimed : ∀ i n worker queues limit lease moment q,
    S.sessions[i]? = some ((n, .claim worker queues limit lease moment), q) →
      (∀ d t, (i, d, t) ∈ S.log → ∀ row ∈ (Table.exec d t).1, Turned t (Table.exec d t).2 row.id) ∧
      ∀ answer, q = .done answer → answer = .rows (.ok (handed (S.writesOf i))) ∨
        (answer = .rows (.error .dateValueOutOfRange) ∧ S.writesOf i = [])
  swept : ∀ i n moment q, S.sessions[i]? = some ((n, .reclaim moment), q) →
    (∀ d t, (i, d, t) ∈ S.log → ∀ id ∈ Table.changed t (Table.exec d t).2, ∃ run lease,
      t.runs id = some run ∧ run.status = .running ∧ run.leaseUntil = some lease ∧ lease < moment) ∧
      changes (S.writesOf i) ≤ reclaimBatch ∧
      ∀ answer, q = .done answer → answer = .counted (changes (S.writesOf i))
  purged : ∀ i n before limit q, S.sessions[i]? = some ((n, .purge before limit), q) →
    (∀ d t, (i, d, t) ∈ S.log → ∀ id ∈ Table.changed t (Table.exec d t).2,
      (Table.exec d t).2.runs id = none ∧ ∃ run finish, t.runs id = some run ∧
        run.status.settled = true ∧ run.finishedAt = some finish ∧ finish < before) ∧
      ∀ answer, q = .done answer → answer = .counted (changes (S.writesOf i))

theorem mem_writesOf {S : Tables V} {i : Nat} {d : Statement V} {t : Table V} :
    (d, t) ∈ S.writesOf i ↔ (i, d, t) ∈ S.log := by
  simp [Shared.writesOf]

/-- However calls meet on the table, each a statement at a time and each reading what it reads as
late or as long ago as it may. -/
theorem tables_safe {t₀ : Table V} {S : Tables V}
    (h : Reach tables Unconditional (Shared.init t₀) S) : Safe t₀ S := by
  have hfollowed := Shared.reach_followed h
  refine ⟨hfollowed.replays, fun i d t hlog id hturned => ?_,
    fun i n worker queues limit lease moment q hi => ?_, fun i n moment q hi => ?_,
    fun i n before limit q hi => ?_⟩
  · have hlt := hfollowed.owned i d t hlog
    rcases hcall : S.sessions[i] with ⟨⟨n, request⟩, q⟩
    have hsession : S.sessions[i]? = some ((n, request), q) := by
      rw [List.getElem?_eq_getElem hlt, hcall]
    have hcomes := hfollowed.sessions i _ q hsession
    have hmem : (d, t) ∈ S.writesOf i := mem_writesOf.2 hlog
    cases request with
    | claim worker queues limit lease moment =>
        refine ⟨n, worker, queues, limit, lease, moment, q, hsession, ?_⟩
        obtain ⟨r, -, hr⟩ := hcomes.of_map
        obtain ⟨leaseEnd, row, heq⟩ := (claim_comes hr).1 _ hmem
        dsimp only at heq
        rw [heq] at hturned ⊢
        exact take_of_turned hturned
    | _ =>
        have hsends := asked_sends hcomes _ hmem
        exact absurd hturned (hsends.quiet (fun _ _ _ _ _ heq => by cases heq) t id)
  · obtain ⟨r, rfl, hr⟩ := (hfollowed.sessions i _ q hi).of_map
    obtain ⟨hwrites, hanswer⟩ := claim_comes hr
    refine ⟨fun d t hlog row hrow => ?_, fun answer hdone => ?_⟩
    · obtain ⟨leaseEnd, id, heq⟩ := hwrites _ (mem_writesOf.2 hlog)
      dsimp only at heq
      rw [heq] at hrow ⊢
      obtain ⟨rfl, hturned⟩ := turned_take hrow
      exact hturned
    · obtain ⟨rows, rfl, rfl⟩ := Prog.map_eq_done hdone
      rcases hanswer rows rfl with rfl | ⟨rfl, hnone⟩
      · exact Or.inl rfl
      · exact Or.inr ⟨rfl, hnone⟩
  · obtain ⟨r, rfl, hr⟩ := (hfollowed.sessions i _ q hi).of_map
    obtain ⟨hwrites, hle, hanswer⟩ := sweep_comes hr
    have hcount := changes_eq_matched fun w hw => (changed_sweeping (hwrites w hw) w.2).1
    refine ⟨fun d t hlog => ?_, by rw [hcount]; exact hle, fun answer hdone => ?_⟩
    · exact (changed_sweeping (hwrites _ (mem_writesOf.2 hlog)) t).2
    · obtain ⟨k, rfl, rfl⟩ := Prog.map_eq_done hdone
      rw [hanswer k rfl, hcount]
  · obtain ⟨r, rfl, hr⟩ := (hfollowed.sessions i _ q hi).of_map
    obtain ⟨hwrites, hanswer⟩ := purge_comes hr
    have hcount := changes_eq_matched fun w hw => (changed_purging (hwrites w hw) w.2).1
    refine ⟨fun d t hlog => ?_, fun answer hdone => ?_⟩
    · exact (changed_purging (hwrites _ (mem_writesOf.2 hlog)) t).2
    · obtain ⟨k, rfl, rfl⟩ := Prog.map_eq_done hdone
      rw [hanswer k rfl, hcount]

/-- One run that waits, and one on a lease that runs out thirty seconds in. -/
def twoRows : Table Unit where
  rows := [⟨Plain.run "mail" 0 Instant.epoch, 1⟩,
    ⟨claimed "gone" Instant.epoch ⟨30000000, by decide, by decide⟩
      (Plain.run "mail" 0 Instant.epoch), 2⟩]
  primary := by decide

/-- Two claims read the run that waits, the second from the table as it was before the first took
it, and a sweep goes between them. -/
def meeting : List (Shared.Move (Asked Unit)) :=
  [.start (3, .claim "first" ["mail"] 1 30000000 Instant.epoch),
   .start (3, .claim "second" ["mail"] 1 30000000 Instant.epoch),
   .start (3, .reclaim ((Instant.epoch.plus 40000000).get rfl)),
   .read 0 0, .write 0, .read 2 0, .read 2 1, .write 2, .read 1 2, .write 1]

theorem tables_safe_meeting : ∃ S, runAll tables (Shared.init twoRows) meeting = some S ∧
    S.current.rows.map (fun row => (row.status, row.worker)) =
      [(.running, some "first"), (.pending, none)] ∧
    Safe twoRows S := by
  have hrows : (runAll tables (Shared.init twoRows) meeting).map
      (fun S => S.current.rows.map fun row => (row.status, row.worker)) =
        some [(.running, some "first"), (.pending, none)] := by
    decide +kernel
  obtain ⟨S, hS, hstatus⟩ := Option.map_eq_some_iff.mp hrows
  exact ⟨S, hS, hstatus, tables_safe (.of_runAll .start hS)⟩

end SqlStore

end Queuefy
