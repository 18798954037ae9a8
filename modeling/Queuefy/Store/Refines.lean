import Queuefy.Store.Backlog
import Queuefy.Store.Scripts
import Queuefy.Store.TableSpec

/-! # The memory store and the SQL store do what a store is for

Each of them, given a call that picks among no runs, takes the step a store is for: the memory
store on its rows, the SQL store on its table.
-/

namespace Queuefy

variable {ι V : Type}

open MemoryStore (beaten completed failed requeued calledOff takenBack expired isOver)

/-- No call picks among runs: nothing is claimed, and a batch takes everything there is to take. -/
def Request.Fits (rows : Rows ι V) : Request ι V → Prop
  | .claim .. => False
  | .reclaim moment => AtMost rows (fun run => expired moment run = true) reclaimBatch
  | .purge before limit => AtMost rows (fun run => isOver before run = true) limit
  | .add _ | .heartbeat .. | .complete .. | .fail .. | .retryLater .. | .release .. | .cancel ..
  | .find _ | .get _ => True

/-- The lease a beat asks for ends at an instant there is. -/
def Request.Dated : Request ι V → Prop
  | .heartbeat _ _ _ lease moment => (moment.plus lease).isSome
  | _ => True

theorem Request.Dated.rename {κ : Type} {q : Request ι V} (h : q.Dated) (f : ι → κ) :
    (q.rename f).Dated := by
  cases q <;> exact h

/-! ## In memory -/

namespace MemoryStore

def perform (m : MemoryStore V) : Request Nat V → Answer Nat V × MemoryStore V
  | .add run => (.row (m.add run).1, (m.add run).2)
  | .claim worker queues limit lease moment =>
      (.rows (m.claim worker queues limit lease moment).1,
        (m.claim worker queues limit lease moment).2)
  | .heartbeat id worker attempt lease moment =>
      (.told (m.heartbeat id worker attempt lease moment).1,
        (m.heartbeat id worker attempt lease moment).2)
  | .complete id worker attempt moment result =>
      (.told (.ok (m.complete id worker attempt moment result).1),
        (m.complete id worker attempt moment result).2)
  | .fail id worker attempt moment error errorType =>
      (.told (.ok (m.fail id worker attempt moment error errorType).1),
        (m.fail id worker attempt moment error errorType).2)
  | .retryLater id worker attempt dueAt error errorType =>
      (.told (.ok (m.retryLater id worker attempt dueAt error errorType).1),
        (m.retryLater id worker attempt dueAt error errorType).2)
  | .release id worker attempt dueAt error errorType =>
      (.told (.ok (m.release id worker attempt dueAt error errorType).1),
        (m.release id worker attempt dueAt error errorType).2)
  | .reclaim moment => (.counted (m.reclaim moment).1, (m.reclaim moment).2)
  | .cancel id moment => (.told (.ok (m.cancel id moment).1), (m.cancel id moment).2)
  | .purge before limit => (.counted (m.purge before limit).1, (m.purge before limit).2)
  | .find key => (.row (m.find key), m)
  | .get id => (.row (m.get id), m)

variable {m : MemoryStore V}

theorem rows_eq_none {id : Nat} : m.rows id = none ↔ m.get id = none := by
  simp [rows]

theorem lists_filter (m : MemoryStore V) (P : Run V → Bool) :
    Lists m.rows (fun run => P run = true) ((m.runs.filter fun row => P row.toRun).map (·.id)) := by
  refine ⟨m.ids_nodup.sublist (List.filter_sublist.map _), fun id => ?_⟩
  rw [List.mem_map]
  constructor
  · rintro ⟨row, hrow, rfl⟩
    obtain ⟨hmem, hP⟩ := List.mem_filter.mp hrow
    exact ⟨row.toRun, rows_eq_some.2 (get_of_mem hmem), hP⟩
  · rintro ⟨run, hrun, hP⟩
    exact ⟨⟨run, id⟩, List.mem_filter.mpr ⟨(get_eq_some.1 (rows_eq_some.1 hrun)).1, hP⟩, rfl⟩

theorem rows_amend_one {id : Nat} {run : Run V} (hrow : m.rows id = some run)
    (f : Run V → Run V) : (m.amend [id] f).rows = Function.update m.rows id (some (f run)) := by
  rw [rows_amend, Rows.revise_singleton, hrow, Option.bind_some]

/-- A beat whose lease ends at an instant there is settles the run like any other ending. -/
theorem heartbeat_of_plus (m : MemoryStore V) (id : Nat) (worker : String) (attempt : Int)
    {lease : Int} {moment leaseEnd : Instant} (hlease : moment.plus lease = some leaseEnd) :
    m.heartbeat id worker attempt lease moment =
      (.ok (m.settle id worker attempt (beaten leaseEnd)).1,
        (m.settle id worker attempt (beaten leaseEnd)).2) := by
  simp only [heartbeat, settle, hlease]
  cases m.held id worker attempt <;> rfl

theorem settle_performs {fresh : Nat} {q : Request Nat V} {id : Nat} {worker : String}
    {attempt : Int} {f : Run V → Run V} (hask : q.ask = some ⟨id, Held worker attempt, f⟩) :
    Performs fresh m.rows q (.told (.ok (m.settle id worker attempt f).1))
      (m.settle id worker attempt f).2.rows := by
  rcases m.settle_cases id worker attempt f with ⟨hnone, heq⟩ | ⟨row, hheld, heq⟩
  · rw [heq]
    refine .unheld hask fun run hrow hcond => ?_
    have hheld : m.held id worker attempt = some ⟨run, id⟩ :=
      held_eq_some.2 ⟨rows_eq_some.1 hrow, hcond⟩
    rw [hnone] at hheld
    cases hheld
  · rw [heq]
    obtain ⟨hget, hcond⟩ := held_eq_some.1 hheld
    have hrow : m.rows id = some row.toRun := by rw [rows, hget, Option.map_some]
    rw [rows_amend_one hrow]
    exact .held hask hrow hcond

/-- One pass takes a batch of the expired leases back, in the order the runs were written. -/
theorem reclaim_batch (m : MemoryStore V) (moment : Instant) :
    ∃ ids, IsBatch m.rows (expired moment) reclaimBatch ids ∧
      (m.reclaim moment).1 = ids.length ∧
      (m.reclaim moment).2.rows = m.rows.revise ids fun run => some (takenBack moment run) := by
  refine ⟨(m.abandoned moment).map (·.id), ?_, ?_, ?_⟩
  · rw [abandoned, List.map_take]
    exact (lists_filter m (expired moment)).take reclaimBatch
  · rw [List.length_map, reclaim]
  · exact m.rows_amend _ _

theorem purge_batch (m : MemoryStore V) (before : Instant) (limit : Nat) :
    ∃ ids, IsBatch m.rows (isOver before) limit ids ∧
      (m.purge before limit).1 = ids.length ∧
      (m.purge before limit).2.rows = m.rows.revise ids fun _ => none := by
  refine ⟨(m.gone before limit).map (·.id), ?_, ?_, ?_⟩
  · rw [gone, List.map_take]
    exact (lists_filter m (isOver before)).take limit
  · rw [List.length_map, purge]
  · exact m.rows_drop _

theorem performs {q : Request Nat V} (hq : q.Fits m.rows) (hdated : q.Dated) :
    Performs (m.sequence + 1) m.rows q (m.perform q).1 (m.perform q).2.rows := by
  cases q with
  | claim => exact hq.elim
  | add run =>
      simp only [perform, add]
      split
      · rename_i htaken
        simp only [taken, Bool.and_eq_true, List.any_eq_true, decide_eq_true_eq] at htaken
        obtain ⟨hkey, row, hrow, hsame⟩ := htaken
        exact .refused hkey (rows_eq_some.2 (get_of_mem hrow)) hsame
      · rename_i hfree
        rw [rows_write]
        refine .written fun i r hr hkey hsame => hfree ?_
        simp only [taken, Bool.and_eq_true, List.any_eq_true, decide_eq_true_eq]
        exact ⟨hkey, _, (get_eq_some.1 (rows_eq_some.1 hr)).1, hsame⟩
  | heartbeat id worker attempt lease moment =>
      obtain ⟨leaseEnd, hlease⟩ := Option.isSome_iff_exists.mp hdated
      simp only [perform, m.heartbeat_of_plus id worker attempt hlease]
      exact settle_performs (ask_heartbeat hlease)
  | complete | fail | retryLater | release => exact settle_performs rfl
  | reclaim moment =>
      obtain ⟨ids, hbatch, hcount, hafter⟩ := m.reclaim_batch moment
      simp only [perform, hcount, hafter]
      exact .reclaimed (hbatch.lists hq)
  | cancel id moment =>
      simp only [perform]
      rcases m.cancel_cases id moment with ⟨hnot, heq⟩ | ⟨row, hget, hpending, heq⟩
      · rw [heq]
        exact .unheld rfl fun run hrow => hnot _ (rows_eq_some.1 hrow)
      · have hrow : m.rows id = some row.toRun := by rw [rows, hget, Option.map_some]
        have hask : (Request.cancel id moment : Request Nat V).ask =
            some ⟨id, fun run => run.status = .pending, calledOff moment⟩ := rfl
        rw [heq, rows_amend_one hrow]
        exact .held hask hrow hpending
  | purge before limit =>
      obtain ⟨ids, hbatch, hcount, hafter⟩ := m.purge_batch before limit
      simp only [perform, hcount, hafter]
      exact .purged (hbatch.lists hq)
  | find key =>
      simp only [perform]
      cases hfind : m.find key with
      | none =>
          refine .unfound fun id run hrow hkey => ?_
          have hmem := (get_eq_some.1 (rows_eq_some.1 hrow)).1
          exact absurd hkey (by simpa using List.find?_eq_none.mp hfind _ hmem)
      | some row =>
          have hmem := List.mem_of_find?_eq_some hfind
          exact .found (rows_eq_some.2 (get_of_mem hmem)) (by simpa using List.find?_some hfind)
  | get id =>
      simp only [perform]
      cases hget : m.get id with
      | none => exact .missing (rows_eq_none.2 hget)
      | some row =>
          obtain rfl := get_id hget
          exact .got (rows_eq_some.2 hget)

/-- An answer that says nothing was done or found comes with the store as it was. -/
theorem perform_negative {q : Request Nat V} (h : (m.perform q).1.negative = true) :
    (m.perform q).2 = m := by
  have hsettle : ∀ {id : Nat} {worker : String} {attempt : Int} {f : Run V → Run V},
      (m.settle id worker attempt f).1 = false → (m.settle id worker attempt f).2 = m := by
    intro id worker attempt f hfalse
    rcases m.settle_cases id worker attempt f with ⟨-, heq⟩ | ⟨row, -, heq⟩
    · rw [heq]
    · rw [heq] at hfalse
      cases hfalse
  cases q with
  | claim worker queues limit lease moment => cases h
  | find | get => rfl
  | add run =>
      simp only [perform, add] at h ⊢
      split at h
      · rename_i htaken
        rw [if_pos htaken]
      · cases h
  | heartbeat id worker attempt lease moment =>
      simp only [perform, heartbeat] at h ⊢
      cases hheld : m.held id worker attempt with
      | none => rfl
      | some row =>
          rw [hheld] at h
          cases hlease : moment.plus lease with
          | none => rfl
          | some leaseEnd =>
              rw [hlease] at h
              cases h
  | complete | fail | retryLater | release => exact hsettle ((negative_told _).1 h)
  | reclaim moment =>
      have hnil := List.eq_nil_of_length_eq_zero ((negative_counted _).1 h)
      simp only [perform, reclaim, hnil, List.map_nil, amend_nil]
  | cancel id moment =>
      rcases m.cancel_cases id moment with ⟨-, heq⟩ | ⟨row, -, -, heq⟩
      · simp only [perform, heq]
      · simp only [perform, heq] at h
        cases h
  | purge before limit =>
      have hnil := List.eq_nil_of_length_eq_zero ((negative_counted _).1 h)
      simp only [perform, purge, hnil, List.map_nil, drop_nil]

end MemoryStore

/-! ## In a table -/

namespace Table

variable {t : Table V}

theorem lists_filter (t : Table V) (condition : Condition V) (P : Run V → Prop)
    (h : ∀ row, condition row = true ↔ P row.toRun) :
    Lists t.runs P ((t.rows.filter condition).map (·.id)) := by
  refine ⟨t.primary.sublist (List.filter_sublist.map _), fun id => ?_⟩
  rw [List.mem_map]
  constructor
  · rintro ⟨row, hrow, rfl⟩
    obtain ⟨hmem, hcond⟩ := List.mem_filter.mp hrow
    exact ⟨row.toRun, runs_of_mem hmem, (h row).1 hcond⟩
  · rintro ⟨run, hrun, hP⟩
    exact ⟨⟨run, id⟩, List.mem_filter.mpr ⟨runs_eq_some.1 hrun, (h _).2 hP⟩, rfl⟩

theorem runs_update_one {condition : Condition V} (values : Run V → Run V) {id : Nat} {run : Run V}
    (honly : ∀ row, condition row → row.id = id) (hrun : t.runs id = some run)
    (hcond : condition ⟨run, id⟩) :
    (t.update condition values).runs = Function.update t.runs id (some (values run)) := by
  funext i
  by_cases hi : i = id
  · subst hi
    rw [runs_update hrun, if_pos hcond, Function.update_self]
  · rw [Function.update_of_ne hi]
    cases hrow : t.runs i with
    | none => exact runs_update_none hrow
    | some r =>
        rw [runs_update hrow, if_neg]
        exact fun hc => hi (honly _ hc)

end Table

namespace SqlStore

/-- A call on its own: its statements one after another. -/
def perform (t : Table V) (id : Nat) (q : Request Nat V) : Answer Nat V × Table V :=
  (session id q).run Table.exec t

variable {t : Table V}

theorem write_performs {fresh : Nat} {q : Request Nat V} {ask : Ask Nat V}
    (hask : q.ask = some ask) {condition : Condition V}
    (honly : ∀ row, condition row → row.id = ask.id)
    (hcond : ∀ run, condition ⟨run, ask.id⟩ = true ↔ ask.condition run) :
    Performs fresh t.runs q
      (.told (.ok ((write condition ask.becomes).run Table.exec t).1))
      ((write condition ask.becomes).run Table.exec t).2.runs := by
  rcases t.update_one condition ask.becomes honly with ⟨run, hrun, hmatch, hone⟩ | ⟨hnot, hnone⟩
  · have hruns := Table.runs_update_one ask.becomes honly hrun hmatch
    simp only [write, Prog.run, hone]
    rw [Table.exec, hruns]
    exact .held hask hrun ((hcond run).1 hmatch)
  · simp only [write, Prog.run, hnone]
    refine .unheld hask fun run hrun hc => ?_
    have := hnot run hrun
    rw [(hcond run).2 hc] at this
    cases this

theorem batch_isBatch {condition : Condition V} {P : Run V → Bool}
    (h : ∀ row, condition row = P row.toRun) (size : Nat) :
    IsBatch t.runs P size (batch t condition size) := by
  have hlists := Table.lists_filter t condition (fun run => P run = true) fun row => by rw [h]
  have hperm := List.perm_insertionSort (fun a b => a ≤ b) ((t.rows.filter condition).map (·.id))
  have hsorted : Lists t.runs (fun run => P run = true)
      (((t.rows.filter condition).map (·.id)).insertionSort fun a b => a ≤ b) :=
    ⟨hperm.nodup_iff.2 hlists.nodup, fun id => hperm.mem_iff.trans (hlists.mem id)⟩
  exact hsorted.take size

section

variable {condition : Condition V} {P : Run V → Bool} {size : Nat} {ids : List Nat}

/-- Nothing wrote between a batch being read and being written, so every row of it still meets
what it was read for. -/
theorem matching_length (h : ∀ row, condition row = P row.toRun)
    (hids : IsBatch t.runs P size ids) :
    (t.rows.filter fun row => row.id ∈ ids ∧ condition row).length = ids.length := by
  rw [← List.length_map (·.id)]
  apply List.Perm.length_eq
  refine (List.perm_ext_iff_of_nodup (t.primary.sublist (List.filter_sublist.map _))
    hids.nodup).2 fun id => ?_
  rw [List.mem_map]
  constructor
  · rintro ⟨row, hrow, rfl⟩
    exact (of_decide_eq_true (List.mem_filter.mp hrow).2).1
  · intro hid
    obtain ⟨run, hrun, hP⟩ := hids.due id hid
    refine ⟨⟨run, id⟩, List.mem_filter.mpr ⟨Table.runs_eq_some.1 hrun, ?_⟩, rfl⟩
    exact decide_eq_true ⟨hid, (h _).trans hP⟩

theorem runs_update_batch (h : ∀ row, condition row = P row.toRun)
    (hids : IsBatch t.runs P size ids) (values : Run V → Run V) :
    (t.update (fun row => row.id ∈ ids ∧ condition row) values).runs =
      t.runs.revise ids fun run => some (values run) := by
  funext id
  cases hrun : t.runs id with
  | none => simp [Table.runs_update_none hrun, Rows.revise, hrun]
  | some run =>
      rw [Table.runs_update hrun]
      by_cases hid : id ∈ ids
      · obtain ⟨other, hother, hP⟩ := hids.due id hid
        obtain rfl := Option.some.inj (hrun.symm.trans hother)
        rw [Rows.revise_of_mem hrun hid, if_pos (decide_eq_true ⟨hid, (h _).trans hP⟩)]
      · rw [Rows.revise_of_not_mem hid, hrun, if_neg]
        exact fun hcond => hid (of_decide_eq_true hcond).1

theorem runs_delete_batch (h : ∀ row, condition row = P row.toRun)
    (hids : IsBatch t.runs P size ids) :
    (t.delete fun row => row.id ∈ ids ∧ condition row).runs = t.runs.revise ids fun _ => none := by
  funext id
  apply Option.ext
  intro run
  rw [Table.runs_delete]
  by_cases hid : id ∈ ids
  · obtain ⟨old, hold, hP⟩ := hids.due id hid
    rw [Rows.revise_of_mem hold hid]
    simp only [reduceCtorEq, iff_false, not_and]
    intro hrow hnot
    obtain rfl := Option.some.inj (hold.symm.trans hrow)
    simp [hid, h, hP] at hnot
  · simp [Rows.revise_of_not_mem hid, hid]

/-- A batch on its own is read and written, and hands on how many rows it changed. -/
theorem takeBack_run {α : Type} (h : ∀ row, condition row = P row.toRun) (size : Nat)
    (values : Run V → Run V) (next : Nat → Session V α) :
    (takeBack condition size values next).run Table.exec t =
      (next (batch t condition size).length).run Table.exec
        (t.update (fun row => row.id ∈ batch t condition size ∧ condition row) values) := by
  simp only [takeBack, Prog.run]
  split
  · rename_i hnil
    have hnone : t.update (fun row => row.id ∈ batch t condition size ∧ condition row) values =
        t := Table.update_of_none values fun row _ => by simp [hnil]
    rw [hnone, hnil, List.length_nil]
  · simp only [Prog.run, Table.exec, List.length_map, matching_length h (batch_isBatch h size)]

end

/-- What the two batches of a sweep are read for, told of a run. -/
def spentRun (moment : Instant) (run : Run V) : Bool :=
  expired moment run ∧ run.maxAttempts ≤ run.attempts

def unspentRun (moment : Instant) (run : Run V) : Bool :=
  expired moment run ∧ run.attempts < run.maxAttempts

theorem spent_eq (moment : Instant) (row : Row Nat V) :
    spent moment row = spentRun moment row.toRun := rfl

theorem unspent_eq (moment : Instant) (row : Row Nat V) :
    unspent moment row = unspentRun moment row.toRun := rfl

theorem spentRun_iff {moment : Instant} {run : Run V} :
    spentRun moment run = true ↔ expired moment run = true ∧ run.maxAttempts ≤ run.attempts :=
  decide_eq_true_iff

theorem unspentRun_iff {moment : Instant} {run : Run V} :
    unspentRun moment run = true ↔ expired moment run = true ∧ run.attempts < run.maxAttempts :=
  decide_eq_true_iff

theorem not_both {moment : Instant} {run : Run V} (hspent : spentRun moment run = true)
    (hleft : unspentRun moment run = true) : False := by
  have hmax := (spentRun_iff.1 hspent).2
  have hless := (unspentRun_iff.1 hleft).2
  omega

theorem spent_isBatch (t : Table V) (moment : Instant) (size : Nat) :
    IsBatch t.runs (spentRun moment) size
      (batch t (spent moment) size) :=
  batch_isBatch (spent_eq moment) size

theorem unspent_isBatch (t : Table V) (moment : Instant) (size : Nat) :
    IsBatch t.runs (unspentRun moment) size
      (batch t (unspent moment) size) :=
  batch_isBatch (unspent_eq moment) size

/-- The expired leases are those with their attempts spent and those with some left. -/
theorem backlog_expired (t : Table V) (moment : Instant) :
    t.runs.backlog (expired moment) =
      t.runs.backlog (spentRun moment) +
        t.runs.backlog (unspentRun moment) := by
  have hunion : t.runs.due (expired moment) =
      t.runs.due (spentRun moment) ∪ t.runs.due (unspentRun moment) := by
    ext id
    simp only [Rows.due, Set.mem_ofPred_eq, Set.mem_union, spentRun_iff, unspentRun_iff]
    constructor
    · rintro ⟨run, hrun, hexpired⟩
      rcases le_or_gt run.maxAttempts run.attempts with hspent | hleft
      · exact Or.inl ⟨run, hrun, hexpired, hspent⟩
      · exact Or.inr ⟨run, hrun, hexpired, hleft⟩
    · rintro (⟨run, hrun, hexpired, -⟩ | ⟨run, hrun, hexpired, -⟩) <;> exact ⟨run, hrun, hexpired⟩
  have hdisjoint : Disjoint (t.runs.due (spentRun moment)) (t.runs.due (unspentRun moment)) := by
    rw [Set.disjoint_left]
    rintro id ⟨run, hrun, hspent⟩ ⟨other, hother, hleft⟩
    obtain rfl := Option.some.inj (hrun.symm.trans hother)
    exact not_both hspent hleft
  have hspent := (spent_isBatch t moment 0).finite
  have hleft := (unspent_isBatch t moment 0).finite
  rw [Rows.backlog, hunion, Set.ncard_union_eq hdisjoint hspent hleft]
  rfl

/-- A run that was given up is not running any more, so the second batch finds what it would have
found first. -/
theorem due_unspent_after {t u : Table V} {moment : Instant} {size : Nat} {ids : List Nat}
    (hids : IsBatch t.runs (spentRun moment) size ids)
    (hu : u.runs = t.runs.revise ids fun run => some (gaveUp moment run)) :
    u.runs.due (unspentRun moment) = t.runs.due (unspentRun moment) := by
  ext id
  by_cases hid : id ∈ ids
  · obtain ⟨run, hrun, hspent⟩ := hids.due id hid
    have hbefore : id ∉ t.runs.due (unspentRun moment) := by
      rintro ⟨other, hother, hleft⟩
      obtain rfl := Option.some.inj (hrun.symm.trans hother)
      exact not_both hspent hleft
    have hafter : id ∉ u.runs.due (unspentRun moment) := by
      rintro ⟨other, hother, hleft⟩
      rw [hu, Rows.revise_of_mem hrun hid] at hother
      obtain rfl := Option.some.inj hother
      simp [unspentRun, expired, gaveUp] at hleft
    exact iff_of_false hafter hbefore
  · simp only [Rows.due, Set.mem_ofPred_eq, hu, Rows.revise_of_not_mem hid]

/-- A sweep takes a batch of the expired leases back: the spent ones first, and of the others as
many as the batch has room for. -/
theorem sweep_batch (t : Table V) (moment : Instant) :
    ∃ ids, IsBatch t.runs (expired moment) reclaimBatch ids ∧
      ((sweep moment).run Table.exec t).1 = ids.length ∧
      ((sweep moment).run Table.exec t).2.runs =
        t.runs.revise ids fun run => some (takenBack moment run) := by
  have hfirst := spent_isBatch t moment reclaimBatch
  rw [sweep, takeBack_run (spent_eq moment), takeBack_run (unspent_eq moment)]
  have hu := runs_update_batch (spent_eq moment) hfirst (gaveUp moment)
  generalize batch t (spent moment) reclaimBatch = failures at hfirst hu ⊢
  generalize t.update (fun row => row.id ∈ failures ∧ spent moment row) (gaveUp moment) = u
    at hu ⊢
  have hsecond := unspent_isBatch u moment (reclaimBatch - failures.length)
  have hw := runs_update_batch (unspent_eq moment) hsecond (givenBack moment)
  generalize batch u (unspent moment) (reclaimBatch - failures.length) = requeues
    at hsecond hw ⊢
  have hdue := due_unspent_after hfirst hu
  have hapart : ∀ id ∈ failures, id ∉ requeues := by
    intro id hfail hid
    obtain ⟨run, hrun, hspent⟩ := hfirst.due id hfail
    obtain ⟨other, hother, hleft⟩ := hdue ▸ hsecond.due id hid
    obtain rfl := Option.some.inj (hrun.symm.trans hother)
    exact not_both hspent hleft
  refine ⟨failures ++ requeues, ⟨?_, ?_, fun id hid => ?_, ?_⟩, ?_, ?_⟩
  · exact (Table.lists_filter t (fun row => expired moment row.toRun)
      (fun run => expired moment run = true) fun _ => Iff.rfl).finite
  · refine List.nodup_append.2 ⟨hfirst.nodup, hsecond.nodup, fun i hi j hj hij => ?_⟩
    exact hapart i hi (hij ▸ hj)
  · rcases List.mem_append.mp hid with hid | hid
    · obtain ⟨run, hrun, hspent⟩ := hfirst.due id hid
      exact ⟨run, hrun, (spentRun_iff.1 hspent).1⟩
    · obtain ⟨run, hrun, hleft⟩ := hdue ▸ hsecond.due id hid
      exact ⟨run, hrun, (unspentRun_iff.1 hleft).1⟩
  · have hone := hfirst.full
    have htwo := hsecond.full
    rw [Rows.backlog, hdue, ← Rows.backlog] at htwo
    rw [List.length_append, backlog_expired, hone, htwo, hone]
    omega
  · rw [List.length_append]
    rfl
  · show (u.update _ _).runs = _
    rw [hw]
    funext id
    by_cases hid : id ∈ requeues
    · obtain ⟨run, hrun, hleft⟩ := hdue ▸ hsecond.due id hid
      have hurun : u.runs id = some run := by
        rw [hu, Rows.revise_of_not_mem fun hfail => hapart id hfail hid, hrun]
      rw [Rows.revise_of_mem hurun hid, Rows.revise_of_mem hrun (List.mem_append_right _ hid)]
      have hnot : ¬ run.maxAttempts ≤ run.attempts := not_le.mpr (unspentRun_iff.1 hleft).2
      simp [takenBack, Run.exhausted, hnot, givenBack]
    · rw [Rows.revise_of_not_mem hid, hu]
      by_cases hfail : id ∈ failures
      · obtain ⟨run, hrun, hspent⟩ := hfirst.due id hfail
        rw [Rows.revise_of_mem hrun hfail, Rows.revise_of_mem hrun (List.mem_append_left _ hfail)]
        simp [takenBack, Run.exhausted, (spentRun_iff.1 hspent).2, gaveUp]
      · rw [Rows.revise_of_not_mem hfail, Rows.revise_of_not_mem]
        exact fun hmem => (List.mem_append.mp hmem).elim hfail hid

theorem purge_batch (t : Table V) (before : Instant) (limit : Nat) :
    ∃ ids, IsBatch t.runs (isOver before) limit ids ∧
      ((purge before limit).run Table.exec t).1 = ids.length ∧
      ((purge before limit).run Table.exec t).2.runs = t.runs.revise ids fun _ => none := by
  have hbatch : IsBatch t.runs (isOver before) limit (batch t (ended before) limit) :=
    batch_isBatch (fun _ => rfl) limit
  refine ⟨batch t (ended before) limit, hbatch, ?_⟩
  simp only [purge, Prog.run]
  split
  · rename_i hnil
    rw [hnil, Rows.revise_nil]
    exact ⟨rfl, rfl⟩
  · simp only [Prog.run, Table.exec]
    exact ⟨matching_length (fun _ => rfl) hbatch, runs_delete_batch (fun _ => rfl) hbatch⟩

theorem add_performs {fresh : Nat} (hfresh : t.runs fresh = none) (run : Run V) :
    Performs fresh t.runs (.add run) (.row ((add fresh run).run Table.exec t).1)
      ((add fresh run).run Table.exec t).2.runs := by
  simp only [add, Prog.run, Table.exec]
  split
  · rename_i hfree
    rw [(Table.runs_insert hfree).2]
    refine .written fun i r hr hkey hsame => ?_
    simp only [Table.refuses, List.any_eq_false] at hfree
    exact hfree _ (Table.runs_eq_some.1 hr) (by simp [hkey, hsame])
  · rename_i htaken
    simp only [Table.refuses, Bool.not_eq_false, List.any_eq_true] at htaken
    obtain ⟨row, hrow, hor⟩ := htaken
    rcases of_decide_eq_true hor with hid | ⟨hkey, hsame⟩
    · rw [← hid, Table.runs_of_mem hrow] at hfresh
      cases hfresh
    · exact .refused hkey (Table.runs_of_mem hrow) hsame

theorem find_performs {fresh : Nat} (key : String) :
    Performs fresh t.runs (.find key) (.row ((find key).run Table.exec t).1) t.runs := by
  simp only [find, one, Prog.run]
  cases hfind : t.rows.find? fun row => row.key = some key with
  | none =>
      refine .unfound fun id run hrow hkey => ?_
      have hnone := List.find?_eq_none.mp hfind _ (Table.runs_eq_some.1 hrow)
      exact absurd hkey (by simpa using hnone)
  | some row =>
      have hkey := List.find?_some hfind
      exact .found (Table.runs_of_mem (List.mem_of_find?_eq_some hfind)) (by simpa using hkey)

theorem get_performs {fresh : Nat} (id : Nat) :
    Performs fresh t.runs (.get id) (.row ((get id).run Table.exec t).1) t.runs := by
  simp only [get, one, Prog.run]
  cases hget : t.get id with
  | none =>
      have hnone : t.runs id = none := by simp [Table.runs, hget]
      rw [Table.get] at hget
      rw [hget]
      exact .missing hnone
  | some row =>
      obtain ⟨hmem, rfl⟩ := Table.get_eq_some.1 hget
      rw [Table.get] at hget
      rw [hget]
      exact .got (Table.runs_of_mem hmem)

theorem performs {fresh : Nat} (hfresh : t.runs fresh = none) {q : Request Nat V}
    (hq : q.Fits t.runs) (hdated : q.Dated) :
    Performs fresh t.runs q (perform t fresh q).1 (perform t fresh q).2.runs := by
  have hholding : ∀ {id : Nat} {worker : String} {attempt : Int} {f : Run V → Run V},
      q.ask = some ⟨id, Held worker attempt, f⟩ →
      Performs fresh t.runs q
        (.told (.ok ((write (holding id worker attempt) f).run Table.exec t).1))
        ((write (holding id worker attempt) f).run Table.exec t).2.runs := by
    intro id worker attempt f hask
    refine write_performs hask (fun row hrow => (of_decide_eq_true hrow).1) fun run => ?_
    simp [holding, Held, and_comm]
  cases q with
  | claim => exact hq.elim
  | add run =>
      simp only [perform, session, Prog.run_map]
      exact add_performs hfresh run
  | heartbeat id worker attempt lease moment =>
      obtain ⟨leaseEnd, hlease⟩ := Option.isSome_iff_exists.mp hdated
      simp only [perform, session, heartbeat, hlease, Prog.run_map]
      exact hholding (ask_heartbeat hlease)
  | complete | fail | retryLater | release =>
      simp only [perform, session, Prog.run_map]
      exact hholding rfl
  | cancel id moment =>
      simp only [perform, session, Prog.run_map]
      have hask : (Request.cancel id moment : Request Nat V).ask =
          some ⟨id, fun run => run.status = .pending, calledOff moment⟩ := rfl
      refine write_performs hask (fun row hrow => (of_decide_eq_true hrow).1) fun run => ?_
      simp
  | reclaim moment =>
      obtain ⟨ids, hbatch, hcount, hafter⟩ := sweep_batch t moment
      simp only [perform, session, Prog.run_map, hcount, hafter]
      exact .reclaimed (hbatch.lists hq)
  | purge before limit =>
      obtain ⟨ids, hbatch, hcount, hafter⟩ := purge_batch t before limit
      simp only [perform, session, Prog.run_map, hcount, hafter]
      exact .purged (hbatch.lists hq)
  | find key =>
      simp only [perform, session, Prog.run_map]
      exact find_performs key
  | get id =>
      simp only [perform, session, Prog.run_map]
      exact get_performs id

theorem exec_nil {statement : Statement V} (h : (Table.exec statement t).1 = []) :
    (Table.exec statement t).2 = t := by
  cases statement with
  | update condition values =>
      have hnone := List.filter_eq_nil_iff.mp (List.map_eq_nil_iff.mp h)
      exact Table.update_of_none values fun row hrow => by simpa using hnone row hrow
  | delete condition =>
      have hnone := List.filter_eq_nil_iff.mp h
      exact Table.delete_of_none fun row hrow => by simpa using hnone row hrow
  | insert id run =>
      simp only [Table.exec] at h ⊢
      split at h
      · cases h
      · rename_i htaken
        rw [dif_neg htaken]

theorem write_false {condition : Condition V} {id : Nat}
    (honly : ∀ row, condition row → row.id = id) {values : Run V → Run V}
    (h : ((write condition values).run Table.exec t).1 = false) :
    ((write condition values).run Table.exec t).2 = t := by
  rcases t.update_one condition values honly with ⟨run, -, -, hone⟩ | ⟨-, hnone⟩
  · simp only [write, Prog.run, hone] at h
    cases h
  · simp only [write, Prog.run]
    rw [hnone]

/-- A batch hands on how many rows it changed, and with none of them the table it found. -/
theorem takeBack_cases {α : Type} (condition : Condition V) (size : Nat) (values : Run V → Run V)
    (next : Nat → Session V α) (t : Table V) :
    ∃ n u, (takeBack condition size values next).run Table.exec t = (next n).run Table.exec u ∧
      (n = 0 → u = t) := by
  simp only [takeBack, Prog.run]
  split
  · exact ⟨0, t, rfl, fun _ => rfl⟩
  · exact ⟨_, _, rfl, fun hzero => exec_nil (List.eq_nil_of_length_eq_zero hzero)⟩

theorem perform_negative {fresh : Nat} {q : Request Nat V}
    (h : (perform t fresh q).1.negative = true) : (perform t fresh q).2 = t := by
  cases q with
  | claim worker queues limit lease moment =>
      simp only [perform, session, Prog.run_map] at h
      cases h
  | add run =>
      simp only [perform, session, add, Prog.map, Prog.run, negative_row, List.head?_eq_none_iff]
        at h ⊢
      exact exec_nil h
  | heartbeat id worker attempt lease moment =>
      cases hlease : moment.plus lease with
      | none => simp only [perform, session, heartbeat, hlease, Prog.map, Prog.run]
      | some leaseEnd =>
          simp only [perform, session, heartbeat, hlease, Prog.run_map, negative_told] at h ⊢
          exact write_false (fun row hrow => (of_decide_eq_true hrow).1) h
  | complete | fail | retryLater | release | cancel =>
      simp only [perform, session, Prog.run_map, negative_told] at h ⊢
      exact write_false (fun row hrow => (of_decide_eq_true hrow).1) h
  | reclaim moment =>
      simp only [perform, session, Prog.run_map, negative_counted] at h ⊢
      rw [sweep] at h ⊢
      obtain ⟨failures, u, hfirst, hu⟩ := takeBack_cases (spent moment) reclaimBatch
        (gaveUp moment) (fun failures =>
          takeBack (unspent moment) (reclaimBatch - failures) (givenBack moment) fun requeues =>
            .done (failures + requeues)) t
      obtain ⟨requeues, w, hsecond, hw⟩ := takeBack_cases (unspent moment)
        (reclaimBatch - failures) (givenBack moment) (fun requeues =>
          (.done (failures + requeues) : Session V Nat)) u
      rw [hfirst, hsecond] at h ⊢
      have hsum : failures + requeues = 0 := h
      show w = t
      rw [hw (by omega), hu (by omega)]
  | purge before limit =>
      simp only [perform, session, Prog.run_map, negative_counted, purge, Prog.run] at h ⊢
      split at h
      · rename_i hnil
        rw [if_pos hnil]
        rfl
      · rename_i hsome
        rw [if_neg hsome]
        exact exec_nil (List.eq_nil_of_length_eq_zero h)
  | find key => simp only [perform, session, find, one, Prog.map, Prog.run]
  | get id => simp only [perform, session, get, one, Prog.map, Prog.run]

end SqlStore

end Queuefy
