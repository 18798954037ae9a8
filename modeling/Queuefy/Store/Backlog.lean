import Queuefy.Lib.Drain
import Queuefy.Store.Spec

/-! # Batches of what is due

The runs that meet a condition are a backlog, and a batch is some of them, as many as it may be.
Each store goes through them in an order of its own. What a batch does of a run takes the run out
of the backlog, so all that a batch can leave different is which runs are left for the next one.
-/

namespace Queuefy

variable {ι V : Type} {rows : Rows ι V} {P : Run V → Bool} {g : Run V → Option (Run V)}
  {ids : List ι} {size : Nat}

/-- The ids of the runs a condition is true of. -/
def Rows.due (P : Run V → Bool) (rows : Rows ι V) : Set ι :=
  {id | ∃ run, rows id = some run ∧ P run}

noncomputable def Rows.backlog (P : Run V → Bool) (rows : Rows ι V) : Nat := (rows.due P).ncard

/-- What is left once `g` was done of every run the condition is true of. -/
def Rows.drained (P : Run V → Bool) (g : Run V → Option (Run V)) (rows : Rows ι V) : Rows ι V :=
  fun id => (rows id).bind fun run => if P run then g run else some run

/-- Some of the runs a condition is true of, each once, and as many as a batch may be. -/
structure IsBatch (rows : Rows ι V) (P : Run V → Bool) (size : Nat) (ids : List ι) : Prop where
  finite : (rows.due P).Finite
  nodup : ids.Nodup
  due : ∀ id ∈ ids, id ∈ rows.due P
  full : ids.length = min size (rows.backlog P)

theorem ncard_of_nodup {ids : List ι} (h : ids.Nodup) : {id | id ∈ ids}.ncard = ids.length := by
  classical
  have hset : {id | id ∈ ids} = (ids.toFinset : Set ι) := by
    ext id
    simp
  rw [hset, Set.ncard_coe_finset, List.toFinset_card_of_nodup h]

theorem Renames.backlog_eq {κ : Type} {ρ : ι → κ} {rows' : Rows κ V}
    (h : Renames ρ rows rows') (P : Run V → Bool) : rows.backlog P = rows'.backlog P := by
  have himage : rows'.due P = ρ '' rows.due P := by
    ext k
    constructor
    · rintro ⟨run, hrow, hP⟩
      obtain ⟨i, rfl, hi⟩ := h.onto k run hrow
      exact ⟨i, ⟨run, hi, hP⟩, rfl⟩
    · rintro ⟨i, ⟨run, hrow, hP⟩, rfl⟩
      exact ⟨run, h.kept i run hrow, hP⟩
  have hinj : Set.InjOn ρ (rows.due P) := by
    rintro i ⟨run, hi, -⟩ j ⟨run', hj, -⟩ hsame
    exact h.distinct i j (by rw [hi]; rfl) (by rw [hj]; rfl) hsame
  rw [Rows.backlog, Rows.backlog, himage, hinj.ncard_image]

namespace Lists

theorem due_eq (h : Lists rows (fun run => P run = true) ids) : rows.due P = {id | id ∈ ids} := by
  ext id
  exact (h.mem id).symm

theorem finite (h : Lists rows (fun run => P run = true) ids) : (rows.due P).Finite := by
  rw [h.due_eq]
  exact List.finite_toSet ids

theorem backlog_eq (h : Lists rows (fun run => P run = true) ids) :
    rows.backlog P = ids.length := by
  rw [Rows.backlog, h.due_eq, ncard_of_nodup h.nodup]

theorem take (h : Lists rows (fun run => P run = true) ids) (size : Nat) :
    IsBatch rows P size (ids.take size) where
  finite := h.finite
  nodup := h.nodup.sublist (List.take_sublist _ _)
  due := fun id hid => (h.mem id).1 (List.mem_of_mem_take hid)
  full := by rw [List.length_take, h.backlog_eq]

end Lists

namespace IsBatch

theorem ncard_eq (h : IsBatch rows P size ids) : {id | id ∈ ids}.ncard = ids.length :=
  ncard_of_nodup h.nodup

theorem subset (h : IsBatch rows P size ids) : {id | id ∈ ids} ⊆ rows.due P :=
  fun id hid => h.due id hid

theorem lists (h : IsBatch rows P size ids) (hall : AtMost rows (fun run => P run = true) size) :
    Lists rows (fun run => P run = true) ids := by
  obtain ⟨all, hnodup, hmem⟩ : ∃ all : List ι, all.Nodup ∧ ∀ id, id ∈ all ↔ id ∈ rows.due P := by
    refine ⟨h.finite.toFinset.toList, Finset.nodup_toList _, fun id => ?_⟩
    rw [Finset.mem_toList, h.finite.mem_toFinset]
  have hlists : Lists rows (fun run => P run = true) all := ⟨hnodup, hmem⟩
  have hle := hall all hlists
  have hsame : {id | id ∈ ids} = rows.due P := by
    apply Set.eq_of_subset_of_ncard_le h.subset _ h.finite
    have hfull := h.full
    rw [hlists.backlog_eq] at hfull
    rw [h.ncard_eq, show (rows.due P).ncard = all.length from hlists.backlog_eq]
    omega
  exact ⟨h.nodup, fun id => by
    show id ∈ {id | id ∈ ids} ↔ _
    rw [hsame]
    rfl⟩

variable [DecidableEq ι]

/-- What a batch leaves due is what there was without it. -/
theorem due_revise (h : IsBatch rows P size ids)
    (hg : ∀ run new, P run = true → g run = some new → P new = false) :
    (rows.revise ids g).due P = rows.due P \ {id | id ∈ ids} := by
  ext id
  by_cases hid : id ∈ ids
  · obtain ⟨run, hrow, hP⟩ := h.due id hid
    simp only [Rows.due, Set.mem_ofPred_eq, Set.mem_sdiff, hid, not_true_eq_false, and_false,
      iff_false, Rows.revise_of_mem hrow hid]
    rintro ⟨new, hnew, hPnew⟩
    rw [hg run new hP hnew] at hPnew
    cases hPnew
  · simp only [Rows.due, Set.mem_ofPred_eq, Set.mem_sdiff, hid, not_false_eq_true, and_true,
      Rows.revise_of_not_mem hid]

theorem backlog_revise (h : IsBatch rows P size ids)
    (hg : ∀ run new, P run = true → g run = some new → P new = false) :
    (rows.revise ids g).backlog P = rows.backlog P - ids.length := by
  rw [Rows.backlog, h.due_revise hg, Set.ncard_sdiff h.subset (List.finite_toSet ids), h.ncard_eq]
  rfl

/-- No batch changes what is left in the end. -/
theorem drained_revise (h : IsBatch rows P size ids)
    (hg : ∀ run new, P run = true → g run = some new → P new = false) :
    (rows.revise ids g).drained P g = rows.drained P g := by
  funext id
  by_cases hid : id ∈ ids
  · obtain ⟨run, hrow, hP⟩ := h.due id hid
    rw [Rows.drained, Rows.drained, Rows.revise_of_mem hrow hid, hrow, Option.bind_some, if_pos hP]
    cases hnew : g run with
    | none => rfl
    | some new => simp [hg run new hP hnew]
  · rw [Rows.drained, Rows.drained, Rows.revise_of_not_mem hid]

end IsBatch

theorem drained_of_backlog_eq_zero (hfinite : (rows.due P).Finite) (h : rows.backlog P = 0) :
    rows.drained P g = rows := by
  have hempty : rows.due P = ∅ := (Set.ncard_eq_zero hfinite).1 h
  funext id
  rw [Rows.drained]
  cases hrow : rows id with
  | none => rfl
  | some run =>
      have hnot : P run ≠ true := fun hP => by
        have hmem : id ∈ rows.due P := ⟨run, hrow, hP⟩
        rw [hempty] at hmem
        exact hmem
      rw [Option.bind_some, if_neg hnot]

/-- A store whose calls each take one batch drains: it comes to what is left once every run due
was dealt with, whichever of them it takes first. -/
theorem drains_of [DecidableEq ι] {σ : Type} {call : σ → Nat × σ} {holds : σ → Rows ι V → Prop}
    (kept : Run V → Prop) (hg : ∀ run new, P run = true → g run = some new → P new = false)
    (hkept : ∀ run new, kept run → P run = true → g run = some new → kept new)
    (hcall : ∀ {s rows}, holds s rows → (∀ id run, rows id = some run → kept run) →
      ∃ ids, IsBatch rows P size ids ∧ (call s).1 = ids.length ∧
        holds (call s).2 (rows.revise ids g))
    (hsize : 1 ≤ size) {s : σ} (hs : holds s rows)
    (hrows : ∀ id run, rows id = some run → kept run) :
    Drains call holds (Rows.backlog P) size s (rows.drained P g) := by
  have hbatched : Batched call holds
      (fun rows => (rows.due P).Finite ∧ ∀ id run, rows id = some run → kept run)
      (Rows.backlog P) size (Rows.drained P g) := by
    refine ⟨?_, fun hrows hzero => drained_of_backlog_eq_zero hrows.1 hzero⟩
    rintro s rows hs ⟨-, hrows⟩
    obtain ⟨ids, hbatch, hcount, hafter⟩ := hcall hs hrows
    refine ⟨hcount.trans hbatch.full, _, hafter, ⟨?_, fun id run hrun => ?_⟩, ?_,
      hbatch.drained_revise hg⟩
    · rw [hbatch.due_revise hg]
      exact hbatch.finite.sdiff
    · by_cases hid : id ∈ ids
      · obtain ⟨old, hold, hP⟩ := hbatch.due id hid
        rw [Rows.revise_of_mem hold hid] at hrun
        exact hkept old run (hrows id old hold) hP hrun
      · rw [Rows.revise_of_not_mem hid] at hrun
        exact hrows id run hrun
    · rw [hbatch.backlog_revise hg, hcount]
  obtain ⟨ids, hbatch, -, -⟩ := hcall hs hrows
  exact hbatched.drains hsize hs ⟨hbatch.finite, hrows⟩

end Queuefy
