import Queuefy.Store.Sql

/-! # What a statement leaves

A row is read by its primary key, so a statement is described by what the runs of each id become.
The rows a statement changed are the ones it wrote, as long as what it writes is never what was
there already.
-/

namespace Queuefy.Table

variable {V : Type}

theorem get_eq_some {t : Table V} {id : Nat} {row : Row Nat V} :
    t.get id = some row ↔ row ∈ t.rows ∧ row.id = id := by
  unfold get
  constructor
  · intro h
    exact ⟨List.mem_of_find?_eq_some h, by simpa using List.find?_some h⟩
  · rintro ⟨hmem, rfl⟩
    cases hf : t.rows.find? (·.id = row.id) with
    | none => simpa using List.find?_eq_none.mp hf row hmem
    | some other =>
        have hid : other.id = row.id := by simpa using List.find?_some hf
        rw [List.inj_on_of_nodup_map t.primary (List.mem_of_find?_eq_some hf) hmem hid]

theorem runs_eq_some {t : Table V} {id : Nat} {run : Run V} :
    t.runs id = some run ↔ (⟨run, id⟩ : Row Nat V) ∈ t.rows := by
  rw [runs, Option.map_eq_some_iff]
  constructor
  · rintro ⟨row, hrow, rfl⟩
    obtain ⟨hmem, rfl⟩ := get_eq_some.1 hrow
    exact hmem
  · intro hmem
    exact ⟨_, get_eq_some.2 ⟨hmem, rfl⟩, rfl⟩

theorem runs_of_mem {t : Table V} {row : Row Nat V} (h : row ∈ t.rows) :
    t.runs row.id = some row.toRun :=
  runs_eq_some.2 h

/-! ## Each statement -/

theorem runs_update {t : Table V} {condition : Condition V} {values : Run V → Run V} {id : Nat}
    {run : Run V} (h : t.runs id = some run) :
    (t.update condition values).runs id =
      some (if condition ⟨run, id⟩ then values run else run) := by
  rw [runs_eq_some] at h ⊢
  refine List.mem_map.mpr ⟨_, h, ?_⟩
  unfold written
  split <;> rfl

theorem runs_update_none {t : Table V} {condition : Condition V} {values : Run V → Run V}
    {id : Nat} (h : t.runs id = none) : (t.update condition values).runs id = none := by
  rw [← Option.not_isSome_iff_eq_none] at h ⊢
  intro hsome
  obtain ⟨run, hrun⟩ := Option.isSome_iff_exists.mp hsome
  rw [runs_eq_some] at hrun
  obtain ⟨row, hrow, heq⟩ := List.mem_map.mp hrun
  apply h
  have hid : row.id = id := by
    have := congrArg Row.id heq
    unfold written at this
    split at this <;> exact this
  rw [← hid, runs_of_mem hrow]
  rfl

theorem runs_delete {t : Table V} {condition : Condition V} {id : Nat} {run : Run V} :
    (t.delete condition).runs id = some run ↔
      t.runs id = some run ∧ condition ⟨run, id⟩ = false := by
  rw [runs_eq_some, runs_eq_some, delete, List.mem_filter]
  simp

theorem update_of_none {t : Table V} {condition : Condition V} (values : Run V → Run V)
    (h : ∀ row ∈ t.rows, condition row = false) : t.update condition values = t := by
  have hrows : t.rows.map (written condition values) = t.rows := by
    refine (List.map_congr_left fun row hrow => ?_).trans (List.map_id _)
    simp [written, h row hrow]
  cases t
  simp only [update, mk.injEq]
  exact hrows

theorem delete_of_none {t : Table V} {condition : Condition V}
    (h : ∀ row ∈ t.rows, condition row = false) : t.delete condition = t := by
  have hrows : t.rows.filter (fun row => !condition row) = t.rows := by
    rw [List.filter_eq_self]
    intro row hrow
    rw [h row hrow]
    rfl
  cases t
  simp only [delete, mk.injEq]
  exact hrows

/-- An update of one id writes the run of that id or nothing. -/
theorem update_one (t : Table V) (condition : Condition V) (values : Run V → Run V) {id : Nat}
    (honly : ∀ row, condition row → row.id = id) :
    (∃ run, t.runs id = some run ∧ condition ⟨run, id⟩ ∧
      (exec (.update condition values) t).1 = [⟨values run, id⟩]) ∨
    ((∀ run, t.runs id = some run → condition ⟨run, id⟩ = false) ∧
      exec (.update condition values) t = ([], t)) := by
  by_cases hmatch : ∃ run, t.runs id = some run ∧ condition ⟨run, id⟩
  · obtain ⟨run, hrun, hcond⟩ := hmatch
    refine Or.inl ⟨run, hrun, hcond, ?_⟩
    have hone : t.rows.filter condition = [⟨run, id⟩] := by
      apply List.perm_singleton.mp
      refine (List.perm_ext_iff_of_nodup ((t.primary.of_map _).filter _)
        (List.nodup_singleton _)).2 fun row => ?_
      rw [List.mem_filter, List.mem_singleton]
      constructor
      · rintro ⟨hrow, hc⟩
        obtain rfl := honly row hc
        rw [runs_of_mem hrow] at hrun
        cases hrun
        rfl
      · rintro rfl
        exact ⟨runs_eq_some.1 hrun, hcond⟩
    simp only [exec, hone, List.map_singleton]
  · have hnone : ∀ run, t.runs id = some run → condition ⟨run, id⟩ = false := by
      intro run hrun
      by_contra hcond
      exact hmatch ⟨run, hrun, by simpa using hcond⟩
    have hrows : ∀ row ∈ t.rows, condition row = false := by
      intro row hrow
      by_contra hcond
      have hc : condition row = true := by simpa using hcond
      obtain rfl := honly row hc
      have := hnone row.toRun (runs_of_mem hrow)
      rw [this] at hc
      cases hc
    refine Or.inr ⟨hnone, ?_⟩
    have hfilter : t.rows.filter condition = [] :=
      List.filter_eq_nil_iff.mpr fun row hrow => by simp [hrows row hrow]
    simp only [exec, hfilter, List.map_nil, update_of_none values hrows]

theorem runs_of_update {t : Table V} {condition : Condition V} {values : Run V → Run V} {id : Nat}
    {run : Run V} (h : (t.update condition values).runs id = some run) :
    ∃ old, t.runs id = some old ∧ run = if condition ⟨old, id⟩ then values old else old := by
  cases hrun : t.runs id with
  | none =>
      rw [runs_update_none hrun] at h
      cases h
  | some old =>
      rw [runs_update hrun] at h
      exact ⟨old, rfl, (Option.some.inj h).symm⟩

theorem runs_insert {t : Table V} {id : Nat} {run : Run V} (h : t.refuses id run = false) :
    t.runs id = none ∧ (t.insert id run h).runs = Function.update t.runs id (some run) := by
  have hnone : t.runs id = none := by
    rw [← Option.not_isSome_iff_eq_none]
    intro hsome
    obtain ⟨old, hold⟩ := Option.isSome_iff_exists.mp hsome
    simp only [refuses, List.any_eq_false] at h
    exact h _ (runs_eq_some.1 hold) (by simp)
  refine ⟨hnone, funext fun i => ?_⟩
  apply Option.ext
  intro r
  rw [runs_eq_some, insert, List.mem_append, List.mem_singleton, ← runs_eq_some]
  by_cases hi : i = id
  · subst hi
    simp [hnone, eq_comm]
  · simp [hi]

/-- How many rows of some ids a condition matches. -/
theorem length_filter_le (t : Table V) (condition : Condition V) (ids : List Nat)
    (h : ∀ row, condition row → row.id ∈ ids) : (t.rows.filter condition).length ≤ ids.length := by
  have hnodup := t.primary.sublist ((List.filter_sublist (p := condition) (l := t.rows)).map (·.id))
  rw [← List.length_map (·.id)]
  apply (hnodup.subperm fun id hid => ?_).length_le
  obtain ⟨row, hrow, rfl⟩ := List.mem_map.mp hid
  exact h row (List.mem_filter.mp hrow).2

/-! ## Rows changed -/

/-- The ids whose run is another than before, or there where it was not, or not where it was. -/
def changed (t u : Table V) : Set Nat := {id | t.runs id ≠ u.runs id}

/-- An update that always writes something else changes the rows it matches. -/
theorem changed_update {t : Table V} {condition : Condition V} (values : Run V → Run V)
    (h : ∀ row ∈ t.rows, condition row → values row.toRun ≠ row.toRun) (id : Nat) :
    id ∈ changed t (t.update condition values) ↔ ∃ row ∈ t.rows, condition row ∧ row.id = id := by
  show t.runs id ≠ (t.update condition values).runs id ↔ _
  cases hrun : t.runs id with
  | none =>
      rw [runs_update_none hrun]
      simp only [ne_eq, not_true_eq_false, false_iff, not_exists, not_and]
      rintro row hrow - rfl
      rw [runs_of_mem hrow] at hrun
      cases hrun
  | some run =>
      rw [runs_update hrun]
      have hmem := runs_eq_some.1 hrun
      constructor
      · intro hne
        by_cases hcond : condition ⟨run, id⟩
        · exact ⟨_, hmem, hcond, rfl⟩
        · rw [if_neg hcond] at hne
          exact absurd rfl hne
      · rintro ⟨row, hrow, hcond, rfl⟩
        have hsame : row.toRun = run := by
          rw [runs_of_mem hrow] at hrun
          exact Option.some.inj hrun
        subst hsame
        rw [if_pos hcond]
        exact fun heq => h row hrow hcond (Option.some.inj heq).symm

theorem changed_delete (t : Table V) (condition : Condition V) (id : Nat) :
    id ∈ changed t (t.delete condition) ↔ ∃ row ∈ t.rows, condition row ∧ row.id = id := by
  show t.runs id ≠ (t.delete condition).runs id ↔ _
  constructor
  · intro hne
    cases hrun : t.runs id with
    | none =>
        exfalso
        apply hne
        cases hafter : (t.delete condition).runs id with
        | none => rw [hrun]
        | some run => rw [(runs_delete.1 hafter).1]
    | some run =>
        refine ⟨_, runs_eq_some.1 hrun, ?_, rfl⟩
        by_contra hcond
        apply hne
        rw [hrun, runs_delete.2 ⟨hrun, by simpa using hcond⟩]
  · rintro ⟨row, hrow, hcond, rfl⟩ heq
    rw [runs_of_mem hrow] at heq
    have := (runs_delete.1 heq.symm).2
    rw [hcond] at this
    cases this

/-- How many rows were changed, told from the rows matched. -/
theorem ncard_changed {t u : Table V} {condition : Condition V}
    (h : ∀ id, id ∈ changed t u ↔ ∃ row ∈ t.rows, condition row ∧ row.id = id) :
    (changed t u).ncard = (t.rows.filter condition).length := by
  have hset : changed t u = ((t.rows.filter condition).map (·.id)).toFinset := by
    ext id
    rw [h]
    simp [and_assoc]
  rw [hset, Set.ncard_coe_finset, List.toFinset_card_of_nodup, List.length_map]
  exact t.primary.sublist (List.filter_sublist.map _)

end Queuefy.Table
