import Queuefy.Store.MemorySpec

/-! # Runs by id

What a store holds, however it keeps it, is a map from ids to runs. Every call changes the runs
of some ids, drops them, or writes a run under an id that had none.
-/

namespace Queuefy

abbrev Rows (ι V : Type) := ι → Option (Run V)

namespace Rows

variable {ι V : Type} [DecidableEq ι]

/-- The rows after the runs of some ids became what `g` makes of them, which may be nothing. -/
def revise (rows : Rows ι V) (ids : List ι) (g : Run V → Option (Run V)) : Rows ι V :=
  fun id => if id ∈ ids then (rows id).bind g else rows id

theorem revise_nil (rows : Rows ι V) (g : Run V → Option (Run V)) : rows.revise [] g = rows := by
  funext id
  simp [revise]

theorem revise_singleton (rows : Rows ι V) (id : ι) (g : Run V → Option (Run V)) :
    rows.revise [id] g = Function.update rows id ((rows id).bind g) := by
  funext i
  by_cases hi : i = id
  · subst hi
    simp [revise]
  · simp [revise, hi]

/-- A batch is its first id, and then the others. -/
theorem revise_cons (rows : Rows ι V) {id : ι} {ids : List ι} (g : Run V → Option (Run V))
    (h : id ∉ ids) :
    Rows.revise (Function.update rows id ((rows id).bind g)) ids g = rows.revise (id :: ids) g := by
  funext i
  by_cases hi : i = id
  · subst hi
    simp [revise, h]
  · simp [revise, hi]

theorem revise_of_mem {rows : Rows ι V} {ids : List ι} {g : Run V → Option (Run V)} {id : ι}
    {run : Run V} (hrow : rows id = some run) (h : id ∈ ids) : rows.revise ids g id = g run := by
  simp [revise, h, hrow]

theorem revise_of_not_mem {rows : Rows ι V} {ids : List ι} {g : Run V → Option (Run V)} {id : ι}
    (h : id ∉ ids) : rows.revise ids g id = rows id := if_neg h

end Rows

/-! ## The rows of the memory store -/

namespace MemoryStore

variable {V : Type}

def rows (s : MemoryStore V) : Rows Nat V := fun id => (s.get id).map (·.toRun)

theorem rows_eq_some {s : MemoryStore V} {id : Nat} {run : Run V} :
    s.rows id = some run ↔ s.get id = some ⟨run, id⟩ := by
  constructor
  · intro h
    obtain ⟨row, hrow, rfl⟩ := Option.map_eq_some_iff.mp h
    have hid := get_id hrow
    subst hid
    exact hrow
  · intro h
    rw [rows, h]
    rfl

theorem rows_amend (s : MemoryStore V) (ids : List Nat) (f : Run V → Run V) :
    (s.amend ids f).rows = s.rows.revise ids fun run => some (f run) := by
  funext id
  by_cases h : id ∈ ids
  · simp only [rows, Rows.revise, if_pos h]
    cases hg : s.get id with
    | none => rw [get_amend, hg]; rfl
    | some row => rw [get_amend_mem hg h]; rfl
  · simp only [rows, Rows.revise, if_neg h, get_amend_not_mem h]

theorem rows_drop (s : MemoryStore V) (ids : List Nat) :
    (s.drop ids).rows = s.rows.revise ids fun _ => none := by
  funext id
  simp only [rows, Rows.revise, get_drop]
  split
  · cases s.get id <;> rfl
  · rfl

theorem rows_write (s : MemoryStore V) (run : Run V) :
    (s.write run).rows = Function.update s.rows (s.sequence + 1) (some run) := by
  funext id
  simp only [rows, get_write]
  by_cases h : id = s.sequence + 1
  · subst h
    simp
  · simp [h, rows]

end MemoryStore

end Queuefy
