import Queuefy.Store.Refines

/-! # Who holds a key

A key is carried by a run from the moment it is written until a pruning drops it; no other call
writes to it. So of every call only two say anything about keys.
-/

namespace Queuefy.MemoryStore

variable {V : Type}

/-- The key of the run under an id, where there is one. -/
def keyOf (m : MemoryStore V) (id : Nat) : Option (Option String) := (m.get id).map (·.key)

theorem keyOf_eq_some {m : MemoryStore V} {id : Nat} {key : Option String} :
    m.keyOf id = some key ↔ ∃ row ∈ m.runs, row.id = id ∧ row.key = key := by
  rw [keyOf, Option.map_eq_some_iff]
  constructor
  · rintro ⟨row, hrow, rfl⟩
    exact ⟨row, (get_eq_some.1 hrow).1, (get_eq_some.1 hrow).2, rfl⟩
  · rintro ⟨row, hmem, rfl, rfl⟩
    exact ⟨row, get_of_mem hmem, rfl⟩

theorem keyOf_of_mem {m : MemoryStore V} {row : Row Nat V} (h : row ∈ m.runs) :
    m.keyOf row.id = some row.key :=
  keyOf_eq_some.2 ⟨row, h, rfl, rfl⟩

theorem keyOf_amend (m : MemoryStore V) (ids : List Nat) {f : Run V → Run V}
    (hf : ∀ run, (f run).key = run.key) : (m.amend ids f).keyOf = m.keyOf := by
  funext id
  rw [keyOf, get_amend, Option.map_map]
  have hkeys : (fun row : Row Nat V => row.key) ∘ amended ids f = fun row => row.key := by
    funext row
    unfold amended
    simp only [Function.comp_apply]
    split
    · exact hf row.toRun
    · rfl
  rw [hkeys]
  rfl

theorem keyOf_drop (m : MemoryStore V) (ids : List Nat) (id : Nat) :
    (m.drop ids).keyOf id = if id ∈ ids then none else m.keyOf id := by
  rw [keyOf, get_drop]
  split <;> rfl

theorem keyOf_write (m : MemoryStore V) (run : Run V) :
    (m.write run).keyOf = Function.update m.keyOf (m.sequence + 1) (some run.key) := by
  funext id
  rw [keyOf, get_write]
  by_cases hid : id = m.sequence + 1
  · subst hid
    simp
  · simp [hid, keyOf]

theorem keyOf_past_sequence {m : MemoryStore V} {id : Nat} (h : m.sequence < id) :
    m.keyOf id = none := by
  rw [keyOf, get_past_sequence h, Option.map_none]

/-- A key is taken exactly while a run carries it. -/
theorem taken_iff {m : MemoryStore V} {key : String} :
    m.taken (some key) = true ↔ ∃ id, m.keyOf id = some (some key) := by
  simp only [taken, Option.isSome_some, Bool.true_and, List.any_eq_true, decide_eq_true_eq]
  constructor
  · rintro ⟨row, hrow, hkey⟩
    exact ⟨row.id, keyOf_eq_some.2 ⟨row, hrow, rfl, hkey⟩⟩
  · rintro ⟨id, hid⟩
    obtain ⟨row, hrow, -, hkey⟩ := keyOf_eq_some.1 hid
    exact ⟨row, hrow, hkey⟩

theorem find_spec {m : MemoryStore V} {key : String} {row : Row Nat V}
    (h : m.find key = some row) : row ∈ m.runs ∧ row.key = some key :=
  ⟨List.mem_of_find?_eq_some h, by simpa using List.find?_some h⟩

theorem find_eq_none {m : MemoryStore V} {key : String} :
    m.find key = none ↔ ∀ id, m.keyOf id ≠ some (some key) := by
  rw [find, List.find?_eq_none]
  constructor
  · intro hnone id hid
    obtain ⟨row, hrow, -, hkey⟩ := keyOf_eq_some.1 hid
    exact absurd hkey (by simpa using hnone row hrow)
  · intro hfree row hrow hkey
    exact hfree row.id (keyOf_eq_some.2 ⟨row, hrow, rfl, by simpa using hkey⟩)

/-! ## What each call does to them -/

/-- The rows a pruning drops. -/
def pruned (m : MemoryStore V) : Request Nat V → List Nat
  | .purge before limit => (m.gone before limit).map (·.id)
  | _ => []

theorem keyOf_settle (m : MemoryStore V) (id : Nat) (worker : String) (attempt : Int)
    {f : Run V → Run V} (hf : ∀ run, (f run).key = run.key) :
    (m.settle id worker attempt f).2.keyOf = m.keyOf := by
  rcases m.settle_cases id worker attempt f with ⟨-, heq⟩ | ⟨row, -, heq⟩
  · rw [heq]
  · rw [heq, keyOf_amend m [id] hf]

theorem keyOf_claim (m : MemoryStore V) (worker : String) (queues : List String) (limit : Nat)
    (lease : Int) (moment : Instant) :
    (m.claim worker queues limit lease moment).2.keyOf = m.keyOf := by
  cases hlease : moment.plus lease with
  | none =>
      rw [m.claim_of_overflow worker queues limit hlease]
      split
      · rfl
      · exact m.keyOf_amend _ fun _ => rfl
  | some leaseEnd =>
      rw [m.claim_of_plus worker queues limit hlease]
      exact m.keyOf_amend _ fun _ => rfl

theorem keyOf_add (m : MemoryStore V) (run : Run V) :
    (m.add run).2.keyOf =
      if m.taken run.key then m.keyOf
      else Function.update m.keyOf (m.sequence + 1) (some run.key) := by
  unfold add
  split
  · rfl
  · exact keyOf_write m run

/-- Of a call that writes no run the keys stay where they are, but for those of the runs it
drops. -/
theorem keyOf_perform (m : MemoryStore V) {q : Request Nat V} (hq : ∀ run, q ≠ .add run)
    (id : Nat) : (m.perform q).2.keyOf id = if id ∈ m.pruned q then none else m.keyOf id := by
  cases q with
  | add run => exact absurd rfl (hq run)
  | purge before limit => exact m.keyOf_drop _ id
  | claim worker queues limit lease moment =>
      simp only [perform, keyOf_claim, pruned, List.not_mem_nil, if_false]
  | heartbeat id' worker attempt lease moment =>
      simp only [perform, pruned, List.not_mem_nil, if_false, heartbeat]
      cases m.held id' worker attempt with
      | none => rfl
      | some row =>
          cases moment.plus lease with
          | none => rfl
          | some leaseEnd =>
              exact congrFun (m.keyOf_amend [id'] (f := beaten leaseEnd) fun _ => rfl) id
  | complete id' worker attempt moment result =>
      exact congrFun (m.keyOf_settle id' worker attempt (f := completed moment result)
        fun _ => rfl) id
  | fail id' worker attempt moment error errorType =>
      exact congrFun (m.keyOf_settle id' worker attempt (f := failed moment error errorType)
        fun _ => rfl) id
  | retryLater id' worker attempt dueAt error errorType =>
      exact congrFun (m.keyOf_settle id' worker attempt (f := requeued dueAt error errorType 0)
        fun _ => rfl) id
  | release id' worker attempt dueAt error errorType =>
      exact congrFun (m.keyOf_settle id' worker attempt (f := requeued dueAt error errorType (-1))
        fun _ => rfl) id
  | reclaim moment =>
      refine congrFun (m.keyOf_amend _ fun run => ?_) id
      unfold takenBack
      split <;> rfl
  | cancel id' moment =>
      simp only [perform, pruned, List.not_mem_nil, if_false]
      rcases m.cancel_cases id' moment with ⟨-, heq⟩ | ⟨row, -, -, heq⟩
      · rw [heq]
      · rw [heq]
        exact congrFun (m.keyOf_amend [id'] (f := calledOff moment) fun _ => rfl) id
  | find | get => rfl

end Queuefy.MemoryStore
