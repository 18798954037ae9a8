import Queuefy.Store.Memory

/-! # What each method of the memory store does

A row is read by its id, so every operation is described by what `get` answers afterwards.
The claim is the one with a loop: its sorted candidates are taken up to the limit in one go.
-/

namespace Queuefy.MemoryStore

variable {V : Type}

/-! ## Reading by id -/

theorem ids_nodup (s : MemoryStore V) : (s.runs.map (·.id)).Nodup := by
  rw [List.Nodup, List.pairwise_map]
  exact s.ordered.imp fun h => Nat.ne_of_lt h

theorem row_eq_of_id (s : MemoryStore V) {a b : Row Nat V} (ha : a ∈ s.runs) (hb : b ∈ s.runs)
    (h : a.id = b.id) : a = b :=
  List.inj_on_of_nodup_map s.ids_nodup ha hb h

theorem get_eq_some {s : MemoryStore V} {id : Nat} {row : Row Nat V} :
    s.get id = some row ↔ row ∈ s.runs ∧ row.id = id := by
  unfold get
  constructor
  · intro h
    exact ⟨List.mem_of_find?_eq_some h, by simpa using List.find?_some h⟩
  · rintro ⟨hmem, rfl⟩
    cases hf : s.runs.find? (·.id = row.id) with
    | none => simpa using List.find?_eq_none.mp hf row hmem
    | some other =>
        rw [s.row_eq_of_id (List.mem_of_find?_eq_some hf) hmem (by simpa using List.find?_some hf)]

theorem get_of_mem {s : MemoryStore V} {row : Row Nat V} (h : row ∈ s.runs) :
    s.get row.id = some row :=
  get_eq_some.2 ⟨h, rfl⟩

theorem get_id {s : MemoryStore V} {id : Nat} {row : Row Nat V} (h : s.get id = some row) :
    row.id = id :=
  (get_eq_some.1 h).2

theorem get_le_sequence {s : MemoryStore V} {id : Nat} {row : Row Nat V}
    (h : s.get id = some row) : id ≤ s.sequence :=
  (get_eq_some.1 h).2 ▸ s.bounded row (get_eq_some.1 h).1

theorem get_past_sequence {s : MemoryStore V} {id : Nat} (h : s.sequence < id) :
    s.get id = none := by
  cases hg : s.get id with
  | none => rfl
  | some row => exact absurd (get_le_sequence hg) (by omega)

@[simp] theorem get_empty (id : Nat) : (empty : MemoryStore V).get id = none := by
  rw [get, empty, List.find?_nil]

theorem get_amend (s : MemoryStore V) (ids : List Nat) (f : Run V → Run V) (id : Nat) :
    (s.amend ids f).get id = (s.get id).map (amended ids f) := by
  unfold get amend
  rw [List.find?_map]
  congr 2
  funext row
  simp

theorem get_drop (s : MemoryStore V) (ids : List Nat) (id : Nat) :
    (s.drop ids).get id = if id ∈ ids then none else s.get id := by
  split
  · rename_i hid
    cases hg : (s.drop ids).get id with
    | none => rfl
    | some row =>
        obtain ⟨hmem, rfl⟩ := get_eq_some.1 hg
        exact absurd hid (by simpa using (List.mem_filter.mp hmem).2)
  · rename_i hid
    ext row
    rw [get_eq_some, get_eq_some]
    constructor
    · rintro ⟨hmem, hrow⟩
      exact ⟨(List.mem_filter.mp hmem).1, hrow⟩
    · rintro ⟨hmem, rfl⟩
      exact ⟨List.mem_filter.mpr ⟨hmem, by simpa using hid⟩, rfl⟩

theorem get_write (s : MemoryStore V) (run : Run V) (id : Nat) :
    (s.write run).get id = if id = s.sequence + 1 then some ⟨run, id⟩ else s.get id := by
  split
  · rename_i hid
    subst hid
    exact get_eq_some.2 ⟨by simp [write], rfl⟩
  · rename_i hid
    ext row
    rw [get_eq_some, get_eq_some]
    simp only [write, List.mem_append, List.mem_singleton]
    constructor
    · rintro ⟨hmem | rfl, hrow⟩
      · exact ⟨hmem, hrow⟩
      · exact absurd hrow.symm hid
    · rintro ⟨hmem, hrow⟩
      exact ⟨Or.inl hmem, hrow⟩

theorem amended_of_mem {ids : List Nat} {f : Run V → Run V} {row : Row Nat V}
    (h : row.id ∈ ids) : amended ids f row = { row with toRun := f row.toRun } :=
  if_pos h

theorem amended_of_not_mem {ids : List Nat} {f : Run V → Run V} {row : Row Nat V}
    (h : row.id ∉ ids) : amended ids f row = row :=
  if_neg h

theorem get_amend_not_mem {s : MemoryStore V} {ids : List Nat} {f : Run V → Run V}
    {id : Nat} (h : id ∉ ids) : (s.amend ids f).get id = s.get id := by
  rw [get_amend]
  cases hg : s.get id with
  | none => rfl
  | some row => rw [Option.map_some, amended_of_not_mem (get_id hg ▸ h)]

theorem get_amend_mem {s : MemoryStore V} {ids : List Nat} {f : Run V → Run V} {id : Nat}
    {row : Row Nat V} (hrow : s.get id = some row) (h : id ∈ ids) :
    (s.amend ids f).get id = some { row with toRun := f row.toRun } := by
  rw [get_amend, hrow, Option.map_some,
    amended_of_mem (get_id hrow ▸ h)]

@[simp] theorem amend_nil (s : MemoryStore V) (f : Run V → Run V) : s.amend [] f = s := by
  apply ext
  · exact List.map_id'' (fun row => amended_of_not_mem (by simp)) s.runs
  · rfl

theorem amend_cons (s : MemoryStore V) {id : Nat} {ids : List Nat} (f : Run V → Run V)
    (h : id ∉ ids) : (s.amend [id] f).amend ids f = s.amend (id :: ids) f := by
  apply ext
  · simp only [amend, List.map_map]
    apply List.map_congr_left
    intro row _
    by_cases hrow : row.id = id
    · have hid : row.id ∉ ids := hrow ▸ h
      simp [amended, hrow, h]
    · simp [amended, hrow]
  · rfl

@[simp] theorem drop_nil (s : MemoryStore V) : s.drop [] = s := by
  apply ext
  · simp [drop]
  · rfl

/-! ## What an attempt asks -/

theorem held_eq_some {s : MemoryStore V} {id : Nat} {worker : String} {attempt : Int}
    {row : Row Nat V} :
    s.held id worker attempt = some row ↔
      s.get id = some row ∧ row.worker = some worker ∧ row.status = .running ∧
        row.attempts = attempt := by
  simp [held, Option.filter_eq_some_iff]

/-- An ending either finds its attempt holding the run and changes that one run, or changes
nothing. -/
theorem settle_cases (s : MemoryStore V) (id : Nat) (worker : String) (attempt : Int)
    (f : Run V → Run V) :
    (s.held id worker attempt = none ∧ s.settle id worker attempt f = (false, s)) ∨
    (∃ row, s.held id worker attempt = some row ∧
      s.settle id worker attempt f = (true, s.amend [id] f)) := by
  unfold settle
  cases s.held id worker attempt with
  | none => exact Or.inl ⟨rfl, rfl⟩
  | some row => exact Or.inr ⟨row, rfl, rfl⟩

theorem heartbeat_cases (s : MemoryStore V) (id : Nat) (worker : String) (attempt lease : Int)
    (moment : Instant) :
    (s.held id worker attempt = none ∧
      s.heartbeat id worker attempt lease moment = (.ok false, s)) ∨
    (moment.plus lease = none ∧
      s.heartbeat id worker attempt lease moment = (.error .dateValueOutOfRange, s)) ∨
    (∃ row leaseEnd, s.held id worker attempt = some row ∧ moment.plus lease = some leaseEnd ∧
      s.heartbeat id worker attempt lease moment =
        (.ok true, s.amend [id] (beaten leaseEnd))) := by
  unfold heartbeat
  cases s.held id worker attempt with
  | none => exact Or.inl ⟨rfl, rfl⟩
  | some row =>
      cases moment.plus lease with
      | none => exact Or.inr (Or.inl ⟨rfl, rfl⟩)
      | some leaseEnd => exact Or.inr (Or.inr ⟨row, leaseEnd, rfl, rfl, rfl⟩)

/-! ## Claiming -/

theorem claimable_iff {queues : List String} {moment : Instant} {run : Run V} :
    claimable queues moment run = true ↔
      run.status = .pending ∧ run.queue ∈ queues ∧ run.dueAt ≤ moment := by
  simp [claimable]

theorem mem_ready {s : MemoryStore V} {queues : List String} {moment : Instant}
    {row : Row Nat V} :
    row ∈ s.ready queues moment ↔ row ∈ s.runs ∧ claimable queues moment row.toRun = true := by
  rw [ready, (List.perm_insertionSort _ _).mem_iff, List.mem_filter]

theorem ready_ids_nodup (s : MemoryStore V) (queues : List String) (moment : Instant) :
    ((s.ready queues moment).map (·.id)).Nodup := by
  have hperm := (List.perm_insertionSort (fun a b : Row Nat V => claimKey a ≤ claimKey b)
    (s.runs.filter (claimable queues moment ·.toRun))).map (·.id)
  rw [ready, hperm.nodup_iff]
  exact s.ids_nodup.sublist (List.filter_sublist.map _)

/-- The rows a claim ends up with: the first `limit` of what is ready. -/
def chosen (s : MemoryStore V) (queues : List String) (limit : Nat) (moment : Instant) :
    List (Row Nat V) :=
  (s.ready queues moment).take limit

theorem mem_chosen {s : MemoryStore V} {queues : List String} {limit : Nat} {moment : Instant}
    {row : Row Nat V} (h : row ∈ s.chosen queues limit moment) :
    s.get row.id = some row ∧ row.status = .pending ∧ row.queue ∈ queues ∧
      row.dueAt ≤ moment := by
  have hready := mem_ready.1 (List.mem_of_mem_take h)
  exact ⟨get_of_mem hready.1, claimable_iff.1 hready.2⟩

theorem chosen_ids_nodup (s : MemoryStore V) (queues : List String) (limit : Nat)
    (moment : Instant) : ((s.chosen queues limit moment).map (·.id)).Nodup :=
  (s.ready_ids_nodup queues moment).sublist ((List.take_sublist _ _).map _)

/-- A chosen row as the claim hands it out. -/
def handedOut (worker : String) (moment lease : Instant) (row : Row Nat V) : Row Nat V :=
  { row with toRun := claimed worker moment lease row.toRun }

/-- The loop, once the lease is known to be an instant: what it already took, and then the
first of what is left up to the limit. -/
theorem claimEach_of_plus (worker : String) (limit : Nat) {lease : Int}
    {moment leaseEnd : Instant} (hlease : moment.plus lease = some leaseEnd)
    (rows : List (Row Nat V)) (hrows : (rows.map (·.id)).Nodup) (s : MemoryStore V)
    (done : List (Row Nat V)) (hdone : done.length ≤ limit) :
    claimEach worker limit lease moment rows s done =
      (.ok (done ++ (rows.take (limit - done.length)).map (handedOut worker moment leaseEnd)),
        s.amend ((rows.take (limit - done.length)).map (·.id))
          (claimed worker moment leaseEnd)) := by
  induction rows generalizing s done with
  | nil => simp [claimEach]
  | cons row rest ih =>
      unfold claimEach
      by_cases hfull : done.length = limit
      · simp [hfull]
      · obtain ⟨n, hn⟩ : ∃ n, limit - done.length = n + 1 := ⟨limit - done.length - 1, by omega⟩
        have hrest : limit - (done ++ [handedOut worker moment leaseEnd row]).length = n := by
          simp only [List.length_append, List.length_singleton]
          omega
        simp only [List.map_cons, List.nodup_cons] at hrows
        have hout : row.id ∉ (rest.take n).map (·.id) := fun hm =>
          hrows.1 (((List.take_sublist n rest).map _).subset hm)
        have hstep := ih hrows.2 (s.amend [row.id] (claimed worker moment leaseEnd))
          (done ++ [handedOut worker moment leaseEnd row])
          (by simp only [List.length_append, List.length_singleton]; omega)
        rw [hrest, amend_cons _ _ hout] at hstep
        rw [if_neg hfull, hlease, hn]
        simpa [handedOut, List.append_assoc] using hstep

/-- A claim whose lease names an instant takes the first `limit` of what is ready. -/
theorem claim_of_plus (s : MemoryStore V) (worker : String) (queues : List String)
    (limit : Nat) {lease : Int} {moment leaseEnd : Instant}
    (hlease : moment.plus lease = some leaseEnd) :
    s.claim worker queues limit lease moment =
      (.ok ((s.chosen queues limit moment).map (handedOut worker moment leaseEnd)),
        s.amend ((s.chosen queues limit moment).map (·.id))
          (claimed worker moment leaseEnd)) := by
  have hnodup := (s.ready_ids_nodup queues moment).sublist
    ((List.take_sublist (limit * claimSpread) _).map _)
  unfold claim
  rw [claimEach_of_plus worker limit hlease _ hnodup s [] (Nat.zero_le _)]
  have hwindow : min limit (limit * claimSpread) = limit := by
    unfold claimSpread
    omega
  simp [chosen, List.take_take, hwindow]

/-- A claim whose lease names no instant marks the first row it wants as running and raises. -/
theorem claim_of_overflow (s : MemoryStore V) (worker : String) (queues : List String)
    (limit : Nat) {lease : Int} {moment : Instant} (hlease : moment.plus lease = none) :
    s.claim worker queues limit lease moment =
      match s.chosen queues limit moment with
      | [] => (.ok [], s)
      | row :: _ => (.error .dateValueOutOfRange, s.amend [row.id] (started worker moment)) := by
  unfold claim chosen
  cases hready : s.ready queues moment with
  | nil => simp [claimEach]
  | cons row rest =>
      cases limit with
      | zero => simp [claimEach]
      | succ n =>
          have hspread : (n + 1) * claimSpread = (n * claimSpread + 4) + 1 := by
            unfold claimSpread
            omega
          rw [hspread]
          simp [claimEach, hlease]

/-! ## Housekeeping -/

theorem cancel_cases (s : MemoryStore V) (id : Nat) (moment : Instant) :
    ((∀ row, s.get id = some row → row.status ≠ .pending) ∧ s.cancel id moment = (false, s)) ∨
    (∃ row, s.get id = some row ∧ row.status = .pending ∧
      s.cancel id moment = (true, s.amend [id] (calledOff moment))) := by
  unfold cancel
  cases hg : s.get id with
  | none => exact Or.inl ⟨fun _ h => by simp at h, rfl⟩
  | some row =>
      by_cases hp : row.status = .pending
      · exact Or.inr ⟨row, rfl, hp, by simp [Option.filter, hp]⟩
      · refine Or.inl ⟨fun other h => ?_, by simp [Option.filter, hp]⟩
        cases h
        exact hp

theorem expired_iff {moment : Instant} {run : Run V} :
    expired moment run = true ↔
      run.status = .running ∧ ∃ lease, run.leaseUntil = some lease ∧ lease < moment := by
  simp [expired, Option.any_eq_true]

theorem mem_abandoned {s : MemoryStore V} {moment : Instant} {row : Row Nat V}
    (h : row ∈ s.abandoned moment) :
    s.get row.id = some row ∧ expired moment row.toRun = true := by
  have hrow := List.mem_filter.mp (List.mem_of_mem_take h)
  exact ⟨get_of_mem hrow.1, hrow.2⟩

/-- A row reclaim names by its id is one whose lease had run out. -/
theorem abandoned_of_id {s : MemoryStore V} {moment : Instant} {id : Nat} {row : Row Nat V}
    (hrow : s.get id = some row) (h : id ∈ (s.abandoned moment).map (·.id)) :
    row.status = .running ∧ ∃ lease, row.leaseUntil = some lease ∧ lease < moment := by
  obtain ⟨other, hother, hid⟩ := List.mem_map.mp h
  have hget := mem_abandoned hother
  have heq : other = row := by
    rw [hid, hrow] at hget
    exact (Option.some.inj hget.1).symm
  exact expired_iff.1 (heq ▸ hget.2)

theorem isOver_iff {before : Instant} {run : Run V} :
    isOver before run = true ↔
      run.status.settled = true ∧ ∃ finish, run.finishedAt = some finish ∧ finish < before := by
  simp [isOver, Option.any_eq_true]

theorem mem_gone {s : MemoryStore V} {before : Instant} {limit : Nat} {row : Row Nat V}
    (h : row ∈ s.gone before limit) :
    s.get row.id = some row ∧ isOver before row.toRun = true := by
  have hrow := List.mem_filter.mp (List.mem_of_mem_take h)
  exact ⟨get_of_mem hrow.1, hrow.2⟩

end Queuefy.MemoryStore
