import Queuefy.Store.TableSpec

/-! # A claim that breaks

The claim of the SQL store, one round trip at a time. Each of them may go unanswered, a contention
is tried again, and other sessions commit statements of their own between any two of them. A row a
transaction has written stays locked until the transaction is over, so a statement of another
session does not reach it before then. A commit that is refused did not land.
-/

namespace Queuefy.Broken

open MemoryStore (claimed)

/-- Why a round trip was not answered: the contention innodb asks to be tried again for, another
error of the driver, or any other exception. -/
inductive Failure
  | contended | driver | other
deriving DecidableEq

/-- What a round trip meets: the statements of others that landed since the one before it, and what
it is refused with. -/
structure Trip (V : Type) where
  others : List (Statement V)
  refused : Option Failure

/-- A session: the table as committed, the row its open transaction has written, and the trips to
come. `moved` is history: the rows its commits wrote, each as it was found and as it was left. -/
structure Connection (V : Type) where
  table : Table V
  mine : Option (Row Nat V)
  trips : List (Trip V)
  moved : List (Row Nat V × Row Nat V)

variable {V : Type}

/-- What a statement of another session reaches while the row `mine` is locked. -/
def apart (mine : Option (Row Nat V)) : Statement V → Statement V
  | .update condition values =>
      .update (fun row => condition row && mine.all fun locked => locked.id ≠ row.id) values
  | .delete condition =>
      .delete fun row => condition row && mine.all fun locked => locked.id ≠ row.id
  | .insert id run => .insert id run

namespace Connection

def connect (table : Table V) (trips : List (Trip V)) : Connection V := ⟨table, none, trips, []⟩

/-- The next round trip; past the last one there is every one is answered. -/
def trip (c : Connection V) : Option Failure × Connection V :=
  match c.trips with
  | [] => (none, c)
  | next :: rest =>
      (next.refused,
        { c with
          table := next.others.foldl (fun table d => (Table.exec (apart c.mine d) table).2) c.table
          trips := rest })

/-- The conditional write of `take`, on the one row the primary key names. -/
def mark (worker : String) (moment lease : Instant) (id : Nat) (c : Connection V) :
    Nat × Connection V :=
  match (c.table.get id).filter fun row => row.status = .pending ∧ row.dueAt ≤ moment with
  | some row =>
      (1, { c with mine := some { row with toRun := claimed worker moment lease row.toRun } })
  | none => (0, c)

def commit (c : Connection V) : Connection V :=
  match c.mine with
  | none => c
  | some row =>
      { c with
        table := c.table.update (fun found => found.id = row.id) fun _ => row.toRun
        mine := none
        moved := c.moved ++ (c.table.get row.id).toList.map (·, row) }

def rollback (c : Connection V) : Connection V := { c with mine := none }

/-- Leaving the `try` of `once`: only an error of the driver is rolled back there. -/
def raised (failure : Failure) (c : Connection V) :
    Except Failure (Option (Row Nat V)) × Connection V :=
  match failure with
  | .contended | .driver => (.error failure, c.rollback)
  | .other => (.error failure, c)

end Connection

/-- The commit at the end of `once`. -/
def land (claimed : Option (Row Nat V)) (c : Connection V) :
    Except Failure (Option (Row Nat V)) × Connection V :=
  match c.trip with
  | (some failure, c) => c.raised failure
  | (none, c) => (.ok claimed, c.commit)

/-- The row is read back in the transaction that wrote it. -/
def readBack (c : Connection V) : Except Failure (Option (Row Nat V)) × Connection V :=
  match c.trip with
  | (some failure, c) => c.raised failure
  | (none, c) => land c.mine c

section Claim

variable (worker : String) (queues : List String) (limit : Nat) (lease : Int) (moment : Instant)

/-- The `once` of `take`. The lease is added up before anything is sent. -/
def once (id : Nat) (c : Connection V) : Except Failure (Option (Row Nat V)) × Connection V :=
  match moment.plus lease with
  | none => (.error .other, c)
  | some leaseEnd =>
      match c.trip with
      | (some failure, c) => c.raised failure
      | (none, c) =>
          match c.mark worker moment leaseEnd id with
          | (1, c) => readBack c
          | (_, c) => land none c

/-- Tries again what the database asks to be tried again, as often as it is told to. -/
def underContention {α : Type} (work : Connection V → Except Failure α × Connection V) :
    Nat → Connection V → Except Failure α × Connection V
  | 0, c => work c
  | again + 1, c =>
      match work c with
      | (.error .contended, c) => underContention work again c
      | answer => answer

def tries : Nat := 8

def take (id : Nat) : Connection V → Except Failure (Option (Row Nat V)) × Connection V :=
  underContention (once worker lease moment id) (tries - 1)

def claimEach : List Nat → List (Row Nat V) → Connection V →
    Except Failure (List (Row Nat V)) × Connection V
  | [], taken, c => (.ok taken, c)
  | id :: rest, taken, c =>
      if taken.length = limit then (.ok taken, c)
      else
        match take worker lease moment id c with
        | (.error failure, c) => if taken = [] then (.error failure, c) else (.ok taken, c)
        | (.ok none, c) => claimEach rest taken c
        | (.ok (some claimed), c) => claimEach rest (taken ++ [claimed]) c

/-- The claim, and the session closed behind it. -/
def claim (c : Connection V) : Except Failure (List (Row Nat V)) × Connection V :=
  match c.trip with
  | (some failure, c) => (.error failure, c.rollback)
  | (none, c) =>
      let (answer, c) := claimEach worker limit lease moment
        (SqlStore.candidates c.table queues limit moment) [] c
      (answer, c.rollback)

end Claim

/-! ## A locked row -/

/-- A row another session may not reach is as it was. -/
theorem get_apart {t : Table V} {mine : Option (Row Nat V)} {row found : Row Nat V}
    (hmine : mine = some row) (hget : t.get row.id = some found) (d : Statement V) :
    (Table.exec (apart mine d) t).2.get row.id = some found := by
  rw [Table.get_eq_some] at hget ⊢
  obtain ⟨hmem, hid⟩ := hget
  refine ⟨?_, hid⟩
  cases d with
  | update condition values =>
      apply List.mem_map.mpr
      refine ⟨found, hmem, if_neg ?_⟩
      simp [hmine, hid]
  | delete condition =>
      apply List.mem_filter.mpr
      simp [hmine, hid, hmem]
  | insert id run =>
      simp only [apart, Table.exec]
      split
      · exact List.mem_append_left _ hmem
      · exact hmem

namespace Connection

theorem trip_mine (c : Connection V) : c.trip.2.mine = c.mine := by
  unfold trip
  split <;> rfl

theorem trip_moved (c : Connection V) : c.trip.2.moved = c.moved := by
  unfold trip
  split <;> rfl

theorem trip_get {c : Connection V} {row found : Row Nat V} (hmine : c.mine = some row)
    (hget : c.table.get row.id = some found) : c.trip.2.table.get row.id = some found := by
  unfold trip
  split
  · exact hget
  · rename_i next rest _
    show (next.others.foldl _ c.table).get row.id = some found
    generalize c.table = table at hget
    induction next.others generalizing table with
    | nil => exact hget
    | cons d others ih => exact ih _ (get_apart hmine hget d)

end Connection

/-! ## One row -/

section Taking

variable (worker : String) (lease : Int) (moment : Instant)

/-- A row as it was found and as it was left: waiting, and taken with one attempt more. -/
def Moves (found left : Row Nat V) : Prop :=
  found.status = .pending ∧ ∃ leaseEnd, moment.plus lease = some leaseEnd ∧
    left = { found with toRun := claimed worker moment leaseEnd found.toRun }

/-- What one try at a row comes to: nothing moved, or that row alone. -/
def Tried (id : Nat) (c : Connection V) :
    Except Failure (Option (Row Nat V)) × Connection V → Prop
  | (.ok none, d) => d.mine = none ∧ d.moved = c.moved
  | (.ok (some row), d) => d.mine = none ∧ row.id = id ∧
      ∃ found, Moves worker lease moment found row ∧ d.moved = c.moved ++ [(found, row)]
  | (.error failure, d) => d.moved = c.moved ∧ (failure ≠ .other → d.mine = none)

variable {worker lease moment}

theorem raised_tried {id : Nat} {c d : Connection V} (h : d.moved = c.moved) (failure : Failure) :
    Tried worker lease moment id c (d.raised failure) := by
  cases failure with
  | contended => exact ⟨h, fun _ => rfl⟩
  | driver => exact ⟨h, fun _ => rfl⟩
  | other => exact ⟨h, fun hne => absurd rfl hne⟩

/-- A commit lands the row that is locked. -/
theorem land_tried {id : Nat} {c d : Connection V} {row found : Row Nat V}
    (hmoved : d.moved = c.moved) (hmine : d.mine = some row) (hget : d.table.get id = some found)
    (hid : row.id = id) (hmoves : Moves worker lease moment found row) :
    Tried worker lease moment id c (land d.mine d) := by
  unfold land
  have htrip := d.trip_mine
  have hkept := d.trip_moved
  have hfound := Connection.trip_get hmine (hid ▸ hget)
  split
  · rename_i failure e heq
    rw [heq] at hkept
    exact raised_tried (hkept.trans hmoved) failure
  · rename_i e heq
    rw [heq] at htrip hkept hfound
    replace htrip : e.mine = some row := htrip.trans hmine
    rw [hmine]
    refine ⟨?_, hid, found, hmoves, ?_⟩
    · simp only [Connection.commit, htrip]
    · replace hfound : e.table.get row.id = some found := hfound
      simp only [Connection.commit, htrip, hfound]
      rw [← hmoved, ← hkept]
      rfl

theorem readBack_tried {id : Nat} {c d : Connection V} {row found : Row Nat V}
    (hmoved : d.moved = c.moved) (hmine : d.mine = some row) (hget : d.table.get id = some found)
    (hid : row.id = id) (hmoves : Moves worker lease moment found row) :
    Tried worker lease moment id c (readBack d) := by
  unfold readBack
  have htrip := d.trip_mine
  have hkept := d.trip_moved
  have hfound := Connection.trip_get hmine (hid ▸ hget)
  split
  · rename_i failure e heq
    rw [heq] at hkept
    exact raised_tried (hkept.trans hmoved) failure
  · rename_i e heq
    rw [heq] at htrip hkept hfound
    exact land_tried (hkept.trans hmoved) (htrip.trans hmine) (hid ▸ hfound) hid hmoves

/-- A commit with nothing written lands nothing. -/
theorem land_none_tried {id : Nat} {c d : Connection V} (hmoved : d.moved = c.moved)
    (hmine : d.mine = none) : Tried worker lease moment id c (land none d) := by
  unfold land
  have htrip := d.trip_mine
  have hkept := d.trip_moved
  split
  · rename_i failure e heq
    rw [heq] at hkept
    exact raised_tried (hkept.trans hmoved) failure
  · rename_i e heq
    rw [heq] at htrip hkept
    replace htrip : e.mine = none := htrip.trans hmine
    refine ⟨?_, ?_⟩
    · simp only [Connection.commit, htrip]
    · simp only [Connection.commit, htrip]
      exact hkept.trans hmoved

theorem once_tried {c : Connection V} (hmine : c.mine = none) (id : Nat) :
    Tried worker lease moment id c (once worker lease moment id c) := by
  unfold once
  split
  · exact ⟨rfl, fun _ => hmine⟩
  · rename_i leaseEnd hlease
    have htrip := c.trip_mine
    have hkept := c.trip_moved
    split
    · rename_i failure d heq
      rw [heq] at hkept
      exact raised_tried hkept failure
    · rename_i d heq
      rw [heq] at htrip hkept
      replace htrip : d.mine = none := htrip.trans hmine
      replace hkept : d.moved = c.moved := hkept
      unfold Connection.mark
      cases hfound : (d.table.get id).filter fun row =>
        row.status = .pending ∧ row.dueAt ≤ moment with
      | none => exact land_none_tried hkept htrip
      | some found =>
          obtain ⟨hget, hcond⟩ := Option.filter_eq_some_iff.mp hfound
          have hpending : found.status = .pending := (of_decide_eq_true hcond).1
          have hid : found.id = id := (Table.get_eq_some.1 hget).2
          exact readBack_tried hkept rfl hget hid ⟨hpending, leaseEnd, hlease, rfl⟩

/-- Trying again leaves nothing of the tries before. -/
theorem underContention_tried {id : Nat}
    {work : Connection V → Except Failure (Option (Row Nat V)) × Connection V}
    (hwork : ∀ c, c.mine = none → Tried worker lease moment id c (work c)) (again : Nat)
    {c : Connection V} (hmine : c.mine = none) :
    Tried worker lease moment id c (underContention work again c) := by
  induction again generalizing c with
  | zero => exact hwork c hmine
  | succ again ih =>
      have h := hwork c hmine
      unfold underContention
      split
      · rename_i d heq
        rw [heq] at h
        have hagain := ih (h.2 (by decide))
        unfold Tried at hagain ⊢
        rw [← h.1]
        exact hagain
      · exact h

theorem take_tried {c : Connection V} (hmine : c.mine = none) (id : Nat) :
    Tried worker lease moment id c (take worker lease moment id c) :=
  underContention_tried (fun _ h => once_tried h id) (tries - 1) hmine

/-! ## The batch -/

/-- What a claim answers and what it moved. -/
def Answered (worker : String) (lease : Int) (moment : Instant) :
    Except Failure (List (Row Nat V)) × Connection V → Prop
  | (.ok rows, d) => d.moved.map (·.2) = rows ∧ (rows.map (·.id)).Nodup ∧
      ∀ m ∈ d.moved, Moves worker lease moment m.1 m.2
  | (.error _, d) => d.moved = []

theorem claimEach_answered {limit : Nat} {ids : List Nat} {taken : List (Row Nat V)}
    {c : Connection V} (hmine : c.mine = none) (hmoved : c.moved.map (·.2) = taken)
    (hids : (taken.map (·.id) ++ ids).Nodup)
    (hmoves : ∀ m ∈ c.moved, Moves worker lease moment m.1 m.2) :
    Answered worker lease moment (claimEach worker limit lease moment ids taken c) := by
  induction ids generalizing taken c with
  | nil => exact ⟨hmoved, by simpa using hids, hmoves⟩
  | cons id rest ih =>
      have hnodup : (taken.map (·.id)).Nodup := (List.nodup_append.mp hids).1
      rw [claimEach]
      split
      · exact ⟨hmoved, hnodup, hmoves⟩
      · have htried : Tried worker lease moment id c (take worker lease moment id c) :=
          take_tried hmine id
        split
        · rename_i failure d heq
          rw [heq] at htried
          split
          · rename_i hnone
            subst hnone
            exact htried.1.trans (List.map_eq_nil_iff.mp hmoved)
          · refine ⟨?_, hnodup, ?_⟩
            · rw [htried.1, hmoved]
            · rw [htried.1]
              exact hmoves
        · rename_i d heq
          rw [heq] at htried
          obtain ⟨hfree, hkept⟩ := htried
          apply ih hfree
          · rw [hkept, hmoved]
          · exact hids.sublist ((List.sublist_cons_self id rest).append_left _)
          · rw [hkept]
            exact hmoves
        · rename_i row d heq
          rw [heq] at htried
          obtain ⟨hfree, hid, found, hfound, hkept⟩ := htried
          apply ih hfree
          · rw [hkept, List.map_append, hmoved]
            rfl
          · rw [List.map_append, List.append_assoc, List.map_singleton, hid]
            exact hids
          · intro m hm
            rw [hkept] at hm
            rcases List.mem_append.mp hm with hold | hnew
            · exact hmoves m hold
            · obtain rfl := List.mem_singleton.mp hnew
              exact hfound

end Taking

theorem candidates_nodup (t : Table V) (queues : List String) (limit : Nat) (moment : Instant) :
    (SqlStore.candidates t queues limit moment).Nodup := by
  unfold SqlStore.candidates
  apply List.Nodup.sublist (List.take_sublist _ _)
  apply ((List.perm_insertionSort _ _).map _).nodup_iff.2
  exact t.primary.sublist (List.filter_sublist.map _)

theorem Answered.rollback {worker : String} {lease : Int} {moment : Instant}
    {r : Except Failure (List (Row Nat V)) × Connection V} (h : Answered worker lease moment r) :
    Answered worker lease moment (r.1, r.2.rollback) := by
  obtain ⟨answer, d⟩ := r
  cases answer with
  | error failure => exact h
  | ok rows => exact h

theorem claim_answered (worker : String) (queues : List String) (limit : Nat) (lease : Int)
    (moment : Instant) (t : Table V) (trips : List (Trip V)) :
    Answered worker lease moment
      (claim worker queues limit lease moment (.connect t trips)) := by
  have hmine := (Connection.connect t trips).trip_mine
  have hmoved := (Connection.connect t trips).trip_moved
  unfold claim
  split
  · rename_i failure d heq
    rw [heq] at hmoved
    exact hmoved
  · rename_i c heq
    rw [heq] at hmine hmoved
    replace hmoved : c.moved = [] := hmoved
    apply Answered.rollback
    apply claimEach_answered hmine
    · rw [hmoved]
      rfl
    · exact candidates_nodup c.table queues limit moment
    · rw [hmoved]
      exact fun m hm => absurd hm List.not_mem_nil

/-- However its round trips are refused and whatever other sessions do between them, a claim answers
with exactly the rows its commits moved to running, each once and one attempt further; and a claim
that raises moved none. -/
theorem broken_claim_answers (worker : String) (queues : List String) (limit : Nat) (lease : Int)
    (moment : Instant) (t : Table V) (trips : List (Trip V)) :
    match claim worker queues limit lease moment (.connect t trips) with
    | (.ok rows, d) => d.moved.map (·.2) = rows ∧ (rows.map (·.id)).Nodup ∧
        ∀ m ∈ d.moved, m.2.id = m.1.id ∧ m.1.status = .pending ∧ m.2.status = .running ∧
          m.2.worker = some worker ∧ m.2.attempts = m.1.attempts + 1
    | (.error _, d) => d.moved = [] := by
  have h := claim_answered worker queues limit lease moment t trips
  generalize claim worker queues limit lease moment (.connect t trips) = r at h
  obtain ⟨answer, d⟩ := r
  cases answer with
  | error failure => exact h
  | ok rows =>
      obtain ⟨hmoved, hnodup, hmoves⟩ := h
      refine ⟨hmoved, hnodup, fun m hm => ?_⟩
      obtain ⟨hpending, leaseEnd, -, hleft⟩ := hmoves m hm
      rw [hleft]
      exact ⟨rfl, hpending, rfl, rfl, rfl⟩

/-! ## A session with the table to itself -/

/-- The commits of a session, written one after another. -/
def replay (t : Table V) (moved : List (Row Nat V × Row Nat V)) : Table V :=
  moved.foldl (fun t m => t.update (fun row => row.id = m.2.id) fun _ => m.2.toRun) t

/-- Nobody else writes, and the table is what the commits so far make of `t`. -/
def Alone (t : Table V) (c : Connection V) : Prop :=
  (∀ trip ∈ c.trips, trip.others = []) ∧ c.table = replay t c.moved

namespace Alone

variable {t : Table V} {c : Connection V}

theorem trip (h : Alone t c) : Alone t c.trip.2 := by
  unfold Connection.trip
  split
  · exact h
  · rename_i next rest heq
    obtain ⟨hnext, hrest⟩ := List.forall_mem_cons.mp (heq ▸ h.1)
    refine ⟨hrest, ?_⟩
    rw [hnext]
    exact h.2

theorem commit (h : Alone t c) : Alone t c.commit := by
  unfold Connection.commit
  split
  · exact h
  · rename_i row _
    refine ⟨h.1, ?_⟩
    cases hget : c.table.get row.id with
    | none =>
        rw [Option.toList_none, List.map_nil, List.append_nil, ← h.2]
        apply Table.update_of_none
        intro found hfound
        simpa using List.find?_eq_none.mp hget found hfound
    | some found =>
        rw [Option.toList_some, List.map_singleton]
        unfold replay
        rw [List.foldl_append, List.foldl_cons, List.foldl_nil]
        show _ = Table.update (replay t c.moved) _ _
        rw [← h.2]

theorem raised (h : Alone t c) (failure : Failure) : Alone t (c.raised failure).2 := by
  cases failure with
  | contended => exact h
  | driver => exact h
  | other => exact h

theorem land (h : Alone t c) (row : Option (Row Nat V)) : Alone t (land row c).2 := by
  have htrip := h.trip
  unfold Broken.land
  split
  · rename_i failure d heq
    rw [heq] at htrip
    exact htrip.raised failure
  · rename_i d heq
    rw [heq] at htrip
    exact htrip.commit

theorem readBack (h : Alone t c) : Alone t (readBack c).2 := by
  have htrip := h.trip
  unfold Broken.readBack
  split
  · rename_i failure d heq
    rw [heq] at htrip
    exact htrip.raised failure
  · rename_i d heq
    rw [heq] at htrip
    exact htrip.land d.mine

theorem once (h : Alone t c) (worker : String) (lease : Int) (moment : Instant) (id : Nat) :
    Alone t (once worker lease moment id c).2 := by
  have htrip := h.trip
  unfold Broken.once
  split
  · exact h
  · split
    · rename_i failure d heq
      rw [heq] at htrip
      exact htrip.raised failure
    · rename_i d heq
      rw [heq] at htrip
      unfold Connection.mark
      cases (d.table.get id).filter fun row => row.status = .pending ∧ row.dueAt ≤ moment with
      | none => exact htrip.land none
      | some row =>
          apply readBack
          exact htrip

theorem underContention {α : Type} {work : Connection V → Except Failure α × Connection V}
    (hwork : ∀ c, Alone t c → Alone t (work c).2) (again : Nat) (h : Alone t c) :
    Alone t (underContention work again c).2 := by
  induction again generalizing c with
  | zero => exact hwork c h
  | succ again ih =>
      have hafter := hwork c h
      unfold Broken.underContention
      split
      · rename_i d heq
        rw [heq] at hafter
        exact ih hafter
      · exact hafter

theorem claimEach (worker : String) (limit : Nat) (lease : Int) (moment : Instant)
    (ids : List Nat) (taken : List (Row Nat V)) (h : Alone t c) :
    Alone t (claimEach worker limit lease moment ids taken c).2 := by
  induction ids generalizing taken c with
  | nil => exact h
  | cons id rest ih =>
      have htake : Alone t (take worker lease moment id c).2 :=
        underContention (fun _ h => h.once worker lease moment id) (tries - 1) h
      rw [Broken.claimEach]
      split
      · exact h
      · split
        · rename_i heq
          rw [heq] at htake
          split
          · exact htake
          · exact htake
        · rename_i heq
          rw [heq] at htake
          exact ih _ htake
        · rename_i heq
          rw [heq] at htake
          exact ih _ htake

end Alone

/-- Where nobody else writes, the table a claim leaves is the one it found with the rows it answers
written into it; one that raises leaves it as it was. -/
theorem claim_alone (worker : String) (queues : List String) (limit : Nat) (lease : Int)
    (moment : Instant) (t : Table V) {trips : List (Trip V)}
    (halone : ∀ trip ∈ trips, trip.others = []) :
    (claim worker queues limit lease moment (.connect t trips)).2.table =
      replay t (claim worker queues limit lease moment (.connect t trips)).2.moved := by
  have hstart : Alone t (Connection.connect t trips) := ⟨halone, rfl⟩
  have htrip := hstart.trip
  suffices h : Alone t (claim worker queues limit lease moment (.connect t trips)).2 from h.2
  unfold claim
  split
  · rename_i heq
    rw [heq] at htrip
    exact htrip
  · rename_i c heq
    rw [heq] at htrip
    exact htrip.claimEach worker limit lease moment _ []

/-! ## A claim nothing breaks -/

theorem trip_nil {c : Connection V} (h : c.trips = []) : c.trip = (none, c) := by
  unfold Connection.trip
  rw [h]

/-- Writing the one row a statement matches is the statement. -/
theorem update_found {t : Table V} {condition : Condition V} {values : Run V → Run V}
    {found : Row Nat V} (honly : ∀ row, condition row → row.id = found.id)
    (hget : t.get found.id = some found) (hcond : condition found = true) :
    t.update condition values =
      t.update (fun row => row.id = found.id) fun _ => values found.toRun := by
  have hrows : ∀ row ∈ t.rows, Table.written condition values row =
      Table.written (fun row => row.id = found.id) (fun _ => values found.toRun) row := by
    intro row hrow
    by_cases hid : row.id = found.id
    · have hsame : t.get row.id = some row := Table.get_eq_some.2 ⟨hrow, rfl⟩
      rw [hid, hget] at hsame
      cases hsame
      simp [Table.written, hcond]
    · have hnot : condition row = false := by
        by_contra h
        exact hid (honly row (by simpa using h))
      simp [Table.written, hnot, hid]
  unfold Table.update
  simp only [Table.mk.injEq]
  exact List.map_congr_left hrows

/-- One try at a row that nothing refuses is the statement that takes it. -/
theorem once_unbroken {worker : String} {lease : Int} {moment leaseEnd : Instant}
    (hlease : moment.plus lease = some leaseEnd) (id : Nat) {c : Connection V}
    (htrips : c.trips = []) (hmine : c.mine = none) : ∃ d,
    once worker lease moment id c =
      (.ok (Table.exec (SqlStore.take worker moment leaseEnd id) c.table).1.head?, d) ∧
    d.trips = [] ∧ d.mine = none ∧
    d.table = (Table.exec (SqlStore.take worker moment leaseEnd id) c.table).2 ∧
    (Table.exec (SqlStore.take worker moment leaseEnd id) c.table).1.length ≤ 1 := by
  have honly : ∀ row : Row Nat V,
      decide (row.id = id ∧ row.status = .pending ∧ row.dueAt ≤ moment) = true → row.id = id :=
    fun row h => (of_decide_eq_true h).1
  unfold once
  simp only [hlease, trip_nil htrips, Connection.mark]
  cases hfound : (c.table.get id).filter fun row => row.status = .pending ∧ row.dueAt ≤ moment with
  | none =>
      have hnone : ∀ row ∈ c.table.rows,
          decide (row.id = id ∧ row.status = .pending ∧ row.dueAt ≤ moment) = false := by
        intro row hrow
        by_contra h
        have hcond := of_decide_eq_true (by simpa only [Bool.not_eq_false] using h)
        rw [Table.get_eq_some.2 ⟨hrow, hcond.1⟩, Option.filter_some,
          if_pos (decide_eq_true hcond.2)] at hfound
        cases hfound
      have hexec :
          Table.exec (SqlStore.take worker moment leaseEnd id) c.table = ([], c.table) := by
        have hfilter : c.table.rows.filter
            (fun row => row.id = id ∧ row.status = .pending ∧ row.dueAt ≤ moment) = [] :=
          List.filter_eq_nil_iff.mpr fun row hrow => by simpa using hnone row hrow
        simp only [SqlStore.take, Table.exec, hfilter, List.map_nil, Table.update_of_none _ hnone]
      refine ⟨c, ?_, htrips, hmine, ?_, ?_⟩
      · simp only [land, trip_nil htrips, Connection.commit, hmine, hexec, List.head?_nil]
      · rw [hexec]
      · rw [hexec]
        exact Nat.zero_le 1
  | some found =>
      obtain ⟨hget, hcond⟩ := Option.filter_eq_some_iff.mp hfound
      obtain rfl : found.id = id := (Table.get_eq_some.1 hget).2
      have hmatch : decide (found.id = found.id ∧ found.status = .pending ∧
          found.dueAt ≤ moment) = true := decide_eq_true ⟨rfl, of_decide_eq_true hcond⟩
      have hrows : (Table.exec (SqlStore.take worker moment leaseEnd found.id) c.table).1 =
          [⟨claimed worker moment leaseEnd found.toRun, found.id⟩] := by
        rcases c.table.update_one _ (claimed worker moment leaseEnd) honly with
          ⟨run, hrun, -, hone⟩ | ⟨hnone, -⟩
        · rw [Table.runs, hget] at hrun
          cases hrun
          exact hone
        · rw [hnone found.toRun (by rw [Table.runs, hget]; rfl)] at hmatch
          cases hmatch
      refine ⟨{ c with
        table := c.table.update (fun row => row.id = found.id) fun _ =>
          claimed worker moment leaseEnd found.toRun
        moved := c.moved ++
          [(found, ⟨claimed worker moment leaseEnd found.toRun, found.id⟩)] }, ?_, htrips, hmine,
        ?_, ?_⟩
      · rw [hrows]
        simp only [readBack, land, trip_nil, htrips, Connection.commit, hget, List.head?_cons,
          Option.toList_some, List.map_singleton, hmine]
      · exact (update_found honly hget hmatch).symm
      · rw [hrows]
        exact Nat.le_refl 1

theorem claimEach_unbroken {worker : String} {limit : Nat} {lease : Int}
    {moment leaseEnd : Instant} (hlease : moment.plus lease = some leaseEnd) {ids : List Nat}
    {taken : List (Row Nat V)} {c : Connection V} (htrips : c.trips = []) (hmine : c.mine = none) :
    (claimEach worker limit lease moment ids taken c).1 =
        .ok ((SqlStore.takeEach worker limit moment leaseEnd ids taken).run Table.exec c.table).1 ∧
      (claimEach worker limit lease moment ids taken c).2.table =
        ((SqlStore.takeEach worker limit moment leaseEnd ids taken).run Table.exec c.table).2 := by
  induction ids generalizing taken c with
  | nil => exact ⟨rfl, rfl⟩
  | cons id rest ih =>
      rw [claimEach, SqlStore.takeEach]
      split
      · exact ⟨rfl, rfl⟩
      · obtain ⟨d, honce, htripsd, hmined, htable, hlen⟩ :=
          @once_unbroken V worker lease moment leaseEnd hlease id c htrips hmine
        have htake : take worker lease moment id c = (.ok
            (Table.exec (SqlStore.take worker moment leaseEnd id) c.table).1.head?, d) := by
          show underContention (once worker lease moment id) 7 c = _
          rw [underContention, honce]
        rw [htake, Prog.run, ← htable]
        cases hrows : (Table.exec (SqlStore.take worker moment leaseEnd id) c.table).1 with
        | nil => exact ih htripsd hmined
        | cons row others =>
            rw [hrows, List.length_cons] at hlen
            obtain rfl : others = [] := List.eq_nil_of_length_eq_zero (by omega)
            exact ih htripsd hmined

/-- A claim nothing refuses, with the table to itself, is the claim of the store. -/
theorem claim_unbroken (worker : String) (queues : List String) (limit : Nat) {lease : Int}
    {moment leaseEnd : Instant} (hlease : moment.plus lease = some leaseEnd) (t : Table V) :
    ((claim worker queues limit lease moment (.connect t [])).1.toOption,
        (claim worker queues limit lease moment (.connect t [])).2.table) =
      (((SqlStore.claim worker queues limit lease moment).run Table.exec t).1.toOption,
        ((SqlStore.claim worker queues limit lease moment).run Table.exec t).2) := by
  obtain ⟨hanswer, htable⟩ := @claimEach_unbroken V worker limit lease moment leaseEnd hlease
    (SqlStore.candidates t queues limit moment) [] (Connection.connect t []) rfl rfl
  unfold claim SqlStore.claim
  simp only [Connection.trip, Connection.connect, Prog.run, hlease, Prog.run_map] at *
  rw [hanswer]
  exact Prod.ext rfl htable

end Queuefy.Broken
