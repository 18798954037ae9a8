import Queuefy.Store.Broken
import Queuefy.Store.Life

/-! # Calls that break

The other writes of the SQL store, one round trip at a time. A call does all it does in one
transaction of its own session: what it has written is seen by itself and locked for the others,
lands when it commits, and is gone when anything before that is refused. Only then, and only for a
contention, is all of it tried again. A commit that is refused did not land.
-/

namespace Queuefy.Torn

open Broken (Failure tries)
open SqlStore (Session session)
open Prog (Comes)

variable {V α : Type}

/-- What a round trip meets: the statements of others that landed since the one before it, what it
is refused with, and the table a select reads where that is an older one. -/
structure Trip (V : Type) where
  others : List (Statement V)
  refused : Option Failure
  stale : Option (Table V)

/-- What became of one run: the run a table held, and the one it holds after. -/
structure Change (V : Type) where
  id : Nat
  found : Option (Run V)
  left : Option (Run V)

/-- What a statement changes of the table it is run on. -/
def changes : Statement V → Table V → List (Change V)
  | .update condition values, t =>
      (t.rows.filter condition).map fun row => ⟨row.id, some row.toRun, some (values row.toRun)⟩
  | .delete condition, t => (t.rows.filter condition).map fun row => ⟨row.id, some row.toRun, none⟩
  | .insert id run, t => if t.refuses id run then [] else [⟨id, none, some run⟩]

/-- A session: the table as committed, the table as the open transaction sees it, the ids it has
locked, and the trips to come. `moved` is history: what its commits changed of the table. -/
structure Link (V : Type) where
  table : Table V
  view : Table V
  locked : List Nat
  trips : List (Trip V)
  moved : List (Change V)

namespace Link

def connect (t : Table V) (trips : List (Trip V)) : Link V := ⟨t, t, [], trips, []⟩

/-- What a statement of another session reaches while some rows are locked. A run it may not write
beside the ones of this session waits for the end of it. -/
def apart (c : Link V) : Statement V → Statement V
  | .update condition values => .update (fun row => condition row && row.id ∉ c.locked) values
  | .delete condition => .delete fun row => condition row && row.id ∉ c.locked
  | .insert id run =>
      if id ∈ c.locked ∨ c.table.refuses id run ∨ c.view.refuses id run then .delete fun _ => false
      else .insert id run

def other (c : Link V) (d : Statement V) : Link V :=
  { c with
    table := (Table.exec (c.apart d) c.table).2
    view := (Table.exec (c.apart d) c.view).2 }

/-- The next round trip; past the last one there is every one is answered. -/
def trip (c : Link V) : Except Failure (Option (Table V)) × Link V :=
  match c.trips with
  | [] => (.ok none, c)
  | next :: rest =>
      let met := { next.others.foldl other c with trips := rest }
      match next.refused with
      | some failure => (.error failure, met)
      | none => (.ok next.stale, met)

def wrote (c : Link V) (d : Statement V) : Link V :=
  { c with
    view := (Table.exec d c.view).2
    locked := c.locked ++ (changes d c.view).map (·.id) }

def commit (c : Link V) : Link V :=
  { c with
    table := c.view
    locked := []
    moved := c.moved ++ c.locked.map fun id => ⟨id, c.table.runs id, c.view.runs id⟩ }

/-- Leaving the session with its transaction still open. -/
def close (c : Link V) : Link V := { c with view := c.table, locked := [] }

end Link

/-- One try of a call. `due` says that it is going to commit: what was sent to write always is. An
insert that is refused for a key that is taken is rolled back and answers for that, and for any
other one is raised. -/
def attempt (due : Bool) : Session V α → Link V → Except Failure α × Link V
  | .done a, c =>
      if due then
        match c.trip with
        | (.error failure, c) => (.error failure, c.close)
        | (.ok _, c) => (.ok a, c.commit)
      else (.ok a, c.close)
  | .read next, c =>
      match c.trip with
      | (.error failure, c) => (.error failure, c.close)
      | (.ok stale, c) => attempt due (next (stale.getD c.view)) c
  | .write d next, c =>
      match c.trip with
      | (.error failure, c) => (.error failure, c.close)
      | (.ok _, c) =>
          match d with
          | .insert id run =>
              if c.view.refuses id run then
                if run.key.isSome then attempt false (next []) c.close
                else (.error .driver, c.close)
              else attempt true (next (Table.exec d c.view).1) (c.wrote d)
          | .update .. | .delete .. => attempt true (next (Table.exec d c.view).1) (c.wrote d)

/-- Tries again what the database asks to be tried again, as often as it is told to. -/
def underContention (work : Nat → Link V → Except Failure α × Link V) :
    Nat → Link V → Except Failure α × Link V
  | 0, c => work 0 c
  | again + 1, c =>
      match work (again + 1) c with
      | (.error .contended, c) => underContention work again c
      | answer => answer

/-- A call of the store other than a claim. `ids` are the ids the database hands out, one to each
try; a sweep commits even where it wrote nothing, and what only reads is not tried again. -/
def call (ids : Nat → Nat) (q : Request Nat V) (c : Link V) :
    Except Failure (Answer Nat V) × Link V :=
  match q with
  | .find _ | .get _ => attempt false (session (ids 0) q) c
  | .reclaim _ => underContention (fun n => attempt true (session (ids n) q)) (tries - 1) c
  | _ => underContention (fun n => attempt false (session (ids n) q)) (tries - 1) c

/-! ## What a statement changes -/

section

variable {d : Statement V} {t : Table V}

theorem changes_ids_nodup (d : Statement V) (t : Table V) :
    ((changes d t).map (·.id)).Nodup := by
  cases d with
  | update condition values =>
      simp only [changes, List.map_map, Function.comp_def]
      exact t.primary.sublist (List.filter_sublist.map _)
  | delete condition =>
      simp only [changes, List.map_map, Function.comp_def]
      exact t.primary.sublist (List.filter_sublist.map _)
  | insert id run =>
      simp only [changes]
      split <;> simp

theorem length_changes (d : Statement V) (t : Table V) :
    (changes d t).length = (Table.exec d t).1.length := by
  cases d with
  | update condition values => simp [changes, Table.exec]
  | delete condition => simp [changes, Table.exec]
  | insert id run =>
      by_cases h : t.refuses id run = false
      · simp [changes, Table.exec, h]
      · simp [changes, Table.exec, h]

/-- A change is what the table held of a run, and what it holds of it after. -/
theorem changes_spec {m : Change V} (hm : m ∈ changes d t) :
    t.runs m.id = m.found ∧ (Table.exec d t).2.runs m.id = m.left := by
  cases d with
  | update condition values =>
      obtain ⟨row, hrow, rfl⟩ := List.mem_map.1 hm
      obtain ⟨hmem, hcond⟩ := List.mem_filter.1 hrow
      have hruns := Table.runs_of_mem hmem
      refine ⟨hruns, ?_⟩
      rw [Table.exec, Table.runs_update hruns, if_pos hcond]
  | delete condition =>
      obtain ⟨row, hrow, rfl⟩ := List.mem_map.1 hm
      obtain ⟨hmem, hcond⟩ := List.mem_filter.1 hrow
      have hruns := Table.runs_of_mem hmem
      refine ⟨hruns, ?_⟩
      rw [Table.exec, Option.eq_none_iff_forall_ne_some]
      intro run hrun
      obtain ⟨hold, hnot⟩ := Table.runs_delete.1 hrun
      rw [hruns] at hold
      cases hold
      rw [hcond] at hnot
      cases hnot
  | insert id run =>
      simp only [changes] at hm
      split at hm
      · cases hm
      · rename_i hfree
        have hfree : t.refuses id run = false := by simpa using hfree
        obtain rfl := List.mem_singleton.1 hm
        obtain ⟨hnone, hruns⟩ := Table.runs_insert hfree
        refine ⟨hnone, ?_⟩
        simp only [Table.exec, dif_pos hfree, hruns, Function.update_self]

/-- The runs of other ids are as they were. -/
theorem exec_runs_of_not_mem {i : Nat} (hi : i ∉ (changes d t).map (·.id)) :
    (Table.exec d t).2.runs i = t.runs i := by
  cases d with
  | update condition values =>
      cases hrun : t.runs i with
      | none => exact Table.runs_update_none hrun
      | some run =>
          rw [Table.exec, Table.runs_update hrun, if_neg]
          intro hcond
          apply hi
          have hmem := Table.runs_eq_some.1 hrun
          simp only [changes, List.map_map, List.mem_map, List.mem_filter, Function.comp_apply]
          exact ⟨_, ⟨hmem, hcond⟩, rfl⟩
  | delete condition =>
      apply Option.ext
      intro run
      rw [Table.exec, Table.runs_delete]
      constructor
      · exact fun h => h.1
      · intro hrun
        refine ⟨hrun, ?_⟩
        by_contra hcond
        apply hi
        have hmem := Table.runs_eq_some.1 hrun
        simp only [changes, List.map_map, List.mem_map, List.mem_filter, Function.comp_apply]
        exact ⟨_, ⟨hmem, by simpa using hcond⟩, rfl⟩
  | insert id run =>
      simp only [changes] at hi
      split at hi
      · rename_i hrefused
        simp [Table.exec, hrefused]
      · rename_i hfree
        have hfree : t.refuses id run = false := by simpa using hfree
        simp only [List.map_cons, List.map_nil, List.mem_singleton] at hi
        simp only [Table.exec, dif_pos hfree, (Table.runs_insert hfree).2, Function.update_of_ne hi]

end

theorem runs_update_map (t : Table V) (condition : Condition V) (values : Run V → Run V) (i : Nat) :
    (t.update condition values).runs i =
      (t.runs i).map fun run => if condition ⟨run, i⟩ then values run else run := by
  cases hrun : t.runs i with
  | none => exact Table.runs_update_none hrun
  | some run => exact Table.runs_update hrun

theorem runs_delete_filter (t : Table V) (condition : Condition V) (i : Nat) :
    (t.delete condition).runs i = (t.runs i).filter fun run => !condition ⟨run, i⟩ := by
  apply Option.ext
  intro run
  rw [Table.runs_delete, Option.filter_eq_some_iff]
  simp

/-- What becomes of a run is told from that run alone, where no insert is refused. -/
theorem exec_runs_congr {d : Statement V} {t u : Table V} {i : Nat} (h : t.runs i = u.runs i)
    (hinsert : ∀ id run, d = .insert id run →
      t.refuses id run = false ∧ u.refuses id run = false) :
    (Table.exec d t).2.runs i = (Table.exec d u).2.runs i := by
  cases d with
  | update condition values => simp only [Table.exec, runs_update_map, h]
  | delete condition => simp only [Table.exec, runs_delete_filter, h]
  | insert id run =>
      obtain ⟨ht, hu⟩ := hinsert id run rfl
      simp only [Table.exec, dif_pos ht, dif_pos hu, (Table.runs_insert ht).2,
        (Table.runs_insert hu).2]
      by_cases hi : i = id
      · subst hi
        simp only [Function.update_self]
      · simp only [Function.update_of_ne hi, h]

theorem Link.apart_insert (c : Link V) {d : Statement V} {id : Nat} {run : Run V}
    (h : c.apart d = .insert id run) :
    c.view.refuses id run = false ∧ c.table.refuses id run = false := by
  cases d with
  | update | delete => cases h
  | insert id' run' =>
      unfold apart at h
      dsimp only at h
      split at h
      · cases h
      · rename_i hfree
        cases h
        push Not at hfree
        exact ⟨by simpa using hfree.2.2, by simpa using hfree.2.1⟩

/-! ## What an open transaction holds -/

/-- All that some statements changed, each of the table it was run on. -/
def done (ws : List (Statement V × Table V)) : List (Change V) :=
  ws.flatMap fun w => changes w.1 w.2

theorem done_snoc (ws : List (Statement V × Table V)) (d : Statement V) (t : Table V) :
    done (ws ++ [(d, t)]) = done ws ++ changes d t := by
  simp [done]

/-- The transaction sees the table as committed but for the rows it has locked, which are the ones
its statements changed, each once and still as they were found and left. -/
structure Open (c : Link V) (ws : List (Statement V × Table V)) : Prop where
  apart : ∀ i ∉ c.locked, c.view.runs i = c.table.runs i
  ids : c.locked = (done ws).map (·.id)
  once : c.locked.Nodup
  found : ∀ m ∈ done ws, c.table.runs m.id = m.found ∧ c.view.runs m.id = m.left

namespace Open

variable {c : Link V} {ws : List (Statement V × Table V)}

theorem close (c : Link V) (h : done ws = []) : Open c.close ws :=
  ⟨fun _ _ => rfl, by rw [h]; rfl, List.nodup_nil, fun m hm => by rw [h] at hm; cases hm⟩

/-- A statement of another session changes no locked row. -/
theorem unlocked (c : Link V) (d : Statement V) (t : Table V) {i : Nat}
    (hi : i ∈ (changes (c.apart d) t).map (·.id)) : i ∉ c.locked := by
  cases d with
  | update condition values =>
      simp only [Link.apart, changes, List.map_map, List.mem_map, List.mem_filter] at hi
      obtain ⟨row, ⟨-, hcond⟩, rfl⟩ := hi
      simp only [Bool.and_eq_true, decide_eq_true_eq] at hcond
      exact hcond.2
  | delete condition =>
      simp only [Link.apart, changes, List.map_map, List.mem_map, List.mem_filter] at hi
      obtain ⟨row, ⟨-, hcond⟩, rfl⟩ := hi
      simp only [Bool.and_eq_true, decide_eq_true_eq] at hcond
      exact hcond.2
  | insert id run =>
      simp only [Link.apart] at hi
      split at hi
      · simp [changes] at hi
      · rename_i hfree
        push Not at hfree
        simp only [changes] at hi
        split at hi
        · cases hi
        · rw [List.map_singleton, List.mem_singleton] at hi
          exact hi ▸ hfree.1

theorem other (h : Open c ws) (d : Statement V) : Open (c.other d) ws := by
  have hlocked : ∀ i ∈ c.locked, ∀ t, (Table.exec (c.apart d) t).2.runs i = t.runs i :=
    fun i hi t => exec_runs_of_not_mem fun hmem => unlocked c d t hmem hi
  refine ⟨fun i hi => ?_, h.ids, h.once, fun m hm => ?_⟩
  · exact exec_runs_congr (h.apart i hi) fun id run heq => c.apart_insert heq
  · have hmem : m.id ∈ c.locked := by
      rw [h.ids]
      exact List.mem_map_of_mem hm
    obtain ⟨hfound, hleft⟩ := h.found m hm
    exact ⟨(hlocked m.id hmem _).trans hfound, (hlocked m.id hmem _).trans hleft⟩

theorem trip (h : Open c ws) : Open c.trip.2 ws := by
  have hmet : ∀ others : List (Statement V), Open (others.foldl Link.other c) ws := by
    intro others
    induction others generalizing c with
    | nil => exact h
    | cons d others ih => exact ih (h.other d)
  unfold Link.trip
  split
  · exact h
  · rename_i next rest _
    have hnext := hmet next.others
    dsimp only
    split <;> exact ⟨hnext.apart, hnext.ids, hnext.once, hnext.found⟩

/-- A statement that changes no row twice is seen at once and locks what it changed. -/
theorem wrote (h : Open c ws) (d : Statement V)
    (hnew : ∀ m ∈ changes d c.view, m.id ∉ c.locked) :
    Open (c.wrote d) (ws ++ [(d, c.view)]) := by
  refine ⟨fun i hi => ?_, ?_, ?_, fun m hm => ?_⟩
  · simp only [Link.wrote, List.mem_append, not_or] at hi
    exact (exec_runs_of_not_mem hi.2).trans (h.apart i hi.1)
  · simp only [Link.wrote, done_snoc, List.map_append, h.ids]
  · simp only [Link.wrote]
    rw [List.nodup_append]
    refine ⟨h.once, changes_ids_nodup d c.view, fun a ha b hb hab => ?_⟩
    obtain ⟨m, hm, rfl⟩ := List.mem_map.1 hb
    exact hnew m hm (hab ▸ ha)
  · rw [done_snoc, List.mem_append] at hm
    rcases hm with hm | hm
    · obtain ⟨hfound, hleft⟩ := h.found m hm
      refine ⟨hfound, (exec_runs_of_not_mem fun hmem => ?_).trans hleft⟩
      obtain ⟨m', hm', hid⟩ := List.mem_map.1 hmem
      apply hnew m' hm'
      rw [hid, h.ids]
      exact List.mem_map_of_mem hm
    · obtain ⟨hfound, hleft⟩ := changes_spec hm
      exact ⟨(h.apart m.id (hnew m hm)).symm.trans hfound, hleft⟩

/-- A commit lands exactly that. -/
theorem commit_moved (h : Open c ws) : c.commit.moved = c.moved ++ done ws := by
  simp only [Link.commit, h.ids, List.map_map]
  congr 1
  refine (List.map_congr_left fun m hm => ?_).trans (List.map_id _)
  obtain ⟨hfound, hleft⟩ := h.found m hm
  simp only [Function.comp_apply, hfound, hleft, id_eq]

end Open

theorem Link.trip_moved (c : Link V) : c.trip.2.moved = c.moved := by
  have hmet : ∀ others : List (Statement V), (others.foldl other c).moved = c.moved := by
    intro others
    induction others generalizing c with
    | nil => rfl
    | cons d others ih => exact ih (c.other d)
  unfold trip
  split
  · rfl
  · rename_i next rest _
    have hnext := hmet next.others
    dsimp only
    split <;> exact hnext

/-! ## One try -/

/-- A call inserts before it writes anything else, and never writes a run it has written. -/
def Careful (p : Session V α) : Prop :=
  ∀ ws d next, Comes Table.exec p ws (.write d next) → ws = [] ∨
    (∀ id run, d ≠ .insert id run) ∧
      ∀ t, (∀ m ∈ done ws, t.runs m.id = m.left) → ∀ m ∈ changes d t, m.id ∉ (done ws).map (·.id)

/-- Only an insert with a key is answered for when it is refused. -/
def Keyed (ws : List (Statement V × Table V)) : Prop :=
  ∀ id run t, (.insert id run, t) ∈ ws → t.refuses id run = true → run.key.isSome = true

theorem Keyed.snoc {ws : List (Statement V × Table V)} (h : Keyed ws) {d : Statement V}
    {t : Table V}
    (hd : ∀ id run, d = .insert id run → t.refuses id run = true → run.key.isSome = true) :
    Keyed (ws ++ [(d, t)]) := by
  intro id run u hmem hrefused
  rcases List.mem_append.1 hmem with hmem | hmem
  · exact h id run u hmem hrefused
  · cases List.mem_singleton.1 hmem
    exact hd id run rfl hrefused

/-- What a try comes to: an answer of the call and what its statements changed, or nothing. -/
def Answered (p : Session V α) (moved : List (Change V)) :
    Except Failure α × Link V → Prop
  | (.ok a, d) => ∃ ws, Comes Table.exec p ws (.done a) ∧ Keyed ws ∧ d.moved = moved ++ done ws ∧
      ((done ws).map (·.id)).Nodup
  | (.error _, d) => d.moved = moved ∧ Open d []

theorem Answered.closed (p : Session V α) {moved : List (Change V)} {c : Link V}
    (h : c.moved = moved) (failure : Failure) : Answered p moved (.error failure, c.close) :=
  ⟨h, .close c rfl⟩

section

variable {p₀ : Session V α} {ws : List (Statement V × Table V)} {c : Link V}

/-- A careful session changes no row twice. -/
theorem Careful.fresh (h : Careful p₀) {d : Statement V} {next : List (Row Nat V) → Session V α}
    (hcomes : Comes Table.exec p₀ ws (.write d next)) (hopen : Open c ws) :
    ∀ m ∈ changes d c.view, m.id ∉ c.locked := by
  intro m hm
  rw [hopen.ids]
  rcases h ws d next hcomes with rfl | ⟨-, hfresh⟩
  · exact List.not_mem_nil
  · exact hfresh c.view (fun m hm => (hopen.found m hm).2) m hm

/-- It inserts nothing after another statement, so nothing is lost with an insert refused. -/
theorem Careful.refused (h : Careful p₀) {id : Nat} {run : Run V}
    {next : List (Row Nat V) → Session V α}
    (hcomes : Comes Table.exec p₀ ws (.write (.insert id run) next)) {t : Table V}
    (hrefused : t.refuses id run = true) : done (ws ++ [(.insert id run, t)]) = [] := by
  rcases h ws _ next hcomes with rfl | ⟨hno, -⟩
  · simp [done, changes, hrefused]
  · exact absurd rfl (hno id run)

theorem done_answered {a : α} (hcomes : Comes Table.exec p₀ ws (.done a)) {due : Bool}
    (hopen : Open c ws) (hdue : due = false → done ws = []) (hkeyed : Keyed ws) :
    Answered p₀ c.moved (attempt due (.done a) c) := by
  have htrip := hopen.trip
  have hmoved := c.trip_moved
  unfold attempt
  split
  · split
    · rename_i failure d heq
      rw [heq] at hmoved
      exact .closed p₀ hmoved failure
    · rename_i d heq
      rw [heq] at htrip hmoved
      refine ⟨ws, hcomes, hkeyed, ?_, hopen.ids ▸ hopen.once⟩
      rw [htrip.commit_moved]
      exact congrArg (· ++ done ws) hmoved
  · rename_i hnot
    have hnone := hdue (by simpa using hnot)
    refine ⟨ws, hcomes, hkeyed, ?_, by simp [hnone]⟩
    rw [hnone, List.append_nil]
    rfl

end

theorem attempt_answered {p₀ : Session V α} (hcareful : Careful p₀) {p : Session V α}
    {ws : List (Statement V × Table V)} (hcomes : Comes Table.exec p₀ ws p) {due : Bool}
    {c : Link V} (hopen : Open c ws) (hdue : due = false → done ws = []) (hkeyed : Keyed ws) :
    Answered p₀ c.moved (attempt due p c) := by
  induction p generalizing ws due c with
  | done a => exact done_answered hcomes hopen hdue hkeyed
  | read next ih =>
      have htrip := hopen.trip
      have hmoved := c.trip_moved
      unfold attempt
      split
      · rename_i failure d heq
        rw [heq] at hmoved
        exact .closed p₀ hmoved failure
      · rename_i stale d heq
        rw [heq] at htrip hmoved
        have hnext := ih (stale.getD d.view) (.read _ hcomes) htrip hdue hkeyed
        rwa [show d.moved = c.moved from hmoved] at hnext
  | write d next ih =>
      have htrip := hopen.trip
      have hmoved := c.trip_moved
      unfold attempt
      split
      · rename_i failure e heq
        rw [heq] at hmoved
        exact .closed p₀ hmoved failure
      · rename_i e heq
        rw [heq] at htrip hmoved
        replace htrip : Open e ws := htrip
        replace hmoved : e.moved = c.moved := hmoved
        have hwrote : (∀ id run, d = .insert id run → e.view.refuses id run = true →
            run.key.isSome = true) → Answered p₀ (e.wrote d).moved
              (attempt true (next (Table.exec d e.view).1) (e.wrote d)) := fun hkey =>
          ih _ (.write e.view hcomes) (htrip.wrote d (hcareful.fresh hcomes htrip))
            (fun hfalse => by cases hfalse) (hkeyed.snoc hkey)
        rw [show (e.wrote d).moved = c.moved from hmoved] at hwrote
        cases d with
        | update condition values => exact hwrote fun id run heq => by cases heq
        | delete condition => exact hwrote fun id run heq => by cases heq
        | insert id run =>
            dsimp only
            split
            · rename_i hrefused
              split
              · rename_i hkey
                have hnone := hcareful.refused hcomes hrefused
                have hexec : (Table.exec (.insert id run) e.view).1 = [] := by
                  simp [Table.exec, hrefused]
                have hcaught : Answered p₀ e.close.moved
                    (attempt false (next (Table.exec (.insert id run) e.view).1) e.close) :=
                  ih _ (.write e.view hcomes) (.close e hnone) (fun _ => hnone)
                    (hkeyed.snoc fun _ _ heq _ => by cases heq; exact hkey)
                rw [hexec, show e.close.moved = c.moved from hmoved] at hcaught
                exact hcaught
              · exact .closed p₀ hmoved .driver
            · rename_i hfree
              exact hwrote fun _ _ heq hrefused => by cases heq; exact absurd hrefused hfree

/-- Trying again leaves nothing of the tries before. -/
theorem underContention_answered {p : Nat → Session V α}
    {work : Nat → Link V → Except Failure α × Link V}
    (hwork : ∀ n c, Open c [] → Answered (p n) c.moved (work n c)) (again : Nat) {c : Link V}
    (hopen : Open c []) : ∃ n, Answered (p n) c.moved (underContention work again c) := by
  induction again generalizing c with
  | zero => exact ⟨0, hwork 0 c hopen⟩
  | succ again ih =>
      have h := hwork (again + 1) c hopen
      unfold underContention
      split
      · rename_i d heq
        rw [heq] at h
        obtain ⟨hmoved, hclosed⟩ := h
        obtain ⟨n, hn⟩ := ih hclosed
        exact ⟨n, hmoved ▸ hn⟩
      · exact ⟨again + 1, h⟩

/-! ## What each call writes -/

/-- A call is done once it has written. -/
def Once (p : Session V α) : Prop :=
  ∀ ws q, Comes Table.exec p ws q → ws = [] ∨ ∃ a, q = .done a

theorem Once.careful {p : Session V α} (h : Once p) : Careful p := by
  intro ws d next hcomes
  rcases h ws _ hcomes with hnone | ⟨a, heq⟩
  · exact Or.inl hnone
  · cases heq

theorem Careful.map {β : Type} {p : Session V α} (h : Careful p) (f : α → β) :
    Careful (p.map f) := by
  intro ws d next hcomes
  obtain ⟨r, heq, hr⟩ := hcomes.of_map
  cases r with
  | write d' next' =>
      cases heq
      exact h ws d next' hr
  | done a => cases heq
  | read next' => cases heq

theorem Once.map {β : Type} {p : Session V α} (h : Once p) (f : α → β) : Once (p.map f) := by
  intro ws q hcomes
  obtain ⟨r, rfl, hr⟩ := hcomes.of_map
  rcases h ws r hr with hnone | ⟨a, rfl⟩
  · exact Or.inl hnone
  · exact Or.inr ⟨f a, rfl⟩

theorem once_done (a : α) : Once (.done a : Session V α) := by
  intro ws q hcomes
  exact Or.inl hcomes.of_done.1

theorem once_write {d : Statement V} {f : List (Row Nat V) → α} :
    Once (.write d fun rows => .done (f rows)) := by
  intro ws q hcomes
  rcases hcomes.of_write with ⟨rfl, -⟩ | ⟨t, rest, rfl, hrest⟩
  · exact Or.inl rfl
  · exact Or.inr ⟨_, hrest.of_done.2⟩

theorem once_read {next : Table V → Session V α} (h : ∀ t, Once (next t)) :
    Once (.read next) := by
  intro ws q hcomes
  rcases hcomes.of_read with ⟨rfl, -⟩ | ⟨t, ht⟩
  · exact Or.inl rfl
  · exact h t ws q ht

theorem once_purge (before : Instant) (limit : Nat) :
    Once (SqlStore.purge before limit : Session V Nat) := by
  refine once_read fun t => ?_
  split
  · exact once_done 0
  · exact once_write

theorem gaveUp_eq {moment : Instant} {run : Run V} (h : run.maxAttempts ≤ run.attempts) :
    SqlStore.gaveUp moment run = MemoryStore.takenBack moment run := by
  simp [SqlStore.gaveUp, MemoryStore.takenBack, Run.exhausted, h]

theorem givenBack_eq {moment : Instant} {run : Run V} (h : run.attempts < run.maxAttempts) :
    SqlStore.givenBack moment run = MemoryStore.takenBack moment run := by
  have hleft : ¬ run.maxAttempts ≤ run.attempts := by omega
  simp [SqlStore.givenBack, MemoryStore.takenBack, Run.exhausted, hleft]

/-- A sweep takes back runs whose lease has run out. -/
theorem changes_sweeping {moment : Instant} {d : Statement V} (h : SqlStore.Sweeping moment d)
    {t : Table V} {m : Change V} (hm : m ∈ changes d t) :
    ∃ run, m.found = some run ∧ MemoryStore.expired moment run = true ∧
      m.left = some (MemoryStore.takenBack moment run) := by
  obtain ⟨ids, rfl | rfl⟩ := h
  · obtain ⟨row, hrow, rfl⟩ := List.mem_map.1 hm
    have hcond := of_decide_eq_true (of_decide_eq_true (List.mem_filter.1 hrow).2).2
    exact ⟨row.toRun, rfl, hcond.1, by rw [gaveUp_eq hcond.2]⟩
  · obtain ⟨row, hrow, rfl⟩ := List.mem_map.1 hm
    have hcond := of_decide_eq_true (of_decide_eq_true (List.mem_filter.1 hrow).2).2
    exact ⟨row.toRun, rfl, hcond.1, by rw [givenBack_eq hcond.2]⟩

theorem takenBack_not_expired (moment : Instant) (run : Run V) :
    MemoryStore.expired moment (MemoryStore.takenBack moment run) = false := by
  unfold MemoryStore.takenBack MemoryStore.expired
  dsimp only
  split <;> simp

/-- A statement of a sweep leaves no run another one of it matches. -/
theorem careful_sweep (moment : Instant) : Careful (SqlStore.sweep moment : Session V Nat) := by
  intro ws d next hcomes
  right
  have hsweeping := (SqlStore.sweep_comes (hcomes.write Table.empty)).1
  have hd : SqlStore.Sweeping moment d := hsweeping _ (List.mem_append_right _ List.mem_cons_self)
  refine ⟨fun id run heq => ?_, fun t hleft m hm hmem => ?_⟩
  · obtain ⟨ids, h | h⟩ := hd
    all_goals
      rw [heq] at h
      cases h
  · obtain ⟨m', hm', hid⟩ := List.mem_map.1 hmem
    obtain ⟨w, hw, hchange⟩ := List.mem_flatMap.1 hm'
    obtain ⟨run', -, -, hleft'⟩ :=
      changes_sweeping (hsweeping w (List.mem_append_left _ hw)) hchange
    obtain ⟨run, hfound, hexpired, -⟩ := changes_sweeping hd hm
    have hsame : some run = some (MemoryStore.takenBack moment run') := by
      rw [← hfound, ← hleft', ← hleft m' hm', hid, (changes_spec hm).1]
    rw [Option.some.inj hsame, takenBack_not_expired] at hexpired
    cases hexpired

/-- What a call is to do to a run. -/
def Does (q : Request Nat V) (m : Change V) : Prop :=
  match q with
  | .add run => m.found = none ∧ m.left = some run
  | .reclaim moment => ∃ run, m.found = some run ∧ MemoryStore.expired moment run = true ∧
      m.left = some (MemoryStore.takenBack moment run)
  | .purge before _ => ∃ run, m.found = some run ∧ MemoryStore.isOver before run = true ∧
      m.left = none
  | q => ∃ ask run, q.ask = some ask ∧ m.id = ask.id ∧ m.found = some run ∧ ask.condition run ∧
      m.left = some (ask.becomes run)

/-- What a call is to answer, told from what was changed. -/
def Tells (q : Request Nat V) (answer : Answer Nat V) (moved : List (Change V)) : Prop :=
  match answer with
  | .told (.ok held) => moved.length = if held then 1 else 0
  | .told (.error _) => moved = []
  | .counted n => moved.length = n
  | .row found =>
      match q with
      | .add run => (found = none ∧ run.key.isSome ∧ moved = []) ∨
          ∃ id, found = some ⟨run, id⟩ ∧ moved = [⟨id, none, some run⟩]
      | _ => moved = []
  | .rows _ | .raised => False

/-! ## What each call did -/

/-- What a call did and answered is what it is to do and answer. -/
def Faithful (q : Request Nat V) (ws : List (Statement V × Table V)) (answer : Answer Nat V) :
    Prop :=
  (∀ m ∈ done ws, Does q m) ∧ Tells q answer (done ws)

/-- A call about one run. -/
theorem faithful_write {q : Request Nat V} {ask : Ask Nat V} (hask : q.ask = some ask)
    {condition : Condition V} (honly : ∀ row, condition row = true → row.id = ask.id)
    (hcond : ∀ row : Row Nat V, condition row = true → ask.condition row.toRun)
    {ws : List (Statement V × Table V)} {held : Bool}
    (h : Comes Table.exec (SqlStore.write condition ask.becomes) ws (.done held)) :
    Faithful q ws (.told (.ok held)) := by
  rcases h.of_write with ⟨-, heq⟩ | ⟨t, rest, rfl, hrest⟩
  · cases heq
  · obtain ⟨rfl, hanswer⟩ := hrest.of_done
    obtain rfl := Prog.done.inj hanswer
    have hdone : done [(Statement.update condition ask.becomes, t)] =
        changes (.update condition ask.becomes) t := by simp [done]
    rw [Faithful, hdone]
    constructor
    · intro m hm
      obtain ⟨row, hrow, rfl⟩ := List.mem_map.1 hm
      have hmatch := (List.mem_filter.1 hrow).2
      have hdoes : ∃ a run, q.ask = some a ∧ row.id = a.id ∧ some row.toRun = some run ∧
          a.condition run ∧ some (ask.becomes row.toRun) = some (a.becomes run) :=
        ⟨ask, row.toRun, hask, honly row hmatch, rfl, hcond row hmatch, rfl⟩
      cases q with
      | add | claim | reclaim | purge | find | get => cases hask
      | heartbeat | complete | fail | retryLater | release | cancel => exact hdoes
    · show (changes _ t).length = _
      rw [length_changes]
      rcases t.update_one condition ask.becomes honly with ⟨run, -, -, hone⟩ | ⟨-, hnone⟩
      · simp [hone]
      · simp [hnone]

theorem careful_session (n : Nat) {q : Request Nat V}
    (hclaim : ∀ worker queues limit lease moment, q ≠ .claim worker queues limit lease moment) :
    Careful (session n q) := by
  cases q with
  | claim worker queues limit lease moment => exact absurd rfl (hclaim _ _ _ _ _)
  | add run => exact (once_write.map _).careful
  | heartbeat id worker attempt lease moment =>
      refine (Once.map ?_ _).careful
      unfold SqlStore.heartbeat
      split
      · exact once_done _
      · exact once_write.map _
  | complete | fail | retryLater | release | cancel => exact (once_write.map _).careful
  | reclaim moment => exact (careful_sweep moment).map _
  | purge before limit => exact ((once_purge before limit).map _).careful
  | find key | get id => exact ((once_read fun t => once_done _).map _).careful

/-- A call of the attempt that holds a run. -/
theorem faithful_holding {q : Request Nat V} {id : Nat} {worker : String} {attempt : Int}
    {f : Run V → Run V} (hask : q.ask = some ⟨id, Held worker attempt, f⟩)
    {ws : List (Statement V × Table V)} {held : Bool}
    (h : Comes Table.exec (SqlStore.write (SqlStore.holding id worker attempt) f) ws
      (.done held)) : Faithful q ws (.told (.ok held)) := by
  refine faithful_write hask (fun row hrow => (of_decide_eq_true hrow).1) (fun row hrow => ?_) h
  obtain ⟨-, hworker, hattempts, hrunning⟩ := of_decide_eq_true hrow
  exact ⟨hworker, hrunning, hattempts⟩

theorem faithful_none {q : Request Nat V} {answer : Answer Nat V} (h : Tells q answer []) :
    Faithful q [] answer :=
  ⟨fun _ hm => absurd hm List.not_mem_nil, h⟩

theorem faithful_add {n : Nat} {run : Run V} {ws : List (Statement V × Table V)}
    (hkeyed : Keyed ws) {found : Option (Row Nat V)}
    (h : Comes Table.exec (SqlStore.add n run) ws (.done found)) :
    Faithful (.add run) ws (.row found) := by
  rcases h.of_write with ⟨-, heq⟩ | ⟨t, rest, rfl, hrest⟩
  · cases heq
  · obtain ⟨rfl, hanswer⟩ := hrest.of_done
    obtain rfl := Prog.done.inj hanswer
    by_cases hfree : t.refuses n run = false
    · have hdone : done [(Statement.insert n run, t)] = [⟨n, none, some run⟩] := by
        simp [done, changes, hfree]
      rw [Faithful, hdone]
      refine ⟨fun m hm => ?_, Or.inr ⟨n, ?_, rfl⟩⟩
      · rw [List.mem_singleton.1 hm]
        exact ⟨rfl, rfl⟩
      · simp [Table.exec, hfree]
    · have hrefused : t.refuses n run = true := by simpa using hfree
      have hdone : done [(Statement.insert n run, t)] = [] := by
        simp [done, changes, hrefused]
      rw [Faithful, hdone]
      refine ⟨fun m hm => absurd hm List.not_mem_nil, Or.inl ⟨?_, ?_, rfl⟩⟩
      · simp [Table.exec, hrefused]
      · exact hkeyed n run t List.mem_cons_self hrefused

theorem length_done (ws : List (Statement V × Table V)) :
    (done ws).length = SqlStore.matched ws := by
  simp [done, SqlStore.matched, List.length_flatMap, length_changes]

theorem faithful_reclaim {moment : Instant} {ws : List (Statement V × Table V)} {n : Nat}
    (h : Comes Table.exec (SqlStore.sweep moment) ws (.done n)) :
    Faithful (.reclaim moment) ws (.counted n) := by
  obtain ⟨hwrites, -, hanswer⟩ := SqlStore.sweep_comes h
  constructor
  · intro m hm
    obtain ⟨w, hw, hchange⟩ := List.mem_flatMap.1 hm
    exact changes_sweeping (hwrites w hw) hchange
  · rw [Tells, length_done, hanswer n rfl]

theorem faithful_purge {before : Instant} {limit n : Nat} {ws : List (Statement V × Table V)}
    (h : Comes Table.exec (SqlStore.purge before limit) ws (.done n)) :
    Faithful (.purge before limit) ws (.counted n) := by
  obtain ⟨hwrites, hanswer⟩ := SqlStore.purge_comes h
  constructor
  · intro m hm
    obtain ⟨w, hw, hchange⟩ := List.mem_flatMap.1 hm
    obtain ⟨ids, heq⟩ := hwrites w hw
    rw [heq] at hchange
    obtain ⟨row, hrow, rfl⟩ := List.mem_map.1 hchange
    exact ⟨row.toRun, rfl, (of_decide_eq_true (List.mem_filter.1 hrow).2).2, rfl⟩
  · rw [Tells, length_done, hanswer n rfl]

theorem session_faithful {n : Nat} {q : Request Nat V}
    (hclaim : ∀ worker queues limit lease moment, q ≠ .claim worker queues limit lease moment)
    {ws : List (Statement V × Table V)} {answer : Answer Nat V} (hkeyed : Keyed ws)
    (h : Comes Table.exec (session n q) ws (.done answer)) : Faithful q ws answer := by
  have hread : ∀ {condition : Condition V} {f : Option (Row Nat V) → Answer Nat V},
      Comes Table.exec ((SqlStore.one condition).map f) ws (.done answer) →
        ws = [] ∧ ∃ found, answer = f found := by
    intro condition f hcomes
    obtain ⟨r, heq, hr⟩ := hcomes.of_map
    obtain ⟨found, rfl, rfl⟩ := Prog.map_eq_done heq.symm
    rcases hr.of_read with ⟨-, hnot⟩ | ⟨t, ht⟩
    · cases hnot
    · exact ⟨ht.of_done.1, found, rfl⟩
  cases q with
  | claim worker queues limit lease moment => exact absurd rfl (hclaim _ _ _ _ _)
  | find key | get id =>
      obtain ⟨rfl, found, rfl⟩ := hread h
      exact faithful_none rfl
  | add run =>
      obtain ⟨r, heq, hr⟩ := h.of_map
      obtain ⟨found, rfl, rfl⟩ := Prog.map_eq_done heq.symm
      exact faithful_add hkeyed hr
  | heartbeat id worker attempt lease moment =>
      obtain ⟨r, heq, hr⟩ := h.of_map
      obtain ⟨answer, rfl, rfl⟩ := Prog.map_eq_done heq.symm
      unfold SqlStore.heartbeat at hr
      split at hr
      · obtain ⟨rfl, hanswer⟩ := hr.of_done
        obtain rfl := Prog.done.inj hanswer
        exact faithful_none rfl
      · rename_i leaseEnd hlease
        obtain ⟨u, heq, hu⟩ := hr.of_map
        obtain ⟨held, rfl, rfl⟩ := Prog.map_eq_done heq.symm
        exact faithful_holding (ask_heartbeat hlease) hu
  | complete id worker attempt moment result | fail id worker attempt moment error errorType
  | retryLater id worker attempt dueAt error errorType
  | release id worker attempt dueAt error errorType =>
      obtain ⟨r, heq, hr⟩ := h.of_map
      obtain ⟨held, rfl, rfl⟩ := Prog.map_eq_done heq.symm
      exact faithful_holding rfl hr
  | cancel id moment =>
      obtain ⟨r, heq, hr⟩ := h.of_map
      obtain ⟨held, rfl, rfl⟩ := Prog.map_eq_done heq.symm
      have hask : (Request.cancel id moment : Request Nat V).ask =
        some ⟨id, fun run => run.status = .pending, MemoryStore.calledOff moment⟩ := rfl
      exact faithful_write hask (fun row hrow => (of_decide_eq_true hrow).1)
        (fun row hrow => (of_decide_eq_true hrow).2) hr
  | reclaim moment =>
      obtain ⟨r, heq, hr⟩ := h.of_map
      obtain ⟨n, rfl, rfl⟩ := Prog.map_eq_done heq.symm
      exact faithful_reclaim hr
  | purge before limit =>
      obtain ⟨r, heq, hr⟩ := h.of_map
      obtain ⟨n, rfl, rfl⟩ := Prog.map_eq_done heq.symm
      exact faithful_purge hr

theorem open_connect (t : Table V) (trips : List (Trip V)) : Open (.connect t trips) [] :=
  ⟨fun _ _ => rfl, rfl, List.nodup_nil, fun _ hm => absurd hm List.not_mem_nil⟩

theorem call_answered (ids : Nat → Nat) {q : Request Nat V}
    (hclaim : ∀ worker queues limit lease moment, q ≠ .claim worker queues limit lease moment)
    {c : Link V} (hopen : Open c []) : ∃ n, Answered (session n q) c.moved (call ids q c) := by
  have htry : ∀ due n (c : Link V), Open c [] →
      Answered (session (ids n) q) c.moved (attempt due (session (ids n) q) c) :=
    fun due n c hopen => attempt_answered (careful_session (ids n) hclaim) .start hopen
      (fun _ => rfl) fun id run t hmem => absurd hmem List.not_mem_nil
  have hagain : ∀ due, ∃ n, Answered (session n q) c.moved
      (underContention (fun n => attempt due (session (ids n) q)) (tries - 1) c) := by
    intro due
    obtain ⟨n, hn⟩ := underContention_answered (htry due) (tries - 1) hopen
    exact ⟨ids n, hn⟩
  cases q with
  | find key | get id => exact ⟨ids 0, htry false 0 c hopen⟩
  | reclaim moment => exact hagain true
  | _ => exact hagain false

/-- However the round trips of a call are refused, whatever other sessions commit between them and
however old what it read was: a call that answers has changed exactly what it answers for, each run
once, as it was then and as it was asked for; and a call that raises has changed nothing. -/
theorem broken_call_answers (ids : Nat → Nat) {q : Request Nat V}
    (hclaim : ∀ worker queues limit lease moment, q ≠ .claim worker queues limit lease moment)
    (t : Table V) (trips : List (Trip V)) :
    match call ids q (.connect t trips) with
    | (.ok answer, d) => Tells q answer d.moved ∧ (∀ m ∈ d.moved, Does q m) ∧
        (d.moved.map (·.id)).Nodup
    | (.error _, d) => d.moved = [] := by
  obtain ⟨n, h⟩ := call_answered ids hclaim (open_connect t trips)
  generalize call ids q (.connect t trips) = r at h
  obtain ⟨answer, d⟩ := r
  cases answer with
  | error failure => exact h.1
  | ok answer =>
      obtain ⟨ws, hcomes, hkeyed, hmoved, hnodup⟩ := h
      obtain ⟨hdoes, htells⟩ := session_faithful hclaim hkeyed hcomes
      replace hmoved : d.moved = done ws := hmoved
      rw [← hmoved] at htells hdoes hnodup
      exact ⟨htells, hdoes, hnodup⟩

/-- A sweep is asked to be tried again at its commit, and at the second try the run it is about to
take back has been claimed under a lease that has not run out. -/
def contendedOnce : List (Trip Unit) :=
  [⟨[], none, none⟩, ⟨[], none, none⟩, ⟨[], none, none⟩, ⟨[], some .contended, none⟩,
   ⟨[], none, none⟩, ⟨[], none, none⟩,
   ⟨[SqlStore.take "other" Instant.epoch ((Instant.epoch.plus 70000000).get rfl) 1], none, none⟩]

theorem broken_call_answers_contended :
    (call id (.reclaim ((Instant.epoch.plus 65000000).get rfl))
        (.connect SqlStore.twoRows contendedOnce)).2.moved.map (·.id) = [2] ∧
      match call id (.reclaim ((Instant.epoch.plus 65000000).get rfl))
        (.connect SqlStore.twoRows contendedOnce) with
      | (.ok answer, d) => Tells (.reclaim ((Instant.epoch.plus 65000000).get rfl)) answer d.moved ∧
          (∀ m ∈ d.moved, Does (.reclaim ((Instant.epoch.plus 65000000).get rfl)) m) ∧
          (d.moved.map (·.id)).Nodup
      | (.error _, d) => d.moved = [] :=
  ⟨by decide +kernel,
    broken_call_answers id (q := .reclaim ((Instant.epoch.plus 65000000).get rfl))
      (fun _ _ _ _ _ heq => by cases heq) SqlStore.twoRows contendedOnce⟩

/-! ## A call nothing breaks -/

theorem trip_nil {c : Link V} (h : c.trips = []) : c.trip = (.ok none, c) := by
  unfold Link.trip
  rw [h]

/-- A try that nothing refuses, with the table to itself, is the call alone. -/
theorem attempt_unbroken {t : Table V} {p₀ : Session V α} (hcareful : Careful p₀)
    (hkey : ∀ ws id run next, Comes Table.exec p₀ ws (.write (.insert id run) next) →
      t.refuses id run = true → run.key.isSome = true)
    {p : Session V α} {ws : List (Statement V × Table V)} (hcomes : Comes Table.exec p₀ ws p)
    {due : Bool} {c : Link V} (htrips : c.trips = []) (hdue : due = false → c.view = c.table)
    (hstart : ws = [] → c.view = t ∧ c.table = t) :
    (attempt due p c).1 = .ok (p.run Table.exec c.view).1 ∧
      (attempt due p c).2.table = (p.run Table.exec c.view).2 := by
  induction p generalizing ws due c with
  | done a =>
      unfold attempt
      split
      · rw [trip_nil htrips]
        exact ⟨rfl, rfl⟩
      · rename_i hnot
        exact ⟨rfl, (hdue (by simpa using hnot)).symm⟩
  | read next ih =>
      unfold attempt
      rw [trip_nil htrips]
      exact ih c.view (.read c.view hcomes) htrips hdue hstart
  | write d next ih =>
      have hgoes : (attempt true (next (Table.exec d c.view).1) (c.wrote d)).1 =
            .ok ((Prog.write d next).run Table.exec c.view).1 ∧
          (attempt true (next (Table.exec d c.view).1) (c.wrote d)).2.table =
            ((Prog.write d next).run Table.exec c.view).2 :=
        ih _ (.write c.view hcomes) htrips (fun hfalse => by cases hfalse) fun hnone => by
          simp at hnone
      unfold attempt
      rw [trip_nil htrips]
      cases d with
      | update condition values => exact hgoes
      | delete condition => exact hgoes
      | insert id run =>
          dsimp only
          split
          · rename_i hrefused
            rcases hcareful ws _ next hcomes with rfl | ⟨hno, -⟩
            · obtain ⟨hview, htable⟩ := hstart rfl
              have hsome := hkey [] id run next hcomes (hview ▸ hrefused)
              have hexec : Table.exec (.insert id run) c.view = ([], c.view) := by
                simp [Table.exec, hrefused]
              have hcaught :
                  (attempt false (next (Table.exec (.insert id run) c.view).1) c.close).1 =
                      .ok ((next (Table.exec (.insert id run) c.view).1).run Table.exec
                        c.close.view).1 ∧
                    (attempt false (next (Table.exec (.insert id run) c.view).1) c.close).2.table =
                      ((next (Table.exec (.insert id run) c.view).1).run Table.exec
                        c.close.view).2 :=
                ih _ (.write c.view hcomes) htrips (fun _ => rfl) fun hnone => by simp at hnone
              have hclose : c.close.view = c.view := htable.trans hview.symm
              rw [hexec, hclose] at hcaught
              rw [if_pos hsome, Prog.run, hexec]
              exact hcaught
            · exact absurd rfl (hno id run)
          · exact hgoes

theorem underContention_ok {work : Nat → Link V → Except Failure α × Link V} {again : Nat}
    {c d : Link V} {a : α} (h : work again c = (.ok a, d)) :
    underContention work again c = (.ok a, d) := by
  cases again with
  | zero => exact h
  | succ again =>
      unfold underContention
      rw [h]

/-- A call nothing refuses, with the table to itself, is the call of the store, as long as the
database hands no id out that is taken. -/
theorem call_unbroken (ids : Nat → Nat) {q : Request Nat V}
    (hclaim : ∀ worker queues limit lease moment, q ≠ .claim worker queues limit lease moment)
    {t : Table V} (hids : ∀ n run, q = .add run → t.refuses (ids n) run = true →
      run.key.isSome = true) :
    ∃ n, (call ids q (.connect t [])).1 = .ok (SqlStore.perform t n q).1 ∧
      (call ids q (.connect t [])).2.table = (SqlStore.perform t n q).2 := by
  have htry : ∀ due n, (attempt due (session (ids n) q) (.connect t [])).1 =
        .ok (SqlStore.perform t (ids n) q).1 ∧
      (attempt due (session (ids n) q) (.connect t [])).2.table =
        (SqlStore.perform t (ids n) q).2 := by
    intro due n
    refine attempt_unbroken (careful_session (ids n) hclaim) (fun ws id run next hcomes => ?_)
      .start rfl (fun _ => rfl) fun _ => ⟨rfl, rfl⟩
    have hlawful := @SqlStore.asked_lawful V (ids n, q) _ _ (hcomes.write Table.empty)
      (.insert id run, Table.empty) (List.mem_append_right _ List.mem_cons_self)
    cases hlawful with
    | insert hadd => exact hids n run hadd
  have hagain : ∀ due, ∃ n,
      (underContention (fun n => attempt due (session (ids n) q)) (tries - 1)
          (.connect t [])).1 = .ok (SqlStore.perform t n q).1 ∧
        (underContention (fun n => attempt due (session (ids n) q)) (tries - 1)
          (.connect t [])).2.table = (SqlStore.perform t n q).2 := by
    intro due
    obtain ⟨hanswer, htable⟩ := htry due (tries - 1)
    refine ⟨ids (tries - 1), ?_⟩
    rw [underContention_ok (Prod.ext hanswer rfl)]
    exact ⟨rfl, htable⟩
  cases q with
  | find key | get id => exact ⟨ids 0, htry false 0⟩
  | reclaim moment => exact hagain true
  | _ => exact hagain false

end Queuefy.Torn
