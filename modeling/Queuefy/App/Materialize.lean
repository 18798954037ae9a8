import Queuefy.App.Occurrence
import Queuefy.App.Trigger
import Queuefy.Lib.Reach
import Queuefy.Store.Keys

/-! # Writing the next slots

`Queuefy.materialize` writes the next slot of every recurring task, and remembers the slot of a
task it wrote so that it works the next one out only once that slot has come. Every process has a
registry and a memory of its own; they share a clock and a store, and a write may raise with or
without having landed.
-/

namespace Queuefy

variable {V : Type}

/-- What an application registered. -/
structure App where
  tasks : List Task
  distinct : (tasks.map (·.name)).Nodup
  recurring : ∀ task ∈ tasks, ∀ trigger ∈ task.trigger, trigger.Recurring
  keyed : ∀ task ∈ tasks, task.trigger ≠ none →
    (occurrenceKey task.name latest).length ≤ keyLimit

/-- Where a call of `materialize` stands: none yet, or one that raised; one with these tasks to go;
or one that returned. -/
inductive Pass
  | idle
  | passing (moment : Instant) (rest : List Task)
  | returned (moment : Instant)

/-- A process: its application, and the slot it wrote last of each task. -/
structure Poller where
  app : App
  written : String → Option Instant
  pass : Pass

/-- What a pass makes of a task. -/
inductive Chore
  | skip
  | raise
  | write (due : Instant)

namespace Poller

def fresh (app : App) : Poller := ⟨app, fun _ => none, .idle⟩

/-- A slot that is still ahead is not worked out again. -/
def work (p : Poller) (task : Task) (moment : Instant) : Chore :=
  match task.trigger with
  | none => .skip
  | some trigger =>
      if (p.written task.name).any (moment < ·) then .skip
      else
        match trigger.nextAfter moment with
        | none => .raise
        | some due => .write due

/-- The slot of a task is remembered once the store has answered. -/
def remember (p : Poller) (name : String) (due : Instant) : Poller :=
  { p with written := Function.update p.written name (some due) }

end Poller

/-- A run a pass wrote: the moment the pass was asked about, and when the write landed. -/
structure Entry (V : Type) where
  row : Row Nat V
  moment : Instant
  landed : Instant

/-- Every process and the store they share. `entries` is history: every run a pass ever wrote. -/
structure Rota (V : Type) where
  clock : Instant
  store : MemoryStore V
  pollers : List Poller
  entries : List (Entry V)

/-- What becomes of a write: the store answers, or the call raises. -/
inductive Told
  | answered
  | lost (landed : Bool)

def Told.lands : Told → Bool
  | .answered => true
  | .lost landed => landed

/-- A call that writes no run under the key of a slot. -/
def Request.Foreign (q : Request Nat V) : Prop :=
  ∀ run, q = .add run → ∀ name slot, run.key ≠ some (occurrenceKey name slot)

/-- The clock moves on; a process comes up, or one is lost and comes up again; one is asked for a
pass, or takes its pass a task further; or the store is asked something else. -/
inductive Beat (V : Type)
  | tick (later : Instant)
  | arrive (app : App)
  | restart (poller : Nat) (app : App)
  | start (poller : Nat)
  | advance (poller : Nat) (told : Told)
  | other (request : Request Nat V) (foreign : request.Foreign)

namespace Rota

def opened (clock : Instant) : Rota V := ⟨clock, .empty, [], []⟩

/-- The run a pass writes for a slot. The arguments of a slot are none. -/
def slotRun (blank : V) (s : Rota V) (task : Task) (due : Instant) : Run V :=
  build task due s.clock blank (some (occurrenceKey task.name due)) none

def write (blank : V) (s : Rota V) (task : Task) (due moment : Instant) : Rota V :=
  { s with
    store := (s.store.add (s.slotRun blank task due)).2
    entries := s.entries ++
      ((s.store.add (s.slotRun blank task due)).1.map fun row => ⟨row, moment, s.clock⟩).toList }

def put (s : Rota V) (i : Nat) (p : Poller) : Rota V := { s with pollers := s.pollers.set i p }

/-- A pass takes the first of its tasks, or returns. -/
def advance (blank : V) (s : Rota V) (i : Nat) (told : Told) (p : Poller) (moment : Instant) :
    List Task → Rota V
  | [] => s.put i { p with pass := .returned moment }
  | task :: rest =>
      match p.work task moment with
      | .skip => s.put i { p with pass := .passing moment rest }
      | .raise => s.put i { p with pass := .idle }
      | .write due =>
          match told with
          | .answered => (s.write blank task due moment).put i
              { p.remember task.name due with pass := .passing moment rest }
          | .lost true => (s.write blank task due moment).put i { p with pass := .idle }
          | .lost false => s.put i { p with pass := .idle }

def step (blank : V) (s : Rota V) : Beat V → Option (Rota V)
  | .tick later => if s.clock ≤ later then some { s with clock := later } else none
  | .arrive app => some { s with pollers := s.pollers ++ [.fresh app] }
  | .restart i app => some (s.put i (.fresh app))
  | .start i =>
      match s.pollers[i]? with
      | none => none
      | some p =>
          match p.pass with
          | .passing .. => none
          | .idle | .returned _ => some (s.put i { p with pass := .passing s.clock p.app.tasks })
  | .advance i told =>
      match s.pollers[i]? with
      | none => none
      | some p =>
          match p.pass with
          | .passing moment rest => some (s.advance blank i told p moment rest)
          | .idle | .returned _ => none
  | .other q _ => some { s with store := (s.store.perform q).2 }

/-! ## What a step does -/

/-- A write of a slot, whatever its process learns of it. -/
structure Writes (blank : V) (s t : Rota V) (e : Beat V) (p : Poller) (task : Task)
    (due moment : Instant) (rest : List Task) (after : Poller) : Prop where
  label : ∃ i told, e = .advance i told ∧ s.pollers[i]? = some p ∧ told.lands = true
  passing : p.pass = .passing moment (task :: rest)
  work : p.work task moment = .write due
  clock : t.clock = s.clock
  store : t.store = (s.write blank task due moment).store
  entries : t.entries = (s.write blank task due moment).entries
  after : after = { p.remember task.name due with pass := .passing moment rest } ∨
    after = { p with pass := .idle }

/-- A step of a process that leaves the store alone. -/
structure Moves (s t : Rota V) (p after : Poller) : Prop where
  clock : t.clock = s.clock
  store : t.store = s.store
  entries : t.entries = s.entries
  app : after.app = p.app
  written : after.written = p.written
  pass : after.pass = .idle ∨ after.pass = .passing s.clock p.app.tasks ∨
    (∃ moment, p.pass = .passing moment [] ∧ after.pass = .returned moment) ∨
    ∃ moment task rest, p.pass = .passing moment (task :: rest) ∧
      p.work task moment = .skip ∧ after.pass = .passing moment rest

/-- Every process but one stays as it is. -/
def Others (s t : Rota V) (after : Poller) : Prop := ∀ p ∈ t.pollers, p ∈ s.pollers ∨ p = after

theorem others_put (s : Rota V) (i : Nat) (p : Poller) : Others s (s.put i p) p :=
  fun _ hq => List.mem_or_eq_of_mem_set hq

theorem advance_cases {blank : V} {s : Rota V} {i : Nat} {told : Told} {p : Poller}
    {moment : Instant} {todo : List Task} (hp : s.pollers[i]? = some p)
    (hpass : p.pass = .passing moment todo) :
    (∃ after, Others s (s.advance blank i told p moment todo) after ∧
      Moves s (s.advance blank i told p moment todo) p after) ∨
    ∃ after task due rest, Others s (s.advance blank i told p moment todo) after ∧
      Writes blank s (s.advance blank i told p moment todo) (.advance i told) p task due moment rest
        after := by
  cases todo with
  | nil =>
      exact Or.inl ⟨_, others_put s i _, rfl, rfl, rfl, rfl, rfl,
        Or.inr (Or.inr (Or.inl ⟨moment, hpass, rfl⟩))⟩
  | cons task rest =>
      simp only [advance]
      cases hwork : p.work task moment with
      | skip =>
          exact Or.inl ⟨_, others_put s i _, rfl, rfl, rfl, rfl, rfl,
            Or.inr (Or.inr (Or.inr ⟨moment, task, rest, hpass, hwork, rfl⟩))⟩
      | raise => exact Or.inl ⟨_, others_put s i _, rfl, rfl, rfl, rfl, rfl, Or.inl rfl⟩
      | write due =>
          cases told with
          | answered =>
              exact Or.inr ⟨_, task, due, rest, others_put (s.write blank task due moment) i _,
                ⟨i, .answered, rfl, hp, rfl⟩, hpass, hwork, rfl, rfl, rfl, Or.inl rfl⟩
          | lost landed =>
              cases landed with
              | false => exact Or.inl ⟨_, others_put s i _, rfl, rfl, rfl, rfl, rfl, Or.inl rfl⟩
              | true =>
                  exact Or.inr ⟨_, task, due, rest, others_put (s.write blank task due moment) i _,
                    ⟨i, .lost true, rfl, hp, rfl⟩, hpass, hwork, rfl, rfl, rfl, Or.inr rfl⟩

theorem step_cases {blank : V} {s t : Rota V} {e : Beat V} (h : s.step blank e = some t) :
    (∃ later, s.clock ≤ later ∧ t = { s with clock := later }) ∨
    (∃ app, Others s t (.fresh app) ∧ t.clock = s.clock ∧ t.store = s.store ∧
      t.entries = s.entries) ∨
    (∃ p ∈ s.pollers, ∃ after, Others s t after ∧ Moves s t p after) ∨
    (∃ p ∈ s.pollers, ∃ after task due moment rest, Others s t after ∧
      Writes blank s t e p task due moment rest after) ∨
    ∃ q foreign, e = .other q foreign ∧ t = { s with store := (s.store.perform q).2 } := by
  cases e with
  | tick later =>
      simp only [step, Option.ite_none_right_eq_some, Option.some.injEq] at h
      exact Or.inl ⟨later, h.1, h.2.symm⟩
  | arrive app =>
      cases h
      refine Or.inr (Or.inl ⟨app, fun p hp => ?_, rfl, rfl, rfl⟩)
      rcases List.mem_append.1 hp with hp | hp
      · exact Or.inl hp
      · exact Or.inr (List.mem_singleton.1 hp)
  | restart i app =>
      cases h
      exact Or.inr (Or.inl ⟨app, others_put s i _, rfl, rfl, rfl⟩)
  | start i =>
      simp only [step] at h
      split at h
      · cases h
      · rename_i p hp
        split at h
        · cases h
        · cases h
          exact Or.inr (Or.inr (Or.inl ⟨p, List.mem_of_getElem? hp, _, others_put s i _, rfl, rfl,
            rfl, rfl, rfl, Or.inr (Or.inl rfl)⟩))
        · cases h
          exact Or.inr (Or.inr (Or.inl ⟨p, List.mem_of_getElem? hp, _, others_put s i _, rfl, rfl,
            rfl, rfl, rfl, Or.inr (Or.inl rfl)⟩))
  | advance i told =>
      simp only [step] at h
      split at h
      · cases h
      · rename_i p hp
        split at h
        · rename_i moment todo hpass
          cases h
          have hmem := List.mem_of_getElem? hp
          rcases @advance_cases V blank _ _ told _ _ _ hp hpass with
            ⟨after, hothers, hmoves⟩ | ⟨after, task, due, rest, hothers, hwrites⟩
          · exact Or.inr (Or.inr (Or.inl ⟨p, hmem, after, hothers, hmoves⟩))
          · exact Or.inr (Or.inr (Or.inr (Or.inl
              ⟨p, hmem, after, task, due, moment, rest, hothers, hwrites⟩)))
        · cases h
        · cases h
  | other q foreign =>
      cases h
      exact Or.inr (Or.inr (Or.inr (Or.inr ⟨q, foreign, rfl, rfl⟩)))

theorem mem_write {blank : V} {s : Rota V} {task : Task} {due moment : Instant} {entry : Entry V} :
    entry ∈ (s.write blank task due moment).entries ↔ entry ∈ s.entries ∨
      s.store.taken (some (occurrenceKey task.name due)) = false ∧
        entry = ⟨⟨s.slotRun blank task due, s.store.sequence + 1⟩, moment, s.clock⟩ := by
  have hkey : (s.slotRun blank task due).key = some (occurrenceKey task.name due) := rfl
  rw [← hkey]
  by_cases htaken : s.store.taken (s.slotRun blank task due).key = true
  · simp [write, MemoryStore.add, htaken]
  · simp [write, MemoryStore.add, htaken]

end Rota

/-! ## What is written and remembered -/

/-- The run of a slot was written. -/
def SlotWritten (entries : List (Entry V)) (name : String) (due : Instant) : Prop :=
  ∃ entry ∈ entries, entry.row.name = name ∧ entry.row.dueAt = due ∧
    entry.row.key = some (occurrenceKey name due)

/-- The slot a task has next was written. -/
def Covered (entries : List (Entry V)) (moment : Instant) (task : Task) : Prop :=
  ∀ trigger ∈ task.trigger, ∃ due, trigger.nextAfter moment = some due ∧
    SlotWritten entries task.name due

theorem SlotWritten.mono {entries more : List (Entry V)} {name : String} {due : Instant}
    (h : SlotWritten entries name due) (hsub : entries ⊆ more) : SlotWritten more name due := by
  obtain ⟨entry, hentry, hrun⟩ := h
  exact ⟨entry, hsub hentry, hrun⟩

theorem Covered.mono {entries more : List (Entry V)} {moment : Instant} {task : Task}
    (h : Covered entries moment task) (hsub : entries ⊆ more) : Covered more moment task := by
  intro trigger htrigger
  obtain ⟨due, hdue, hwritten⟩ := h trigger htrigger
  exact ⟨due, hdue, hwritten.mono hsub⟩

/-- What a pass has covered. -/
def Pass.Covers (clock : Instant) (entries : List (Entry V)) (tasks : List Task) : Pass → Prop
  | .idle => True
  | .passing moment rest => moment ≤ clock ∧
      ∃ before, tasks = before ++ rest ∧ ∀ task ∈ before, Covered entries moment task
  | .returned moment => ∀ task ∈ tasks, Covered entries moment task

/-- What a process remembers was written, and was the answer at a moment no later than the one its
pass is about. -/
structure Poller.Sound (clock : Instant) (entries : List (Entry V)) (p : Poller) : Prop where
  written : ∀ name due, p.written name = some due → SlotWritten entries name due
  current : ∀ task ∈ p.app.tasks, ∀ due, p.written task.name = some due →
    ∀ trigger ∈ task.trigger, ∃ m ≤ clock, trigger.nextAfter m = some due ∧
      ∀ moment rest, p.pass = .passing moment rest → m ≤ moment
  pass : p.pass.Covers clock entries p.app.tasks

theorem Poller.sound_fresh (clock : Instant) (entries : List (Entry V)) (app : App) :
    (Poller.fresh app).Sound clock entries where
  written := fun _ _ h => by cases h
  current := fun _ _ _ h => by cases h
  pass := trivial

theorem Poller.Sound.mono {clock later : Instant} {entries more : List (Entry V)} {p : Poller}
    (h : p.Sound clock entries) (hclock : clock ≤ later) (hsub : entries ⊆ more) :
    p.Sound later more where
  written := fun name due hdue => (h.written name due hdue).mono hsub
  current := by
    intro task htask due hdue trigger htrigger
    obtain ⟨m, hm, hnext, hpass⟩ := h.current task htask due hdue trigger htrigger
    exact ⟨m, hm.trans hclock, hnext, hpass⟩
  pass := by
    have hcovers := h.pass
    cases hpass : p.pass with
    | idle => trivial
    | passing moment rest =>
        rw [hpass] at hcovers
        obtain ⟨hmoment, before, htasks, hcovered⟩ := hcovers
        exact ⟨hmoment.trans hclock, before, htasks, fun task htask =>
          (hcovered task htask).mono hsub⟩
    | returned moment =>
        rw [hpass] at hcovers
        exact fun task htask => (hcovers task htask).mono hsub

/-- A task a pass skips has its slot written. -/
theorem Poller.Sound.skip {clock moment : Instant} {entries : List (Entry V)} {p : Poller}
    {task : Task} {rest : List Task} (h : p.Sound clock entries)
    (hpass : p.pass = .passing moment (task :: rest)) (htask : task ∈ p.app.tasks)
    (hwork : p.work task moment = .skip) : Covered entries moment task := by
  intro trigger htrigger
  rw [Option.mem_def] at htrigger
  simp only [Poller.work, htrigger] at hwork
  split at hwork
  · rename_i hahead
    obtain ⟨due, hdue, hlt⟩ := (Option.any_eq_true _ _).1 hahead
    rw [decide_eq_true_eq] at hlt
    obtain ⟨m, -, hnext, hle⟩ := h.current task htask due hdue trigger htrigger
    have hsteady := (p.app.recurring task htask trigger htrigger).steady
    exact ⟨due, hsteady.same hnext (hle _ _ hpass) hlt, h.written task.name due hdue⟩
  · split at hwork
    · cases hwork
    · cases hwork

theorem Poller.work_write {p : Poller} {task : Task} {moment due : Instant}
    (h : p.work task moment = .write due) :
    ∃ trigger ∈ task.trigger, trigger.nextAfter moment = some due := by
  unfold Poller.work at h
  split at h
  · cases h
  · rename_i trigger htrigger
    split at h
    · cases h
    · split at h
      · cases h
      · rename_i found hfound
        cases h
        exact ⟨trigger, htrigger, hfound⟩

/-! ## Over a whole run -/

namespace Rota

/-- What holds of every process and of the store they share. -/
structure Sound (s : Rota V) : Prop where
  held : ∀ id name slot, s.store.keyOf id = some (some (occurrenceKey name slot)) →
    SlotWritten s.entries name slot
  ahead : ∀ entry ∈ s.entries, entry.moment < entry.row.dueAt
  pollers : ∀ p ∈ s.pollers, p.Sound s.clock s.entries

theorem sound_opened (clock : Instant) : (opened clock : Rota V).Sound where
  held := fun _ _ _ h => by cases h
  ahead := fun _ h => by cases h
  pollers := fun _ h => by cases h

/-- No call but a write of a slot puts one under the key of a slot. -/
theorem Sound.other {s : Rota V} (h : s.Sound) {q : Request Nat V} (hq : q.Foreign) :
    Sound { s with store := (s.store.perform q).2 } where
  held := by
    intro id name slot hid
    by_cases hadd : ∃ run, q = .add run
    · obtain ⟨run, rfl⟩ := hadd
      have hid : (s.store.add run).2.keyOf id = some (some (occurrenceKey name slot)) := hid
      rw [s.store.keyOf_add] at hid
      split at hid
      · exact h.held id name slot hid
      · by_cases hnew : id = s.store.sequence + 1
        · subst hnew
          rw [Function.update_self, Option.some.injEq] at hid
          exact absurd hid (hq run rfl name slot)
        · rw [Function.update_of_ne hnew] at hid
          exact h.held id name slot hid
    · have hid : (s.store.perform q).2.keyOf id = some (some (occurrenceKey name slot)) := hid
      rw [s.store.keyOf_perform fun run hrun => hadd ⟨run, hrun⟩] at hid
      split at hid
      · cases hid
      · exact h.held id name slot hid
  ahead := h.ahead
  pollers := h.pollers

/-- A write leaves the run of its slot written, by this process or by another before. -/
theorem written_write {blank : V} {s : Rota V} (h : s.Sound) (task : Task) (due moment : Instant) :
    SlotWritten (s.write blank task due moment).entries task.name due := by
  cases htaken : s.store.taken (some (occurrenceKey task.name due)) with
  | true =>
      obtain ⟨id, hid⟩ := MemoryStore.taken_iff.1 htaken
      exact (h.held id task.name due hid).mono fun entry hentry => mem_write.2 (Or.inl hentry)
  | false => exact ⟨_, mem_write.2 (Or.inr ⟨htaken, rfl⟩), rfl, rfl, rfl⟩

theorem held_write {blank : V} {s : Rota V} (h : s.Sound) {task : Task} {due moment : Instant}
    {id : Nat} {name : String} {slot : Instant}
    (hid : (s.write blank task due moment).store.keyOf id =
      some (some (occurrenceKey name slot))) :
    SlotWritten (s.write blank task due moment).entries name slot := by
  have hsub : s.entries ⊆ (s.write blank task due moment).entries := fun entry hentry =>
    mem_write.2 (Or.inl hentry)
  have hid : (s.store.add (s.slotRun blank task due)).2.keyOf id =
    some (some (occurrenceKey name slot)) := hid
  rw [s.store.keyOf_add] at hid
  split at hid
  · exact (h.held id name slot hid).mono hsub
  · by_cases hnew : id = s.store.sequence + 1
    · subst hnew
      rw [Function.update_self, Option.some.injEq] at hid
      obtain ⟨rfl, rfl⟩ := occurrenceKey_injective (Option.some.inj hid)
      exact written_write h task due moment
    · rw [Function.update_of_ne hnew] at hid
      exact (h.held id name slot hid).mono hsub

/-- A process that moved without a write. -/
theorem Sound.moves {s t : Rota V} (h : s.Sound) {p after : Poller} (hp : p ∈ s.pollers)
    (hmoves : Moves s t p after) : after.Sound s.clock s.entries where
  written := by
    rw [hmoves.written]
    exact (h.pollers p hp).written
  current := by
    intro task htask due hdue trigger htrigger
    rw [hmoves.app] at htask
    rw [hmoves.written] at hdue
    obtain ⟨m, hm, hnext, hle⟩ := (h.pollers p hp).current task htask due hdue trigger htrigger
    refine ⟨m, hm, hnext, fun moment rest hpass => ?_⟩
    rcases hmoves.pass with
      hidle | hstart | ⟨_, -, hreturned⟩ | ⟨moment', task', rest', hold, -, hnew⟩
    · rw [hidle] at hpass
      cases hpass
    · rw [hstart] at hpass
      cases hpass
      exact hm
    · rw [hreturned] at hpass
      cases hpass
    · rw [hnew] at hpass
      cases hpass
      exact hle _ _ hold
  pass := by
    have hcovers := (h.pollers p hp).pass
    rw [hmoves.app]
    rcases hmoves.pass with hidle | hstart | ⟨moment, hold, hnew⟩ |
      ⟨moment, task, rest, hold, hskip, hnew⟩
    · rw [hidle]
      trivial
    · rw [hstart]
      exact ⟨le_rfl, [], rfl, fun task htask => by cases htask⟩
    · rw [hold] at hcovers
      obtain ⟨-, before, htasks, hcovered⟩ := hcovers
      rw [hnew, htasks, List.append_nil]
      exact hcovered
    · rw [hold] at hcovers
      obtain ⟨hmoment, before, htasks, hcovered⟩ := hcovers
      have htask : task ∈ p.app.tasks := by simp [htasks]
      rw [hnew]
      refine ⟨hmoment, before ++ [task], by simp [htasks], fun other hother => ?_⟩
      rcases List.mem_append.1 hother with hother | hother
      · exact hcovered other hother
      · rw [List.mem_singleton.1 hother]
        exact (h.pollers p hp).skip hold htask hskip

/-- A process that wrote, and was told so or not. -/
theorem Sound.writes {blank : V} {s t : Rota V} {e : Beat V} (h : s.Sound) {p after : Poller}
    (hp : p ∈ s.pollers) {task : Task} {due moment : Instant} {rest : List Task}
    (hwrites : Writes blank s t e p task due moment rest after) :
    after.Sound s.clock (s.write blank task due moment).entries := by
  have hsub : s.entries ⊆ (s.write blank task due moment).entries := fun entry hentry =>
    mem_write.2 (Or.inl hentry)
  have hsound := (h.pollers p hp).mono le_rfl hsub
  have hpass := hsound.pass
  rw [hwrites.passing] at hpass
  obtain ⟨hmoment, before, htasks, hcovered⟩ := hpass
  have htask : task ∈ p.app.tasks := by simp [htasks]
  obtain ⟨trigger, htrigger, hnext⟩ := Poller.work_write hwrites.work
  rcases hwrites.after with rfl | rfl
  · constructor
    · intro name due' hdue
      have hdue : Function.update p.written task.name (some due) name = some due' := hdue
      by_cases hname : name = task.name
      · subst hname
        rw [Function.update_self, Option.some.injEq] at hdue
        subst hdue
        exact written_write h task due moment
      · rw [Function.update_of_ne hname] at hdue
        exact hsound.written name due' hdue
    · intro other hother due' hdue trigger' htrigger'
      have hdue : Function.update p.written task.name (some due) other.name = some due' := hdue
      by_cases hname : other.name = task.name
      · have hsame : other = task :=
          List.inj_on_of_nodup_map p.app.distinct hother htask hname
        subst hsame
        rw [Function.update_self, Option.some.injEq] at hdue
        subst hdue
        rw [Option.mem_def] at htrigger htrigger'
        rw [htrigger, Option.some.injEq] at htrigger'
        subst htrigger'
        refine ⟨moment, hmoment, hnext, fun m rest' hpass => ?_⟩
        cases hpass
        exact le_rfl
      · rw [Function.update_of_ne hname] at hdue
        obtain ⟨m, hm, hnext', hle⟩ := hsound.current other hother due' hdue trigger' htrigger'
        refine ⟨m, hm, hnext', fun m' rest' hpass => ?_⟩
        cases hpass
        exact hle _ _ hwrites.passing
    · refine ⟨hmoment, before ++ [task], by simp [Poller.remember, htasks], fun other hother => ?_⟩
      rcases List.mem_append.1 hother with hother | hother
      · exact hcovered other hother
      · rw [List.mem_singleton.1 hother]
        intro trigger' htrigger'
        rw [Option.mem_def] at htrigger htrigger'
        rw [htrigger, Option.some.injEq] at htrigger'
        subst htrigger'
        exact ⟨due, hnext, written_write h task due moment⟩
  · constructor
    · exact hsound.written
    · intro other hother due' hdue trigger' htrigger'
      obtain ⟨m, hm, hnext', -⟩ := hsound.current other hother due' hdue trigger' htrigger'
      exact ⟨m, hm, hnext', fun _ _ hpass => by cases hpass⟩
    · trivial

theorem sound_step {blank : V} {s t : Rota V} {e : Beat V} (h : s.Sound)
    (ht : s.step blank e = some t) : t.Sound := by
  rcases step_cases ht with ⟨later, hlater, rfl⟩ | ⟨app, hothers, hclock, hstore, hentries⟩ |
    ⟨p, hp, after, hothers, hmoves⟩ |
    ⟨p, hp, after, task, due, moment, rest, hothers, hwrites⟩ | ⟨q, foreign, -, rfl⟩
  · exact ⟨h.held, h.ahead, fun p hp => (h.pollers p hp).mono hlater (List.Subset.refl _)⟩
  · constructor
    · rw [hstore, hentries]
      exact h.held
    · rw [hentries]
      exact h.ahead
    · intro p hp
      rw [hclock, hentries]
      rcases hothers p hp with hold | rfl
      · exact h.pollers p hold
      · exact Poller.sound_fresh _ _ app
  · constructor
    · rw [hmoves.store, hmoves.entries]
      exact h.held
    · rw [hmoves.entries]
      exact h.ahead
    · intro p' hp'
      rw [hmoves.clock, hmoves.entries]
      rcases hothers p' hp' with hold | rfl
      · exact h.pollers p' hold
      · exact h.moves hp hmoves
  · constructor
    · intro id name slot hid
      rw [hwrites.store] at hid
      rw [hwrites.entries]
      exact held_write h hid
    · intro entry hentry
      rw [hwrites.entries, mem_write] at hentry
      rcases hentry with hold | ⟨-, rfl⟩
      · exact h.ahead entry hold
      · obtain ⟨trigger, htrigger, hnext⟩ := Poller.work_write hwrites.work
        have hcovers := (h.pollers p hp).pass
        rw [hwrites.passing] at hcovers
        obtain ⟨-, before, htasks, -⟩ := hcovers
        have htask : task ∈ p.app.tasks := by simp [htasks]
        exact (p.app.recurring task htask trigger htrigger).steady.after hnext
    · intro p' hp'
      rw [hwrites.clock, hwrites.entries]
      rcases hothers p' hp' with hold | rfl
      · exact (h.pollers p' hold).mono le_rfl fun entry hentry => mem_write.2 (Or.inl hentry)
      · exact h.writes hp hwrites
  · exact h.other foreign

/-- No slot is lost: once a pass has returned, the slot each recurring task of its application has
next after the moment of the pass was written; what a process remembers was written; and every
slot was written ahead of the moment of its pass. -/
theorem no_slot_lost {blank : V} {clock : Instant} {s : Rota V}
    (h : Reach (step blank) Unconditional (opened clock) s) :
    (∀ p ∈ s.pollers, ∀ moment, p.pass = .returned moment → ∀ task ∈ p.app.tasks,
      ∀ trigger ∈ task.trigger, ∃ due, trigger.nextAfter moment = some due ∧
        SlotWritten s.entries task.name due) ∧
    (∀ p ∈ s.pollers, ∀ name due, p.written name = some due → SlotWritten s.entries name due) ∧
    ∀ entry ∈ s.entries, entry.moment < entry.row.dueAt := by
  have hsound : s.Sound := h.invariant (sound_opened clock) fun _ hs _ ht => sound_step hs ht
  refine ⟨fun p hp moment hpass => ?_, fun p hp => (hsound.pollers p hp).written, hsound.ahead⟩
  have hcovers := (hsound.pollers p hp).pass
  rw [hpass] at hcovers
  exact hcovers

/-- A task due every minute. -/
def minutely : Task where
  name := "pulse"
  handler := .coroutine
  queue := "default"
  trigger := some (Interval.trigger ⟨60000000, by decide⟩)
  maxAttempts := 1
  timeout := none
  retryPolicy := .exponential
  retryDelay := 5
  maxRetryDelay := 3600
  priority := 0
  tried := once_tried
  counted := once_counted

def minutelyApp : App where
  tasks := [minutely]
  distinct := by decide
  recurring := by
    intro task htask trigger htrigger
    rw [List.mem_singleton.1 htask] at htrigger
    cases htrigger
    exact .interval _
  keyed := by
    intro task htask _
    rw [List.mem_singleton.1 htask]
    decide +kernel

/-- Half a minute past the epoch. -/
def halfMinute : Instant := (Instant.epoch.plus 30000000).get rfl

/-- A pass whose write is lost, the pass after it, and one while the slot is still ahead. -/
def threePasses : List (Beat Unit) :=
  [.arrive minutelyApp, .start 0, .advance 0 (.lost false), .start 0, .advance 0 .answered,
   .advance 0 .answered, .tick halfMinute, .start 0, .advance 0 .answered,
   .advance 0 .answered]

theorem no_slot_lost_three : ∃ t, runAll (step ()) (opened Instant.epoch) threePasses = some t ∧
    (∃ p ∈ t.pollers, p.pass = .returned ⟨30000000, by decide, by decide⟩) ∧
      (∀ p ∈ t.pollers, ∀ name due, p.written name = some due → SlotWritten t.entries name due) ∧
        ∀ entry ∈ t.entries, entry.moment < entry.row.dueAt := by
  have hwhole : ∀ t : Rota Unit, runAll (step ()) (opened Instant.epoch) threePasses = some t → _ :=
    fun t ht => no_slot_lost (.of_runAll .start ht)
  exact ⟨_, rfl, ⟨_, List.mem_cons_self, rfl⟩, (hwhole _ rfl).2⟩

end Rota

end Queuefy
