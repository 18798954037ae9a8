import Queuefy.Fleet.Fencing

/-! # Calls that arrive late

A call of an attempt takes effect whenever it gets to the store, after any number of later
calls. The store takes it exactly when its claim still holds the run, with one exception: a
beat that trails the release of its own claim is taken for a beat of the next claim the same
worker made, because the release gave the number back and the next claim minted it again.
-/

namespace Queuefy.Fleet

variable {V : Type} (team : Nat → Worker)

/-- The call landing is a beat of a claim that was handed back, and by now a worker of the same
name holds the run again under the same number. -/
def Trailing (s : Fleet V) (e : Event V) (c : Claim V) : Prop :=
  ∃ i k moment, e = .beatLands i k ∧ s.claims[i]? = some c ∧ c.beats[k]? = some moment ∧
    (moment.plus (team c.worker).lease).isSome ∧ c.released = true ∧
    ∃ d ∈ s.claims, d.holds = true ∧ d.row.id = c.row.id ∧
      (team d.worker).name = (team c.worker).name ∧ d.row.attempts = c.row.attempts

variable {team}

theorem landing_cases {s : Fleet V} {e : Event V} {c : Claim V} {taken : Bool}
    (h : s.landing team e = some (c, taken)) :
    (∃ i k moment, e = .beatLands i k ∧ s.claims[i]? = some c ∧ c.beats[k]? = some moment ∧
      taken = ((beat team s.store c moment).1 == .ok true)) ∨
    (∃ i ending, e = .lands i ∧ s.claims[i]? = some c ∧ c.phase = .asked ending ∧
      taken = (end_ team s.store c ending).1) := by
  cases e with
  | beatLands i k =>
      simp only [landing] at h
      split at h
      · cases h
      · rename_i d hd
        obtain ⟨moment, hbeat, heq⟩ := Option.map_eq_some_iff.mp h
        cases heq
        exact Or.inl ⟨i, k, moment, rfl, hd, hbeat, rfl⟩
  | lands i =>
      simp only [landing] at h
      split at h
      · cases h
      · rename_i d hd
        split at h
        · rename_i ending hasked
          cases h
          exact Or.inr ⟨i, ending, rfl, hd, hasked, rfl⟩
        · cases h
  | _ => simp [landing] at h

theorem beat_taken {store : MemoryStore V} {c : Claim V} {moment : Instant} :
    ((beat team store c moment).1 == .ok true) = true ↔
      (∃ row, store.held c.row.id (team c.worker).name c.row.attempts = some row) ∧
        (moment.plus (team c.worker).lease).isSome := by
  unfold beat MemoryStore.heartbeat
  cases store.held c.row.id (team c.worker).name c.row.attempts with
  | none => simp
  | some row =>
      cases moment.plus (team c.worker).lease with
      | none => simp
      | some leaseEnd => simp

theorem ending_taken {store : MemoryStore V} {c : Claim V} {ending : Ending V} :
    (end_ team store c ending).1 = true ↔
      ∃ row, store.held c.row.id (team c.worker).name c.row.attempts = some row := by
  rcases end_cases team store c ending with ⟨hnone, heq⟩ | ⟨row, hheld, heq⟩
  · simp [heq, hnone]
  · simp [heq, hheld]

theorem Fenced.taken_trailing {s : Fleet V} (hF : Fenced team s) {c d : Claim V}
    (hd : d ∈ s.claims) (hholds : d.holds = true) (hid : d.row.id = c.row.id)
    (hname : (team d.worker).name = (team c.worker).name)
    (hnumber : d.row.attempts = c.row.attempts) :
    ∃ row, s.store.held c.row.id (team c.worker).name c.row.attempts = some row := by
  rw [← hid, ← hname, ← hnumber]
  exact hF.holder d hd hholds

theorem Fenced.held_by {s : Fleet V} (hF : Fenced team s) {c : Claim V} {row : Row Nat V}
    (hheld : s.store.held c.row.id (team c.worker).name c.row.attempts = some row) :
    ∃ d ∈ s.claims, d.holds = true ∧ d.row.id = c.row.id ∧
      (team d.worker).name = (team c.worker).name ∧ d.row.attempts = c.row.attempts := by
  obtain ⟨hget, hworker, hrunning, hattempts⟩ := MemoryStore.held_eq_some.1 hheld
  obtain ⟨d, hd, hholds, hid⟩ := hF.owned _ row hget hrunning
  obtain ⟨row', hget', -, hworker', hattempts'⟩ := hF.running_of_holds hd hholds
  rw [hid, hget, Option.some.injEq] at hget'
  subst hget'
  exact ⟨d, hd, hholds, hid, Option.some.inj (hworker'.symm.trans hworker),
    hattempts'.symm.trans hattempts⟩

theorem refused_keeps_store {s t : Fleet V} {e : Event V} {c : Claim V}
    (h : s.landing team e = some (c, false)) (ht : s.step team e = some t) :
    t.store = s.store := by
  obtain ⟨u, fresh, hact, rfl⟩ := (step_eq_some team).1 ht
  rcases landing_cases h with
    ⟨i, k, moment, rfl, hc, hbeat, htaken⟩ | ⟨i, ending, rfl, hc, hasked, htaken⟩
  · simp only [act, hc, hbeat, Option.some.injEq, Prod.mk.injEq] at hact
    obtain ⟨rfl, -⟩ := hact
    rcases MemoryStore.heartbeat_cases s.store c.row.id (team c.worker).name c.row.attempts
        (team c.worker).lease moment with ⟨-, hb⟩ | ⟨-, hb⟩ | ⟨row, leaseEnd, -, -, hb⟩
    · simp [observe, beat, hb]
    · simp [observe, beat, hb]
    · simp [beat, hb] at htaken
  · simp only [act, hc, hasked, Option.some.injEq, Prod.mk.injEq] at hact
    obtain ⟨rfl, -⟩ := hact
    rcases end_cases team s.store c ending with ⟨-, he⟩ | ⟨row, -, he⟩
    · simp [observe, he]
    · simp [he] at htaken

variable (team)

/-- In every fleet reached, a call landing is taken only under the claim that holds the run,
unless it is a trailing beat; and a call that is not taken changes nothing. -/
theorem late_call_fenced {s : Fleet V} (h : Reach (step team) Unconditional start s)
    {e : Event V} {c : Claim V} {taken : Bool} (hl : s.landing team e = some (c, taken)) :
    ((taken = true → c.holds = true) ↔ ¬ Trailing team s e c) ∧
      (taken = false → ∀ t, s.step team e = some t → t.store = s.store) := by
  have hF := reach_fenced team h
  refine ⟨⟨?_, ?_⟩, ?_⟩
  · rintro himp ⟨i, k, moment, rfl, hc, hbeat, hlease, hreleased, d, hd, hholds, hid, hname, hnum⟩
    simp only [landing, hc, hbeat, Option.map_some, Option.some.injEq, Prod.mk.injEq,
      true_and] at hl
    have htaken := beat_taken.2 ⟨hF.taken_trailing hd hholds hid hname hnum, hlease⟩
    have hlost := hF.handedBack c (List.mem_of_getElem? hc) hreleased
    rw [himp (hl ▸ htaken)] at hlost
    cases hlost
  · intro hnot htaken
    subst htaken
    rcases landing_cases hl with
      ⟨i, k, moment, rfl, hc, hbeat, heq⟩ | ⟨i, ending, rfl, hc, hasked, heq⟩
    · obtain ⟨⟨row, hheld⟩, hlease⟩ := beat_taken.1 heq.symm
      by_cases hreleased : c.released = true
      · exact absurd ⟨i, k, moment, rfl, hc, hbeat, hlease, hreleased, hF.held_by hheld⟩ hnot
      · exact hF.holds_of_held (List.mem_of_getElem? hc) (by simpa using hreleased) hheld
    · obtain ⟨row, hheld⟩ := ending_taken.1 heq.symm
      exact hF.holds_of_held (List.mem_of_getElem? hc) (Claim.not_released_of_asked hasked) hheld
  · rintro rfl t ht
    exact refused_keeps_store hl ht

/-! ## A beat trailing a release -/

/-- A worker that serves the default queue and declares no task. -/
def undeclared : Worker where
  name := "w"
  queues := ["default"]
  lease := 12
  tasks := []
  builtAt := .epoch
  leased := by decide
  leaseWaited := by decide

/-- A task some other process enqueues, under the defaults a task has. -/
def remote : Task where
  name := "mail"
  handler := .plain
  queue := "default"
  trigger := none
  maxAttempts := 1
  timeout := none
  retryPolicy := .exponential
  retryDelay := 0
  maxRetryDelay := 3600
  priority := 0
  tried := once_tried
  counted := once_counted

/-- The run is claimed and a beat of the claim goes out; before it lands, the run is handed back
for a name this worker does not declare and claimed again by the same worker. -/
def trailing : List (Event Unit) :=
  [.add remote .epoch .epoch () none none,
   .claim 0 1 .epoch true,
   .push 0 ⟨4, by decide, by decide⟩,
   .move 0 (.call ⟨⟨5, by decide, by decide⟩, ⟨5, by decide, by decide⟩, "", "UnknownTask"⟩),
   .lands 0,
   .claim 0 1 ⟨6, by decide, by decide⟩ true]

/-- The trailing beat is taken although its claim was handed back, and pulls the lease of the
claim that holds the run from the eighteenth instant back to the sixteenth. -/
theorem trailing_beat_taken :
    ∃ s t : Fleet Unit, ∃ c : Claim Unit,
      Reach (step fun _ => undeclared) Unconditional start s ∧
      s.landing (fun _ => undeclared) (.beatLands 0 0) = some (c, true) ∧ c.holds = false ∧
      s.step (fun _ => undeclared) (.beatLands 0 0) = some t ∧
      ((s.store.get 1).bind (·.leaseUntil)).map (·.micro) = some 18 ∧
      ((t.store.get 1).bind (·.leaseUntil)).map (·.micro) = some 16 :=
  ⟨(runAll (step fun _ => undeclared) start trailing).get (by rfl), _, _,
    .of_runAll .start (Option.some_get _).symm, rfl, rfl, rfl, by decide, by decide⟩

/-- The ending of the second claim is fenced: it is taken, and its claim holds the run. -/
theorem late_call_fenced_ending :
    ∃ (s : Fleet Unit) (c : Claim Unit),
      Reach (step fun _ => undeclared) Unconditional start s ∧
      s.landing (fun _ => undeclared) (.lands 1) = some (c, true) ∧ c.holds = true := by
  have hreach : Reach (step fun _ => undeclared) Unconditional start
      ((runAll (step fun _ => undeclared) (start : Fleet Unit) (trailing ++ [.move 1 (.call
        ⟨⟨7, by decide, by decide⟩, ⟨7, by decide, by decide⟩, "", "UnknownTask"⟩)])).get
          (by rfl)) :=
    .of_runAll .start (Option.some_get _).symm
  refine ⟨_, _, hreach, rfl, ?_⟩
  exact (late_call_fenced _ hreach (e := .lands 1) rfl).1.2 (by rintro ⟨_, _, _, he, -⟩; cases he)
    rfl

end Queuefy.Fleet
