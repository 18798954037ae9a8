import Queuefy.App.OneRun

/-! # What remembering a slot changes

A process remembers the slot it wrote last of each task, so that a pass works the next one out only
once that one has come. Without it every pass would work out every slot and ask the store for every
run again, to be told that its key is taken. Nothing else would be different: what the store holds
after a run is what it holds after the same run without the memory.
-/

namespace Queuefy

variable {V : Type}

def Poller.forget (p : Poller) : Poller := { p with written := fun _ => none }

namespace Rota

/-- Every process with its memory emptied. -/
def forget (s : Rota V) : Rota V := { s with pollers := s.pollers.map Poller.forget }

/-- A step of processes that remember nothing. -/
def stepPlain (blank : V) (s : Rota V) (e : Beat V) : Option (Rota V) :=
  (s.step blank e).map forget

/-- The same step, or one in which a pass asks for a slot again and is answered. -/
inductive Asked : Beat V → Beat V → Prop
  | same (e : Beat V) : Asked e e
  | again (i : Nat) (told : Told) : Asked (.advance i told) (.advance i .answered)

/-- A slot that a pass skips because its process remembers it has still not come when the pass gets
there. -/
def Prompt (s : Rota V) : Beat V → Prop
  | .advance i _ => ∀ p, s.pollers[i]? = some p → ∀ moment task rest,
      p.pass = .passing moment (task :: rest) → ∀ due, p.written task.name = some due →
        moment < due → s.clock < due
  | _ => True

/-! ## The memory emptied -/

theorem forget_put (s : Rota V) (i : Nat) (p : Poller) :
    (s.put i p).forget = s.forget.put i p.forget := by
  simp [forget, put, List.map_set]

theorem forget_forget (s : Rota V) : s.forget.forget = s.forget := by
  simp [forget, Poller.forget]

theorem forget_getElem? (s : Rota V) (i : Nat) :
    s.forget.pollers[i]? = (s.pollers[i]?).map Poller.forget := by
  simp [forget]

theorem forget_write (blank : V) (s : Rota V) (task : Task) (due moment : Instant) :
    (s.write blank task due moment).forget = s.forget.write blank task due moment := rfl

/-- What a process that remembers nothing makes of a task: the same, but for a slot the other one
skips because it is still ahead. -/
theorem work_forget (p : Poller) (task : Task) (moment : Instant) :
    p.forget.work task moment = p.work task moment ∨
      p.work task moment = .skip ∧ ∃ trigger due, task.trigger = some trigger ∧
        p.written task.name = some due ∧ moment < due := by
  unfold Poller.work
  cases htrigger : task.trigger with
  | none => exact Or.inl rfl
  | some trigger =>
      by_cases hahead : (p.written task.name).any (moment < ·) = true
      · rcases (Option.any_eq_true _ _).1 hahead with ⟨due, hdue, hlt⟩
        simp only [if_pos hahead]
        exact Or.inr ⟨trivial, trigger, due, rfl, hdue, of_decide_eq_true hlt⟩
      · simp only [if_neg hahead]
        exact Or.inl rfl

/-! ## One step -/

theorem write_of_taken {blank : V} {s : Rota V} {task : Task} {due moment : Instant}
    (h : s.store.taken (some (occurrenceKey task.name due)) = true) :
    s.write blank task due moment = s := by
  have hadd : s.store.add (s.slotRun blank task due) = (none, s.store) := by
    simp [MemoryStore.add, slotRun, build, h]
  simp [write, hadd]

theorem taken_of_written {s : Rota V} (hsound : s.Sound) (hsingle : s.Single) {p : Poller}
    (hp : p ∈ s.pollers) {name : String} {due : Instant} (hdue : p.written name = some due)
    (hahead : s.clock < due) : s.store.taken (some (occurrenceKey name due)) = true := by
  rcases (hsound.pollers p hp).written name due hdue with ⟨entry, hentry, -, hslot, hkey⟩
  have hstored := hsingle.stored entry hentry (hslot ▸ hahead)
  rw [hkey] at hstored
  exact MemoryStore.taken_iff.2 ⟨_, hstored⟩

theorem advance_forget (blank : V) {s : Rota V} (hsound : s.Sound) (hsingle : s.Single) {i : Nat}
    {told : Told} {p : Poller} (hp : s.pollers[i]? = some p) {moment : Instant} {todo : List Task}
    (hpass : p.pass = .passing moment todo) (hprompt : s.Prompt (.advance i told)) :
    ∃ told', (told' = told ∨ told' = .answered) ∧
      (s.forget.advance blank i told' p.forget moment todo).forget =
        (s.advance blank i told p moment todo).forget := by
  cases todo with
  | nil =>
      refine ⟨told, Or.inl rfl, ?_⟩
      simp only [advance, forget_put, forget_forget]
      rfl
  | cons task rest =>
      rcases work_forget p task moment with hsame | ⟨hskip, trigger, due, htrigger, hdue, hlt⟩
      · -- the same is made of the task
        refine ⟨told, Or.inl rfl, ?_⟩
        simp only [advance, hsame]
        cases hwork : p.work task moment with
        | skip | raise =>
            simp only [forget_put, forget_forget]
            rfl
        | write slot =>
            cases told with
            | answered =>
                simp only [forget_put, forget_write, forget_forget]
                congr 1
            | lost landed =>
                cases landed with
                | true =>
                    simp only [forget_put, forget_write, forget_forget]
                    rfl
                | false =>
                    simp only [forget_put, forget_forget]
                    rfl
      · -- the slot is asked for again, and its key is taken
        have hmem := List.mem_of_getElem? hp
        have hahead := hprompt p hp moment task rest hpass due hdue hlt
        have htaken := taken_of_written hsound hsingle hmem hdue hahead
        have hcovers := (hsound.pollers p hmem).pass
        rw [hpass] at hcovers
        rcases hcovers with ⟨-, before, htasks, -⟩
        have htask : task ∈ p.app.tasks := by simp [htasks]
        rcases (hsound.pollers p hmem).current task htask due hdue trigger htrigger with
          ⟨m, -, hnext, hle⟩
        have hsteady := (p.app.recurring task htask trigger htrigger).steady
        have hagain := hsteady.same hnext (hle moment (task :: rest) hpass) hlt
        have hwork : p.forget.work task moment = .write due := by
          simp [Poller.work, Poller.forget, htrigger, hagain]
        have hwrite : s.forget.write blank task due moment = s.forget := write_of_taken htaken
        refine ⟨.answered, Or.inr rfl, ?_⟩
        simp only [advance, hwork, hskip, hwrite, forget_put, forget_forget]
        congr 1

theorem step_forget {blank : V} {s t : Rota V} (hsound : s.Sound) (hsingle : s.Single) {e : Beat V}
    (hprompt : s.Prompt e) (ht : s.step blank e = some t) :
    ∃ e', Asked e e' ∧ s.forget.stepPlain blank e' = some t.forget := by
  cases e with
  | tick later =>
      refine ⟨.tick later, .same _, ?_⟩
      simp only [step, Option.ite_none_right_eq_some, Option.some.injEq] at ht
      rcases ht with ⟨hlater, rfl⟩
      have hlater' : s.forget.clock ≤ later := hlater
      simp only [stepPlain, step, if_pos hlater', Option.map_some]
      exact congrArg some (forget_forget { s with clock := later })
  | arrive app =>
      cases ht
      refine ⟨.arrive app, .same _, ?_⟩
      simp [stepPlain, step, forget, Poller.forget, Poller.fresh]
  | restart i app =>
      cases ht
      refine ⟨.restart i app, .same _, ?_⟩
      simp only [stepPlain, step, Option.map_some, forget_put, forget_forget]
  | start i =>
      refine ⟨.start i, .same _, ?_⟩
      cases hp : s.pollers[i]? with
      | none => simp [step, hp] at ht
      | some p =>
          simp only [step, hp] at ht
          cases hpass : p.pass with
          | passing moment rest => simp [hpass] at ht
          | idle | returned moment =>
              simp only [hpass, Option.some.injEq] at ht
              subst ht
              have hpass' : p.forget.pass = p.pass := rfl
              simp only [stepPlain, step, forget_getElem?, hp, Option.map_some, hpass', hpass,
                forget_put, forget_forget]
              rfl
  | advance i told =>
      cases hp : s.pollers[i]? with
      | none => simp [step, hp] at ht
      | some p =>
          simp only [step, hp] at ht
          cases hpass : p.pass with
          | idle | returned moment => simp [hpass] at ht
          | passing moment todo =>
              simp only [hpass, Option.some.injEq] at ht
              subst ht
              rcases advance_forget blank hsound hsingle hp hpass hprompt with
                ⟨told', htold, hsame⟩
              have hpass' : p.forget.pass = p.pass := rfl
              have hasked : Asked (.advance i told : Beat V) (.advance i told') := by
                rcases htold with rfl | rfl
                · exact .same _
                · exact .again i told
              refine ⟨.advance i told', hasked, ?_⟩
              simp only [stepPlain, step, forget_getElem?, hp, Option.map_some, hpass', hpass,
                hsame]
  | other q foreign =>
      cases ht
      refine ⟨.other q foreign, .same _, ?_⟩
      simp only [stepPlain, step, Option.map_some]
      exact congrArg some (forget_forget { s with store := (s.store.perform q).2 })

/-! ## A whole run -/

/-- Every step of a run is made as it should be: in its time, with no slot lost to a pruning or
come before its write lands, and none come under a pass that skips it. -/
def Orderly (s : Rota V) (e : Beat V) : Prop := Timed s e ∧ Spared s e ∧ s.Prompt e

theorem run_forget {blank : V} {s t : Rota V} {beats : List (Beat V)} (hsound : s.Sound)
    (hsingle : s.Single) (hok : Meets (step blank) Orderly s beats)
    (ht : runAll (step blank) s beats = some t) :
    ∃ plainly, List.Forall₂ Asked beats plainly ∧
      runAll (stepPlain blank) s.forget plainly = some t.forget := by
  induction beats generalizing s with
  | nil =>
      cases ht
      exact ⟨[], .nil, rfl⟩
  | cons e es ih =>
      rcases Option.bind_eq_some_iff.1 ht with ⟨u, hu, hrest⟩
      rcases hok with ⟨⟨htimed, hspared, hprompt⟩, hlater⟩
      rcases step_forget hsound hsingle hprompt hu with ⟨e', hasked, hstep⟩
      rcases ih (sound_step hsound hu) (single_step hsingle htimed hspared hu) (hlater u hu) hrest
        with ⟨es', hall, hruns⟩
      exact ⟨e' :: es', .cons hasked hall, Option.bind_eq_some_iff.2 ⟨_, hstep, hruns⟩⟩

/-- As long as no slot comes while a pass that skips it is under way, no pruning drops a called off
run of a slot still ahead and no write lands late, the memory changes nothing but how often the
store is asked: without it the same steps leave the same store, the same clock and the same runs
written. -/
theorem memory_only_saves_asking {blank : V} {clock : Instant} {beats : List (Beat V)} {t : Rota V}
    (hok : Meets (step blank) Orderly (opened clock) beats)
    (ht : runAll (step blank) (opened clock) beats = some t) :
    ∃ plainly plain, List.Forall₂ Asked beats plainly ∧
      runAll (stepPlain blank) (opened clock) plainly = some plain ∧ plain.clock = t.clock ∧
        plain.store = t.store ∧ plain.entries = t.entries ∧
          plain.pollers.map (·.pass) = t.pollers.map (·.pass) := by
  rcases run_forget (sound_opened clock) (single_opened clock) hok ht with ⟨plainly, hall, hruns⟩
  have hpasses : t.forget.pollers.map (·.pass) = t.pollers.map (·.pass) := by
    simp [forget, Poller.forget]
  exact ⟨plainly, t.forget, hall, hruns, rfl, rfl, rfl, hpasses⟩

theorem threePasses_orderly :
    Meets (step ()) Orderly (opened Instant.epoch) threePasses := by
  refine ⟨⟨trivial, trivial, trivial⟩, fun _ h => ?_⟩
  cases h
  refine ⟨⟨trivial, trivial, trivial⟩, fun _ h => ?_⟩
  cases h
  refine ⟨⟨trivial, ?_, ?_⟩, fun _ h => ?_⟩
  · intro hlands
    cases hlands
  · intro p hp moment task rest hpass due hdue
    cases hp
    cases hdue
  cases h
  refine ⟨⟨trivial, trivial, trivial⟩, fun _ h => ?_⟩
  cases h
  refine ⟨⟨trivial, ?_, ?_⟩, fun _ h => ?_⟩
  · intro _ p hp moment task rest due hpass hwork
    cases hp
    cases hpass
    cases hwork
    decide
  · intro p hp moment task rest hpass due hdue
    cases hp
    cases hdue
  cases h
  refine ⟨⟨trivial, ?_, ?_⟩, fun _ h => ?_⟩
  · intro _ p hp moment task rest due hpass hwork
    cases hp
    cases hpass
  · intro p hp moment task rest hpass
    cases hp
    cases hpass
  cases h
  refine ⟨⟨trivial, trivial, trivial⟩, fun _ h => ?_⟩
  cases h
  refine ⟨⟨trivial, trivial, trivial⟩, fun _ h => ?_⟩
  cases h
  refine ⟨⟨trivial, ?_, ?_⟩, fun _ h => ?_⟩
  · intro _ p hp moment task rest due hpass hwork
    cases hp
    cases hpass
    cases hwork
  · intro p hp moment task rest hpass due hdue hlt
    cases hp
    cases hpass
    exact hlt
  cases h
  refine ⟨⟨trivial, ?_, ?_⟩, fun _ _ => trivial⟩
  · intro _ p hp moment task rest due hpass hwork
    cases hp
    cases hpass
  · intro p hp moment task rest hpass
    cases hp
    cases hpass

/-- The third pass skips the slot, and without the memory asks for it again. -/
theorem memory_only_saves_asking_three : ∃ t plainly plain,
    runAll (step ()) (opened Instant.epoch) threePasses = some t ∧
      List.Forall₂ Asked threePasses plainly ∧
        runAll (stepPlain ()) (opened Instant.epoch) plainly = some plain ∧
          plain.store = t.store ∧ t.store.runs.length = 1 := by
  have hwhole := fun (t : Rota Unit) ht => memory_only_saves_asking
    threePasses_orderly (t := t) ht
  rcases hwhole _ rfl with ⟨plainly, plain, hall, hruns, -, hstore, -⟩
  exact ⟨_, plainly, plain, rfl, hall, hruns, hstore, rfl⟩

/-! ## How often a slot is asked for -/

/-- The slot a step has a process ask the store for, and the store answers. -/
def asking (s : Rota V) (i : Nat) : Beat V → Option (String × Instant)
  | .advance j .answered =>
      if j = i then
        match s.pollers[i]? with
        | none => none
        | some p =>
            match p.pass with
            | .passing moment (task :: _) =>
                match p.work task moment with
                | .write due => some (task.name, due)
                | .skip | .raise => none
            | .passing _ [] | .idle | .returned _ => none
      else none
  | _ => none

/-- Every slot a process asks the store for along a run. -/
def asks (blank : V) (i : Nat) : Rota V → List (Beat V) → List (String × Instant)
  | _, [] => []
  | s, e :: es =>
      match s.step blank e with
      | none => []
      | some t => (s.asking i e).toList ++ asks blank i t es

theorem put_pollers_self {s u : Rota V} {i : Nat} {p : Poller} (hp : s.pollers[i]? = some p)
    (hu : u.pollers = s.pollers) (after : Poller) : (u.put i after).pollers[i]? = some after := by
  have hlt : i < s.pollers.length := (List.getElem?_eq_some_iff.1 hp).1
  simp only [put, hu]
  rw [List.getElem?_set_self hlt]

theorem put_pollers_other {s u : Rota V} {i j : Nat} {p : Poller} (hp : s.pollers[i]? = some p)
    (hu : u.pollers = s.pollers) (hj : j ≠ i) (after : Poller) :
    (u.put j after).pollers[i]? = some p := by
  simp only [put, hu]
  rw [List.getElem?_set_ne hj, hp]

theorem asking_of_none {s : Rota V} {i : Nat} (hp : s.pollers[i]? = none) (e : Beat V) :
    s.asking i e = none := by
  cases e with
  | advance j told => cases told <;> simp [asking, hp]
  | _ => rfl

theorem asked_past {s : Rota V} (hsound : s.Sound) {i : Nat} {p : Poller}
    (hp : s.pollers[i]? = some p) {moment due : Instant} {task : Task} {rest : List Task}
    (hpass : p.pass = .passing moment (task :: rest)) (hwork : p.work task moment = .write due)
    {noted : Instant} (hnoted : p.written task.name = some noted) : noted < due := by
  have hcovers := (hsound.pollers p (List.mem_of_getElem? hp)).pass
  rw [hpass] at hcovers
  rcases hcovers with ⟨-, before, htasks, -⟩
  have htask : task ∈ p.app.tasks := by simp [htasks]
  rcases Poller.work_write hwork with ⟨trigger, htrigger, hnext⟩
  have hafter : moment < due := (p.app.recurring task htask trigger htrigger).steady.after hnext
  have hcome : noted ≤ moment := by
    by_contra hahead
    simp [Poller.work, Option.mem_def.1 htrigger, hnoted, not_le.1 hahead] at hwork
  exact hcome.trans_lt hafter

theorem remembers_advance {blank : V} {s : Rota V} (hsound : s.Sound) {i : Nat} {told : Told}
    {p : Poller} (hp : s.pollers[i]? = some p) {moment : Instant} {todo : List Task}
    (hpass : p.pass = .passing moment todo) :
    ∃ after, (s.advance blank i told p moment todo).pollers[i]? = some after ∧
      (s.asking i (.advance i told) = none ∧ after.written = p.written ∨
        ∃ name due, s.asking i (.advance i told) = some (name, due) ∧
          after.written = Function.update p.written name (some due) ∧
            ∀ noted, p.written name = some noted → noted < due) := by
  cases todo with
  | nil =>
      refine ⟨_, put_pollers_self hp rfl _, Or.inl ⟨?_, rfl⟩⟩
      cases told <;> simp [asking, hp, hpass]
  | cons task rest =>
      simp only [advance]
      cases hwork : p.work task moment with
      | skip | raise =>
          refine ⟨_, put_pollers_self hp rfl _, Or.inl ⟨?_, rfl⟩⟩
          cases told <;> simp [asking, hp, hpass, hwork]
      | write due =>
          cases told with
          | answered =>
              refine ⟨_, put_pollers_self (u := s.write blank task due moment) hp rfl _,
                Or.inr ⟨task.name, due, ?_, rfl, fun _ => asked_past hsound hp hpass hwork⟩⟩
              simp [asking, hp, hpass, hwork]
          | lost landed =>
              cases landed with
              | true =>
                  exact ⟨_, put_pollers_self (u := s.write blank task due moment) hp rfl _,
                    Or.inl ⟨rfl, rfl⟩⟩
              | false => exact ⟨_, put_pollers_self hp rfl _, Or.inl ⟨rfl, rfl⟩⟩

theorem advance_put (blank : V) (s : Rota V) (i : Nat) (told : Told) (p : Poller)
    (moment : Instant) (todo : List Task) :
    ∃ after u, s.advance blank i told p moment todo = Rota.put u i after ∧
      u.pollers = s.pollers := by
  cases todo with
  | nil => exact ⟨_, s, rfl, rfl⟩
  | cons task rest =>
      simp only [advance]
      cases p.work task moment with
      | skip | raise => exact ⟨_, s, rfl, rfl⟩
      | write due =>
          cases told with
          | answered => exact ⟨_, s.write blank task due moment, rfl, rfl⟩
          | lost landed =>
              cases landed with
              | true => exact ⟨_, s.write blank task due moment, rfl, rfl⟩
              | false => exact ⟨_, s, rfl, rfl⟩

theorem asking_other {s : Rota V} {i j : Nat} (hj : j ≠ i) (told : Told) :
    s.asking i (.advance j told) = none := by
  cases told <;> simp [asking, hj]

/-- What a step makes of the memory of a process that does not come up again: nothing, or it notes
the slot asked for, which is past the one it noted before. -/
theorem remembers_step {blank : V} {s t : Rota V} {e : Beat V} {i : Nat} {p : Poller}
    (hsound : s.Sound) (ht : s.step blank e = some t) (hp : s.pollers[i]? = some p)
    (hlife : ∀ app, e ≠ .restart i app) :
    ∃ after, t.pollers[i]? = some after ∧
      (s.asking i e = none ∧ after.written = p.written ∨
        ∃ name due, s.asking i e = some (name, due) ∧
          after.written = Function.update p.written name (some due) ∧
            ∀ noted, p.written name = some noted → noted < due) := by
  cases e with
  | tick later =>
      simp only [step, Option.ite_none_right_eq_some, Option.some.injEq] at ht
      rcases ht with ⟨-, rfl⟩
      exact ⟨p, hp, Or.inl ⟨rfl, rfl⟩⟩
  | arrive app =>
      cases ht
      have hlt : i < s.pollers.length := (List.getElem?_eq_some_iff.1 hp).1
      have hkept : (s.pollers ++ [Poller.fresh app])[i]? = some p := by
        rw [List.getElem?_append_left hlt, hp]
      exact ⟨p, hkept, Or.inl ⟨rfl, rfl⟩⟩
  | restart j app =>
      cases ht
      have hj : j ≠ i := by
        intro hj
        subst hj
        exact hlife app rfl
      exact ⟨p, put_pollers_other hp rfl hj _, Or.inl ⟨rfl, rfl⟩⟩
  | start j =>
      simp only [step] at ht
      cases hq : s.pollers[j]? with
      | none => simp [hq] at ht
      | some q =>
          cases hpass : q.pass with
          | passing moment rest => simp [hq, hpass] at ht
          | idle | returned moment =>
              simp only [hq, hpass, Option.some.injEq] at ht
              subst ht
              by_cases hj : j = i
              · subst hj
                rw [hp, Option.some.injEq] at hq
                subst hq
                exact ⟨_, put_pollers_self hp rfl _, Or.inl ⟨rfl, rfl⟩⟩
              · exact ⟨p, put_pollers_other hp rfl hj _, Or.inl ⟨rfl, rfl⟩⟩
  | advance j told =>
      simp only [step] at ht
      cases hq : s.pollers[j]? with
      | none => simp [hq] at ht
      | some q =>
          cases hpass : q.pass with
          | idle | returned moment => simp [hq, hpass] at ht
          | passing moment todo =>
              simp only [hq, hpass, Option.some.injEq] at ht
              subst ht
              by_cases hj : j = i
              · subst hj
                rw [hp, Option.some.injEq] at hq
                subst hq
                exact remembers_advance hsound hp hpass
              · have hkept : (s.advance blank j told q moment todo).pollers[i]? = some p := by
                  rcases advance_put blank s j told q moment todo with ⟨after, u, hadvance, hu⟩
                  rw [hadvance]
                  exact put_pollers_other hp hu hj after
                exact ⟨p, hkept, Or.inl ⟨asking_other hj told, rfl⟩⟩
  | other q foreign =>
      cases ht
      exact ⟨p, hp, Or.inl ⟨rfl, rfl⟩⟩

/-- Along a run every slot asked for is past the one remembered, and slots of one task come in
their order. -/
theorem asks_in_order {blank : V} {i : Nat} {s : Rota V} {beats : List (Beat V)}
    (hsound : s.Sound) (hlife : ∀ app, .restart i app ∉ beats) :
    (∀ p, s.pollers[i]? = some p → ∀ ask ∈ asks blank i s beats, ∀ noted,
      p.written ask.1 = some noted → noted < ask.2) ∧
    (asks blank i s beats).Pairwise fun ask later => ask.1 = later.1 → ask.2 < later.2 := by
  induction beats generalizing s with
  | nil => exact ⟨fun _ _ _ hask => (List.not_mem_nil hask).elim, List.Pairwise.nil⟩
  | cons e es ih =>
      have hlater : ∀ app, .restart i app ∉ es := fun app hmem =>
        hlife app (List.mem_cons_of_mem _ hmem)
      cases ht : s.step blank e with
      | none =>
          simp only [asks, ht]
          exact ⟨fun _ _ _ hask => (List.not_mem_nil hask).elim, List.Pairwise.nil⟩
      | some t =>
          simp only [asks, ht]
          rcases ih (sound_step hsound ht) hlater with ⟨hpast, hpairs⟩
          cases hp : s.pollers[i]? with
          | none =>
              have hnone : s.asking i e = none := asking_of_none hp e
              simp only [hnone, Option.toList_none, List.nil_append]
              refine ⟨fun p hsome => ?_, hpairs⟩
              cases hsome
          | some p =>
              have hhere : ∀ app, e ≠ .restart i app := by
                intro app he
                exact hlife app (he ▸ List.mem_cons_self)
              rcases remembers_step hsound ht hp hhere with
                ⟨after, hafter, ⟨hnone, hkept⟩ | ⟨name, due, hasked, hnoted, hfirst⟩⟩
              · -- nothing is asked for, and the memory is what it was
                simp only [hnone, Option.toList_none, List.nil_append, Option.some.injEq]
                refine ⟨fun q hq ask hask noted hwas => ?_, hpairs⟩
                subst hq
                exact hpast after hafter ask hask noted (hkept ▸ hwas)
              · -- a slot is asked for and remembered, and what is asked for later is past it
                have hbeyond : ∀ later ∈ asks blank i t es, name = later.1 → due < later.2 := by
                  intro later hask hname
                  refine hpast after hafter later hask due ?_
                  rw [hnoted, hname, Function.update_self]
                simp only [hasked, Option.toList_some, List.singleton_append, Option.some.injEq]
                refine ⟨fun q hq ask hask noted hwas => ?_, hpairs.cons hbeyond⟩
                subst hq
                rcases List.mem_cons.1 hask with rfl | hask
                · exact hfirst noted hwas
                · by_cases hname : name = ask.1
                  · exact (hfirst noted (hname ▸ hwas)).trans (hbeyond ask hask hname)
                  · refine hpast after hafter ask hask noted ?_
                    rw [hnoted, Function.update_of_ne (Ne.symm hname), hwas]

/-- Between one coming up of a process and the next, whatever else goes on, every slot of a task is
asked for once at the most, each after the one before it, as far as the store answers. -/
theorem each_slot_asked_once {blank : V} {clock : Instant} {s : Rota V}
    (h : Reach (step blank) Unconditional (opened clock) s) {i : Nat} {beats : List (Beat V)}
    (hlife : ∀ app, .restart i app ∉ beats) :
    (asks blank i s beats).Pairwise fun ask later => ask.1 = later.1 → ask.2 < later.2 := by
  have hsound : s.Sound := h.invariant (sound_opened clock) fun _ hs _ ht => sound_step hs ht
  exact (asks_in_order hsound hlife).2

/-- The slot is asked for, skipped while it is ahead, and the one after it is asked for. -/
def twoSlots : List (Beat Unit) :=
  [.start 0, .advance 0 .answered, .advance 0 .answered, .tick halfMinute, .start 0,
   .advance 0 .answered, .advance 0 .answered, .tick firstSlot, .start 0, .advance 0 .answered]

theorem each_slot_asked_once_two : ∃ s : Rota Unit,
    runAll (step ()) (opened Instant.epoch) [.arrive minutelyApp] = some s ∧
      asks () 0 s twoSlots = [("pulse", firstSlot), ("pulse", secondSlot)] ∧
        (asks () 0 s twoSlots).Pairwise fun ask later => ask.1 = later.1 → ask.2 < later.2 := by
  have hlife : ∀ app, .restart 0 app ∉ twoSlots := by
    intro app hmem
    simp [twoSlots] at hmem
  have hwhole : ∀ s : Rota Unit,
      runAll (step ()) (opened Instant.epoch) [.arrive minutelyApp] = some s → _ := fun s hs =>
    each_slot_asked_once (Reach.of_runAll .start hs) hlife
  exact ⟨_, rfl, by decide +kernel, hwhole _ rfl⟩

end Rota

end Queuefy
