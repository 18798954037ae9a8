import Queuefy.Lib.Reach

/-! # Stopping a worker

`Worker.run` asks whether it was stopped at one place, before a pass, and a pass suspends at every
call it makes of the store. Here the loop moves from one suspension to the next, with what it reads
on the way and what became of the call it was suspended in given; `stop` may come at any of them.
-/

namespace Queuefy.Polling

/-- Where the loop is suspended: not yet at its first pass, in a call of the store, in the wait
between two passes, in the wait for what is in flight, or nowhere any more. -/
inductive Place where
  | called
  | reclaiming
  | pruning
  | writing (rest : List String)
  | claiming
  | waiting
  | draining
  | ended
  deriving DecidableEq

/-- The calls a worker makes, and the ones made of it. -/
inductive Event where
  | stop
  | reclaim
  | purge
  | add (name : String)
  | claim
  deriving DecidableEq

/-- A worker's loop. `events` is history: every call so far, in order. -/
structure Loop where
  stopping : Bool
  place : Place
  events : List Event

/-- What a suspension ended in: an answer, an exception, or a cancellation. -/
inductive Outcome where
  | answered
  | raised
  | cancelled
  deriving DecidableEq

/-- What materializing makes of a task. -/
inductive Chore where
  | skip
  | raise
  | write
  deriving DecidableEq

/-- What the loop reads on its way to the next suspension. -/
structure Reading where
  tasks : List String
  prunes : Bool
  chore : String → Chore
  free : Int
  running : Bool

/-- The loop begins a call of the store and is suspended in it. -/
def Loop.begin (l : Loop) (event : Event) (place : Place) : Loop :=
  { l with place := place, events := l.events ++ [event] }

def Loop.wait (l : Loop) : Loop := { l with place := .waiting }

/-- The end of a pass: what is free is claimed. -/
def Loop.claim (l : Loop) (w : Reading) : Loop :=
  if w.free ≤ 0 then l.wait else l.begin .claim .claiming

/-- `materialize`, from a task on. What raises ends it, and the pass goes on to the claim. -/
def Loop.materialize (l : Loop) (w : Reading) : List String → Loop
  | [] => l.claim w
  | name :: rest =>
      match w.chore name with
      | .skip => l.materialize w rest
      | .raise => l.claim w
      | .write => l.begin (.add name) (.writing rest)

/-- `tidy`, and the pass from there on. -/
def Loop.tidy (l : Loop) (w : Reading) : Loop :=
  if w.prunes then l.begin .purge .pruning else l.materialize w w.tasks

def Loop.drain (l : Loop) (w : Reading) : Loop :=
  { l with place := if w.running then .draining else .ended }

/-- The head of the loop, the one place that asks whether the worker was stopped. -/
def Loop.head (l : Loop) (w : Reading) : Loop :=
  if l.stopping then l.drain w else l.begin .reclaim .reclaiming

/-- The loop taken on from where it is suspended. -/
def Loop.resume (l : Loop) (outcome : Outcome) (w : Reading) : Loop :=
  if outcome = .cancelled then { l with place := .ended }
  else
    match l.place with
    | .called | .waiting => l.head w
    | .reclaiming => l.tidy w
    | .pruning => l.materialize w w.tasks
    | .writing rest => if outcome = .raised then l.claim w else l.materialize w rest
    | .claiming => l.wait
    | .draining | .ended => { l with place := .ended }

/-- `Worker.stop`. -/
def Loop.stop (l : Loop) : Loop :=
  { l with stopping := true, events := l.events ++ [.stop] }

inductive Turn where
  | stop
  | resume (outcome : Outcome) (reading : Reading)

def step (l : Loop) : Turn → Option Loop
  | .stop => some l.stop
  | .resume outcome w => if l.place = .ended then none else some (l.resume outcome w)

def started : Loop := ⟨false, .called, []⟩

/-- Nothing is claimed after a stop. -/
def NoneAfterStop (events : List Event) : Prop :=
  ∀ before after, events = before ++ .stop :: after → .claim ∉ after

/-- The loop is in the part of a pass before the claim. -/
def Place.housekeeping : Place → Bool
  | .reclaiming | .pruning | .writing _ => true
  | .called | .claiming | .waiting | .draining | .ended => false

/-- A stop that comes while no pass is on its way to a claim. -/
def BetweenPasses (l : Loop) : Turn → Prop
  | .stop => l.place.housekeeping = false
  | .resume _ _ => True

instance (l : Loop) : ∀ turn, Decidable (BetweenPasses l turn)
  | .stop => inferInstanceAs (Decidable (l.place.housekeeping = false))
  | .resume _ _ => isTrue trivial

/-! ## What a step does -/

/-- A way from one suspension to the next: nothing is stopped on it, a claim is begun on it only in
a pass, and it comes into a pass only where the worker was not stopped, or from within one. -/
structure Goes (l t : Loop) : Prop where
  stopping : t.stopping = l.stopping
  events : ∃ more, t.events = l.events ++ more ∧ .stop ∉ more ∧
    (.claim ∈ more → l.place.housekeeping = true)
  place : t.place.housekeeping = true → l.stopping = true → l.place.housekeeping = true

theorem goes_quietly (l : Loop) {place : Place} (h : place.housekeeping = false) :
    Goes l { l with place := place } where
  stopping := rfl
  events := ⟨[], by simp, by simp, by simp⟩
  place hplace := by
    rw [h] at hplace
    cases hplace

theorem goes_begin {l : Loop} (h : l.place.housekeeping = true) {event : Event} (place : Place)
    (hevent : event ≠ .stop) : Goes l (l.begin event place) where
  stopping := rfl
  events := ⟨[event], rfl, by simpa using hevent.symm, fun _ => h⟩
  place _ _ := h

theorem goes_claim {l : Loop} (h : l.place.housekeeping = true) (w : Reading) :
    Goes l (l.claim w) := by
  unfold Loop.claim
  split
  · exact goes_quietly l rfl
  · exact goes_begin h _ (by simp)

theorem goes_materialize {l : Loop} (h : l.place.housekeeping = true) (w : Reading)
    (tasks : List String) : Goes l (l.materialize w tasks) := by
  induction tasks with
  | nil => exact goes_claim h w
  | cons name rest ih =>
      rw [Loop.materialize]
      cases w.chore name with
      | skip => exact ih
      | raise => exact goes_claim h w
      | write => exact goes_begin h _ (by simp)

theorem goes_head (l : Loop) (w : Reading) : Goes l (l.head w) := by
  unfold Loop.head
  cases hstopping : l.stopping with
  | true =>
      rw [if_pos rfl]
      apply goes_quietly
      cases w.running <;> rfl
  | false =>
      rw [if_neg (by simp)]
      exact ⟨rfl, ⟨[.reclaim], rfl, by simp, by simp⟩, by simp [hstopping]⟩

theorem goes_resume (l : Loop) (outcome : Outcome) (w : Reading) :
    Goes l (l.resume outcome w) := by
  unfold Loop.resume
  by_cases hcancelled : outcome = .cancelled
  · rw [if_pos hcancelled]
    exact goes_quietly l rfl
  · rw [if_neg hcancelled]
    cases hplace : l.place with
    | called => exact goes_head l w
    | waiting => exact goes_head l w
    | reclaiming =>
        simp only [Loop.tidy]
        split
        · exact goes_begin (by rw [hplace]; rfl) _ (by simp)
        · exact goes_materialize (by rw [hplace]; rfl) w _
    | pruning => exact goes_materialize (by rw [hplace]; rfl) w _
    | writing rest =>
        simp only
        split
        · exact goes_claim (by rw [hplace]; rfl) w
        · exact goes_materialize (by rw [hplace]; rfl) w _
    | claiming => exact goes_quietly l rfl
    | draining => exact goes_quietly l rfl
    | ended => exact goes_quietly l rfl

/-! ## Nothing is claimed after a stop -/

/-- A worker whose stops all come between two passes. -/
structure Stopped (l : Loop) : Prop where
  seen : .stop ∈ l.events → l.stopping = true
  outside : l.stopping = true → l.place.housekeeping = false
  none : NoneAfterStop l.events

theorem noneAfterStop_append {events more : List Event} (h : NoneAfterStop events)
    (hmore : .stop ∉ more) (hclaim : .claim ∈ more → .stop ∉ events) :
    NoneAfterStop (events ++ more) := by
  intro before after heq hmem
  rcases List.append_eq_append_iff.1 heq with ⟨middle, hbefore, hrest⟩ | ⟨middle, hevents, hafter⟩
  · -- the stop is among what was appended
    exact hmore (hrest ▸ List.mem_append_right _ List.mem_cons_self)
  · cases middle with
    | nil =>
        rw [List.nil_append] at hafter
        exact hmore (hafter ▸ List.mem_cons_self)
    | cons event rest =>
        rw [List.cons_append] at hafter
        rcases List.cons.inj hafter with ⟨rfl, rfl⟩
        rcases List.mem_append.1 hmem with hrest | hin
        · exact h before rest hevents hrest
        · exact hclaim hin (hevents ▸ List.mem_append_right _ List.mem_cons_self)

theorem stopped_step {l t : Loop} {turn : Turn} (h : Stopped l) (hok : BetweenPasses l turn)
    (hstep : step l turn = some t) : Stopped t := by
  cases turn with
  | stop =>
      have ht : l.stop = t := Option.some.inj hstep
      subst ht
      refine ⟨fun _ => rfl, fun _ => hok, ?_⟩
      intro before after heq
      rcases List.append_eq_append_iff.1 heq with
        ⟨middle, hbefore, hrest⟩ | ⟨middle, hevents, hafter⟩
      · cases middle with
        | nil =>
            rw [List.nil_append] at hrest
            rw [← (List.cons.inj hrest).2]
            exact List.not_mem_nil
        | cons event others =>
            have hlength := congrArg List.length hrest
            simp at hlength
      · cases middle with
        | nil =>
            rw [List.nil_append] at hafter
            rw [(List.cons.inj hafter).2]
            exact List.not_mem_nil
        | cons event rest =>
            rw [List.cons_append] at hafter
            rcases List.cons.inj hafter with ⟨rfl, rfl⟩
            intro hmem
            rcases List.mem_append.1 hmem with hin | hstop
            · exact h.none before rest hevents hin
            · simp at hstop
  | resume outcome w =>
      rw [step] at hstep
      by_cases hended : l.place = .ended
      · rw [if_pos hended] at hstep
        cases hstep
      · rw [if_neg hended] at hstep
        have ht : l.resume outcome w = t := Option.some.inj hstep
        subst ht
        have hgoes := goes_resume l outcome w
        rcases hgoes.events with ⟨more, hevents, hstop, hclaim⟩
        refine ⟨?_, ?_, ?_⟩
        · intro hmem
          rw [hevents, List.mem_append] at hmem
          rw [hgoes.stopping]
          exact h.seen (hmem.resolve_right hstop)
        · intro hstopping
          rw [hgoes.stopping] at hstopping
          rw [Bool.eq_false_iff]
          intro hplace
          have hin := hgoes.place hplace hstopping
          rw [h.outside hstopping] at hin
          cases hin
        · rw [hevents]
          apply noneAfterStop_append h.none hstop
          intro hmem hseen
          have hin := hclaim hmem
          rw [h.outside (h.seen hseen)] at hin
          cases hin

theorem stopped_started : Stopped started :=
  ⟨by simp [started], by simp [started], by simp [NoneAfterStop, started]⟩

/-- A pass with no slot to write that finds one to claim into. -/
def slotFree : Reading := ⟨[], false, fun _ => .skip, 1, false⟩

theorem resume_slotFree {l : Loop} (h : l.place.housekeeping = true) :
    l.resume .raised slotFree = l.begin .claim .claiming := by
  cases hplace : l.place with
  | reclaiming => simp only [Loop.resume, hplace]; rfl
  | pruning => simp only [Loop.resume, hplace]; rfl
  | writing rest => simp only [Loop.resume, hplace]; rfl
  | _ =>
      rw [hplace] at h
      cases h

/-- In every run whose stops all come outside the part of a pass before its claim, nothing is
claimed after a stop; and from every state within that part, a stop is one that a claim may
follow. -/
theorem stop_is_the_last_word (l : Loop) :
    (Reach step BetweenPasses started l → NoneAfterStop l.events) ∧
    (l.place.housekeeping = true →
      ∃ turns t, runAll step l.stop turns = some t ∧ ¬ NoneAfterStop t.events) := by
  constructor
  · intro h
    have hstopped : Stopped l :=
      h.invariant stopped_started fun _ hs hok ht => stopped_step hs hok ht
    exact hstopped.none
  · intro h
    have hended : l.stop.place ≠ .ended := by
      intro hended
      have hplace : l.place = .ended := hended
      rw [hplace] at h
      cases h
    have hclaims : l.stop.resume .raised slotFree = l.stop.begin .claim .claiming :=
      resume_slotFree h
    refine ⟨[.resume .raised slotFree], l.stop.begin .claim .claiming, ?_, ?_⟩
    · rw [runAll, step, if_neg hended, hclaims]
      rfl
    · intro hnone
      apply hnone l.events [.claim] _ List.mem_cons_self
      simp [Loop.begin, Loop.stop]

/-- Two passes claim, and the stop comes while the second one is still asking. -/
theorem stop_is_the_last_word_claimed :
    ∃ l, Reach step BetweenPasses started l ∧
      l.events = [.reclaim, .claim, .reclaim, .claim, .stop] ∧ l.place = .ended ∧
      NoneAfterStop l.events := by
  have hmeets : Meets step BetweenPasses started
      [.resume .answered slotFree, .resume .answered slotFree, .resume .answered slotFree,
        .resume .answered slotFree, .resume .answered slotFree, .stop,
        .resume .answered slotFree, .resume .answered slotFree] := by decide
  have hreach := Reach.of_meets .start hmeets rfl
  exact ⟨_, hreach, rfl, rfl, (stop_is_the_last_word _).1 hreach⟩

/-- A stop that comes while the pass is taking back what expired: the pass claims all the same. -/
theorem claimed_after_stop :
    ∃ t, runAll step started [.resume .answered slotFree, .stop, .resume .answered slotFree] =
      some t ∧ ¬ NoneAfterStop t.events := by
  refine ⟨_, rfl, fun h => ?_⟩
  exact h [.reclaim] [.claim] rfl List.mem_cons_self

end Queuefy.Polling
