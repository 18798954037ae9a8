import Queuefy.Worker.Passes
import Queuefy.Worker.Usable

/-! # Pruning on the hour

Every pass asks `tidy` whether to prune. The hour starts before the pruning, so that one the store
refuses waits it out as well, and an answer of a whole batch takes the hour back. Here the loop runs
beside the clock `tidy` reads, which only moves on.
-/

namespace Queuefy.Polling

/-- `PURGE_EVERY`, in seconds. -/
def purgeEvery : ℚ := 3600

/-- `PURGE_LIMIT`. -/
def purgeLimit : Nat := 1000

/-- A pruning a pass went for: when it began, the instant it was to drop what was over before, which
is none where a `datetime` holds no such instant and the store is never asked, and how many runs the
store answered it dropped. -/
structure Pruning where
  began : ℚ
  before : Option Instant
  gone : Option Nat

/-- The answer was a whole batch, so there may be more of it. -/
def Pruning.full (p : Pruning) : Bool := p.gone = some purgeLimit

/-- A loop, the clock beside it, the instant its pass began at and `Worker.purged`. `prunings` is
history, the newest first. -/
structure Keeper where
  loop : Loop
  monotonic : ℚ
  moment : Instant
  purged : Option ℚ
  prunings : List Pruning

/-- The clock moves on; `stop` is called; or the loop is taken on, at an instant of the wall clock
and with what a pruning dropped if it was suspended in one that answered. -/
inductive Stir where
  | tick (later : ℚ)
  | stop
  | resume (outcome : Outcome) (now : Instant) (gone : Nat) (w : Reading)

namespace Keeper

variable (keep : Option Timedelta)

/-- A worker that comes up, with what it drew for its first hour. -/
def opened (monotonic draw : ℚ) (moment : Instant) : Keeper :=
  ⟨started, monotonic, moment, some (monotonic - draw), []⟩

/-- Whether `tidy` goes on to the pruning. -/
def due (k : Keeper) : Bool :=
  keep.isSome && !k.purged.any fun purged => decide (k.monotonic - purged < purgeEvery)

/-- The instant a pruning is asked with. -/
def before (k : Keeper) : Option Instant :=
  keep.bind fun span => Gate.prunesBefore span k.moment

def reading (k : Keeper) (w : Reading) : Reading :=
  { w with prunes := k.due keep && (k.before keep).isSome }

/-- `tidy` up to its call of the store: the hour starts. -/
def begin (k : Keeper) : Keeper :=
  if k.due keep then
    { k with
      purged := some k.monotonic
      prunings := ⟨k.monotonic, k.before keep, none⟩ :: k.prunings }
  else k

/-- `tidy` from the answer of the store on: a whole batch takes the hour back. -/
def answer (k : Keeper) (gone : Nat) : Keeper :=
  { k with
    purged := if gone = purgeLimit then none else k.purged
    prunings := k.prunings.modifyHead fun p => { p with gone := some gone } }

def resume (k : Keeper) (outcome : Outcome) (now : Instant) (gone : Nat) (w : Reading) : Keeper :=
  let loop := k.loop.resume outcome (k.reading keep w)
  match k.loop.place with
  | .called | .waiting => { k with loop := loop, moment := now }
  | .reclaiming =>
      if outcome = .cancelled then { k with loop := loop } else { k.begin keep with loop := loop }
  | .pruning =>
      if outcome = .answered then { k.answer gone with loop := loop } else { k with loop := loop }
  | .writing _ | .claiming | .draining | .ended => { k with loop := loop }

def step (k : Keeper) : Stir → Option Keeper
  | .tick later => if k.monotonic ≤ later then some { k with monotonic := later } else none
  | .stop => some { k with loop := k.loop.stop }
  | .resume outcome now gone w =>
      if k.loop.place = .ended then none else some (k.resume keep outcome now gone w)

/-! ## The hour -/

/-- One pruning came an hour after another, or the other one answered a whole batch. -/
def Apart (newer older : Pruning) : Prop :=
  older.began ≤ newer.began ∧ (older.full = false → purgeEvery ≤ newer.began - older.began)

/-- Since when `tidy` counts the hour. -/
def since (opening : ℚ) : List Pruning → Option ℚ
  | [] => some opening
  | p :: _ => if p.full then none else some p.began

/-- The hour is up, or the last pruning answered a whole batch. -/
def Ripe (opening now : ℚ) : List Pruning → Prop
  | [] => purgeEvery ≤ now - opening
  | p :: _ => p.full = true ∨ purgeEvery ≤ now - p.began

/-- A worker that opened its first hour at `opening`. -/
structure Paced (opening : ℚ) (k : Keeper) : Prop where
  purged : k.purged = since opening k.prunings
  apart : k.prunings.IsChain Apart
  first : ∀ p ∈ k.prunings.getLast?, purgeEvery ≤ p.began - opening
  past : ∀ p ∈ k.prunings.head?, p.began ≤ k.monotonic
  opened : opening ≤ k.monotonic
  /-- While a pass is suspended in a pruning, that is the newest, and nothing was answered yet. -/
  asking : k.loop.place = .pruning → ∃ p rest, k.prunings = p :: rest ∧ p.gone = none

end Keeper

/-- The loop comes to a pruning from the reclaim of its pass and from nowhere else. -/
theorem resume_pruning {l : Loop} {outcome : Outcome} {w : Reading}
    (h : (l.resume outcome w).place = .pruning) :
    l.place = .reclaiming ∧ outcome ≠ .cancelled ∧ w.prunes = true := by
  have hclaim : ∀ u, Concludes l w u → u.place ≠ .pruning := by
    intro u hu heq
    cases hu <;> cases heq
  have hmaterialize : ∀ tasks, (l.materialize w tasks).place ≠ .pruning := by
    intro tasks
    rcases materialize_cases l w tasks with hu | ⟨name, rest, -, heq⟩
    · exact hclaim _ hu
    · rw [heq]
      intro hplace
      cases hplace
  have hhead : (l.head w).place ≠ .pruning := by
    rw [Loop.head, Loop.drain]
    split
    · simp only
      split <;> intro hplace <;> cases hplace
    · intro hplace
      cases hplace
  by_cases hcancelled : outcome = .cancelled
  · rw [Loop.resume, if_pos hcancelled] at h
    cases h
  · simp only [Loop.resume, if_neg hcancelled] at h
    cases hplace : l.place with
    | reclaiming =>
        rw [hplace] at h
        simp only [Loop.tidy] at h
        split at h
        · rename_i hprunes
          exact ⟨rfl, hcancelled, hprunes⟩
        · exact absurd h (hmaterialize _)
    | called | waiting =>
        rw [hplace] at h
        exact absurd h hhead
    | pruning =>
        rw [hplace] at h
        exact absurd h (hmaterialize _)
    | writing rest =>
        rw [hplace] at h
        simp only at h
        split at h
        · exact absurd h (hclaim _ (concludes_claim l w))
        · exact absurd h (hmaterialize _)
    | claiming | draining | ended =>
        rw [hplace] at h
        cases h

namespace Keeper

variable {keep : Option Timedelta} {opening : ℚ} {k t : Keeper}

theorem due_iff : k.due keep = true ↔
    keep.isSome ∧ ∀ purged ∈ k.purged, purgeEvery ≤ k.monotonic - purged := by
  unfold due
  cases k.purged <;> simp

theorem Paced.due_iff (h : Paced opening k) :
    k.due keep = true ↔ keep.isSome ∧ Ripe opening k.monotonic k.prunings := by
  rw [Keeper.due_iff, h.purged]
  cases k.prunings with
  | nil => simp [since, Ripe]
  | cons p rest => cases hfull : p.full <;> simp [since, Ripe, hfull]

theorem Paced.moves (h : Paced opening k) {loop : Loop}
    (hplace : loop.place = .pruning → k.loop.place = .pruning) (moment : Instant) :
    Paced opening { k with loop := loop, moment := moment } :=
  ⟨h.purged, h.apart, h.first, h.past, h.opened, fun hin => h.asking (hplace hin)⟩

/-- The hour starts over, an hour after it last did or after a whole batch. -/
theorem Paced.begin (h : Paced opening k) {loop : Loop} (hdue : loop.place = .pruning →
    k.due keep = true) : Paced opening { k.begin keep with loop := loop } := by
  unfold Keeper.begin
  split
  · rename_i hgoes
    have hhour := (h.due_iff.1 hgoes).2
    refine ⟨rfl, ?_, ?_, ?_, h.opened, fun _ => ⟨_, _, rfl, rfl⟩⟩
    · cases hprunings : k.prunings with
      | nil => exact List.isChain_singleton _
      | cons p rest =>
          rw [hprunings] at hhour
          have hchain := h.apart
          have hpast := h.past
          rw [hprunings] at hchain hpast
          refine List.isChain_cons_cons.2 ⟨⟨hpast p rfl, fun hfull => ?_⟩, hchain⟩
          exact hhour.resolve_left (by simp [hfull])
    · cases hprunings : k.prunings with
      | nil =>
          rw [hprunings] at hhour
          intro p hp
          cases hp
          exact hhour
      | cons p rest =>
          have hfirst := h.first
          rw [hprunings] at hfirst
          simpa using hfirst
    · intro p hp
      cases hp
      exact le_rfl
  · rename_i hnot
    exact ⟨h.purged, h.apart, h.first, h.past, h.opened, fun hin => absurd (hdue hin) hnot⟩

theorem Paced.answer (h : Paced opening k) (hplace : k.loop.place = .pruning) (gone : Nat)
    {loop : Loop} (hout : loop.place ≠ .pruning) :
    Paced opening { k.answer gone with loop := loop } := by
  rcases h.asking hplace with ⟨p, rest, hprunings, hnone⟩
  have hpurged := h.purged
  have hchain := h.apart
  have hfirst := h.first
  have hpast := h.past
  rw [hprunings] at hpurged hchain hfirst hpast
  have hopen : p.full = false := by simp [Pruning.full, hnone]
  unfold Keeper.answer
  refine ⟨?_, ?_, ?_, ?_, h.opened, fun hin => absurd hin hout⟩
  · simp only [hprunings, List.modifyHead_cons, hpurged, since, hopen]
    by_cases hfull : gone = purgeLimit <;> simp [hfull, Pruning.full]
  · simp only [hprunings, List.modifyHead_cons]
    cases rest with
    | nil => exact List.isChain_singleton _
    | cons older rest =>
        rw [List.isChain_cons_cons] at hchain ⊢
        exact hchain
  · simp only [hprunings, List.modifyHead_cons]
    cases rest with
    | nil =>
        intro q hq
        cases hq
        exact hfirst p rfl
    | cons older rest => simpa using hfirst
  · simp only [hprunings, List.modifyHead_cons]
    intro q hq
    cases hq
    exact hpast p rfl

theorem Paced.resume (h : Paced opening k) (outcome : Outcome) (now : Instant) (gone : Nat)
    (w : Reading) : Paced opening (k.resume keep outcome now gone w) := by
  have hcomes : (k.loop.resume outcome (k.reading keep w)).place = .pruning →
      k.loop.place = .reclaiming ∧ k.due keep = true := by
    intro hplace
    rcases resume_pruning hplace with ⟨hfrom, -, hprunes⟩
    exact ⟨hfrom, (Bool.and_eq_true_iff.mp hprunes).1⟩
  have helsewhere : ∀ place, k.loop.place = place → place ≠ .reclaiming →
      (k.loop.resume outcome (k.reading keep w)).place = .pruning → k.loop.place = .pruning :=
    fun place hplace hne hin => absurd (hplace.symm.trans (hcomes hin).1) hne
  unfold Keeper.resume
  cases hplace : k.loop.place with
  | called | waiting | writing rest | claiming | draining | ended =>
      exact h.moves (helsewhere _ hplace (by simp)) _
  | reclaiming =>
      dsimp only
      split
      · rename_i hcancelled
        refine h.moves (fun hin => ?_) _
        rw [Loop.resume, if_pos hcancelled] at hin
        cases hin
      · exact h.begin fun hin => (hcomes hin).2
  | pruning =>
      dsimp only
      have hout : (k.loop.resume outcome (k.reading keep w)).place ≠ .pruning := by
        intro hin
        have hfrom := (hcomes hin).1
        rw [hplace] at hfrom
        cases hfrom
      split
      · exact h.answer hplace gone hout
      · exact h.moves (fun hin => absurd hin hout) _

theorem Paced.step (h : Paced opening k) {stir : Stir} (ht : step keep k stir = some t) :
    Paced opening t := by
  cases stir with
  | tick later =>
      simp only [Keeper.step, Option.ite_none_right_eq_some, Option.some.injEq] at ht
      rcases ht with ⟨hlater, rfl⟩
      exact ⟨h.purged, h.apart, h.first, fun p hp => (h.past p hp).trans hlater,
        h.opened.trans hlater, h.asking⟩
  | stop =>
      cases ht
      have hsame : k.loop.stop.place = .pruning → k.loop.place = .pruning := fun hin => hin
      exact h.moves hsame k.moment
  | resume outcome now gone w =>
      simp only [Keeper.step, Option.ite_none_left_eq_some, Option.some.injEq] at ht
      rcases ht with ⟨-, rfl⟩
      exact h.resume outcome now gone w

theorem paced_opened {monotonic draw : ℚ} (hdraw : 0 ≤ draw) (moment : Instant) :
    Paced (monotonic - draw) (opened monotonic draw moment) where
  purged := rfl
  apart := List.isChain_nil
  first p hp := absurd hp (by simp [opened])
  past p hp := absurd hp (by simp [opened])
  opened := by
    simp only [opened]
    linarith
  asking h := by cases h

theorem paced_of_reach {monotonic draw : ℚ} {moment : Instant} (hdraw : 0 ≤ draw)
    (h : Reach (step keep) Unconditional (opened monotonic draw moment) k) :
    Paced (monotonic - draw) k :=
  h.invariant (paced_opened hdraw moment) fun _ hs _ ht => hs.step ht

theorem count_le {prunings : List Pruning} {p : Pruning} (hchain : (p :: prunings).IsChain Apart)
    (hfirst : ∀ q ∈ (p :: prunings).getLast?, purgeEvery ≤ q.began - opening) :
    ((prunings.length : ℚ) + 1 - prunings.countP Pruning.full) * purgeEvery ≤
      p.began - opening := by
  induction prunings generalizing p with
  | nil => simpa using hfirst p rfl
  | cons older rest ih =>
      rw [List.isChain_cons_cons] at hchain
      rcases hchain with ⟨⟨hpast, hhour⟩, hchain⟩
      have hrest := ih hchain (by simpa using hfirst)
      cases hfull : older.full with
      | true =>
          simp only [List.length_cons, List.countP_cons, hfull, if_true]
          push_cast
          linarith
      | false =>
          have hafter := hhour hfull
          simp only [List.length_cons, List.countP_cons, hfull, Bool.false_eq_true, if_false]
          push_cast
          linarith

/-- In every run of the loop, whatever the store answers: a pass goes for a pruning exactly where
the worker keeps runs for a span and the hour is up since the last one began, or that one answered
a whole batch; the store is asked exactly where the span taken off the instant of the pass is an
instant; and in all the worker went for one pruning an hour, and one more for each whole batch. -/
theorem prunes_on_the_hour {monotonic draw : ℚ} {moment : Instant} (hdraw : 0 ≤ draw)
    (h : Reach (step keep) Unconditional (opened monotonic draw moment) k) :
    ((k.prunings.length : ℚ) - k.prunings.countP Pruning.full) * purgeEvery ≤
        k.monotonic - monotonic + draw ∧
      k.prunings.IsChain Apart ∧
      ∀ outcome now gone w, k.loop.place = .reclaiming → outcome ≠ .cancelled →
        (keep.isSome ∧ Ripe (monotonic - draw) k.monotonic k.prunings →
          (k.resume keep outcome now gone w).prunings =
              ⟨k.monotonic, k.before keep, none⟩ :: k.prunings ∧
            ((k.resume keep outcome now gone w).loop.place = .pruning ↔
              (k.before keep).isSome)) ∧
        (¬ (keep.isSome ∧ Ripe (monotonic - draw) k.monotonic k.prunings) →
          (k.resume keep outcome now gone w).prunings = k.prunings ∧
            (k.resume keep outcome now gone w).loop.place ≠ .pruning) := by
  have hpaced := paced_of_reach hdraw h
  refine ⟨?_, hpaced.apart, fun outcome now gone w hplace hgoes => ?_⟩
  · cases hprunings : k.prunings with
    | nil =>
        have hopened := hpaced.opened
        simp only [List.length_nil, List.countP_nil]
        linarith
    | cons p rest =>
        have hchain := hpaced.apart
        have hfirst := hpaced.first
        have hpast := hpaced.past
        rw [hprunings] at hchain hfirst hpast
        have hcount := count_le hchain hfirst
        have hnow := hpast p rfl
        have hmore : (0 : ℚ) ≤ (if p.full then 1 else 0) * purgeEvery := by
          split <;> simp [purgeEvery]
        rw [List.length_cons, List.countP_cons]
        push_cast
        linarith
  · have hresumed : k.resume keep outcome now gone w =
        { k.begin keep with loop := k.loop.resume outcome (k.reading keep w) } := by
      simp only [Keeper.resume, hplace, if_neg hgoes]
    have hloop : (k.loop.resume outcome (k.reading keep w)).place = .pruning ↔
        k.due keep = true ∧ (k.before keep).isSome := by
      constructor
      · intro hin
        exact Bool.and_eq_true_iff.mp (resume_pruning hin).2.2
      · intro hprunes
        have hreads : (k.reading keep w).prunes = true := Bool.and_eq_true_iff.mpr hprunes
        simp only [Loop.resume, if_neg hgoes, hplace, Loop.tidy, hreads, if_true]
        rfl
    rw [hresumed]
    constructor
    · intro hripe
      have hdue := hpaced.due_iff.2 hripe
      simp only [Keeper.begin, hdue, if_true, hloop, true_and]
    · intro hripe
      have hdue : k.due keep = false := by
        rw [Bool.eq_false_iff]
        exact fun hdue => hripe (hpaced.due_iff.1 hdue)
      simp [Keeper.begin, hdue, hloop]

/-- A pass that prunes a whole batch, and the next one, which does not wait the hour out. -/
def wholeBatch : List Stir :=
  [.resume .answered .epoch 0 slotFree, .resume .answered .epoch 0 slotFree,
   .resume .answered .epoch 1000 slotFree, .resume .answered .epoch 0 slotFree, .tick 1,
   .resume .answered .epoch 0 slotFree, .resume .answered .epoch 0 slotFree,
   .resume .raised .epoch 0 slotFree]

theorem prunes_on_the_hour_wholeBatch : ∃ k,
    runAll (step (some Gate.minute)) (opened 0 3600 .epoch) wholeBatch = some k ∧
      k.prunings.map (·.began) = [1, 0] ∧ k.prunings.IsChain Apart := by
  have hsome : (runAll (step (some Gate.minute)) (opened 0 3600 .epoch) wholeBatch).map
      (fun k => k.prunings.map (·.began)) = some [1, 0] := by
    decide +kernel
  rcases Option.map_eq_some_iff.mp hsome with ⟨k, hk, hbegan⟩
  exact ⟨k, hk, hbegan, (prunes_on_the_hour (by norm_num) (.of_runAll .start hk)).2.1⟩

end Keeper

end Queuefy.Polling
