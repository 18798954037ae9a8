import Queuefy.Store.Refines

/-! # Runs every store keeps as they are

Redis keeps texts and orders by doubles, so it does what a store is for on runs a text and a double
keep: counts short of `2 ^ 53`, no text that is there and empty, spans a double holds, and no
instant so far back that a double moves it. Those are what an application hands to a store, and
every call leaves such runs.
-/

namespace Queuefy

variable {ι V : Type}

open MemoryStore (beaten completed failed requeued calledOff takenBack expired isOver)
open RedisStore (toHash)

/-- An instant a double keeps. -/
def Instant.Exact (t : Instant) : Prop := t.micro.natAbs ≤ 2 ^ 53

/-- A run whose instants and counts a double keeps apart from the others. -/
structure Scored (run : Run V) : Prop where
  lease : ∀ t, run.leaseUntil = some t → -2 ^ 53 ≤ t.micro
  finish : ∀ t, run.finishedAt = some t → -2 ^ 53 ≤ t.micro
  attempts : run.attempts.natAbs ≤ 2 ^ 53
  bound : run.maxAttempts.natAbs ≤ 2 ^ 53

/-- Spans a double holds, which is what Redis reads back of them. -/
structure HeldSpans (timeout : Option ℚ) (retryDelay maxRetryDelay : ℚ) : Prop where
  timeout : ∀ q ∈ timeout, IsDouble q
  retryDelay : IsDouble retryDelay
  maxRetryDelay : IsDouble maxRetryDelay

theorem Plain.heldSpans : HeldSpans none 5 3600 where
  timeout := by simp
  retryDelay := by exact_mod_cast isDouble_intCast (n := 5) (by decide)
  maxRetryDelay := by exact_mod_cast isDouble_intCast (n := 3600) (by decide)

/-- A run every store keeps as it is. -/
structure Kept (run : Run V) : Prop where
  lease : ∀ t, run.leaseUntil = some t → -2 ^ 53 ≤ t.micro
  finish : ∀ t, run.finishedAt = some t → -2 ^ 53 ≤ t.micro
  low : 0 ≤ run.attempts
  high : run.attempts ≤ 2 ^ 53
  bound : run.maxAttempts.natAbs ≤ 2 ^ 53
  counting : run.status = .running → 1 ≤ run.attempts
  key : run.key ≠ some ""
  worker : run.worker ≠ some ""
  error : run.error ≠ some ""
  errorType : run.errorType ≠ some ""
  spans : HeldSpans run.timeout run.retryDelay run.maxRetryDelay

/-- A run none of whose texts is there and empty, with spans a double holds. -/
structure Spelled (run : Run V) : Prop where
  key : run.key ≠ some ""
  worker : run.worker ≠ some ""
  error : run.error ≠ some ""
  errorType : run.errorType ≠ some ""
  spans : HeldSpans run.timeout run.retryDelay run.maxRetryDelay

theorem Kept.spelled {run : Run V} (h : Kept run) : Spelled run :=
  ⟨h.key, h.worker, h.error, h.errorType, h.spans⟩

theorem Kept.scored {run : Run V} (h : Kept run) : Scored run where
  lease := h.lease
  finish := h.finish
  attempts := by
    have hlow := h.low
    have hhigh := h.high
    omega
  bound := h.bound

/-- A server counts such attempts one on or one off. -/
theorem Kept.room {run : Run V} (h : Kept run) {n : Int} (hlow : -1 ≤ n) (hhigh : n ≤ 1) :
    Redis.Room run.attempts n := by
  have hleast := h.low
  have hmost := h.high
  constructor <;> omega

/-- What an application and its workers hand to a store. -/
def Request.Passed : Request ι V → Prop
  | .add run => Kept run
  | .claim .. | .get _ => True
  | .heartbeat _ worker attempt lease moment =>
      worker ≠ "" ∧ attempt.natAbs ≤ 2 ^ 53 ∧ 0 < lease ∧ moment.Exact
  | .complete _ worker attempt moment _ => worker ≠ "" ∧ attempt.natAbs ≤ 2 ^ 53 ∧ moment.Exact
  | .fail _ worker attempt moment error errorType =>
      worker ≠ "" ∧ attempt.natAbs ≤ 2 ^ 53 ∧ moment.Exact ∧ error ≠ "" ∧ errorType ≠ ""
  | .retryLater _ worker attempt _ error errorType | .release _ worker attempt _ error errorType =>
      worker ≠ "" ∧ attempt.natAbs ≤ 2 ^ 53 ∧ error ≠ "" ∧ errorType ≠ ""
  | .reclaim moment | .cancel _ moment => moment.Exact
  | .purge before _ => before.Exact
  | .find key => key ≠ ""

theorem Request.Passed.rename {κ : Type} {q : Request ι V} (h : q.Passed) (f : ι → κ) :
    (q.rename f).Passed := by
  cases q <;> exact h

/-! ## Runs stay as every store keeps them -/

theorem Instant.Exact.late {t : Instant} (h : t.Exact) : -2 ^ 53 ≤ t.micro := by
  unfold Instant.Exact at h
  omega

section

variable {run : Run V} {error errorType : String}

theorem some_ne_empty {text : String} (h : text ≠ "") : some text ≠ some "" := fun heq =>
  h (Option.some.inj heq)

theorem late_of_some {t u : Instant} (ht : -2 ^ 53 ≤ t.micro) (h : some t = some u) :
    -2 ^ 53 ≤ u.micro := Option.some.inj h ▸ ht

theorem Kept.beaten {moment leaseEnd : Instant} {lease : Int} (h : Kept run)
    (hlease : moment.plus lease = some leaseEnd) (hpos : 0 < lease) (hexact : moment.Exact) :
    Kept (MemoryStore.beaten leaseEnd run) := by
  have hlate : -2 ^ 53 ≤ leaseEnd.micro := by
    have hsum := Instant.plus_eq_some.1 hlease
    have hmoment := hexact.late
    omega
  exact { h with lease := fun t ht => late_of_some hlate ht }

theorem Kept.completed {moment : Instant} (h : Kept run) (hexact : moment.Exact)
    (result : Option V) : Kept (MemoryStore.completed moment result run) :=
  { h with
    lease := fun t ht => by cases ht
    finish := fun t ht => late_of_some hexact.late ht
    counting := fun hr => by cases hr
    worker := fun hw => by cases hw
    error := fun he => by cases he
    errorType := fun he => by cases he }

theorem Kept.failed {moment : Instant} (h : Kept run) (hexact : moment.Exact) (herror : error ≠ "")
    (htype : errorType ≠ "") : Kept (MemoryStore.failed moment error errorType run) :=
  { h with
    lease := fun t ht => by cases ht
    finish := fun t ht => late_of_some hexact.late ht
    counting := fun hr => by cases hr
    worker := fun hw => by cases hw
    error := some_ne_empty herror
    errorType := some_ne_empty htype }

theorem Kept.requeued {dueAt : Instant} {counted : Int} (h : Kept run) (herror : error ≠ "")
    (htype : errorType ≠ "") (hlow : 0 ≤ run.attempts + counted)
    (hhigh : run.attempts + counted ≤ 2 ^ 53) :
    Kept (MemoryStore.requeued dueAt error errorType counted run) :=
  { h with
    lease := fun t ht => by cases ht
    low := hlow
    high := hhigh
    counting := fun hr => by cases hr
    worker := fun hw => by cases hw
    error := some_ne_empty herror
    errorType := some_ne_empty htype }

theorem Kept.calledOff {moment : Instant} (h : Kept run) (hexact : moment.Exact) :
    Kept (MemoryStore.calledOff moment run) :=
  { h with
    finish := fun t ht => late_of_some hexact.late ht
    counting := fun hr => by cases hr }

end

theorem Kept.becomes {q : Request ι V} {ask : Ask ι V} (hq : q.Passed) (hask : q.ask = some ask)
    {run : Run V} (h : Kept run) (hcond : ask.condition run) : Kept (ask.becomes run) := by
  have hlow := h.low
  have hhigh := h.high
  cases q with
  | add | claim | reclaim | purge | find | get => cases hask
  | heartbeat id worker attempt lease moment =>
      rcases hq with ⟨-, -, hpos, hexact⟩
      rcases Option.map_eq_some_iff.mp hask with ⟨leaseEnd, hlease, rfl⟩
      exact h.beaten hlease hpos hexact
  | complete id worker attempt moment result =>
      cases hask
      exact h.completed hq.2.2 result
  | fail id worker attempt moment error errorType =>
      rcases hq with ⟨-, -, hexact, herror, htype⟩
      cases hask
      exact h.failed hexact herror htype
  | retryLater id worker attempt dueAt error errorType =>
      cases hask
      exact h.requeued hq.2.2.1 hq.2.2.2 (by omega) (by omega)
  | release id worker attempt dueAt error errorType =>
      cases hask
      have hcount := h.counting hcond.2.1
      exact h.requeued hq.2.2.1 hq.2.2.2 (by omega) (by omega)
  | cancel id moment =>
      cases hask
      exact h.calledOff hq

theorem Kept.takenBack {moment : Instant} (hmoment : moment.Exact) {run : Run V} (h : Kept run) :
    Kept (MemoryStore.takenBack moment run) := by
  unfold MemoryStore.takenBack
  split
  · exact { h with
      lease := fun t ht => by cases ht
      finish := fun t ht => Option.some.inj ht ▸ hmoment.late
      counting := fun hr => by cases hr
      worker := fun hw => by cases hw
      error := fun he => absurd (Option.some.inj he) (by decide)
      errorType := fun he => absurd (Option.some.inj he) (by decide) }
  · exact { h with
      lease := fun t ht => by cases ht
      counting := fun hr => by cases hr
      worker := fun hw => by cases hw }

theorem Scored.takenBack {moment : Instant} (hmoment : moment.Exact) {run : Run V}
    (h : Scored run) : Scored (MemoryStore.takenBack moment run) := by
  unfold MemoryStore.takenBack
  split
  · exact { h with
      lease := fun t ht => by cases ht
      finish := fun t ht => Option.some.inj ht ▸ hmoment.late }
  · exact { h with lease := fun t ht => by cases ht }

/-- What holds of a run that is written, and is kept by what a call makes of one run and by taking a
run back, holds of every run after the call. -/
theorem Performs.every [DecidableEq ι] {P : Run V → Prop} {fresh : ι} {rows t : Rows ι V}
    {q : Request ι V} {a : Answer ι V} (h : Performs fresh rows q a t)
    (hadd : ∀ run, q = .add run → P run)
    (hask : ∀ ask, q.ask = some ask → ∀ run, P run → ask.condition run → P (ask.becomes run))
    (htake : ∀ moment, q = .reclaim moment → ∀ run, P run → P (takenBack moment run))
    (hrows : ∀ i run, rows i = some run → P run) : ∀ i run, t i = some run → P run := by
  have hupdate : ∀ {id : ι} {new : Run V}, P new →
      ∀ i run, Function.update rows id (some new) i = some run → P run := by
    intro id new hnew i run hrun
    by_cases hi : i = id
    · subst hi
      rw [Function.update_self] at hrun
      exact Option.some.inj hrun ▸ hnew
    · rw [Function.update_of_ne hi] at hrun
      exact hrows i run hrun
  have hrevise : ∀ {ids : List ι} {g : Run V → Option (Run V)},
      (∀ run new, P run → g run = some new → P new) →
      ∀ i run, rows.revise ids g i = some run → P run := by
    intro ids g hg i run hrun
    unfold Rows.revise at hrun
    split at hrun
    · obtain ⟨old, hold, hnew⟩ := Option.bind_eq_some_iff.mp hrun
      exact hg old run (hrows i old hold) hnew
    · exact hrows i run hrun
  cases h with
  | written => exact hupdate (hadd _ rfl)
  | held hsome hrow hcond => exact hupdate (hask _ hsome _ (hrows _ _ hrow) hcond)
  | reclaimed => exact hrevise fun run new hrun hnew => Option.some.inj hnew ▸ htake _ rfl run hrun
  | purged => exact hrevise fun run new hrun hnew => by cases hnew
  | refused | unheld | found | unfound | got | missing => exact hrows

theorem Performs.kept [DecidableEq ι] {fresh : ι} {rows t : Rows ι V} {q : Request ι V}
    {a : Answer ι V} (h : Performs fresh rows q a t) (hq : q.Passed)
    (hrows : ∀ i run, rows i = some run → Kept run) : ∀ i run, t i = some run → Kept run := by
  refine h.every (fun run hrun => ?_) (fun ask hask run => Kept.becomes hq hask)
    (fun moment hmoment run => ?_) hrows
  · subst hrun
    exact hq
  · subst hmoment
    exact fun hrun => hrun.takenBack hq

/-- And an id that held no run and is not the new one still holds none. -/
theorem Performs.absent [DecidableEq ι] {fresh : ι} {rows t : Rows ι V} {q : Request ι V}
    {a : Answer ι V} (h : Performs fresh rows q a t) {i : ι} (hi : rows i = none)
    (hne : i ≠ fresh) : t i = none := by
  have hother : ∀ {id : ι} {run : Run V}, rows id = some run → i ≠ id := by
    rintro id run hrow rfl
    rw [hi] at hrow
    cases hrow
  have hrevise : ∀ {ids : List ι} {g : Run V → Option (Run V)}, rows.revise ids g i = none := by
    intro ids g
    simp [Rows.revise, hi]
  cases h with
  | written => rwa [Function.update_of_ne hne]
  | held hask hrow hcond => rwa [Function.update_of_ne (hother hrow)]
  | reclaimed | purged => exact hrevise
  | refused | unheld | found | unfound | got | missing => exact hi

end Queuefy
