import Queuefy.App.Register
import Queuefy.Retry
import Queuefy.Worker.Built

/-! # What an accepted span comes to later

A span is measured once, against what is left of the range where it is declared, and then added to
every later instant of the process: the lease to the instant of every claim and every beat, the
wait of a retry to the instant an attempt ended. What a worker keeps a run for is taken off the
instant of a pruning instead.
-/

namespace Queuefy.Gate

/-- The lease of a run claimed, or beaten for, at an instant. -/
def Worker.leaseUntil (worker : Worker) (t : Instant) : Option Instant :=
  t.plus worker.lease.micro

/-- `Worker.waiting`, for a run tried under terms. -/
def Worker.waiting (worker : Worker) (terms : Terms) (attempt : ℤ) (draw : ℚ) : ℚ :=
  delayFor terms.retryPolicy terms.retryDelay attempt worker.jitter terms.maxRetryDelay draw

/-- When a run whose attempt ended at an instant comes due again. -/
def Worker.comesBack (worker : Worker) (terms : Terms) (attempt : ℤ) (draw : ℚ) (t : Instant) :
    Option Instant :=
  t.plus (microseconds (worker.waiting terms attempt draw))

/-- The instant before which a pruning drops what is over. -/
def prunesBefore (keep : Timedelta) (t : Instant) : Option Instant := t.plus (-keep.micro)

/-- Every claim and every beat, every ending that hands the run back, and every pruning from one
instant to another names an instant a `datetime` holds. -/
structure Usable (opened last : Instant) (worker : Worker) (terms : Terms) : Prop where
  leased : ∀ t, opened ≤ t → t ≤ last → worker.leaseUntil t ≠ none
  waited : ∀ t, opened ≤ t → t ≤ last → ∀ attempt draw, 1 ≤ attempt →
    attempt ≤ terms.maxAttempts → 0 ≤ draw → draw ≤ worker.jitter →
      worker.comesBack terms attempt draw t ≠ none
  pruned : ∀ t, opened ≤ t → t ≤ last → ∀ keep, worker.keep = some keep →
    prunesBefore keep t ≠ none

/-- The longest a run tried under terms ever waits, at its last attempt and with the whole jitter
drawn. -/
def Terms.longestWait (terms : Terms) (jitter : ℚ) : ℚ :=
  min (match terms.retryPolicy with
    | .fixed => terms.retryDelay
    | .linear => terms.retryDelay * terms.maxAttempts
    | .exponential => terms.retryDelay * 2 ^ min (terms.maxAttempts - 1) maxDoublings
    | .exponentialJitter =>
        terms.retryDelay * 2 ^ min (terms.maxAttempts - 1) maxDoublings * (1 + jitter))
    terms.maxRetryDelay

/-- What is left between an instant and the last one, in microseconds. -/
def room (t : Instant) : Int := widestSlot - t.micro

theorem waiting_longest {worker : Worker} (terms : Terms) (hjitter : 0 ≤ worker.jitter) :
    worker.waiting terms terms.maxAttempts worker.jitter = terms.longestWait worker.jitter := by
  unfold Worker.waiting Terms.longestWait
  cases hpolicy : terms.retryPolicy with
  | exponentialJitter =>
      have hpos : 0 < 1 + worker.jitter := by linarith
      rw [delayFor_jittered, min_mul_of_nonneg _ _ hpos.le, div_mul_cancel₀ _ hpos.ne']
      rfl
  | fixed => rw [delayFor_of_ne (by simp)]; rfl
  | linear => rw [delayFor_of_ne (by simp)]; rfl
  | exponential => rw [delayFor_of_ne (by simp)]; rfl

theorem waiting_nonneg {worker : Worker} {terms : Terms} {attempt : ℤ} {draw : ℚ}
    (hdelay : 0 ≤ terms.retryDelay) (hceiling : 0 ≤ terms.maxRetryDelay)
    (hjitter : 0 ≤ worker.jitter) (hattempt : 1 ≤ attempt) (hdraw : 0 ≤ draw) :
    0 ≤ worker.waiting terms attempt draw :=
  delayFor_nonneg hdelay hattempt hjitter hceiling hdraw

theorem waiting_le_longest {worker : Worker} {terms : Terms} {attempt : ℤ} {draw : ℚ}
    (hdelay : 0 ≤ terms.retryDelay) (hceiling : 0 ≤ terms.maxRetryDelay)
    (hjitter : 0 ≤ worker.jitter) (hattempt : 1 ≤ attempt) (hallowed : attempt ≤ terms.maxAttempts)
    (hdraw : 0 ≤ draw) (hdrawn : draw ≤ worker.jitter) :
    worker.waiting terms attempt draw ≤ terms.longestWait worker.jitter := by
  rw [← waiting_longest terms hjitter]
  exact delayFor_mono hdelay hattempt hjitter hceiling hdraw hallowed hdrawn

/-! ## Spans that were let through -/

theorem lease_pos {now : Instant} {span : Timedelta} (h : leaseFits now span = true) :
    0 < span.micro := by
  simp only [leaseFits, Bool.and_eq_true, decide_eq_true_eq] at h
  by_contra hpos
  have hseconds : span.totalSeconds ≤ 0 := Timedelta.totalSeconds_nonpos (not_lt.1 hpos)
  linarith [h.1]

theorem keep_nonneg {now : Instant} {span : Timedelta} (h : keepFits now span = true) :
    0 ≤ span.micro := by
  simp only [keepFits, Bool.and_eq_true, decide_eq_true_eq] at h
  by_contra hneg
  have hseconds : span.totalSeconds < 0 := Timedelta.totalSeconds_neg (not_le.1 hneg)
  linarith [h.1]

theorem plus_until {opened last : Instant} {d : Int} (hlast : opened ≤ last) (hd : 0 ≤ d) :
    (∀ t, opened ≤ t → t ≤ last → t.plus d ≠ none) ↔ d ≤ room last := by
  unfold room
  constructor
  · intro h
    have hend := Instant.plus_ne_none.1 (h last hlast le_rfl)
    omega
  · intro h t hopen hend
    have hlow := t.earliest
    rw [Instant.le_def] at hend
    exact Instant.plus_ne_none.2 ⟨by omega, by omega⟩

theorem minus_since {opened last : Instant} {d : Int} (hlast : opened ≤ last) (hd : 0 ≤ d) :
    (∀ t, opened ≤ t → t ≤ last → t.plus (-d) ≠ none) ↔ d ≤ opened.micro - earliestSlot := by
  constructor
  · intro h
    have hstart := Instant.plus_ne_none.1 (h opened le_rfl hlast)
    omega
  · intro h t hopen _
    have hhigh := t.widest
    rw [Instant.le_def] at hopen
    exact Instant.plus_ne_none.2 ⟨by omega, by omega⟩

/-- A span let through where it was declared stays usable up to an instant exactly where it was
declared short of the range by as much as the process has lived by then, and what a run is kept for
is no longer than what lies behind the instant it was declared at. -/
theorem spans_usable_iff {py : Interpreter} {opened last : Instant} {wanted : Wanted}
    {worker : Worker} {tasks : List Registered} {draft : Draft} {task : Registered}
    (hworker : Worker.init py opened wanted = .ok worker)
    (htask : checked py opened tasks draft = .ok task) (hlast : opened ≤ last) :
    Usable opened last worker task.terms ↔
      worker.lease.micro ≤ room last ∧
      microseconds (task.terms.longestWait worker.jitter) ≤ room last ∧
      ∀ keep, worker.keep = some keep → keep.micro ≤ opened.micro - earliestSlot := by
  have hbuilt : worker.Fit opened wanted := Worker.init_fit hworker
  have hterms : task.terms.Fit opened draft := (checked_of htask).terms
  have hjitter : 0 ≤ worker.jitter := hbuilt.jitter.2
  have hdelay : 0 ≤ task.terms.retryDelay := by
    have hfits := hterms.retryDelay.2
    simp only [delayFits, Bool.and_eq_true, decide_eq_true_eq] at hfits
    exact hfits.2
  have hceiling : 0 ≤ task.terms.maxRetryDelay := by
    have hfits := hterms.maxRetryDelay.2
    simp only [ceilingFits, Bool.and_eq_true, decide_eq_true_eq] at hfits
    exact hfits.2.le
  have htried : 1 ≤ task.terms.maxAttempts := by
    have hfits := hterms.maxAttempts.2
    simp only [attemptsFit, Bool.and_eq_true, decide_eq_true_eq] at hfits
    exact hfits.1
  have hlease := plus_until hlast (lease_pos hbuilt.lease.2).le
  have hlongest : 0 ≤ microseconds (task.terms.longestWait worker.jitter) := by
    rw [← waiting_longest task.terms hjitter]
    exact microseconds_nonneg (waiting_nonneg hdelay hceiling hjitter htried hjitter)
  have hwait := plus_until hlast hlongest
  constructor
  · intro h
    refine ⟨hlease.1 h.leased, hwait.1 fun t hopen hend => ?_, fun keep hkeep => ?_⟩
    · have hback := h.waited t hopen hend task.terms.maxAttempts worker.jitter htried le_rfl
        hjitter le_rfl
      rwa [Worker.comesBack, waiting_longest task.terms hjitter] at hback
    · apply (minus_since hlast (keep_nonneg (hbuilt.keep keep hkeep).2)).1
      intro t hopen hend
      exact h.pruned t hopen hend keep hkeep
  · rintro ⟨hleased, hwaited, hkept⟩
    refine ⟨hlease.2 hleased, ?_, fun t hopen hend keep hkeep => ?_⟩
    · intro t hopen hend attempt draw hattempt hallowed hdraw hdrawn
      have hnonneg := microseconds_nonneg
        (waiting_nonneg hdelay hceiling hjitter hattempt hdraw)
      have hle := microseconds_mono
        (waiting_le_longest hdelay hceiling hjitter hattempt hallowed hdraw hdrawn)
      exact (plus_until hlast hnonneg).2 (hle.trans hwaited) t hopen hend
    · exact (minus_since hlast (keep_nonneg (hbuilt.keep keep hkeep).2)).2 (hkept keep hkeep) t
        hopen hend

/-! ## A worker with a minute's lease, and one with the widest -/

/-- The first instant of 2026. -/
def newYear : Instant := ⟨1767225600000000, by decide, by decide⟩

def secondLater : Instant := ⟨1767225601000000, by decide, by decide⟩

def minute : Timedelta := ⟨60000000, by decide, by decide⟩

/-- Every whole second between the new year and the last instant a `datetime` holds. -/
def widest : Timedelta := ⟨251635075199000000, by decide, by decide⟩

/-- The defaults of a worker, under a lease. -/
def plainWanted (lease : Timedelta) : Wanted where
  name := [119]
  queues := [[100]]
  concurrency := .int false 8
  poll := .int false 1
  lease := .span lease
  jitter := .float false (.finite (1 / 4))
  grace := .int false 30
  keep := .none

def plainWorker (lease : Timedelta) : Worker := ⟨[119], [[100]], 8, 1, lease, 1 / 4, 30, none⟩

theorem plainTask_checked :
    ∃ task, checked startingInterpreter newYear [] plainTask = .ok task := by
  have hverdict : (checked startingInterpreter newYear [] plainTask).verdict Raised.ours = _ :=
    verdict_checked _ _ _
  exact Except.verdict_eq_passes.1 (hverdict.trans (by decide +kernel))

theorem plainWorker_init_minute : Worker.init startingInterpreter newYear (plainWanted minute) =
    .ok (plainWorker minute) := by
  decide +kernel

theorem plainWorker_init_widest : Worker.init startingInterpreter newYear (plainWanted widest) =
    .ok (plainWorker widest) := by
  decide +kernel

/-- A minute is usable up to the next second exactly where it fits what is left then. -/
theorem minute_usable_iff :
    ∃ task, checked startingInterpreter newYear [] plainTask = .ok task ∧
      (Usable newYear secondLater (plainWorker minute) task.terms ↔
        minute.micro ≤ room secondLater ∧
        microseconds (task.terms.longestWait (1 / 4)) ≤ room secondLater ∧
        ∀ keep, (plainWorker minute).keep = some keep →
          keep.micro ≤ newYear.micro - earliestSlot) := by
  rcases plainTask_checked with ⟨task, htask⟩
  exact ⟨task, htask, spans_usable_iff plainWorker_init_minute htask (by decide)⟩

/-- A lease as wide as what is left is let through, and raises in every claim a second later. -/
theorem widest_unusable :
    Worker.init startingInterpreter newYear (plainWanted widest) = .ok (plainWorker widest) ∧
    ∃ task, checked startingInterpreter newYear [] plainTask = .ok task ∧
      ¬ Usable newYear secondLater (plainWorker widest) task.terms := by
  rcases plainTask_checked with ⟨task, htask⟩
  refine ⟨plainWorker_init_widest, task, htask, fun h => ?_⟩
  apply h.leased secondLater (by decide) le_rfl
  decide

end Queuefy.Gate
