import Queuefy.App.Gates
import Queuefy.Lib.Verdict

/-! # Building a worker

`Worker.__init__` answers for each of its arguments before anything is made of them. What it lets
through is a worker whose every span and count is one it can work with where it was built.
-/

namespace Queuefy.Gate

open Json

variable (py : Interpreter)

/-- The arguments of a worker. The name is the one given, or the one drawn where none is. -/
structure Wanted where
  name : Text
  queues : List Text
  concurrency : Given
  poll : Given
  lease : Given
  jitter : Given
  grace : Given
  keep : Given

/-- A worker that was built. -/
structure Worker where
  name : Text
  queues : List Text
  concurrency : Int
  poll : ℚ
  lease : Timedelta
  jitter : ℚ
  grace : ℚ
  keep : Option Timedelta
  deriving DecidableEq

def leaseOf (now : Instant) (v : Given) : Except Raised Timedelta := do
  let lease ← spanned py v
  raiseIf py (lease.totalSeconds ≤ 0) (seconds lease)
  let _ ← waited py now (seconds lease)
  return lease

def pollOf (v : Given) : Except Raised ℚ := do
  let poll ← real py v
  raiseIf py (poll ≤ 0) v
  return poll

def concurrencyOf (v : Given) : Except Raised Int := do
  let concurrency ← whole py v
  raiseIf py (concurrency < 1) v
  return concurrency

/-- A queue a worker serves, and its own name, are asked for what a store holds. -/
def queuesOf : List Text → Except Raised Unit
  | [] => .ok ()
  | queue :: rest => do
      holdable queue queueLimit
      queuesOf rest

/-- What is asked of the grace and of the jitter. -/
def naturalOf (v : Given) : Except Raised ℚ := do
  let q ← real py v
  raiseIf py (q < 0) v
  return q

def keepOf (now : Instant) : Given → Except Raised (Option Timedelta)
  | .none => .ok none
  | v => do
      let keep ← spanned py v
      raiseIf py (keep.totalSeconds < 0) (seconds keep)
      let _ ← kept py now (seconds keep)
      return some keep

/-- `Worker.__init__`. -/
def Worker.init (now : Instant) (wanted : Wanted) : Except Raised Worker := do
  let lease ← leaseOf py now wanted.lease
  let poll ← pollOf py wanted.poll
  let concurrency ← concurrencyOf py wanted.concurrency
  if wanted.queues = [] then .error .queueError
  else
    queuesOf wanted.queues
    let grace ← naturalOf py wanted.grace
    let jitter ← naturalOf py wanted.jitter
    let keep ← keepOf py now wanted.keep
    holdable wanted.name workerNameLimit
    return ⟨wanted.name, wanted.queues, concurrency, poll, lease, jitter, grace, keep⟩

/-! ## The verdicts -/

def leaseFits (now : Instant) (span : Timedelta) : Bool :=
  decide (0 < span.totalSeconds) && decide (span.totalSeconds ≤ widestWait now)

def keepFits (now : Instant) (span : Timedelta) : Bool :=
  decide (0 ≤ span.totalSeconds) && decide (span.totalSeconds ≤ widestPast now)

def onKeep (now : Instant) : Given → Verdict
  | .none => .passes
  | v => onSpan py (keepFits now) v

/-- The verdicts of `Worker.__init__`, in the order its checks are made. -/
def onWanted (now : Instant) (wanted : Wanted) : List Verdict :=
  [onSpan py (leaseFits now) wanted.lease, onReal py (fun q => decide (0 < q)) wanted.poll,
    onCount py (fun n => decide (1 ≤ n)) wanted.concurrency,
    .on (decide (wanted.queues ≠ []) && wanted.queues.all (fitting queueLimit)) false,
    onReal py (fun q => decide (0 ≤ q)) wanted.grace,
    onReal py (fun q => decide (0 ≤ q)) wanted.jitter, onKeep py now wanted.keep,
    .on (fitting workerNameLimit wanted.name) false]

variable {py}

theorem leaseOf_admits (now : Instant) (v : Given) :
    Admits (leaseOf py now v) (timedelta v) (leaseFits now) (unspoken py v) := by
  apply spanned_and
  intro span
  rw [raiseIf_bind, waited_seconds]
  by_cases hpos : span.totalSeconds ≤ 0
  · simp [hpos, leaseFits]
  · by_cases hwide : span.totalSeconds ≤ widestWait now
    · simp [hpos, hwide, leaseFits]
    · simp [hpos, hwide, leaseFits]

theorem pollOf_admits (v : Given) :
    Admits (pollOf py v) (number v) (fun q => decide (0 < q)) (realBreaks py v) := by
  apply real_and
  intro q
  rw [raiseIf_bind]
  by_cases h : q ≤ 0
  · simp [h]
  · simp [h, pure, Except.pure]

theorem naturalOf_admits (v : Given) :
    Admits (naturalOf py v) (number v) (fun q => decide (0 ≤ q)) (realBreaks py v) := by
  apply real_and
  intro q
  rw [raiseIf_bind]
  by_cases h : q < 0
  · simp [h]
  · simp [h, pure, Except.pure]

theorem concurrencyOf_admits (v : Given) :
    Admits (concurrencyOf py v) (count v) (fun n => decide (1 ≤ n)) (unspoken py v) := by
  apply whole_and
  intro n
  rw [raiseIf_bind]
  by_cases h : n < 1
  · simp [h]
  · simp [h, pure, Except.pure]

theorem keptOf_admits (now : Instant) (v : Given) :
    Admits (do
      let keep ← spanned py v
      raiseIf py (keep.totalSeconds < 0) (seconds keep)
      let _ ← kept py now (seconds keep)
      return keep) (timedelta v) (keepFits now) (unspoken py v) := by
  apply spanned_and
  intro span
  rw [raiseIf_bind, kept_seconds]
  by_cases hneg : span.totalSeconds < 0
  · simp [hneg, keepFits]
  · by_cases hwide : span.totalSeconds ≤ widestPast now
    · simp [hneg, hwide, keepFits]
    · simp [hneg, hwide, keepFits]

/-- What a worker keeps a run for is nothing, or a span that was let through. -/
theorem keepOf_eq (now : Instant) {v : Given} (h : v.isNone = false) :
    keepOf py now v = (do
      let keep ← spanned py v
      raiseIf py (keep.totalSeconds < 0) (seconds keep)
      let _ ← kept py now (seconds keep)
      return keep) >>= fun keep => pure (some keep) := by
  cases v with
  | none => cases h
  | _ => simp only [keepOf, bind_assoc, pure_bind]

theorem verdict_keepOf (now : Instant) (v : Given) :
    verdict (keepOf py now v) = onKeep py now v := by
  cases hnone : v.isNone with
  | true =>
      cases v with
      | none => rfl
      | _ => cases hnone
  | false =>
      rw [keepOf_eq now hnone, verdict, Except.verdict_map]
      cases v with
      | none => cases hnone
      | _ => exact (keptOf_admits now _).verdict

theorem verdict_queuesOf (queues : List Text) :
    verdict (queuesOf queues) = .on (queues.all (fitting queueLimit)) false := by
  induction queues with
  | nil => rfl
  | cons queue rest ih =>
      have hqueue : (holdable queue queueLimit).verdict Raised.ours = _ := verdict_holdable _ _
      rw [queuesOf, verdict, Except.verdict_bind fun _ _ => ih, hqueue, List.all_cons]
      cases fitting queueLimit queue <;> rfl

/-- Building a worker comes to the verdict of the first of its checks that does not pass. -/
theorem verdict_init (now : Instant) (wanted : Wanted) :
    verdict (Worker.init py now wanted) = .first (onWanted py now wanted) := by
  have hlease : (leaseOf py now wanted.lease).verdict Raised.ours = _ :=
    (leaseOf_admits _ _).verdict
  have hpoll : (pollOf py wanted.poll).verdict Raised.ours = _ := (pollOf_admits _).verdict
  have hconcurrency : (concurrencyOf py wanted.concurrency).verdict Raised.ours = _ :=
    (concurrencyOf_admits _).verdict
  have hqueues : (queuesOf wanted.queues).verdict Raised.ours = _ := verdict_queuesOf _
  have hgrace : (naturalOf py wanted.grace).verdict Raised.ours = _ := (naturalOf_admits _).verdict
  have hjitter : (naturalOf py wanted.jitter).verdict Raised.ours = _ :=
    (naturalOf_admits _).verdict
  have hkeep : (keepOf py now wanted.keep).verdict Raised.ours = _ := verdict_keepOf _ _
  have hname : (holdable wanted.name workerNameLimit).verdict Raised.ours = _ :=
    verdict_holdable _ _
  unfold Worker.init
  by_cases hempty : wanted.queues = []
  · rw [verdict, Except.verdict_bind fun _ _ => Except.verdict_bind fun _ _ =>
      Except.verdict_bind fun _ _ => by rw [if_pos hempty], hlease, hpoll, hconcurrency]
    simp only [onWanted, hempty, onSpan, onReal, onCount, Verdict.first_cons]
    rfl
  · rw [verdict, Except.verdict_bind fun _ _ => Except.verdict_bind fun _ _ =>
      Except.verdict_bind fun _ _ => by
        rw [if_neg hempty, Except.verdict_bind fun _ _ => Except.verdict_bind fun _ _ =>
          Except.verdict_bind fun _ _ => Except.verdict_bind fun _ _ => Except.verdict_map]]
    rw [hlease, hpoll, hconcurrency, hqueues, hgrace, hjitter, hkeep, hname]
    simp [onWanted, hempty, onSpan, onReal, onCount]

/-- A worker that was built holds the spans it was given, each within its bounds. -/
structure Worker.Fit (now : Instant) (wanted : Wanted) (worker : Worker) : Prop where
  lease : timedelta wanted.lease = some worker.lease ∧ leaseFits now worker.lease = true
  jitter : number wanted.jitter = some worker.jitter ∧ 0 ≤ worker.jitter
  keep : ∀ keep, worker.keep = some keep → timedelta wanted.keep = some keep ∧
    keepFits now keep = true

theorem Worker.init_fit {now : Instant} {wanted : Wanted} {worker : Worker}
    (h : Worker.init py now wanted = .ok worker) : worker.Fit now wanted := by
  unfold Worker.init at h
  rcases Except.bind_ok_iff.1 h with ⟨lease, hlease, h⟩
  rcases Except.bind_ok_iff.1 h with ⟨poll, -, h⟩
  rcases Except.bind_ok_iff.1 h with ⟨concurrency, -, h⟩
  rw [Except.check_ok_iff] at h
  rcases Except.bind_ok_iff.1 h.2 with ⟨_, -, h⟩
  rcases Except.bind_ok_iff.1 h with ⟨grace, -, h⟩
  rcases Except.bind_ok_iff.1 h with ⟨jitter, hjitter, h⟩
  rcases Except.bind_ok_iff.1 h with ⟨keep, hkeep, h⟩
  rcases Except.bind_ok_iff.1 h with ⟨_, -, h⟩
  rw [← Except.pure_ok_iff.1 h]
  refine ⟨((leaseOf_admits _ _).ok _).1 hlease, ?_, ?_⟩
  · simpa using ((naturalOf_admits _).ok _).1 hjitter
  · rintro span rfl
    cases hnone : wanted.keep.isNone with
    | true =>
        cases hwanted : wanted.keep with
        | none =>
            rw [hwanted] at hkeep
            cases hkeep
        | _ =>
            rw [hwanted] at hnone
            cases hnone
    | false =>
        rw [keepOf_eq now hnone] at hkeep
        rcases Except.bind_ok_iff.1 hkeep with ⟨kept, hkept, hsome⟩
        rw [← Option.some.inj (Except.pure_ok_iff.1 hsome)]
        exact ((keptOf_admits _ _).ok _).1 hkept

end Queuefy.Gate
