import Queuefy.App.Gates
import Queuefy.App.Trigger
import Queuefy.Lib.Verdict

/-! # Registering a task

`Queuefy.register` is the gate every task passes through, and the decorator builds the trigger
before it. What they let through is a task whose every number is one a run is tried and waited
under; what they do with everything else is read off the guards in the order they are asked.
-/

namespace Queuefy.Gate

open Json

variable (py : Interpreter)

/-! ## Triggers -/

/-- An interval, past the checks it is built under. -/
structure Every where
  seconds : ℚ
  within : seconds ≤ widestSeconds
  fine : 1 ≤ microseconds seconds

/-- `Interval(seconds)`. -/
def interval (v : Given) : Except Raised Every := do
  let seconds ← real py v
  if seconds ≤ 0 then refuse py v
  else if hwide : (widestSeconds : ℚ) < seconds then refuse py v
  else if hfine : microseconds seconds < 1 then refuse py v
  else return ⟨seconds, not_lt.1 hwide, not_lt.1 hfine⟩

/-- A trigger: the two of the library, one of the caller's own, or an object that is none. -/
inductive Clock where
  | interval (every : Every)
  | cron (trigger : CronTrigger)
  | custom
  | stranger

/-- `Cron(expression)`. -/
def cron (expression : String) : Except Raised CronTrigger :=
  match h : Cron.parse py.numerals expression with
  | .ok schedule => .ok ⟨py.numerals, expression, schedule, h⟩
  | .error _ => .error .cronError

/-- `trigger_for`. -/
def triggerFor (every : Given) (expression : Option String) : Except Raised (Option Clock) :=
  match every, expression with
  | .none, none => .ok none
  | .none, some expression => do
      let trigger ← cron py expression
      return some (.cron trigger)
  | .span span, _ => do
      let every ← interval py (seconds span)
      return some (.interval every)
  | every, _ => do
      let every ← interval py every
      return some (.interval every)

/-! ## A task -/

/-- What says how long an attempt waits: a `RetryPolicy`, or an object that is none. -/
inductive Policy where
  | member (policy : RetryPolicy)
  | stranger (v : Given)

/-- A `Task` as it is written by hand. A handler that is nothing is one whose call answers a
generator. -/
structure Draft where
  name : Text
  handler : Option Handler
  queue : Text
  trigger : Option Clock
  maxAttempts : Given
  timeout : Given
  retryPolicy : Policy
  retryDelay : Given
  maxRetryDelay : Given
  priority : Given

/-- What a run of a task is tried and waited under. -/
structure Terms where
  retryPolicy : RetryPolicy
  maxAttempts : Int
  timeout : Option ℚ
  retryDelay : ℚ
  maxRetryDelay : ℚ
  deriving DecidableEq

/-- A task a registry holds. -/
structure Registered where
  name : Text
  handler : Handler
  queue : Text
  trigger : Option Clock
  priority : Int
  terms : Terms

/-- The key of a slot of a recurring task. -/
def occurrenceKey (name : Text) (moment : Instant) : Text :=
  name ++ 64 :: (moment.isoformat 'T').map Char.toNat

/-! ## What `policed` asks -/

def policyOf : Policy → Except Raised RetryPolicy
  | .member policy => .ok policy
  | .stranger v => refuse py v

def attemptsOf (v : Given) : Except Raised Int := do
  let attempts ← whole py v
  raiseIf py (attempts < 1) v
  raiseIf py (attemptLimit < attempts) v
  return attempts

def timeoutOf : Given → Except Raised (Option ℚ)
  | .none => .ok none
  | v => do
      let timeout ← real py v
      raiseIf py (timeout ≤ 0) v
      return some timeout

def retryDelayOf (now : Instant) (v : Given) : Except Raised ℚ := do
  let delay ← waited py now v
  raiseIf py (delay < 0) v
  return delay

def maxRetryDelayOf (now : Instant) (v : Given) : Except Raised ℚ := do
  let delay ← waited py now v
  raiseIf py (delay ≤ 0) v
  return delay

/-- `Queuefy.policed`, with the terms it let through. -/
def policed (now : Instant) (task : Draft) : Except Raised Terms := do
  let retryPolicy ← policyOf py task.retryPolicy
  let maxAttempts ← attemptsOf py task.maxAttempts
  let timeout ← timeoutOf py task.timeout
  let retryDelay ← retryDelayOf py now task.retryDelay
  let maxRetryDelay ← maxRetryDelayOf py now task.maxRetryDelay
  return ⟨retryPolicy, maxAttempts, timeout, retryDelay, maxRetryDelay⟩

/-! ## The gate -/

def freshOf (tasks : List Registered) (name : Text) : Except Raised Unit :=
  if name ∈ tasks.map (·.name) then .error .queueError else .ok ()

def handlerOf : Option Handler → Except Raised Handler
  | some handler => .ok handler
  | none => .error .queueError

/-- What is asked of a trigger: that it is one, and that a store holds the key of its every
slot. -/
def triggered (name : Text) : Option Clock → Except Raised Unit
  | none => .ok ()
  | some .stranger => .error .queueError
  | some _ => holdable (occurrenceKey name latest) keyLimit

/-- The checks of `Queuefy.register`, in order. -/
def checked (now : Instant) (tasks : List Registered) (task : Draft) :
    Except Raised Registered := do
  holdable task.name taskNameLimit
  freshOf tasks task.name
  holdable task.queue queueLimit
  let priority ← ranked py task.priority
  let handler ← handlerOf task.handler
  let terms ← policed py now task
  triggered task.name task.trigger
  return ⟨task.name, handler, task.queue, task.trigger, priority, terms⟩

/-- The arguments of the decorator, the handler it is put on included. -/
structure Declared where
  draft : Draft
  every : Given
  cron : Option String

/-- The decorator's own checks, before the task it writes is registered. -/
def declared (now : Instant) (tasks : List Registered) (task : Declared) :
    Except Raised Registered :=
  if !task.every.isNone && task.cron.isSome then .error .queueError
  else do
    let trigger ← triggerFor py task.every task.cron
    checked py now tasks { task.draft with trigger := trigger }

/-! ## Their verdicts -/

/-- The seconds an interval may be of. -/
def everyFits (seconds : ℚ) : Bool :=
  decide (0 < seconds) && decide (seconds ≤ widestSeconds) && decide (1 ≤ microseconds seconds)

def onTrigger (every : Given) (expression : Option String) : Verdict :=
  match every, expression with
  | .none, none => .passes
  | .none, some expression => .on (Cron.parse py.numerals expression).isOk false
  | .span span, _ => onReal py everyFits (seconds span)
  | every, _ => onReal py everyFits every

def onPolicy : Policy → Verdict
  | .member _ => .passes
  | .stranger v => .on false (unspoken py v)

def attemptsFit (n : Int) : Bool := decide (1 ≤ n) && decide (n ≤ attemptLimit)

def onTimeout : Given → Verdict
  | .none => .passes
  | v => onReal py (fun q => decide (0 < q)) v

def delayFits (now : Instant) (q : ℚ) : Bool :=
  decide (q ≤ widestWait now) && decide (0 ≤ q)

def ceilingFits (now : Instant) (q : ℚ) : Bool :=
  decide (q ≤ widestWait now) && decide (0 < q)

def onTerms (now : Instant) (task : Draft) : List Verdict :=
  [onPolicy py task.retryPolicy, onCount py attemptsFit task.maxAttempts,
    onTimeout py task.timeout, onReal py (delayFits now) task.retryDelay,
    onReal py (ceilingFits now) task.maxRetryDelay]

def rankFits (n : Int) : Bool := decide (-priorityLimit ≤ n) && decide (n ≤ priorityLimit)

def onClock (name : Text) : Option Clock → Verdict
  | none => .passes
  | some .stranger => .refuses
  | some _ => .on (fitting keyLimit (occurrenceKey name latest)) false

/-- The verdicts of the checks of `Queuefy.register`, in the order they are made, the one on the
trigger given. -/
def onChecks (now : Instant) (tasks : List Registered) (task : Draft) (clock : Verdict) :
    List Verdict :=
  [.on (fitting taskNameLimit task.name) false, .on (decide (task.name ∉ tasks.map (·.name))) false,
    .on (fitting queueLimit task.queue) false, onCount py rankFits task.priority,
    .on task.handler.isSome false] ++ onTerms py now task ++ [clock]

def onDraft (now : Instant) (tasks : List Registered) (task : Draft) : List Verdict :=
  onChecks py now tasks task (onClock task.name task.trigger)

/-- The key of its slots is asked of a task that is given a clock. -/
def onSlots (task : Declared) : Verdict :=
  if task.every.isNone && task.cron.isNone then .passes
  else .on (fitting keyLimit (occurrenceKey task.draft.name latest)) false

/-- The verdicts of the decorator. -/
def onDeclared (now : Instant) (tasks : List Registered) (task : Declared) : List Verdict :=
  .on (task.every.isNone || task.cron.isNone) false :: onTrigger py task.every task.cron ::
    onChecks py now tasks task.draft (onSlots task)

variable {py}

theorem interval_seconds (v : Given) :
    (interval py v >>= fun every => pure every.seconds) =
      real py v >>= fun q => if everyFits q then .ok q else refuse py v := by
  unfold interval
  cases real py v with
  | error e => rfl
  | ok q =>
      have hrefuse : (refuse py v >>= fun every : Every => pure every.seconds) = refuse py v :=
        refuse_bind v _
      simp only [bind, Except.bind] at hrefuse ⊢
      by_cases hpos : q ≤ 0
      · simp [hpos, everyFits, hrefuse]
      · by_cases hwide : (widestSeconds : ℚ) < q
        · simp [hpos, hwide, everyFits, hrefuse]
        · by_cases hfine : microseconds q < 1
          · simp [hpos, hwide, hfine, everyFits, hrefuse]
          · have hfits : everyFits q = true := by
              simp only [everyFits, Bool.and_eq_true, decide_eq_true_eq]
              exact ⟨⟨not_le.1 hpos, not_lt.1 hwide⟩, not_lt.1 hfine⟩
            simp [hpos, hwide, hfine, hfits, pure, Except.pure]

theorem verdict_interval (v : Given) : verdict (interval py v) = onReal py everyFits v := by
  have hseconds : Admits (interval py v >>= fun every => pure every.seconds) (number v) everyFits
      (realBreaks py v) := by
    rw [interval_seconds]
    exact real_and fun _ => rfl
  rw [verdict, ← Except.verdict_map (f := Every.seconds)]
  exact hseconds.verdict

theorem verdict_cron (expression : String) :
    verdict (cron py expression) = .on (Cron.parse py.numerals expression).isOk false := by
  unfold cron
  split
  · rename_i schedule h
    simp only [h]
    rfl
  · rename_i e h
    simp only [h]
    rfl

theorem verdict_triggerFor (every : Given) (expression : Option String) :
    verdict (triggerFor py every expression) = onTrigger py every expression := by
  have hinterval : ∀ v : Given, verdict (do
      let every ← interval py v
      return some (Clock.interval every)) = onReal py everyFits v := by
    intro v
    rw [verdict, Except.verdict_map]
    exact verdict_interval v
  cases every with
  | none =>
      cases expression with
      | none => rfl
      | some expression =>
          rw [triggerFor, verdict, Except.verdict_map]
          exact verdict_cron expression
  | span span => exact hinterval (seconds span)
  | bool truth => exact hinterval _
  | int derived n => exact hinterval _
  | float derived x => exact hinterval _
  | text t => exact hinterval _
  | moment wall offset => exact hinterval _
  | other repr => exact hinterval _

theorem verdict_timeoutOf (v : Given) : verdict (timeoutOf py v) = onTimeout py v := by
  have hreal : ∀ v : Given, verdict (do
      let timeout ← real py v
      raiseIf py (timeout ≤ 0) v
      return some timeout) = onReal py (fun q => decide (0 < q)) v := by
    intro v
    let positive := real py v >>= fun q => raiseIf py (q ≤ 0) v >>= fun _ => pure q
    have hadmits : Admits positive (number v) (fun q => decide (0 < q)) (realBreaks py v) := by
      apply real_and
      intro q
      rw [raiseIf_bind]
      by_cases h : q ≤ 0
      · simp [h]
      · simp [h, pure, Except.pure]
    have hmap : verdict (positive >>= fun q => pure (some q)) = verdict positive :=
      Except.verdict_map
    simp only [positive, bind_assoc, pure_bind] at hmap
    exact hmap.trans hadmits.verdict
  cases v with
  | none => rfl
  | bool truth => exact hreal _
  | int derived n => exact hreal _
  | float derived x => exact hreal _
  | text t => exact hreal _
  | span span => exact hreal _
  | moment wall offset => exact hreal _
  | other repr => exact hreal _

theorem attemptsOf_admits (v : Given) :
    Admits (attemptsOf py v) (count v) attemptsFit (unspoken py v) := by
  apply whole_and
  intro n
  rw [raiseIf_bind, raiseIf_bind]
  by_cases hfirst : n < 1
  · simp [hfirst, attemptsFit]
  · by_cases hmany : attemptLimit < n
    · simp [hfirst, hmany, attemptsFit]
    · simp [hfirst, hmany, attemptsFit, pure, Except.pure]

theorem retryDelayOf_admits (now : Instant) (v : Given) :
    Admits (retryDelayOf py now v) (number v) (delayFits now) (realBreaks py v) := by
  apply (waited_admits now v).real_and
  intro q
  rw [raiseIf_bind]
  by_cases h : q < 0
  · simp [h]
  · simp [h, pure, Except.pure]

theorem maxRetryDelayOf_admits (now : Instant) (v : Given) :
    Admits (maxRetryDelayOf py now v) (number v) (ceilingFits now) (realBreaks py v) := by
  apply (waited_admits now v).real_and
  intro q
  rw [raiseIf_bind]
  by_cases h : q ≤ 0
  · simp [h]
  · simp [h, pure, Except.pure]

theorem verdict_policyOf (policy : Policy) : verdict (policyOf py policy) = onPolicy py policy := by
  cases policy with
  | member policy => rfl
  | stranger v => exact verdict_refuse v

theorem verdict_policed (now : Instant) (task : Draft) :
    verdict (policed py now task) = .first (onTerms py now task) := by
  unfold policed
  rw [verdict, Except.verdict_bind fun _ _ => Except.verdict_bind fun _ _ => Except.verdict_bind
    fun _ _ => Except.verdict_bind fun _ _ => Except.verdict_map]
  have hpolicy : (policyOf py task.retryPolicy).verdict Raised.ours = _ := verdict_policyOf _
  have hattempts : (attemptsOf py task.maxAttempts).verdict Raised.ours = _ :=
    (attemptsOf_admits _).verdict
  have htimeout : (timeoutOf py task.timeout).verdict Raised.ours = _ := verdict_timeoutOf _
  have hdelay : (retryDelayOf py now task.retryDelay).verdict Raised.ours = _ :=
    (retryDelayOf_admits _ _).verdict
  have hceiling : (maxRetryDelayOf py now task.maxRetryDelay).verdict Raised.ours = _ :=
    (maxRetryDelayOf_admits _ _).verdict
  rw [hpolicy, hattempts, htimeout, hdelay, hceiling]
  simp [onTerms, onCount, onReal]

theorem verdict_freshOf (tasks : List Registered) (name : Text) :
    verdict (freshOf tasks name) = .on (decide (name ∉ tasks.map (·.name))) false := by
  unfold freshOf
  split
  · rename_i h
    rw [decide_eq_false (not_not.2 h)]
    rfl
  · rename_i h
    rw [decide_eq_true h]
    rfl

theorem verdict_handlerOf (handler : Option Handler) :
    verdict (handlerOf handler) = .on handler.isSome false := by
  cases handler <;> rfl

theorem verdict_triggered (name : Text) (clock : Option Clock) :
    verdict (triggered name clock) = onClock name clock := by
  cases clock with
  | none => rfl
  | some clock =>
      cases clock with
      | stranger => rfl
      | interval every => exact verdict_holdable _ _
      | cron trigger => exact verdict_holdable _ _
      | custom => exact verdict_holdable _ _

/-- Registering a task comes to the verdict of the first of its checks that does not pass. -/
theorem verdict_checked (now : Instant) (tasks : List Registered) (task : Draft) :
    verdict (checked py now tasks task) = .first (onDraft py now tasks task) := by
  unfold checked
  rw [verdict, Except.verdict_bind fun _ _ => Except.verdict_bind fun _ _ => Except.verdict_bind
    fun _ _ => Except.verdict_bind fun _ _ => Except.verdict_bind fun _ _ => Except.verdict_bind
    fun _ _ => Except.verdict_map]
  have hname : (holdable task.name taskNameLimit).verdict Raised.ours = _ := verdict_holdable _ _
  have hfresh : (freshOf tasks task.name).verdict Raised.ours = _ := verdict_freshOf _ _
  have hqueue : (holdable task.queue queueLimit).verdict Raised.ours = _ := verdict_holdable _ _
  have hpriority : (ranked py task.priority).verdict Raised.ours = _ := (ranked_admits _).verdict
  have hhandler : (handlerOf task.handler).verdict Raised.ours = _ := verdict_handlerOf _
  have hterms : (policed py now task).verdict Raised.ours = _ := verdict_policed now task
  have hclock : (triggered task.name task.trigger).verdict Raised.ours = _ := verdict_triggered _ _
  rw [hname, hfresh, hqueue, hpriority, hhandler, hterms, hclock, onDraft, onChecks,
    Verdict.first_append, Verdict.first_append]
  simp only [Verdict.first_cons, Verdict.first_nil, Verdict.next_passes, Verdict.next_assoc]
  rfl

/-- A trigger built of an `every` or of a `cron` is one of the two of the library. -/
theorem onClock_of_triggerFor {task : Declared} {trigger : Option Clock}
    (h : triggerFor py task.every task.cron = .ok trigger) :
    onClock task.draft.name trigger = onSlots task := by
  have hinterval : ∀ v : Given, (do
      let every ← interval py v
      return some (Clock.interval every)) = Except.ok trigger →
        onClock task.draft.name trigger =
          .on (fitting keyLimit (occurrenceKey task.draft.name latest)) false := by
    intro v hv
    rcases Except.bind_ok_iff.1 hv with ⟨every, -, hevery⟩
    rw [← Except.pure_ok_iff.1 hevery]
    rfl
  unfold triggerFor at h
  unfold onSlots
  cases hevery : task.every with
  | none =>
      cases hcron : task.cron with
      | none =>
          rw [hevery, hcron] at h
          cases h
          rfl
      | some expression =>
          rw [hevery, hcron] at h
          rcases Except.bind_ok_iff.1 h with ⟨cron, -, hcron⟩
          rw [← Except.pure_ok_iff.1 hcron]
          rfl
  | span span =>
      rw [hevery] at h
      exact hinterval _ h
  | _ =>
      rw [hevery] at h
      exact hinterval _ h

/-- The decorator comes to the verdict of the first of its checks that does not pass. -/
theorem verdict_declared (now : Instant) (tasks : List Registered) (task : Declared) :
    verdict (declared py now tasks task) = .first (onDeclared py now tasks task) := by
  unfold declared onDeclared
  rw [Verdict.first_cons]
  by_cases hboth : (!task.every.isNone && task.cron.isSome) = true
  · have hone : (task.every.isNone || task.cron.isNone) = false := by
      simpa using hboth
    rw [if_pos hboth, hone]
    rfl
  · have hone : (task.every.isNone || task.cron.isNone) = true := by
      revert hboth
      cases task.every.isNone <;> cases task.cron <;> simp
    rw [if_neg hboth, hone, verdict, Except.verdict_bind]
    · have htrigger : (triggerFor py task.every task.cron).verdict Raised.ours = _ :=
        verdict_triggerFor _ _
      rw [htrigger]
      rfl
    · intro trigger h
      have hchecked : (checked py now tasks { task.draft with trigger := trigger }).verdict
          Raised.ours = _ := verdict_checked now tasks _
      rw [hchecked, onDraft, onClock_of_triggerFor h]
      rfl

/-! ## An interpreter and a task as they start out -/

def startingInterpreter : Interpreter :=
  { startingLimits with
    allows := Or.inr (by decide)
    numerals := .plain }

def plainTask : Draft where
  name := [97]
  handler := some .plain
  queue := [100]
  trigger := none
  maxAttempts := .int false 1
  timeout := .none
  retryPolicy := .member .exponential
  retryDelay := .int false 5
  maxRetryDelay := .int false 3600
  priority := .int false 0

/-! ## What is let through -/

/-- The terms a task was let through with are its own numbers, each within its bounds. -/
structure Terms.Fit (now : Instant) (task : Draft) (terms : Terms) : Prop where
  maxAttempts : count task.maxAttempts = some terms.maxAttempts ∧
    attemptsFit terms.maxAttempts = true
  retryDelay : number task.retryDelay = some terms.retryDelay ∧
    delayFits now terms.retryDelay = true
  maxRetryDelay : number task.maxRetryDelay = some terms.maxRetryDelay ∧
    ceilingFits now terms.maxRetryDelay = true

theorem policed_fit {now : Instant} {task : Draft} {terms : Terms}
    (h : policed py now task = .ok terms) : terms.Fit now task := by
  unfold policed at h
  rcases Except.bind_ok_iff.1 h with ⟨policy, -, h⟩
  rcases Except.bind_ok_iff.1 h with ⟨attempts, hattempts, h⟩
  rcases Except.bind_ok_iff.1 h with ⟨timeout, -, h⟩
  rcases Except.bind_ok_iff.1 h with ⟨delay, hdelay, h⟩
  rcases Except.bind_ok_iff.1 h with ⟨ceiling, hceiling, h⟩
  rw [← Except.pure_ok_iff.1 h]
  exact ⟨((attemptsOf_admits _).ok _).1 hattempts, ((retryDelayOf_admits _ _).ok _).1 hdelay,
    ((maxRetryDelayOf_admits _ _).ok _).1 hceiling⟩

/-- What is registered is what was written, under terms that were let through. -/
structure Registered.Of (now : Instant) (task : Draft) (registered : Registered) : Prop where
  name : registered.name = task.name
  held : fitting taskNameLimit task.name = true
  trigger : registered.trigger = task.trigger
  slots : onClock task.name task.trigger = .passes
  terms : registered.terms.Fit now task

theorem checked_of {now : Instant} {tasks : List Registered} {task : Draft}
    {registered : Registered} (h : checked py now tasks task = .ok registered) :
    registered.Of now task := by
  unfold checked at h
  rcases Except.bind_ok_iff.1 h with ⟨_, hname, h⟩
  rcases Except.bind_ok_iff.1 h with ⟨_, -, h⟩
  rcases Except.bind_ok_iff.1 h with ⟨_, -, h⟩
  rcases Except.bind_ok_iff.1 h with ⟨priority, -, h⟩
  rcases Except.bind_ok_iff.1 h with ⟨handler, -, h⟩
  rcases Except.bind_ok_iff.1 h with ⟨terms, hterms, h⟩
  rcases Except.bind_ok_iff.1 h with ⟨_, hclock, h⟩
  have hslots : verdict (triggered task.name task.trigger) = .passes :=
    Except.verdict_eq_passes.2 ⟨_, hclock⟩
  rw [verdict_triggered] at hslots
  rw [← Except.pure_ok_iff.1 h]
  exact ⟨rfl, holdable_ok.1 hname, rfl, hslots, policed_fit hterms⟩

end Queuefy.Gate
