import Queuefy.App.Register
import Queuefy.Worker.Built

/-! # Refusing under one name

A task registered, a worker built and a run enqueued each ask their checks in an order, and the
first that does not pass decides: the call raises, with nothing registered and nothing written.
What it raises is a `QueueError` unless the value that check was asked of is one it breaks on.
-/

namespace Queuefy.Gate

open Json

variable {F : Type} [Floats F] (py : Interpreter)

/-! ## A run -/

/-- The arguments of `enqueue_at`. A payload that is nothing is one given in pieces. -/
structure Enqueued (F : Type) where
  name : Text
  whenDue : Given
  key : Given
  priority : Given
  payload : Value F
  shorthand : List (Key F × Value F)

/-- What `build` makes a run of. -/
structure Built (F : Type) where
  task : Registered
  payload : Value F
  key : Option Text
  dueAt : Instant
  priority : Int

def keyOf : Given → Except Raised (Option Text)
  | .none => .ok none
  | v => do
      let key ← keyed py v
      return some key

def priorityOf (task : Registered) : Given → Except Raised Int
  | .none => .ok task.priority
  | v => ranked py v

/-- `as_written`, under the names a gate raises. -/
def argumentsOf (payload : Value F) : Except Raised (Value F) :=
  match asWritten py.toLimits payload with
  | .ok arguments => .ok arguments
  | .error .queueError => .error .queueError
  | .error .valueError => .error .valueError
  | .error .typeError | .error .recursionError => .error .foreign

/-- `Queuefy.build`. -/
def build (task : Registered) (due : Given) (payload : Value F) (key priority : Given) :
    Except Raised (Built F) := do
  let key ← keyOf py key
  let priority ← priorityOf py task priority
  let moment ← scheduled py due
  let arguments ← argumentsOf py payload
  return ⟨task, arguments, key, moment, priority⟩

def taskFor (tasks : List Registered) (name : Text) : Except Raised Registered :=
  match tasks.find? (·.name = name) with
  | some task => .ok task
  | none => .error .unknownTask

/-- `payload_of`. -/
def payloadOf (payload : Value F) (shorthand : List (Key F × Value F)) :
    Except Raised (Value F) :=
  match payload with
  | .none => .ok (.dict false shorthand)
  | payload => if shorthand.isEmpty then .ok payload else .error .queueError

/-- `enqueue_at`, up to the run it hands the store. -/
def enqueued (tasks : List Registered) (run : Enqueued F) : Except Raised (Built F) := do
  let task ← taskFor tasks run.name
  let payload ← payloadOf run.payload run.shorthand
  build py task run.whenDue payload run.key run.priority

/-! ## The calls -/

/-- What an application holds, the store with everything written to it. -/
structure App (σ : Type) where
  tasks : List Registered
  store : σ

/-- The calls that pass the gates. -/
inductive Call (F : Type) where
  | register (task : Draft)
  | task (task : Declared)
  | worker (wanted : Wanted)
  | enqueueAt (run : Enqueued F)

variable {σ : Type}

/-- A task is registered where its checks let it through. -/
def App.enter (app : App σ) : Except Raised Registered → Except Raised Unit × App σ
  | .ok task => (.ok (), { app with tasks := app.tasks ++ [task] })
  | .error e => (.error e, app)

/-- A call at an instant: what it answers, and the application after it. `storeOnce` is what the
store holds once it was handed a run. -/
def Call.perform (now : Instant) (storeOnce : Built F → σ → σ) (app : App σ) :
    Call F → Except Raised Unit × App σ
  | .register draft => app.enter (checked py now app.tasks draft)
  | .task given => app.enter (declared py now app.tasks given)
  | .worker wanted =>
      match Worker.init py now wanted with
      | .ok _ => (.ok (), app)
      | .error e => (.error e, app)
  | .enqueueAt run =>
      match enqueued py app.tasks run with
      | .ok built => (.ok (), { app with store := storeOnce built app.store })
      | .error e => (.error e, app)

/-! ## Their verdicts -/

instance (payload : Value F) : Decidable (∃ derived entries, payload = .dict derived entries) :=
  match payload with
  | .dict derived entries => .isTrue ⟨derived, entries, rfl⟩
  | .none | .bool _ | .int _ _ | .float _ | .nonfinite | .str _ _ | .sequence _ _ _ | .other
  | .itself => .isFalse (by simp)

instance (limits : Limits) (payload : Value F) : Decidable (PayloadTaken limits payload) :=
  inferInstanceAs (Decidable (_ ∧ _ ∧ _ ∧ _))

def onKeyGiven : Given → Verdict
  | .none => .passes
  | v => onKey py v

def onPriority : Given → Verdict
  | .none => .passes
  | v => onCount py rankFits v

/-- The arguments a run is given, in one piece. -/
def Enqueued.arguments (run : Enqueued F) : Value F :=
  match run.payload with
  | .none => .dict false run.shorthand
  | payload => payload

def Enqueued.onePiece (run : Enqueued F) : Bool :=
  match run.payload with
  | .none => true
  | _ => run.shorthand.isEmpty

/-- The verdicts of `enqueue_at`, in the order its checks are made. -/
def onEnqueued (tasks : List Registered) (run : Enqueued F) : List Verdict :=
  [.on (decide (run.name ∈ tasks.map (·.name))) false, .on run.onePiece false,
    onKeyGiven py run.key, onPriority py run.priority, onMoment py run.whenDue,
    .on (decide (PayloadTaken py.toLimits run.arguments)) false]

/-- The verdicts of a call. -/
def Call.verdicts (now : Instant) (tasks : List Registered) : Call F → List Verdict
  | .register draft => onDraft py now tasks draft
  | .task given => onDeclared py now tasks given
  | .worker wanted => onWanted py now wanted
  | .enqueueAt run => onEnqueued py tasks run

variable {py}

/-! ## That these are what the calls come to -/

theorem verdict_keyOf (v : Given) : verdict (keyOf py v) = onKeyGiven py v := by
  have hkeyed : ∀ v : Given, verdict (keyed py v >>= fun key => pure (some key)) = onKey py v := by
    intro v
    rw [verdict, Except.verdict_map]
    exact verdict_keyed v
  cases v with
  | none => rfl
  | _ => exact hkeyed _

theorem verdict_priorityOf (task : Registered) (v : Given) :
    verdict (priorityOf py task v) = onPriority py v := by
  cases v with
  | none => rfl
  | _ => exact (ranked_admits _).verdict

theorem verdict_argumentsOf (payload : Value F) :
    verdict (argumentsOf py payload) = .on (decide (PayloadTaken py.toLimits payload)) false := by
  by_cases h : PayloadTaken py.toLimits payload
  · rw [argumentsOf, asWritten_of_taken py.toLimits h, decide_eq_true h]
    rfl
  · rw [argumentsOf, asWritten_of_not_taken py.toLimits h, decide_eq_false h]
    rfl

theorem verdict_taskFor (tasks : List Registered) (name : Text) :
    verdict (taskFor tasks name) = .on (decide (name ∈ tasks.map (·.name))) false := by
  unfold taskFor
  cases hfind : tasks.find? (·.name = name) with
  | some task =>
      have hmem : name ∈ tasks.map (·.name) := by
        have hname : task.name = name := by simpa using List.find?_some hfind
        exact List.mem_map.2 ⟨task, List.mem_of_find?_eq_some hfind, hname⟩
      rw [decide_eq_true hmem]
      rfl
  | none =>
      have hmem : name ∉ tasks.map (·.name) := by
        rw [List.mem_map]
        rintro ⟨task, htask, rfl⟩
        simpa using List.find?_eq_none.1 hfind task htask
      rw [decide_eq_false hmem]
      rfl

omit [Floats F] in
theorem verdict_payloadOf (run : Enqueued F) :
    verdict (payloadOf run.payload run.shorthand) = .on run.onePiece false := by
  unfold payloadOf Enqueued.onePiece
  split
  · rfl
  · cases run.shorthand.isEmpty <;> rfl

omit [Floats F] in
theorem payloadOf_ok {run : Enqueued F} {payload : Value F}
    (h : payloadOf run.payload run.shorthand = .ok payload) : payload = run.arguments := by
  unfold payloadOf at h
  unfold Enqueued.arguments
  split at h
  · exact (Except.ok.inj h).symm
  · split at h
    · exact (Except.ok.inj h).symm
    · cases h

/-- Enqueuing a run comes to the verdict of the first of its checks that does not pass. -/
theorem verdict_enqueued (tasks : List Registered) (run : Enqueued F) :
    verdict (enqueued py tasks run) = .first (onEnqueued py tasks run) := by
  have htask : (taskFor tasks run.name).verdict Raised.ours = _ := verdict_taskFor _ _
  have hpayload : (payloadOf run.payload run.shorthand).verdict Raised.ours = _ :=
    verdict_payloadOf run
  have hkey : (keyOf py run.key).verdict Raised.ours = _ := verdict_keyOf _
  have hpriority : ∀ task, (priorityOf py task run.priority).verdict Raised.ours = _ :=
    fun task => verdict_priorityOf task _
  have hdue : (scheduled py run.whenDue).verdict Raised.ours = _ := verdict_scheduled _
  have harguments : (argumentsOf py run.arguments).verdict Raised.ours = _ :=
    verdict_argumentsOf _
  have hbuild : ∀ task payload, payloadOf run.payload run.shorthand = .ok payload →
      (build py task run.whenDue payload run.key run.priority).verdict Raised.ours =
        .first [onKeyGiven py run.key, onPriority py run.priority, onMoment py run.whenDue,
          .on (decide (PayloadTaken py.toLimits run.arguments)) false] := by
    intro task payload h
    rw [payloadOf_ok h, build, Except.verdict_bind fun _ _ => Except.verdict_bind fun _ _ =>
      Except.verdict_bind fun _ _ => Except.verdict_map, hkey, hpriority, hdue, harguments]
    simp
  rw [enqueued, verdict, Except.verdict_bind fun task _ => Except.verdict_bind
    fun payload h => hbuild task payload h, htask, hpayload]
  rfl

/-! ## What a call may raise -/

/-- A call that comes back or raises under the name of the library, and that raises with
everything left as it was. -/
def Named (app : App σ) (answer : Except Raised Unit × App σ) : Prop :=
  ∀ e, answer.1 = .error e → e.ours = true ∧ answer.2 = app

theorem perform_error {now : Instant} {storeOnce : Built F → σ → σ} {app : App σ} {call : Call F}
    {e : Raised} (h : (call.perform py now storeOnce app).1 = .error e) :
    (call.perform py now storeOnce app).2 = app := by
  cases call with
  | register draft =>
      simp only [Call.perform] at h ⊢
      cases hchecked : checked py now app.tasks draft with
      | ok task => simp [hchecked, App.enter] at h
      | error e => rfl
  | task given =>
      simp only [Call.perform] at h ⊢
      cases hdeclared : declared py now app.tasks given with
      | ok task => simp [hdeclared, App.enter] at h
      | error e => rfl
  | worker wanted =>
      simp only [Call.perform] at h ⊢
      cases hinit : Worker.init py now wanted with
      | ok worker => rfl
      | error e => rfl
  | enqueueAt run =>
      simp only [Call.perform] at h ⊢
      cases hrun : enqueued py app.tasks run with
      | ok built => simp [hrun] at h
      | error e => rfl

theorem verdict_perform (now : Instant) (storeOnce : Built F → σ → σ) (app : App σ)
    (call : Call F) : verdict (call.perform py now storeOnce app).1 =
      .first (call.verdicts py now app.tasks) := by
  cases call with
  | register draft =>
      rw [Call.verdicts, ← verdict_checked, Call.perform]
      cases checked py now app.tasks draft <;> rfl
  | task given =>
      rw [Call.verdicts, ← verdict_declared, Call.perform]
      cases declared py now app.tasks given <;> rfl
  | worker wanted =>
      rw [Call.verdicts, ← verdict_init, Call.perform]
      cases Worker.init py now wanted <;> rfl
  | enqueueAt run =>
      rw [Call.verdicts, ← verdict_enqueued, Call.perform]
      cases enqueued py app.tasks run <;> rfl

/-- An application that holds one task, and how many runs its store was handed. -/
def plainApp : App Nat where
  tasks := [⟨[97], .plain, [100], none, 0, ⟨.exponential, 1, none, 5, 3600⟩⟩]
  store := 0

def plainRun : Enqueued WholeFloat where
  name := [97]
  whenDue := .moment Instant.epoch none
  key := .none
  priority := .none
  payload := .none
  shorthand := []

/-- `datetime.min`, read at fourteen hours east of UTC. -/
def beforeTime : Given :=
  .moment ⟨earliestSlot, le_rfl, earliestSlot_le_widestSlot⟩
    (some ⟨50400000000, by decide, by decide⟩)

end Queuefy.Gate
