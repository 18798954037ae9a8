import Queuefy.Fleet.Turn
import Queuefy.Retry
import Queuefy.Store.Plain

/-! # What an attempt becomes

`Worker.attempt` from its first line to its last, as the calls it makes: the listeners it tells and
the ending it asks of the store. What the handler does, what the store answers and what every
listener does is up to the world.
-/

namespace Queuefy.Report

/-- The class of an exception, as the arms of `attempt` tell one from another. -/
inductive Kind
  | cancelledError
  | permanentError
  | unknownTask | timeoutError | workNeverStarted | unwritableAnswer | exception
  | systemExit | keyboardInterrupt | baseException
deriving DecidableEq

/-- Whether a class is an `Exception` and not only a `BaseException`. -/
def Kind.isException : Kind → Bool
  | .permanentError | .unknownTask | .timeoutError | .workNeverStarted | .unwritableAnswer
  | .exception => true
  | .cancelledError | .systemExit | .keyboardInterrupt | .baseException => false

/-- Whether another attempt may fix what a handler raised. -/
def Kind.retryable : Kind → Bool
  | .unknownTask | .timeoutError | .workNeverStarted | .unwritableAnswer | .exception => true
  | .cancelledError | .permanentError | .systemExit | .keyboardInterrupt | .baseException => false

/-- An exception: its class, what `spoken` reads of it and the name of its class. -/
structure Failure where
  kind : Kind
  spoken : String
  name : String

/-! ## Texts -/

def errorLimit : Nat := 4096

def errorTypeLimit : Nat := 128

/-- What fits, and a mark where the rest was. -/
def cut (value : String) (limit : Nat) : String :=
  if value.length ≤ limit then value
  else String.ofList (value.toList.take (limit - 3)) ++ "..."

/-- No text here holds a surrogate, so what is left to write out is the nul character. -/
def storable (value : String) : String :=
  String.ofList (value.toList.flatMap fun c => if c.toNat = 0 then "\\x00".toList else [c])

@[irreducible] def described (error : Failure) : String × String :=
  (cut (storable error.spoken) errorLimit, cut error.name errorTypeLimit)

def unknown (name : String) : Failure :=
  ⟨.unknownTask, "nothing here is called '" ++ name ++ "'", "UnknownTask"⟩

/-- What `asyncio.wait_for` raises. It says nothing, so what is read is the name of its class. -/
def waitedOut : Failure := ⟨.timeoutError, "TimeoutError", "TimeoutError"⟩

def neverStarted (run worker : String) : Failure :=
  ⟨.workNeverStarted,
    "the timeout of '" ++ run ++ "' passed while its work was still queued for " ++
    "a thread of " ++ worker ++ ", so no line of the handler ever ran", "WorkNeverStarted"⟩

def unwritable (run refusal : String) : Failure :=
  ⟨.unwritableAnswer,
    "'" ++ run ++ "' answered something no store can write down, and what a run " ++
    "is closed with is json wherever the runs live: " ++ refusal, "UnwritableAnswer"⟩

/-! ## The world -/

/-- What a handler answers: a mapping, or anything else. -/
inductive Returned (M : Type)
  | mapping (answer : M)
  | other

/-- How a call of the handler comes out. `raised` is the handler raising, or the call of it, or its
handing over to the pool; `timedOut` is the wait passing, with what the cancelling of the work
answers; a thread that finished or began is not taken back. -/
inductive Course (M : Type)
  | returned (answer : Returned M)
  | raised (error : Failure)
  | timedOut (takenBack : Bool)
  | cancelled

/-- What a listener is told. -/
inductive Message (V : Type)
  | started
  | finished (answer : Option V)
  | failed (error : Failure) (comingBack : Bool)

/-- What becomes of telling a listener: it returns, breaks alone, or meets the cancelling. -/
inductive Heard
  | returned | broke | cancelled
deriving DecidableEq

/-- What the store makes of an ending. -/
inductive Reply
  | taken | refused | raised
deriving DecidableEq

/-- Who a worker tells. -/
structure Listeners (L : Type) where
  starting : List L
  finishing : List L
  failing : List L

/-- Everything an attempt meets. The instant is the one it reads where it asks its ending, and
`delayFor` is what `delay_for` answers there of a policy, a base, an attempt and a ceiling, in
seconds: the jitter that is drawn and the rounding of its floats are the world's. -/
structure World (M V L : Type) where
  hears : L → Message V → Heard
  course : Course M
  moment : Instant
  delayFor : RetryPolicy → ℚ → Int → ℚ → ℚ
  reply : Reply

/-- `Worker.waiting`. -/
def World.waiting {M V L : Type} (world : World M V L) (row : Row Nat V) : ℚ :=
  world.delayFor row.retryPolicy row.retryDelay row.attempts row.maxRetryDelay

/-- When a run that goes back comes due, unless that is no instant a `datetime` holds. -/
def World.dueAt {M V L : Type} (world : World M V L) (row : Row Nat V) : Option Instant :=
  world.moment.plus (microseconds (world.waiting row))

/-- No listener meets the cancelling as it is told. -/
def Undisturbed (world : World M V L) (message : Message V) (told : List L) : Prop :=
  ∀ listener ∈ told, world.hears listener message ≠ .cancelled

instance (world : World M V L) (message : Message V) (told : List L) :
    Decidable (Undisturbed world message told) :=
  inferInstanceAs (Decidable (∀ _ ∈ told, _))

/-! ## Calls -/

/-- A call an attempt makes. -/
inductive Call (V L : Type)
  | told (listener : L) (message : Message V)
  | asked (ending : Ending V)

/-- What ends an attempt before its last line. -/
inductive Stop
  | cancelled | raised
deriving DecidableEq

/-- A part of an attempt: the calls it makes, and what it comes to. -/
structure Act (V L α : Type) where
  calls : List (Call V L)
  result : Except Stop α

namespace Act

variable {V L α β : Type}

def bind (act : Act V L α) (next : α → Act V L β) : Act V L β :=
  match act.result with
  | .ok a => ⟨act.calls ++ (next a).calls, (next a).result⟩
  | .error stop => ⟨act.calls, .error stop⟩

instance : Monad (Act V L) where
  pure a := ⟨[], .ok a⟩
  bind := bind

def make (call : Call V L) : Act V L Unit := ⟨[call], .ok ()⟩

def stop (stop : Stop) : Act V L α := ⟨[], .error stop⟩

end Act

variable {M V L : Type}

/-- Every listener in turn. One that breaks breaks alone; the cancelling is passed on. -/
def announce (hears : L → Message V → Heard) (message : Message V) : List L → Act V L Unit
  | [] => pure ()
  | listener :: rest => do
      .make (.told listener message)
      match hears listener message with
      | .returned | .broke => announce hears message rest
      | .cancelled => .stop .cancelled

/-- A call of the store. -/
def ask (world : World M V L) (ending : Ending V) : Act V L Bool := do
  .make (.asked ending)
  match world.reply with
  | .taken => return true
  | .refused => return false
  | .raised => .stop .raised

/-- `Worker.release`: nothing where the store would not take it. Where the run comes due at no
instant, working that out raises before the store is asked. -/
def release (row : Row Nat V) (world : World M V L) (error : Failure) : Act V L (Option Bool) :=
  match world.dueAt row with
  | none => .stop .raised
  | some dueAt => do
      let taken ← ask world (.release dueAt (described error).1 (described error).2)
      return if taken then some true else none

/-- `Worker.settle`. -/
def settle (row : Row Nat V) (world : World M V L) (error : Failure) (retryable : Bool) :
    Act V L (Option Bool) :=
  if retryable && !row.exhausted then
    match world.dueAt row with
    | none => .stop .raised
    | some dueAt => do
        let taken ← ask world (.retryLater dueAt (described error).1 (described error).2)
        return if taken then some true else none
  else do
    let taken ← ask world (.fail world.moment (described error).1 (described error).2)
    return if taken then some false else none

/-- `Worker.after`. -/
def after (row : Row Nat V) (world : World M V L) (error : Failure) (started : Bool) :
    Act V L (Option Bool) :=
  if started then settle row world error true else release row world error

/-- `Worker.broke`. -/
def broke (listeners : Listeners L) (world : World M V L) (error : Failure)
    (comingBack : Option Bool) : Act V L Unit :=
  match comingBack with
  | none => return ()
  | some comingBack => announce world.hears (.failed error comingBack) listeners.failing

section Worker

variable (keepable : M → Except String V) (w : Worker) (listeners : Listeners L)
  (row : Row Nat V) (world : World M V L)

/-- `Worker.answered`. -/
def answered (result : Returned M) : Act V L Unit := do
  let answer : Except String (Option V) :=
    match result with
    | .mapping answer => (keepable answer).map some
    | .other => .ok none
  match answer with
  | .error refusal =>
      let broken := unwritable row.name refusal
      broke listeners world broken (← settle row world broken false)
  | .ok answer =>
      if ← ask world (.complete world.moment answer) then
        announce world.hears (.finished answer) listeners.finishing

/-- `Worker.call`: what it returns or raises, and whether the work was ever started. -/
def call (handler : Handler) : Except Failure (Returned M) × Bool :=
  match world.course, handler with
  | .returned answer, _ => (.ok answer, true)
  | .raised error, _ => (.error error, true)
  | .cancelled, _ => (.error ⟨.cancelledError, "CancelledError", "CancelledError"⟩, true)
  | .timedOut _, .coroutine | .timedOut false, .plain => (.error waitedOut, true)
  | .timedOut true, .plain => (.error (neverStarted row.name w.name), false)

def attempt : Act V L Unit := do
  announce world.hears .started listeners.starting
  match taskFor w.tasks row.name with
  | none =>
      let error := unknown row.name
      broke listeners world error (← release row world error)
  | some task =>
      match call w row world task.handler with
      | (.ok result, _) => answered keepable listeners row world result
      | (.error error, started) =>
          if error.kind = .cancelledError then .stop .cancelled
          else if error.kind = .permanentError then
            broke listeners world error (← settle row world error false)
          else if error.kind.isException then
            broke listeners world error (← after row world error started)
          else broke listeners world error (← settle row world error false)

/-! ## The outcome table -/

/-- The run ends as failed. -/
def fails (error : Failure) : Ending V × Message V :=
  (.fail world.moment (described error).1 (described error).2, .failed error false)

/-- The run comes back, at an instant, while attempts are left. -/
def retries (dueAt : Instant) (error : Failure) : Ending V × Message V :=
  if row.attempts < row.maxAttempts then
    (.retryLater dueAt (described error).1 (described error).2, .failed error true)
  else fails world error

/-- The run goes back with its attempt given back. -/
def handsBack (dueAt : Instant) (error : Failure) : Ending V × Message V :=
  (.release dueAt (described error).1 (described error).2, .failed error true)

/-- What an outcome names: the ending, and what is announced of it. A run that goes back comes due
at the instant. -/
def outcome (dueAt : Instant) : Option (Ending V × Message V) :=
  match taskFor w.tasks row.name with
  | none => some (handsBack dueAt (unknown row.name))
  | some task =>
      match world.course with
      | .returned .other => some (.complete world.moment none, .finished none)
      | .returned (.mapping answer) =>
          match keepable answer with
          | .ok kept => some (.complete world.moment (some kept), .finished (some kept))
          | .error refusal => some (fails world (unwritable row.name refusal))
      | .raised error =>
          match error.kind with
          | .cancelledError => none
          | .permanentError | .systemExit | .keyboardInterrupt | .baseException =>
              some (fails world error)
          | .unknownTask | .timeoutError | .workNeverStarted | .unwritableAnswer | .exception =>
              some (retries row world dueAt error)
      | .timedOut takenBack =>
          match task.handler, takenBack with
          | .plain, true => some (handsBack dueAt (neverStarted row.name w.name))
          | _, _ => some (retries row world dueAt waitedOut)
      | .cancelled => none

/-- What an attempt concludes with: nothing where it is cancelled as it tells who is starting. -/
def concluded (dueAt : Instant) : Option (Ending V × Message V) :=
  if Undisturbed world .started listeners.starting then outcome keepable w row world dueAt
  else none

/-- Whether the run goes back: its name is not declared here, its work never started, or its failure
is one to try again and attempts are left. -/
def goesBack : Bool :=
  match taskFor w.tasks row.name with
  | none => true
  | some task =>
      match world.course with
      | .returned _ | .cancelled => false
      | .raised error => error.kind.retryable && decide (row.attempts < row.maxAttempts)
      | .timedOut takenBack =>
          match task.handler, takenBack with
          | .plain, true => true
          | _, _ => decide (row.attempts < row.maxAttempts)

end Worker

/-- The listeners a telling reaches: all of them, or those up to the first that meets the
cancelling. -/
def reached (hears : L → Message V → Heard) (message : Message V) : List L → List L
  | [] => []
  | listener :: rest =>
      listener :: if hears listener message = .cancelled then [] else reached hears message rest

/-- Who a message is for. -/
def Listeners.audience (listeners : Listeners L) : Message V → List L
  | .started => listeners.starting
  | .finished _ => listeners.finishing
  | .failed .. => listeners.failing

/-- The calls that tell the listeners of a message. -/
def telling (listeners : Listeners L) (world : World M V L) (message : Message V) :
    List (Call V L) :=
  (reached world.hears message (listeners.audience message)).map fun listener =>
    .told listener message

/-- An ending, and what is announced of it where the store takes it. -/
def closing (listeners : Listeners L) (world : World M V L) (ended : Ending V × Message V) :
    List (Call V L) :=
  .asked ended.1 :: if world.reply = .taken then telling listeners world ended.2 else []

/-- The ending a call asks of the store. -/
def Call.ending : Call V L → Option (Ending V)
  | .asked ending => some ending
  | .told .. => none

/-- The finish listener a call tells, and the answer it is told. -/
def Call.finish : Call V L → Option (L × Option V)
  | .told listener (.finished answer) => some (listener, answer)
  | _ => none

/-- The error listener a call tells, what broke, and whether the run comes back. -/
def Call.error : Call V L → Option (L × Failure × Bool)
  | .told listener (.failed error comingBack) => some (listener, error, comingBack)
  | _ => none

/-- A message says of an ending what the store makes of the run where it takes it. -/
def Message.Tells (row : Row Nat V) (ending : Ending V) : Message V → Prop
  | .started => False
  | .finished answer => ∃ moment, ending = .complete moment answer
  | .failed _ comingBack => (∀ moment answer, ending ≠ .complete moment answer) ∧
      (comingBack = true ↔ (ending.applied row.toRun).status = .pending)

/-! ## What an attempt calls -/

theorem calls_bind {α β : Type} (act : Act V L α) (next : α → Act V L β) :
    (act >>= next).calls = act.calls ++
      match act.result with
      | .ok a => (next a).calls
      | .error _ => [] := by
  show (Act.bind act next).calls = _
  unfold Act.bind
  cases act.result with
  | ok a => rfl
  | error stop => exact (List.append_nil _).symm

theorem result_bind {α β : Type} (act : Act V L α) (next : α → Act V L β) :
    (act >>= next).result =
      match act.result with
      | .ok a => (next a).result
      | .error stop => .error stop := by
  show (Act.bind act next).result = _
  unfold Act.bind
  cases act.result with
  | ok a => rfl
  | error stop => rfl

theorem announce_calls (hears : L → Message V → Heard) (message : Message V)
    (listeners : List L) : (announce hears message listeners).calls =
      (reached hears message listeners).map fun listener => .told listener message := by
  induction listeners with
  | nil => rfl
  | cons listener rest ih =>
      rw [announce, calls_bind, reached, List.map_cons]
      show [Call.told listener message] ++ _ = _ :: _
      rw [List.singleton_append, List.cons.injEq]
      refine ⟨rfl, ?_⟩
      cases hheard : hears listener message with
      | cancelled => rfl
      | returned => simpa [Act.make, hheard] using ih
      | broke => simpa [Act.make, hheard] using ih

theorem undisturbed_cons {world : World M V L} {message : Message V} {listener : L}
    {rest : List L} (h : world.hears listener message ≠ .cancelled) :
    Undisturbed world message (listener :: rest) ↔ Undisturbed world message rest := by
  unfold Undisturbed
  rw [List.forall_mem_cons]
  exact and_iff_right h

theorem announce_result (world : World M V L) (message : Message V) (told : List L) :
    (announce world.hears message told).result =
      if Undisturbed world message told then .ok () else .error .cancelled := by
  induction told with
  | nil => simp [announce, Undisturbed, pure]
  | cons listener rest ih =>
      rw [announce, result_bind]
      have hrest (h : world.hears listener message ≠ .cancelled) :
          Undisturbed world message (listener :: rest) ↔ Undisturbed world message rest :=
        undisturbed_cons h
      cases hheard : world.hears listener message with
      | cancelled =>
          rw [if_neg fun h => h listener List.mem_cons_self hheard]
          rfl
      | returned =>
          rw [hheard] at hrest
          simp only [hrest (by decide)]
          exact ih
      | broke =>
          rw [hheard] at hrest
          simp only [hrest (by decide)]
          exact ih

theorem ask_calls (world : World M V L) (ending : Ending V) :
    (ask world ending : Act V L Bool).calls = [.asked ending] := by
  unfold ask
  rw [calls_bind]
  cases world.reply <;> rfl

theorem ask_result (world : World M V L) (ending : Ending V) :
    (ask world ending : Act V L Bool).result =
      match world.reply with
      | .taken => .ok true
      | .refused => .ok false
      | .raised => .error .raised := by
  unfold ask
  rw [result_bind]
  cases world.reply <;> rfl

/-- Asking an ending, and announcing it where the store took it. -/
theorem ask_then_calls (listeners : Listeners L) (world : World M V L) (ending : Ending V)
    (message : Message V) (next : Bool → Act V L Unit)
    (htaken : next true = announce world.hears message (listeners.audience message))
    (hrefused : next false = pure ()) :
    (ask world ending >>= next).calls = closing listeners world (ending, message) := by
  rw [calls_bind, ask_calls, ask_result]
  unfold closing
  cases hreply : world.reply with
  | taken =>
      simp only [htaken, announce_calls, if_true]
      rfl
  | refused =>
      simp only [hrefused]
      rfl
  | raised => rfl

theorem bind_assoc {α β γ : Type} (act : Act V L α) (next : α → Act V L β)
    (last : β → Act V L γ) : act >>= next >>= last = act >>= fun a => next a >>= last := by
  show Act.bind (Act.bind act next) last = Act.bind act fun a => Act.bind (next a) last
  unfold Act.bind
  cases hact : act.result with
  | error stop => rfl
  | ok a => cases hnext : (next a).result <;> simp only [hnext, List.append_assoc]

/-- An ending asked by `settle`, and what `broke` announces of the answer. -/
theorem settle_broke_calls (listeners : Listeners L) (row : Row Nat V) (world : World M V L)
    (dueAt : Instant) (error : Failure) (retryable : Bool)
    (hdue : (retryable && decide (row.attempts < row.maxAttempts)) = true →
      world.dueAt row = some dueAt) :
    (settle row world error retryable >>= broke listeners world error).calls =
      closing listeners world
        (if retryable then retries row world dueAt error else fails world error) := by
  have hexhausted : (!row.exhausted) = decide (row.attempts < row.maxAttempts) := by
    simp only [Run.exhausted, ← decide_not, not_le]
  unfold settle
  rw [hexhausted]
  cases hback : retryable && decide (row.attempts < row.maxAttempts) with
  | true =>
      rcases Bool.and_eq_true_iff.1 hback with ⟨hretryable, hleft⟩
      simp only [hdue hback, if_true, hretryable, retries, if_pos (of_decide_eq_true hleft)]
      rw [bind_assoc]
      apply ask_then_calls listeners world
      · rfl
      · rfl
  | false =>
      have hfails : (if retryable then retries row world dueAt error else fails world error) =
          fails world error := by
        cases hretryable : retryable with
        | false => rfl
        | true =>
            rw [hretryable, Bool.true_and] at hback
            simp only [if_true, retries, if_neg (of_decide_eq_false hback)]
      rw [hfails, if_neg Bool.false_ne_true, bind_assoc]
      apply ask_then_calls listeners world
      · rfl
      · rfl

theorem release_broke_calls (listeners : Listeners L) {row : Row Nat V} {world : World M V L}
    {dueAt : Instant} (hdue : world.dueAt row = some dueAt) (error : Failure) :
    (release row world error >>= broke listeners world error).calls =
      closing listeners world (handsBack dueAt error) := by
  unfold release
  simp only [hdue]
  rw [bind_assoc]
  apply ask_then_calls listeners world
  · rfl
  · rfl

/-- A run that is to come back at no instant is asked nothing of. -/
theorem settle_broke_missing (listeners : Listeners L) {row : Row Nat V} {world : World M V L}
    (hleft : row.attempts < row.maxAttempts) (hdue : world.dueAt row = none) (error : Failure) :
    (settle row world error true >>= broke listeners world error).calls = [] := by
  have hback : (true && !row.exhausted) = true := by simp [Run.exhausted, hleft]
  unfold settle
  rw [if_pos hback]
  simp only [hdue]
  rfl

theorem release_broke_missing (listeners : Listeners L) {row : Row Nat V} {world : World M V L}
    (hdue : world.dueAt row = none) (error : Failure) :
    (release row world error >>= broke listeners world error).calls = [] := by
  unfold release
  simp only [hdue]
  rfl

section Worker

variable (keepable : M → Except String V) (w : Worker) (listeners : Listeners L)
  (row : Row Nat V) (world : World M V L)

/-! ## An attempt asks what its outcome names -/

theorem answered_calls (result : Returned M) :
    (answered keepable listeners row world result).calls = closing listeners world
      (match result with
      | .other => (.complete world.moment none, .finished none)
      | .mapping answer =>
          match keepable answer with
          | .ok kept => (.complete world.moment (some kept), .finished (some kept))
          | .error refusal => fails world (unwritable row.name refusal)) := by
  cases result with
  | other =>
      apply ask_then_calls listeners world
      · rfl
      · rfl
  | mapping answer =>
      unfold answered
      cases hkept : keepable answer with
      | ok kept =>
          simp only [hkept, Except.map]
          apply ask_then_calls listeners world
          · rfl
          · rfl
      | error refusal =>
          simp only [hkept, Except.map]
          exact settle_broke_calls listeners row world world.moment (unwritable row.name refusal)
            false nofun

/-- What an attempt does of a failure of the call, by its class. -/
theorem raised_calls (dueAt : Instant) (error : Failure)
    (hdue : (error.kind.retryable && decide (row.attempts < row.maxAttempts)) = true →
      world.dueAt row = some dueAt) :
    (if error.kind = .cancelledError then Act.stop .cancelled
      else if error.kind = .permanentError then
        settle row world error false >>= broke listeners world error
      else if error.kind.isException then
        after row world error true >>= broke listeners world error
      else settle row world error false >>= broke listeners world error : Act V L Unit).calls =
    match (match error.kind with
      | .cancelledError => none
      | .permanentError | .systemExit | .keyboardInterrupt | .baseException =>
          some (fails world error)
      | .unknownTask | .timeoutError | .workNeverStarted | .unwritableAnswer | .exception =>
          some (retries row world dueAt error)) with
    | none => []
    | some ended => closing listeners world ended := by
  have hend : (settle row world error false >>= broke listeners world error).calls =
      closing listeners world (fails world error) :=
    settle_broke_calls listeners row world dueAt error false nofun
  have hagain : error.kind.retryable = true →
      (after row world error true >>= broke listeners world error).calls =
        closing listeners world (retries row world dueAt error) := by
    intro hretryable
    rw [hretryable] at hdue
    exact settle_broke_calls listeners row world dueAt error true hdue
  generalize error.kind = kind at hagain
  cases kind with
  | cancelledError => rfl
  | permanentError => exact hend
  | systemExit => exact hend
  | keyboardInterrupt => exact hend
  | baseException => exact hend
  | unknownTask => exact hagain rfl
  | timeoutError => exact hagain rfl
  | workNeverStarted => exact hagain rfl
  | unwritableAnswer => exact hagain rfl
  | exception => exact hagain rfl

omit row world in
theorem raised_missing {row : Row Nat V} {world : World M V L} {error : Failure}
    (hleft : row.attempts < row.maxAttempts) (hdue : world.dueAt row = none)
    (hretryable : error.kind.retryable = true) :
    (if error.kind = .cancelledError then Act.stop .cancelled
      else if error.kind = .permanentError then
        settle row world error false >>= broke listeners world error
      else if error.kind.isException then
        after row world error true >>= broke listeners world error
      else settle row world error false >>= broke listeners world error : Act V L Unit).calls =
    [] := by
  have hmissing : (after row world error true >>= broke listeners world error).calls = [] :=
    settle_broke_missing listeners hleft hdue error
  generalize error.kind = kind at hretryable
  cases kind with
  | unknownTask | timeoutError | workNeverStarted | unwritableAnswer | exception => exact hmissing
  | cancelledError | permanentError | systemExit | keyboardInterrupt | baseException =>
      cases hretryable

/-- An attempt tells who is starting, and unless that is where it is cancelled it asks the ending
its outcome names and announces it where it was taken. -/
theorem attempt_calls {dueAt : Instant}
    (hdue : Undisturbed world .started listeners.starting → goesBack w row world = true →
      world.dueAt row = some dueAt) :
    (attempt keepable w listeners row world).calls =
      telling listeners world .started ++
        match concluded keepable w listeners row world dueAt with
        | none => []
        | some ended => closing listeners world ended := by
  unfold attempt concluded
  rw [calls_bind, announce_calls, announce_result]
  congr 1
  by_cases hstart : Undisturbed world .started listeners.starting
  · rw [if_pos hstart, if_pos hstart]
    have hback := hdue hstart
    unfold goesBack at hback
    unfold outcome call
    cases htask : taskFor w.tasks row.name with
    | none =>
        rw [htask] at hback
        exact release_broke_calls listeners (hback rfl) (unknown row.name)
    | some task =>
        rw [htask] at hback
        cases hcourse : world.course with
        | returned answer =>
            have h := answered_calls keepable listeners row world answer
            cases answer with
            | other => exact h
            | mapping answer =>
                refine h.trans ?_
                dsimp only
                cases keepable answer with
                | ok kept => rfl
                | error refusal => rfl
        | raised error =>
            rw [hcourse] at hback
            exact raised_calls listeners row world dueAt error hback
        | timedOut takenBack =>
            rw [hcourse] at hback
            dsimp only at hback ⊢
            cases hhandler : task.handler with
            | coroutine =>
                rw [hhandler] at hback
                exact raised_calls listeners row world dueAt waitedOut hback
            | plain =>
                rw [hhandler] at hback
                cases takenBack with
                | false => exact raised_calls listeners row world dueAt waitedOut hback
                | true =>
                    exact release_broke_calls listeners (hback rfl)
                      (neverStarted row.name w.name)
        | cancelled => rfl
  · rw [if_neg hstart, if_neg hstart]

/-- A run that is to go back and comes due at no instant: who is starting is told, and no more. -/
theorem attempt_missing (hstart : Undisturbed world .started listeners.starting)
    (hback : goesBack w row world = true) (hdue : world.dueAt row = none) :
    (attempt keepable w listeners row world).calls = telling listeners world .started := by
  unfold attempt
  rw [calls_bind, announce_calls, announce_result, if_pos hstart]
  refine Eq.trans ?_ (List.append_nil _)
  refine congrArg (_ ++ ·) ?_
  unfold goesBack at hback
  unfold call
  cases htask : taskFor w.tasks row.name with
  | none => exact release_broke_missing listeners hdue (unknown row.name)
  | some task =>
      rw [htask] at hback
      cases hcourse : world.course with
      | returned answer =>
          rw [hcourse] at hback
          cases hback
      | cancelled =>
          rw [hcourse] at hback
          cases hback
      | raised error =>
          rw [hcourse] at hback
          rcases Bool.and_eq_true_iff.1 hback with ⟨hretryable, hleft⟩
          exact raised_missing listeners (of_decide_eq_true hleft) hdue hretryable
      | timedOut takenBack =>
          rw [hcourse] at hback
          dsimp only at hback ⊢
          cases hhandler : task.handler with
          | coroutine =>
              rw [hhandler] at hback
              exact raised_missing listeners (of_decide_eq_true hback) hdue rfl
          | plain =>
              rw [hhandler] at hback
              cases takenBack with
              | false => exact raised_missing listeners (of_decide_eq_true hback) hdue rfl
              | true => exact release_broke_missing listeners hdue (neverStarted row.name w.name)

/-! ## Its ending and what is announced of it -/

theorem fails_tells (error : Failure) :
    (fails world error).2.Tells row (fails world error).1 :=
  ⟨fun _ _ => nofun, nofun, nofun⟩

theorem retries_tells (dueAt : Instant) (error : Failure) :
    (retries row world dueAt error).2.Tells row (retries row world dueAt error).1 := by
  unfold retries
  split
  · exact ⟨fun _ _ => nofun, fun _ => rfl, fun _ => rfl⟩
  · exact fails_tells row world error

theorem handsBack_tells (dueAt : Instant) (error : Failure) :
    (handsBack dueAt error : Ending V × Message V).2.Tells row (handsBack dueAt error).1 :=
  ⟨fun _ _ => nofun, fun _ => rfl, fun _ => rfl⟩

theorem outcome_tells {dueAt : Instant} {ended : Ending V × Message V}
    (h : outcome keepable w row world dueAt = some ended) : ended.2.Tells row ended.1 := by
  unfold outcome at h
  split at h
  · cases h
    exact handsBack_tells row _ _
  · split at h
    · cases h
      exact ⟨_, rfl⟩
    · split at h
      · cases h
        exact ⟨_, rfl⟩
      · cases h
        exact fails_tells row world _
    · split at h
      · cases h
      all_goals cases h
      all_goals first
        | exact fails_tells row world _
        | exact retries_tells row world _ _
    · split at h
      · cases h
        exact handsBack_tells row _ _
      · cases h
        exact retries_tells row world _ _
    · cases h

@[simp] theorem telling_ending (message : Message V) :
    (telling listeners world message).filterMap Call.ending = [] := by
  simp [telling, Call.ending, Function.comp_def]

@[simp] theorem telling_finish (message : Message V) :
    (telling listeners world message).filterMap Call.finish =
      match message with
      | .finished answer => (reached world.hears message listeners.finishing).map (·, answer)
      | _ => [] := by
  cases message <;> simp [telling, Call.finish, Function.comp_def, Listeners.audience]

@[simp] theorem telling_error (message : Message V) :
    (telling listeners world message).filterMap Call.error =
      match message with
      | .failed error comingBack =>
          (reached world.hears message listeners.failing).map (·, error, comingBack)
      | _ => [] := by
  cases message <;> simp [telling, Call.error, Function.comp_def, Listeners.audience]

theorem closing_filterMap {α : Type} {heard : Call V L → Option α}
    (h : ∀ ending, heard (.asked ending) = none) (ended : Ending V × Message V) :
    (closing listeners world ended).filterMap heard =
      if world.reply = .taken then (telling listeners world ended.2).filterMap heard else [] := by
  unfold closing
  rw [List.filterMap_cons_none (h _)]
  split
  · rfl
  · rfl

/-- An attempt asks the ending its outcome names and no other, with the instant the run comes due at
in it where there is one. Who is told the run finished and who is told it failed are told exactly
where the store takes that ending, once, and of what the store makes of the run. -/
structure IsOutcome (dueAt : Instant) : Prop where
  due : ∀ t ∈ world.dueAt row, t = dueAt
  asks : (attempt keepable w listeners row world).calls.filterMap Call.ending =
    (concluded keepable w listeners row world dueAt).toList.map (·.1)
  finishes : (attempt keepable w listeners row world).calls.filterMap Call.finish =
    (match concluded keepable w listeners row world dueAt with
    | some (_, .finished answer) =>
        if world.reply = .taken then
          (reached world.hears (.finished answer) listeners.finishing).map (·, answer)
        else []
    | _ => [])
  breaks : (attempt keepable w listeners row world).calls.filterMap Call.error =
    (match concluded keepable w listeners row world dueAt with
    | some (_, .failed error comingBack) =>
        if world.reply = .taken then
          (reached world.hears (.failed error comingBack) listeners.failing).map
            (·, error, comingBack)
        else []
    | _ => [])
  tells : ∀ ended, concluded keepable w listeners row world dueAt = some ended →
    ended.2.Tells row ended.1

theorem isOutcome {dueAt : Instant} (hsame : ∀ t ∈ world.dueAt row, t = dueAt)
    (hdue : Undisturbed world .started listeners.starting → goesBack w row world = true →
      world.dueAt row = some dueAt) : IsOutcome keepable w listeners row world dueAt := by
  have hcalls := attempt_calls keepable w listeners row world hdue
  constructor
  · exact hsame
  · rw [hcalls]
    cases concluded keepable w listeners row world dueAt with
    | none => simp
    | some ended =>
        by_cases htaken : world.reply = .taken
        · simp [closing, htaken, Call.ending]
        · simp [closing, htaken, Call.ending]
  · rw [hcalls]
    cases concluded keepable w listeners row world dueAt with
    | none => simp
    | some ended =>
        obtain ⟨ending, message⟩ := ended
        rw [List.filterMap_append, telling_finish, closing_filterMap listeners world fun _ => rfl,
          telling_finish]
        cases message with
        | finished answer => simp
        | _ => simp
  · rw [hcalls]
    cases concluded keepable w listeners row world dueAt with
    | none => simp
    | some ended =>
        obtain ⟨ending, message⟩ := ended
        rw [List.filterMap_append, telling_error, closing_filterMap listeners world fun _ => rfl,
          telling_error]
        cases message with
        | failed error comingBack => simp
        | _ => simp
  · intro ended h
    unfold concluded at h
    split at h
    · exact outcome_tells keepable w row world h
    · cases h

/-- An outcome that sends the run back names an ending. -/
theorem outcome_of_goesBack (hback : goesBack w row world = true) (dueAt : Instant) :
    ∃ ended, outcome keepable w row world dueAt = some ended := by
  unfold goesBack at hback
  unfold outcome
  cases htask : taskFor w.tasks row.name with
  | none => exact ⟨_, rfl⟩
  | some task =>
      rw [htask] at hback
      cases hcourse : world.course with
      | returned answer =>
          rw [hcourse] at hback
          cases hback
      | cancelled =>
          rw [hcourse] at hback
          cases hback
      | raised error =>
          rw [hcourse] at hback
          have hretryable := (Bool.and_eq_true_iff.1 hback).1
          dsimp only
          generalize error.kind = kind at hretryable
          cases kind with
          | cancelledError => cases hretryable
          | _ => exact ⟨_, rfl⟩
      | timedOut takenBack =>
          dsimp only
          split <;> exact ⟨_, rfl⟩

theorem not_isOutcome (hstart : Undisturbed world .started listeners.starting)
    (hback : goesBack w row world = true) (hdue : world.dueAt row = none) :
    ¬ ∃ dueAt, IsOutcome keepable w listeners row world dueAt := by
  rintro ⟨dueAt, houtcome⟩
  have hasks := houtcome.asks
  rcases outcome_of_goesBack keepable w row world hback dueAt with ⟨ended, hended⟩
  rw [attempt_missing keepable w listeners row world hstart hback hdue, telling_ending, concluded,
    if_pos hstart, hended] at hasks
  cases hasks

end Worker

/-! ## A wait past the range -/

/-- `datetime(2026, 1, 1, tzinfo=timezone.utc)`, where the task is declared. -/
def newYear : Instant := (Instant.epoch.plus 1767225600000000).get rfl

/-- A task that is tried twice and waits in between as long as there is left of the range. -/
def patient : Task where
  name := "task"
  handler := .coroutine
  queue := "mail"
  trigger := none
  maxAttempts := 2
  timeout := none
  retryPolicy := .fixed
  retryDelay := 251635075199
  maxRetryDelay := 251635075199
  priority := 0
  tried := by decide
  counted := by decide

def lone : Worker where
  name := "worker"
  queues := ["mail"]
  lease := 30000000
  tasks := [patient]
  builtAt := newYear
  leased := by decide
  leaseWaited := by decide

/-- Its run, claimed. -/
def triedOnce : Row Nat Unit :=
  ⟨{ Plain.run "mail" 0 newYear with
      status := .running, attempts := 1, maxAttempts := patient.maxAttempts,
      retryPolicy := patient.retryPolicy, retryDelay := patient.retryDelay,
      maxRetryDelay := patient.maxRetryDelay, worker := some "worker" }, 1⟩

/-- The handler breaks a second later, and one listener is told of failures. -/
def breaking : World Unit Unit Unit where
  hears _ _ := .returned
  course := .raised ⟨.exception, "refused", "OSError"⟩
  moment := (newYear.plus 1000000).get rfl
  delayFor policy base attempt ceiling := Queuefy.delayFor policy base attempt 0 ceiling 0
  reply := .taken

end Queuefy.Report
