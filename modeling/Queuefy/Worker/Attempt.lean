import Queuefy.Run

/-! # One attempt at a run

What `Worker.attempt` and `Worker.call` make of a claimed run, as a machine whose moves are
the points the coroutine can be resumed at: the listeners are done, a thread picks the work
up, the timeout passes, the handler is done, the attempt is cancelled. An attempt asks at most
one ending of the store, and that ending says whether the attempt it made stands as spent.
-/

namespace Queuefy

/-- An ending as it is asked of the store. -/
inductive Ending (V : Type)
  | complete (moment : Instant) (result : Option V)
  | fail (moment : Instant) (error errorType : String)
  | retryLater (dueAt : Instant) (error errorType : String)
  | release (dueAt : Instant) (error errorType : String)

/-- Every ending but a release leaves the attempt spent. -/
def Ending.spends {V : Type} : Ending V → Bool
  | .release .. => false
  | _ => true

/-- What became of the handler: not handed over, waiting for a thread, called, taken back out
of the pool before a thread had it, or turned away by a pool already shut down. -/
inductive Work
  | idle | queued | entered | canceled | refused
deriving DecidableEq

inductive Phase (V : Type)
  | starting
  | awaiting
  | asked (ending : Ending V)
  | answered (ending : Ending V) (taken : Bool)
  | gone

/-- The ending an attempt has asked, whether or not it was answered yet. -/
def Phase.ending {V : Type} : Phase V → Option (Ending V)
  | .asked ending => some ending
  | .answered ending _ => some ending
  | _ => none

structure Attempt (V : Type) where
  row : Row Nat V
  phase : Phase V
  work : Work

/-- What the worker reads as it asks an ending: its clock, the instant the policy puts the run
back at, and what `described` made of the failure. -/
structure Account where
  moment : Instant
  dueAt : Instant
  error : String
  errorType : String

/-- How a handler that was called came out of it. -/
inductive Outcome (V : Type)
  | returned (answer : Option V)
  | unwritable
  | raisedPermanent
  | raised
  | raisedExit

/-- `cancel` is the shutdown asking, and also stands for an ending that could not be worked
out; `unqueue` is the cancelled wait taking its work back out of the pool. -/
inductive Move (V : Type)
  | call (account : Account)
  | pick
  | unqueue
  | timeout (account : Account)
  | finish (outcome : Outcome V) (account : Account)
  | cancel

namespace Attempt

variable {V : Type}

/-- `Worker.settle`: another attempt while the policy allows one, and else the end. -/
def settle (row : Row Nat V) (account : Account) (retryable : Bool) : Ending V :=
  if retryable && !row.exhausted then
    .retryLater account.dueAt account.error account.errorType
  else .fail account.moment account.error account.errorType

/-- `Worker.release`. -/
def release (account : Account) : Ending V :=
  .release account.dueAt account.error account.errorType

def ask (a : Attempt V) (ending : Ending V) : Attempt V := { a with phase := .asked ending }

/-- The handler is looked up and called: a coroutine function here and now, a plain one by
handing it to the pool. A pool already shut down raises out of the handing over, which is read
as a failure of the handler. -/
def call (handler : Option Handler) (pool : Bool) (a : Attempt V) (account : Account) :
    Attempt V :=
  match handler with
  | none => a.ask (release account)
  | some .coroutine => { a with phase := .awaiting, work := .entered }
  | some .plain =>
      if pool then { a with phase := .awaiting, work := .queued }
      else { a with work := .refused }.ask (settle a.row account true)

def conclude (a : Attempt V) (account : Account) : Outcome V → Attempt V
  | .returned answer => a.ask (.complete account.moment answer)
  | .unwritable => a.ask (settle a.row account false)
  | .raisedPermanent => a.ask (settle a.row account false)
  | .raised => a.ask (settle a.row account true)
  | .raisedExit => a.ask (settle a.row account false)

/-- One move, given what the worker knows of the name and whether its pool is open. A timeout
is settled by cancelling the work: only what no thread had yet is taken back, and goes back
as never started. -/
def move (handler : Option Handler) (pool : Bool) (a : Attempt V) : Move V → Option (Attempt V)
  | .call account =>
      match a.phase with
      | .starting => some (a.call handler pool account)
      | _ => none
  | .pick =>
      match a.work with
      | .queued => some { a with work := .entered }
      | _ => none
  | .unqueue =>
      match a.phase, a.work with
      | .gone, .queued => some { a with work := .canceled }
      | _, _ => none
  | .timeout account =>
      match a.phase, a.row.timeout, a.work with
      | .awaiting, some _, .queued => some ({ a with work := .canceled }.ask (release account))
      | .awaiting, some _, _ => some (a.ask (settle a.row account true))
      | _, _, _ => none
  | .finish outcome account =>
      match a.phase, a.work with
      | .awaiting, .entered => some (a.conclude account outcome)
      | _, _ => none
  | .cancel =>
      match a.phase with
      | .starting => some { a with phase := .gone }
      | .awaiting => some { a with phase := .gone }
      | _ => none

/-- Whether the handler was entered between two states of an attempt. -/
def enters (a b : Attempt V) : Bool := a.work ≠ .entered ∧ b.work = .entered

/-! ## What an ending says about the handler -/

/-- An ending that spends the attempt follows a handler that was called or a pool that turned
it away; one that hands it back follows a handler that never is; and a retry is asked only
with attempts left. -/
structure Sound (a : Attempt V) : Prop where
  starting : a.phase = .starting → a.work = .idle
  awaiting : a.phase = .awaiting → a.work = .queued ∨ a.work = .entered
  spent : ∀ e, a.phase.ending = some e → e.spends = true →
    a.work = .entered ∨ a.work = .refused
  handedBack : ∀ e, a.phase.ending = some e → e.spends = false →
    a.work = .idle ∨ a.work = .canceled
  retried : ∀ dueAt error errorType, a.phase.ending = some (.retryLater dueAt error errorType) →
    a.row.attempts < a.row.maxAttempts

theorem settle_spends (row : Row Nat V) (account : Account) (retryable : Bool) :
    (settle row account retryable).spends = true := by
  unfold settle
  split <;> rfl

theorem settle_retries {row : Row Nat V} {account : Account} {retryable : Bool}
    {dueAt : Instant} {error errorType : String}
    (h : settle row account retryable = .retryLater dueAt error errorType) :
    row.attempts < row.maxAttempts := by
  unfold settle at h
  split at h
  · rename_i hcond
    simpa [Run.exhausted] using (Bool.and_eq_true_iff.mp hcond).2
  · cases h

theorem Sound.of_ask {a : Attempt V} {e : Ending V}
    (hspent : e.spends = true → a.work = .entered ∨ a.work = .refused)
    (hback : e.spends = false → a.work = .idle ∨ a.work = .canceled)
    (hretry : ∀ dueAt error errorType, e = .retryLater dueAt error errorType →
      a.row.attempts < a.row.maxAttempts) : (a.ask e).Sound where
  starting := by simp [ask]
  awaiting := by simp [ask]
  spent := by
    intro e' he
    cases he
    exact hspent
  handedBack := by
    intro e' he
    cases he
    exact hback
  retried := by
    intro dueAt error errorType he
    exact hretry dueAt error errorType (Option.some.inj he)

/-- Every ending but a release, asked of an attempt whose handler was called or turned away. -/
theorem Sound.of_settle {a : Attempt V} (account : Account) (retryable : Bool)
    (h : a.work = .entered ∨ a.work = .refused) :
    (a.ask (settle a.row account retryable)).Sound :=
  .of_ask (fun _ => h) (fun hs => by simp [settle_spends] at hs) fun _ _ _ => settle_retries

theorem Sound.of_release {a : Attempt V} (account : Account)
    (h : a.work = .idle ∨ a.work = .canceled) : (a.ask (release account)).Sound :=
  .of_ask (fun hs => by simp [release, Ending.spends] at hs) (fun _ => h)
    fun _ _ _ he => by simp [release] at he

theorem Sound.of_conclude {a : Attempt V} (h : a.work = .entered) (account : Account)
    (outcome : Outcome V) : (a.conclude account outcome).Sound := by
  cases outcome with
  | returned answer =>
      exact .of_ask (fun _ => Or.inl h) (fun hs => by simp [Ending.spends] at hs)
        fun _ _ _ he => by cases he
  | unwritable => exact .of_settle account false (Or.inl h)
  | raisedPermanent => exact .of_settle account false (Or.inl h)
  | raised => exact .of_settle account true (Or.inl h)
  | raisedExit => exact .of_settle account false (Or.inl h)

theorem Sound.of_call {a : Attempt V} (h : a.work = .idle) (handler : Option Handler)
    (pool : Bool) (account : Account) : (a.call handler pool account).Sound := by
  unfold call
  split
  · exact .of_release account (Or.inl h)
  · constructor <;> simp [Phase.ending]
  · split
    · constructor <;> simp [Phase.ending]
    · exact .of_settle (a := { a with work := .refused }) account true (Or.inr rfl)

theorem Sound.move {handler : Option Handler} {pool : Bool} {a b : Attempt V} {m : Move V}
    (h : a.Sound) (hm : a.move handler pool m = some b) : b.Sound := by
  cases m with
  | call account =>
      simp only [Attempt.move] at hm
      split at hm
      · rename_i hphase
        cases hm
        exact .of_call (h.starting hphase) handler pool account
      · cases hm
  | pick =>
      simp only [Attempt.move] at hm
      split at hm
      · rename_i hwork
        cases hm
        refine ⟨fun hp => ?_, fun _ => Or.inr rfl, fun _ _ _ => Or.inl rfl, fun e he hs => ?_,
          h.retried⟩
        · simp [h.starting hp] at hwork
        · simpa [hwork] using h.handedBack e he hs
      · cases hm
  | unqueue =>
      simp only [Attempt.move] at hm
      split at hm
      · rename_i hphase hwork
        cases hm
        constructor <;> simp [hphase, Phase.ending]
      · cases hm
  | timeout account =>
      simp only [Attempt.move] at hm
      split at hm
      · cases hm
        exact .of_release (a := { a with work := .canceled }) account (Or.inr rfl)
      · rename_i hphase _ hwork
        cases hm
        refine .of_settle account true ?_
        rcases h.awaiting hphase with hq | he
        · exact absurd hq hwork
        · exact Or.inl he
      · cases hm
  | finish outcome account =>
      simp only [Attempt.move] at hm
      split at hm
      · rename_i hwork
        cases hm
        exact .of_conclude hwork account outcome
      · cases hm
  | cancel =>
      simp only [Attempt.move] at hm
      split at hm
      all_goals first
        | cases hm; constructor <;> simp [Phase.ending]
        | cases hm

/-! ## What a move leaves alone -/

@[simp] theorem ask_row (a : Attempt V) (e : Ending V) : (a.ask e).row = a.row := rfl

@[simp] theorem ask_phase (a : Attempt V) (e : Ending V) : (a.ask e).phase = .asked e := rfl

theorem call_spec (handler : Option Handler) (pool : Bool) (a : Attempt V) (account : Account) :
    (a.call handler pool account).row = a.row ∧
      ∀ e taken, (a.call handler pool account).phase ≠ .answered e taken := by
  unfold call
  split
  · exact ⟨rfl, by simp⟩
  · exact ⟨rfl, by simp⟩
  · split
    · exact ⟨rfl, by simp⟩
    · exact ⟨rfl, by simp⟩

theorem conclude_spec (a : Attempt V) (account : Account) (outcome : Outcome V) :
    (a.conclude account outcome).row = a.row ∧
      ∀ e taken, (a.conclude account outcome).phase ≠ .answered e taken := by
  cases outcome <;> exact ⟨rfl, by simp [conclude]⟩

/-- A move keeps the run the attempt was made of, and the answer of its ending once there is
one; the answer itself never comes from a move. -/
theorem move_spec {handler : Option Handler} {pool : Bool} {a b : Attempt V} {m : Move V}
    (hm : a.move handler pool m = some b) :
    b.row = a.row ∧ ∀ e taken, b.phase = .answered e taken ↔ a.phase = .answered e taken := by
  cases m with
  | call account =>
      simp only [Attempt.move] at hm
      split at hm
      · rename_i hphase
        cases hm
        obtain ⟨hrow, hne⟩ := call_spec handler pool a account
        exact ⟨hrow, fun e taken => by simp [hne, hphase]⟩
      · cases hm
  | pick =>
      simp only [Attempt.move] at hm
      split at hm
      · cases hm
        exact ⟨rfl, fun _ _ => Iff.rfl⟩
      · cases hm
  | unqueue =>
      simp only [Attempt.move] at hm
      split at hm
      · cases hm
        exact ⟨rfl, fun _ _ => Iff.rfl⟩
      · cases hm
  | timeout account =>
      simp only [Attempt.move] at hm
      split at hm
      · rename_i hphase _ _
        cases hm
        exact ⟨rfl, fun e taken => by simp [hphase]⟩
      · rename_i hphase _ _
        cases hm
        exact ⟨rfl, fun e taken => by simp [hphase]⟩
      · cases hm
  | finish outcome account =>
      simp only [Attempt.move] at hm
      split at hm
      · rename_i hphase _
        cases hm
        obtain ⟨hrow, hne⟩ := conclude_spec a account outcome
        exact ⟨hrow, fun e taken => by simp [hne, hphase]⟩
      · cases hm
  | cancel =>
      simp only [Attempt.move] at hm
      split at hm
      · rename_i hphase
        cases hm
        exact ⟨rfl, fun e taken => by simp [hphase]⟩
      · rename_i hphase
        cases hm
        exact ⟨rfl, fun e taken => by simp [hphase]⟩
      · cases hm

theorem move_gone {handler : Option Handler} {pool : Bool} {a b : Attempt V} {m : Move V}
    (hm : a.move handler pool m = some b) (hgone : a.phase = .gone) : b.phase = .gone := by
  cases m with
  | pick =>
      simp only [Attempt.move] at hm
      split at hm
      · cases hm
        exact hgone
      · cases hm
  | unqueue =>
      simp only [Attempt.move] at hm
      split at hm
      · cases hm
        exact hgone
      · cases hm
  | _ =>
      simp only [Attempt.move, hgone] at hm
      cases hm

/-- A handler once entered stays entered: nothing takes it back and nothing enters it again. -/
theorem Sound.move_entered {handler : Option Handler} {pool : Bool} {a b : Attempt V}
    {m : Move V} (h : a.Sound) (hm : a.move handler pool m = some b) (hwork : a.work = .entered) :
    b.work = .entered := by
  cases m with
  | call account =>
      simp only [Attempt.move] at hm
      split at hm
      · rename_i hphase
        simp [h.starting hphase] at hwork
      · cases hm
  | finish outcome account =>
      simp only [Attempt.move] at hm
      split at hm
      · cases hm
        cases outcome <;> exact hwork
      · cases hm
  | timeout account =>
      simp only [Attempt.move] at hm
      split at hm
      · rename_i hqueued
        simp [hqueued] at hwork
      · cases hm
        exact hwork
      · cases hm
  | pick =>
      simp only [Attempt.move, hwork] at hm
      cases hm
  | unqueue =>
      simp only [Attempt.move] at hm
      split at hm
      · rename_i hqueued
        cases hwork.symm.trans hqueued
      · cases hm
  | cancel =>
      simp only [Attempt.move] at hm
      split at hm
      · cases hm
        exact hwork
      · cases hm
        exact hwork
      · cases hm

/-- Work is only ever refused where a plain handler is handed to a pool already shut down. -/
theorem move_refused {handler : Option Handler} {pool : Bool} {a b : Attempt V} {m : Move V}
    (hm : a.move handler pool m = some b) (hwork : b.work = .refused) :
    a.work = .refused ∨
      ((∃ account, m = .call account) ∧ handler = some .plain ∧ pool = false) := by
  cases m with
  | call account =>
      simp only [Attempt.move] at hm
      split at hm
      · cases hm
        unfold call at hwork
        split at hwork
        · exact Or.inl hwork
        · cases hwork
        · split at hwork
          · cases hwork
          · rename_i hclosed
            exact Or.inr ⟨⟨account, rfl⟩, rfl, by simpa using hclosed⟩
      · cases hm
  | finish outcome account =>
      simp only [Attempt.move] at hm
      split at hm
      · cases hm
        cases outcome <;> exact Or.inl hwork
      · cases hm
  | timeout account =>
      simp only [Attempt.move] at hm
      split at hm
      · cases hm
        cases hwork
      · cases hm
        exact Or.inl hwork
      · cases hm
  | pick =>
      simp only [Attempt.move] at hm
      split at hm
      · cases hm
        cases hwork
      · cases hm
  | unqueue =>
      simp only [Attempt.move] at hm
      split at hm
      · cases hm
        cases hwork
      · cases hm
  | cancel =>
      simp only [Attempt.move] at hm
      split at hm
      · cases hm
        exact Or.inl hwork
      · cases hm
        exact Or.inl hwork
      · cases hm

end Attempt

end Queuefy
