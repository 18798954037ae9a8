import Queuefy.Run

/-! # What every store is asked

The calls a store takes and what it answers to them. Ids are the one thing a store names for
itself, so they are a parameter of both.
-/

namespace Queuefy

inductive Request (ι V : Type)
  | add (run : Run V)
  | claim (worker : String) (queues : List String) (limit : Nat) (lease : Int) (moment : Instant)
  | heartbeat (id : ι) (worker : String) (attempt lease : Int) (moment : Instant)
  | complete (id : ι) (worker : String) (attempt : Int) (moment : Instant) (result : Option V)
  | fail (id : ι) (worker : String) (attempt : Int) (moment : Instant) (error errorType : String)
  | retryLater (id : ι) (worker : String) (attempt : Int) (dueAt : Instant)
      (error errorType : String)
  | release (id : ι) (worker : String) (attempt : Int) (dueAt : Instant)
      (error errorType : String)
  | reclaim (moment : Instant)
  | cancel (id : ι) (moment : Instant)
  | purge (before : Instant) (limit : Nat)
  | find (key : String)
  | get (id : ι)

/-- What a call answers; of a script the server stopped, and of a run that does not read back, that
is the error it raises. -/
inductive Answer (ι V : Type)
  | rows (taken : Except OverflowError (List (Row ι V)))
  | told (held : Except OverflowError Bool)
  | counted (n : Nat)
  | row (found : Option (Row ι V))
  | raised

variable {ι κ V : Type}

def Row.rename (f : ι → κ) (row : Row ι V) : Row κ V := { row with id := f row.id }

def Answer.rename (f : ι → κ) : Answer ι V → Answer κ V
  | .rows taken => .rows (taken.map (List.map (Row.rename f)))
  | .told held => .told held
  | .counted n => .counted n
  | .row found => .row (found.map (Row.rename f))
  | .raised => .raised

/-- The answers that say nothing was done or found. -/
def Answer.negative : Answer ι V → Bool
  | .told (.ok false) | .counted 0 | .row none => true
  | _ => false

@[simp] theorem negative_told (held : Bool) :
    (.told (.ok held) : Answer ι V).negative = true ↔ held = false := by
  cases held <;> simp [Answer.negative]

@[simp] theorem negative_counted (n : Nat) :
    (.counted n : Answer ι V).negative = true ↔ n = 0 := by
  cases n <;> simp [Answer.negative]

@[simp] theorem negative_row (found : Option (Row ι V)) :
    (.row found : Answer ι V).negative = true ↔ found = none := by
  cases found <;> simp [Answer.negative]

theorem negative_rename (f : ι → κ) (a : Answer ι V) : (a.rename f).negative = a.negative := by
  cases a with
  | told held =>
      cases held with
      | error e => rfl
      | ok held => cases held <;> rfl
  | counted n => cases n <;> rfl
  | row found => cases found <;> rfl
  | rows | raised => rfl

end Queuefy
