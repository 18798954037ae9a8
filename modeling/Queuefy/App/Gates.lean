import Queuefy.App.Occurrence
import Queuefy.App.Settled
import Queuefy.Clock
import Queuefy.Cron.Parse
import Queuefy.Lib.Verdict
import Queuefy.Run

/-! # The guards of an argument

Every argument of a task, of a worker and of an enqueue passes one of a dozen guards where it is
given. Each guard is here over any value python can hand it, with the range errors of what it
asks first: a whole number past every double, a number with too many digits to be spelled, an
instant with no UTC one. Beside each stands what it lets through and what it breaks on.
-/

namespace Queuefy.Gate

open Json

/-! ## Values -/

/-- What a gate may raise. `CronError` and `UnknownTask` derive from `QueueError`; `foreign` is
what code of the caller's own raises. -/
inductive Raised where
  | queueError
  | cronError
  | unknownTask
  | overflowError
  | valueError
  | foreign
  deriving DecidableEq

/-- What `except QueueError` catches. -/
def Raised.ours : Raised → Bool
  | .queueError | .cronError | .unknownTask => true
  | .overflowError | .valueError | .foreign => false

/-- A float. -/
inductive Float where
  | finite (q : ℚ)
  | nan
  | infinity (negative : Bool)
  deriving DecidableEq

/-- The offset from UTC of an aware `datetime`, under a day either way. -/
structure Offset where
  micro : Int
  lowest : -86400000000 < micro
  highest : micro < 86400000000
  deriving DecidableEq

/--
A value as python holds it. `derived` says that its class derives from the one named with nothing
of that one redefined; of a text, a `timedelta` and a `datetime` no guard asks. A `datetime` is
what its clock reads and, where it is aware, its offset there. Every other object is what asking
for its `repr` comes to.
-/
inductive Given where
  | none
  | bool (truth : Bool)
  | int (derived : Bool) (n : Int)
  | float (derived : Bool) (x : Float)
  | text (t : Text)
  | span (span : Timedelta)
  | moment (wall : Instant) (offset : Option Offset)
  | other (repr : Except Raised Unit)

def Given.isNone : Given → Bool
  | .none => true
  | _ => false

/-- How far the interpreter goes. A limit on the digits of a number is never under 640. -/
structure Interpreter extends Limits where
  allows : digits = 0 ∨ 640 ≤ digits
  numerals : Cron.Numerals

variable (py : Interpreter)

/-- `repr(value)`, and `str(value)` of a number. -/
def repr : Given → Except Raised Unit
  | .int _ n => if py.spells n then .ok () else .error .valueError
  | .other repr => repr
  | _ => .ok ()

/-- A refusal that spells the value it refuses. -/
def refuse {α : Type} (v : Given) : Except Raised α := do
  repr py v
  .error .queueError

/-- A check that refuses under a condition. -/
def raiseIf (p : Prop) [Decidable p] (v : Given) : Except Raised Unit :=
  if p then refuse py v else .ok ()

/-! ## The guards of `clock` -/

/-- What `float(n)` is past: the half way from the last double to the power of two after it. -/
def tooWide (n : Int) : Bool := decide (2 ^ 1024 - 2 ^ 970 ≤ n.natAbs)

/-- `real`, with the number it let through. `isfinite` of a whole number asks for the double of
it. -/
def real : Given → Except Raised ℚ
  | .int false n => if tooWide n then .error .overflowError else .ok n
  | .float false (.finite q) => .ok q
  | .float false _ => .error .queueError
  | v => refuse py v

/-- `spanned`, with the span it let through. -/
def spanned : Given → Except Raised Timedelta
  | .span span => .ok span
  | v => refuse py v

/-- The seconds of a span, which is a float. -/
def seconds (span : Timedelta) : Given := .float false (.finite span.totalSeconds)

/-- `waited`. -/
def waited (now : Instant) (v : Given) : Except Raised ℚ := do
  let seconds ← real py v
  raiseIf py ((widestWait now : ℚ) < seconds) v
  return seconds

/-- `kept`. -/
def kept (now : Instant) (v : Given) : Except Raised ℚ := do
  let seconds ← real py v
  raiseIf py ((widestPast now : ℚ) < seconds) v
  return seconds

/-- `as_utc`: a naive instant is read as the UTC one. -/
def asUtc (wall : Instant) : Option Offset → Except Raised Instant
  | none => .ok wall
  | some offset =>
      match wall.plus (-offset.micro) with
      | some moment => .ok moment
      | none => .error .overflowError

/-! ## The guards of `app` -/

def taskNameLimit : Nat := 255

def queueLimit : Nat := 64

def workerNameLimit : Nat := 128

def priorityLimit : Int := 1000

/-- `writable`, asked of a text. -/
def writable (t : Text) : Except Raised Unit :=
  if t.any surrogate then .error .queueError
  else if 0 ∈ t then .error .queueError
  else .ok ()

/-- `holdable`. -/
def holdable (t : Text) (limit : Nat) : Except Raised Unit := do
  writable t
  if limit < t.length then .error .queueError else return ()

/-- `keyed`, with the key it let through. -/
def keyed : Given → Except Raised Text
  | .text t => do
      if t = [] then .error .queueError
      else
        holdable t keyLimit
        return t
  | v => refuse py v

/-- `scheduled`. -/
def scheduled : Given → Except Raised Instant
  | .moment wall offset => asUtc wall offset
  | v => refuse py v

/-- `whole`, with the count it let through. -/
def whole : Given → Except Raised Int
  | .int false n => .ok n
  | v => refuse py v

/-- `ranked`. -/
def ranked (v : Given) : Except Raised Int := do
  let priority ← whole py v
  raiseIf py (¬(-priorityLimit ≤ priority ∧ priority ≤ priorityLimit)) v
  return priority

/-! ## What they let through and what they break on -/

abbrev verdict {α : Type} (x : Except Raised α) : Verdict := x.verdict Raised.ours

/-- A value whose `repr` raises what no caller was told of. -/
def unspoken (v : Given) : Bool := decide (verdict (repr py v) = .breaks)

/-- The number a value is, where it is one that is real. -/
def number : Given → Option ℚ
  | .int false n => if tooWide n then none else some n
  | .float false (.finite q) => some q
  | _ => none

/-- A whole number past every double, or a value of another type that cannot be spelled. -/
def realBreaks : Given → Bool
  | .int false n => tooWide n
  | .float false _ => false
  | v => unspoken py v

/-- The verdict on an argument that has to be a number of a kind. -/
def onReal (fits : ℚ → Bool) (v : Given) : Verdict :=
  .on ((number v).any fits) (realBreaks py v)

/-- The count a value is. -/
def count : Given → Option Int
  | .int false n => some n
  | _ => none

/-- The verdict on an argument that has to be a count of a kind. -/
def onCount (fits : Int → Bool) (v : Given) : Verdict :=
  .on ((count v).any fits) (unspoken py v)

/-- The span a value is. -/
def timedelta : Given → Option Timedelta
  | .span span => some span
  | _ => none

/-- The verdict on an argument that has to be a span of a kind. -/
def onSpan (fits : Timedelta → Bool) (v : Given) : Verdict :=
  .on ((timedelta v).any fits) (unspoken py v)

/-- A text a store holds whole. -/
def fitting (limit : Nat) (t : Text) : Bool :=
  t.all Json.holdable && decide (t.length ≤ limit)

/-- The verdict on a key. -/
def onKey : Given → Verdict
  | .text t => .on (decide (t ≠ []) && fitting keyLimit t) false
  | v => .on false (unspoken py v)

/-- Whether an instant has a UTC one. -/
def reachesUtc (wall : Instant) : Option Offset → Bool
  | none => true
  | some offset => decide (earliestSlot ≤ wall.micro - offset.micro) &&
      decide (wall.micro - offset.micro ≤ widestSlot)

/-- The verdict on an instant. One with no UTC one is not refused, it breaks. -/
def onMoment : Given → Verdict
  | .moment wall offset => .on (reachesUtc wall offset) true
  | v => .on false (unspoken py v)

variable {py}

/-! ## That this is what they do -/

theorem length_toDigits_le {n k : ℕ} (hk : 0 < k) (h : n < 2 ^ (3 * k)) :
    (Nat.toDigits 10 n).length ≤ k := by
  rw [Nat.length_toDigits_le_iff (by decide) hk]
  calc n < (2 ^ 3) ^ k := by rwa [pow_mul] at h
    _ ≤ 10 ^ k := Nat.pow_le_pow_left (by decide) k

theorem spells_of_small {n : Int} (h : n.natAbs < 2 ^ 1024) : py.spells n = true := by
  have hdigits : (Nat.toDigits 10 n.natAbs).length ≤ 640 := by
    have hpow : 2 ^ 1024 ≤ 2 ^ (3 * 640) := by decide +kernel
    apply length_toDigits_le (by decide)
    exact h.trans_le hpow
  rcases py.allows with hnone | hfloor
  · simp [Limits.spells, hnone]
  · simp only [Limits.spells, Bool.or_eq_true, decide_eq_true_eq]
    exact Or.inr (hdigits.trans hfloor)

/-- A number that passes for real is spelled without a word from the interpreter. -/
theorem repr_of_number {v : Given} {q : ℚ} (h : number v = some q) : repr py v = .ok () := by
  cases v with
  | int derived n =>
      cases derived with
      | true => simp [number] at h
      | false =>
          have hsmall : n.natAbs < 2 ^ 1024 := by
            by_contra hbig
            have hwide : tooWide n = true := by
              simp only [tooWide, decide_eq_true_eq]
              omega
            simp [number, hwide] at h
          simp [repr, spells_of_small hsmall]
  | float derived x => rfl
  | _ => simp [number] at h

theorem realBreaks_of_number {v : Given} {q : ℚ} (h : number v = some q) :
    realBreaks py v = false := by
  cases v with
  | int derived n =>
      cases derived with
      | true => simp [number] at h
      | false =>
          cases hwide : tooWide n with
          | true => simp [number, hwide] at h
          | false => exact hwide
  | float derived x =>
      cases derived with
      | true => simp [number] at h
      | false => rfl
  | _ => simp [number] at h

theorem verdict_refuse {α : Type} (v : Given) :
    verdict (refuse py v : Except Raised α) = .on false (unspoken py v) := by
  unfold refuse unspoken
  cases h : repr py v with
  | ok _ => rfl
  | error e =>
      simp only [verdict, bind, Except.bind, Except.verdict]
      cases e <;> decide

theorem refuse_ne_ok {α : Type} (v : Given) (a : α) : refuse py v ≠ .ok a := by
  unfold refuse
  cases repr py v with
  | ok _ => simp [bind, Except.bind]
  | error e => simp [bind, Except.bind]

theorem unspoken_of_repr {v : Given} (h : repr py v = .ok ()) : unspoken py v = false := by
  rw [unspoken, h]
  rfl

/--
What a guard makes of an argument: of a value that is what it asks for, held as `held`, it lets
through the ones that fit and refuses the others; of every other value it breaks on some.
-/
structure Admits {α : Type} (x : Except Raised α) (held : Option α) (fits : α → Bool)
    (breaks : Bool) : Prop where
  verdict : verdict x = .on (held.any fits) breaks
  ok : ∀ a, x = .ok a ↔ held = some a ∧ fits a = true

namespace Admits

variable {α : Type} {x : Except Raised α} {held : Option α} {fits : α → Bool} {breaks : Bool}

/-- A value that is not of the kind asked for. -/
theorem refused (v : Given) (fits : α → Bool) :
    Admits (refuse py v) (none : Option α) fits (unspoken py v) where
  verdict := by
    rw [verdict_refuse]
    rfl
  ok a := by simp [refuse_ne_ok]

theorem passed (a : α) (breaks : Bool) : Admits (.ok a) (some a) (fun _ => true) breaks where
  verdict := rfl
  ok b := by simp

/-- More asked of a value of the right kind, which is refused by spelling it. -/
theorem and {f : α → Except Raised α} {more : α → Bool} {spelled : α → Given}
    (h : Admits x held fits breaks)
    (hf : ∀ a, f a = if more a then .ok a else refuse py (spelled a))
    (hspelled : ∀ a, held = some a → unspoken py (spelled a) = breaks) :
    Admits (x >>= f) held (fun a => fits a && more a) breaks := by
  cases hx : x with
  | error e =>
      have hnone : held.any fits = false := by
        cases hheld : held with
        | none => rfl
        | some a =>
            cases hfits : fits a with
            | false => simpa using hfits
            | true =>
                rw [(h.ok a).2 ⟨hheld, hfits⟩] at hx
                cases hx
      have hmore : held.any (fun a => fits a && more a) = false := by
        cases held with
        | none => rfl
        | some a =>
            have hfits : fits a = false := by simpa using hnone
            simp [hfits]
      refine ⟨?_, ?_⟩
      · have hverdict := h.verdict
        rw [hx, hnone] at hverdict
        rw [hmore]
        exact hverdict
      · intro a
        constructor
        · intro hok
          cases hok
        · rintro ⟨rfl, hfits⟩
          simp [hfits] at hmore
  | ok a =>
      have ha : held = some a ∧ fits a = true := (h.ok a).1 hx
      have hbind : (Except.ok a >>= f) = if more a then .ok a else refuse py (spelled a) := hf a
      rw [hbind, ha.1]
      cases hmore : more a with
      | true => exact ⟨by simp [ha.2, hmore]; rfl, by simp [ha.2, hmore]⟩
      | false =>
          refine ⟨?_, ?_⟩
          · rw [if_neg (by simp), verdict_refuse, hspelled a ha.1]
            simp [hmore]
          · intro b
            simp [refuse_ne_ok]
            rintro rfl
            simp [hmore]

end Admits

/-- What follows a refusal is never asked. -/
theorem refuse_bind {α β : Type} (v : Given) (f : α → Except Raised β) :
    (refuse py v >>= f) = refuse py v := by
  unfold refuse
  cases repr py v <;> rfl

theorem raiseIf_bind {α : Type} (p : Prop) [Decidable p] (v : Given) (x : Except Raised α) :
    (raiseIf py p v >>= fun _ => x) = if p then refuse py v else x := by
  unfold raiseIf
  split
  · exact refuse_bind v _
  · rfl

theorem real_admits (v : Given) :
    Admits (real py v) (number v) (fun _ => true) (realBreaks py v) := by
  cases v with
  | int derived n =>
      cases derived with
      | true => exact .refused _ _
      | false =>
          cases hwide : tooWide n with
          | true =>
              refine ⟨?_, ?_⟩
              · simp only [real, number, realBreaks, hwide]
                rfl
              · simp [real, number, hwide]
          | false =>
              simp only [real, number, realBreaks, hwide]
              exact .passed _ _
  | float derived x =>
      cases derived with
      | true => exact .refused _ _
      | false =>
          cases x with
          | finite q => exact .passed _ _
          | nan => exact ⟨rfl, by simp [real, number]⟩
          | infinity negative => exact ⟨rfl, by simp [real, number]⟩
  | none => exact .refused _ _
  | bool truth => exact .refused _ _
  | text t => exact .refused _ _
  | span span => exact .refused _ _
  | moment wall offset => exact .refused _ _
  | other repr => exact .refused _ _

/-- More asked of a real number. -/
theorem Admits.real_and {v : Given} {x : Except Raised ℚ} {f : ℚ → Except Raised ℚ}
    {fits more : ℚ → Bool} (h : Admits x (number v) fits (realBreaks py v))
    (hf : ∀ q, f q = if more q then .ok q else refuse py v) :
    Admits (x >>= f) (number v) (fun q => fits q && more q) (realBreaks py v) := by
  have hspelled : ∀ q, number v = some q → unspoken py v = realBreaks py v := by
    intro q hq
    rw [unspoken_of_repr (repr_of_number hq), realBreaks_of_number hq]
  exact h.and hf hspelled

theorem real_and {v : Given} {f : ℚ → Except Raised ℚ} {fits : ℚ → Bool}
    (hf : ∀ q, f q = if fits q then .ok q else refuse py v) :
    Admits (real py v >>= f) (number v) fits (realBreaks py v) := by
  simpa using (real_admits v).real_and hf

/-- What is asked of a span that is waited, from the instant it is asked at. -/
theorem waited_admits (now : Instant) (v : Given) :
    Admits (waited py now v) (number v) (fun q => decide (q ≤ widestWait now))
      (realBreaks py v) := by
  apply real_and
  intro q
  rw [raiseIf_bind]
  by_cases h : (widestWait now : ℚ) < q
  · simp [h, not_le.2 h]
  · simp [h, not_lt.1 h, pure, Except.pure]

theorem whole_admits (v : Given) :
    Admits (whole py v) (count v) (fun _ => true) (unspoken py v) := by
  cases v with
  | int derived n =>
      cases derived with
      | true => exact .refused _ _
      | false => exact .passed _ _
  | none => exact .refused _ _
  | bool truth => exact .refused _ _
  | float derived x => exact .refused _ _
  | text t => exact .refused _ _
  | span span => exact .refused _ _
  | moment wall offset => exact .refused _ _
  | other repr => exact .refused _ _

theorem whole_and {v : Given} {f : Int → Except Raised Int} {fits : Int → Bool}
    (hf : ∀ n, f n = if fits n then .ok n else refuse py v) :
    Admits (whole py v >>= f) (count v) fits (unspoken py v) := by
  simpa using (whole_admits v).and hf fun _ _ => rfl

theorem ranked_admits (v : Given) :
    Admits (ranked py v) (count v)
      (fun n => decide (-priorityLimit ≤ n) && decide (n ≤ priorityLimit)) (unspoken py v) := by
  apply whole_and
  intro n
  rw [raiseIf_bind]
  by_cases h : -priorityLimit ≤ n ∧ n ≤ priorityLimit
  · simp [h, pure, Except.pure]
  · simp [h]

theorem spanned_admits (v : Given) :
    Admits (spanned py v) (timedelta v) (fun _ => true) (unspoken py v) := by
  cases v with
  | span span => exact .passed _ _
  | int derived n => exact .refused _ _
  | none => exact .refused _ _
  | bool truth => exact .refused _ _
  | float derived x => exact .refused _ _
  | text t => exact .refused _ _
  | moment wall offset => exact .refused _ _
  | other repr => exact .refused _ _

/-- More asked of a span, by its seconds. -/
theorem spanned_and {v : Given} {f : Timedelta → Except Raised Timedelta} {fits : Timedelta → Bool}
    (hf : ∀ span, f span = if fits span then .ok span else refuse py (seconds span)) :
    Admits (spanned py v >>= f) (timedelta v) fits (unspoken py v) := by
  have hspelled : ∀ span, timedelta v = some span → unspoken py (seconds span) = unspoken py v := by
    intro span hspan
    cases v with
    | span span => rfl
    | _ => simp [timedelta] at hspan
  simpa using (spanned_admits v).and hf hspelled

/-- The seconds of a span are asked for, and the span is what goes on. -/
theorem waited_seconds {α : Type} (now : Instant) (span : Timedelta) (a : α) :
    (waited py now (seconds span) >>= fun _ => pure a) =
      if span.totalSeconds ≤ widestWait now then .ok a else refuse py (seconds span) := by
  have hwaited : waited py now (seconds span) =
      raiseIf py ((widestWait now : ℚ) < span.totalSeconds) (seconds span) >>=
        fun _ => pure span.totalSeconds := rfl
  rw [hwaited, bind_assoc, raiseIf_bind]
  by_cases h : (widestWait now : ℚ) < span.totalSeconds
  · rw [if_pos h, if_neg (not_le.2 h)]
  · rw [if_neg h, if_pos (not_lt.1 h)]
    rfl

theorem kept_seconds {α : Type} (now : Instant) (span : Timedelta) (a : α) :
    (kept py now (seconds span) >>= fun _ => pure a) =
      if span.totalSeconds ≤ widestPast now then .ok a else refuse py (seconds span) := by
  have hkept : kept py now (seconds span) =
      raiseIf py ((widestPast now : ℚ) < span.totalSeconds) (seconds span) >>=
        fun _ => pure span.totalSeconds := rfl
  rw [hkept, bind_assoc, raiseIf_bind]
  by_cases h : (widestPast now : ℚ) < span.totalSeconds
  · rw [if_pos h, if_neg (not_le.2 h)]
  · rw [if_neg h, if_pos (not_lt.1 h)]
    rfl

/-! ## Texts and instants -/

theorem verdict_writable (t : Text) : verdict (writable t) = .on (t.all Json.holdable) false := by
  have hall : t.all Json.holdable = (!t.any surrogate && decide (0 ∉ t)) := by
    induction t with
    | nil => rfl
    | cons c rest ih =>
        rw [List.all_cons, ih, List.any_cons, Json.holdable, utf8]
        rcases eq_or_ne c 0 with rfl | hzero
        · cases surrogate 0 <;> simp
        · cases surrogate c <;> simp [hzero, hzero.symm]
  rw [hall, writable]
  cases t.any surrogate with
  | true => rfl
  | false =>
      by_cases hzero : 0 ∈ t
      · simp [hzero]
        rfl
      · simp [hzero]
        rfl

theorem verdict_holdable (t : Text) (limit : Nat) :
    verdict (holdable t limit) = .on (fitting limit t) false := by
  have hlength : ∀ u : Unit, writable t = .ok u →
      verdict (if limit < t.length then .error .queueError else pure ()) =
        .on (decide (t.length ≤ limit)) false := by
    intro _ _
    by_cases h : limit < t.length
    · rw [if_pos h, decide_eq_false (by omega)]
      rfl
    · rw [if_neg h, decide_eq_true (by omega)]
      rfl
  rw [holdable, verdict, Except.verdict_bind hlength, fitting]
  have hwritable := verdict_writable t
  rw [verdict] at hwritable
  rw [hwritable]
  cases t.all Json.holdable <;> rfl

theorem holdable_ok {t : Text} {limit : Nat} :
    holdable t limit = .ok () ↔ fitting limit t = true := by
  have h := verdict_holdable t limit
  constructor
  · intro hok
    rw [hok] at h
    cases hfit : fitting limit t with
    | true => rfl
    | false => simp [hfit, Verdict.on] at h
  · intro hfit
    rw [hfit] at h
    rcases Except.verdict_eq_passes.1 h with ⟨u, hu⟩
    exact hu

theorem verdict_keyed (v : Given) : verdict (keyed py v) = onKey py v := by
  cases v with
  | text t =>
      by_cases hempty : t = []
      · simp [keyed, onKey, hempty]
        rfl
      · have hmap : keyed py (.text t) = holdable t keyLimit >>= fun _ => pure t := by
          simp [keyed, hempty]
        rw [hmap, verdict, Except.verdict_map]
        have hverdict := verdict_holdable t keyLimit
        rw [verdict] at hverdict
        simp [hverdict, onKey, hempty]
  | none => exact verdict_refuse _
  | bool truth => exact verdict_refuse _
  | int derived n => exact verdict_refuse _
  | float derived x => exact verdict_refuse _
  | span span => exact verdict_refuse _
  | moment wall offset => exact verdict_refuse _
  | other repr => exact verdict_refuse _

/-- A key that fits a store is taken as it is. -/
theorem keyed_text {t : Text} (hempty : t ≠ []) (hfit : fitting keyLimit t = true) :
    keyed py (.text t) = .ok t := by
  simp [keyed, hempty, holdable_ok.2 hfit]

theorem verdict_scheduled (v : Given) : verdict (scheduled py v) = onMoment py v := by
  cases v with
  | moment wall offset =>
      cases offset with
      | none => rfl
      | some offset =>
          have hwithin : earliestSlot ≤ wall.micro + -offset.micro ↔
              earliestSlot ≤ wall.micro - offset.micro := by omega
          cases hplus : wall.plus (-offset.micro) with
          | some moment =>
              have hmicro := Instant.plus_eq_some.1 hplus
              have hlow := moment.earliest
              have hhigh := moment.widest
              have hreach : reachesUtc wall (some offset) = true := by
                simp only [reachesUtc, Bool.and_eq_true, decide_eq_true_eq]
                omega
              simp [scheduled, asUtc, hplus, onMoment, hreach]
              rfl
          | none =>
              have hpast := Instant.plus_eq_none.1 hplus
              have hreach : reachesUtc wall (some offset) = false := by
                simp only [reachesUtc, Bool.and_eq_false_iff, decide_eq_false_iff_not]
                omega
              simp [scheduled, asUtc, hplus, onMoment, hreach]
              rfl
  | none => exact verdict_refuse _
  | bool truth => exact verdict_refuse _
  | int derived n => exact verdict_refuse _
  | float derived x => exact verdict_refuse _
  | text t => exact verdict_refuse _
  | span span => exact verdict_refuse _
  | other repr => exact verdict_refuse _

end Queuefy.Gate
