import Queuefy.Lib.Rounding
import Queuefy.Run

/-! # Texts and the numbers Lua reads in them

Everything Redis keeps of a run is text. A number is read out of one by `tonumber` and written
into one by `tostring`, and both go through a double; an id is what `tostring` makes of the
counter, fourteen digits and then an exponent.
-/

namespace Queuefy

/-! ## Writing a number down -/

/-- The digits after the first, without the zeros they end in. -/
def fraction (digits : List Char) : List Char := (digits.reverse.dropWhile (· = '0')).reverse

/-- `%.14g` of a whole number that has more than fourteen digits. -/
def scientific (n : Nat) : String :=
  let size := (Nat.toDigits 10 n).length
  let kept := roundHalfEven n (10 ^ (size - 14))
  -- the fourteen digits kept round up into a fifteenth
  let exponent := if kept = 10 ^ 14 then size else size - 1
  let digits := Nat.toDigits 10 (if kept = 10 ^ 14 then 10 ^ 13 else kept)
  let rest := fraction digits.tail
  String.ofList (digits.take 1 ++ (if rest = [] then [] else '.' :: rest) ++
    ['e', '+'] ++ Nat.toDigits 10 exponent)

/-- `tostring` of a number that counts, which is `%.14g` of the double nearest to it. -/
def tostring (n : Nat) : String :=
  let kept := (double n).natAbs
  if kept < 10 ^ 14 then kept.repr else scientific kept

/-- Up to fourteen digits a counter is written down as itself. -/
theorem tostring_of_lt {n : Nat} (h : n < 10 ^ 14) : tostring n = n.repr := by
  have hkept : double n = n := double_of_natAbs_le (by omega)
  have hlt : n < 100000000000000 := h
  simp [tostring, hkept, hlt]

/-- A counter is never written down as no text. -/
theorem tostring_ne_empty (n : Nat) : tostring n ≠ "" := by
  intro h
  have hchars := congrArg String.toList h
  unfold tostring at hchars
  dsimp only at hchars
  split at hchars
  · simp [Nat.repr, Nat.toDigits_ne_nil] at hchars
  · simp [scientific] at hchars

/-! ## Reading one back -/

/-- A whole number read off its digits. -/
def natOf (digits : List Char) : Option Nat :=
  if digits ≠ [] ∧ digits.all (·.isDigit) then some (Nat.ofDigitChars 10 digits 0) else none

theorem natOf_toDigits (n : Nat) : natOf (Nat.toDigits 10 n) = some n := by
  have hall : (Nat.toDigits 10 n).all (·.isDigit) = true := by
    rw [List.all_eq_true]
    exact fun c hc => Nat.isDigit_of_mem_toDigits (by decide) (by decide) hc
  rw [natOf, if_pos ⟨Nat.toDigits_ne_nil, hall⟩, Nat.ofDigitChars_ten_toDigits]

/-- The same with a sign before them. -/
def intOf (text : String) : Option Int :=
  match text.toList with
  | '-' :: digits => (natOf digits).map fun n : Nat => -(n : Int)
  | digits => (natOf digits).map Int.ofNat

@[simp] theorem intOf_repr (n : Int) : intOf n.repr = some n := by
  cases n with
  | ofNat m =>
      have hlist : (Int.ofNat m).repr.toList = Nat.toDigits 10 m := by
        simp [Int.repr, Nat.repr]
      have hsign : ∀ digits, Nat.toDigits 10 m ≠ '-' :: digits := by
        intro digits h
        have := Nat.isDigit_of_mem_toDigits (b := 10) (n := m) (c := '-') (by decide) (by decide)
          (h ▸ List.mem_cons_self)
        cases this
      rw [intOf, hlist]
      split
      · rename_i digits h
        exact absurd h (hsign digits)
      · rw [natOf_toDigits]
        rfl
  | negSucc m =>
      have hlist : (Int.negSucc m).repr.toList = '-' :: Nat.toDigits 10 (m + 1) := by
        simp [Int.repr, Nat.repr]
      simp only [intOf, hlist, natOf_toDigits]
      rfl

/-- A number written with an exponent: its digits, the point taken out, times the power left. -/
def unscientific (text : String) : Option Int :=
  match text.toList.splitOn '.' with
  | [whole, rest] =>
      match rest.span (· ≠ 'e') with
      | (fraction, 'e' :: '+' :: exponent) => do
          let digits ← natOf (whole ++ fraction)
          let power ← natOf exponent
          if fraction.length ≤ power then some (digits * 10 ^ (power - fraction.length)) else none
      | _ => none
  | [whole] =>
      match whole.span (· ≠ 'e') with
      | (digits, 'e' :: '+' :: exponent) => do
          let digits ← natOf digits
          let power ← natOf exponent
          some (digits * 10 ^ power)
      | _ => none
  | _ => none

/-- `tonumber` of a text that names a whole number; nothing is the `nil` of any other text. -/
def tonumber (text : String) : Option Int :=
  match intOf text with
  | some n => some (double n)
  | none => (unscientific text).map double

theorem tonumber_repr (n : Int) : tonumber n.repr = some (double n) := by
  simp [tonumber]

example : tonumber (tostring (10 ^ 15 + 100)) = some (10 ^ 15 + 100) := by decide +kernel

/-- A number a script compares by or scores with. Every text one is read from was written as a
number, so the default stands for no number a script ever met. -/
def number (text : String) : Int := (tonumber text).getD 0

@[simp] theorem number_repr (n : Int) : number n.repr = double n := by
  simp [number, tonumber_repr]

/-! ## The texts of a run -/

def RunStatus.value : RunStatus → String
  | .pending => "pending"
  | .running => "running"
  | .done => "done"
  | .failed => "failed"
  | .canceled => "canceled"

def RunStatus.ofValue : String → Option RunStatus
  | "pending" => some .pending
  | "running" => some .running
  | "done" => some .done
  | "failed" => some .failed
  | "canceled" => some .canceled
  | _ => none

@[simp] theorem RunStatus.ofValue_value (status : RunStatus) :
    RunStatus.ofValue status.value = some status := by
  cases status <;> rfl

def RetryPolicy.value : RetryPolicy → String
  | .fixed => "fixed"
  | .linear => "linear"
  | .exponential => "exponential"
  | .exponentialJitter => "exponential_jitter"

def RetryPolicy.ofValue : String → Option RetryPolicy
  | "fixed" => some .fixed
  | "linear" => some .linear
  | "exponential" => some .exponential
  | "exponential_jitter" => some .exponentialJitter
  | _ => none

@[simp] theorem RetryPolicy.ofValue_value (policy : RetryPolicy) :
    RetryPolicy.ofValue policy.value = some policy := by
  cases policy <;> rfl

/-- An instant as the whole microseconds since the epoch, and nothing as no text. -/
def stamp : Option Instant → String
  | none => ""
  | some moment => moment.micro.repr

/-- The instant a text names; nothing is the error of a text that names none. -/
def momentOf (text : String) : Option (Option Instant) :=
  if text = "" then some none
  else (intOf text).bind fun n => (Instant.epoch.plus n).map some

theorem repr_ne_empty (n : Int) : n.repr ≠ "" := by
  intro h
  have := intOf_repr n
  rw [h] at this
  cases this

@[simp] theorem momentOf_stamp (moment : Option Instant) :
    momentOf (stamp moment) = some moment := by
  cases moment with
  | none => rfl
  | some t =>
      have hplus : Instant.epoch.plus t.micro = some t :=
        Instant.plus_eq_some.2 (Int.zero_add _).symm
      simp [momentOf, stamp, repr_ne_empty, hplus]

end Queuefy
