import Queuefy.Store.Redis

/-! # A codec for runs without values

What the stores are handed for a payload or a result may be any json value. The smallest choice is
the one with a single value, the empty object, which is what a task that takes nothing is called
with; floats that are whole numbers are written the way `str` writes them.
-/

namespace Queuefy

namespace Plain

/-- `str` of a float that is a whole number; any other is named by its place in a list of all. -/
def str (q : ℚ) : String :=
  if q.den = 1 then q.num.repr ++ ".0" else (Encodable.encode q).repr ++ "/"

def float (text : String) : Option ℚ :=
  match text.toList.reverse with
  | '0' :: '.' :: digits => (intOf (String.ofList digits.reverse)).map fun n : Int => (n : ℚ)
  | '/' :: digits => (natOf digits.reverse).bind Encodable.decode
  | _ => none

theorem float_str (q : ℚ) : float (str q) = some q := by
  unfold str
  split
  · rename_i hden
    have hlist : (q.num.repr ++ ".0").toList.reverse = '0' :: '.' :: q.num.repr.toList.reverse := by
      simp
    simp only [float, hlist, List.reverse_reverse, String.ofList_toList, intOf_repr,
      Option.map_some, Option.some.injEq]
    exact (Rat.den_eq_one_iff q).mp hden
  · have hlist : ((Encodable.encode q).repr ++ "/").toList.reverse =
        '/' :: (Nat.toDigits 10 (Encodable.encode q)).reverse := by
      simp [Nat.repr]
    simp only [float, hlist, List.reverse_reverse, natOf_toDigits, Option.bind_some,
      Encodable.encodek]

theorem str_ne_empty (q : ℚ) : str q ≠ "" := by
  intro h
  have hfloat := float_str q
  rw [h] at hfloat
  cases hfloat

def codec : Codec Unit where
  dumps := fun _ => "{}"
  loads := fun text => if text = "{}" then some () else none
  str := str
  float := float
  loads_dumps := fun _ => rfl
  dumps_ne_empty := fun _ => by decide
  float_str := fun q _ => float_str q
  str_ne_empty := str_ne_empty

/-- A run as an enqueueing of a task that takes nothing writes it. -/
def run (queue : String) (priority : Int) (dueAt : Instant) : Run Unit where
  name := "task"
  queue := queue
  payload := ()
  key := none
  status := .pending
  priority := priority
  dueAt := dueAt
  attempts := 0
  maxAttempts := 3
  timeout := none
  retryPolicy := .exponential
  retryDelay := 5
  maxRetryDelay := 3600
  worker := none
  leaseUntil := none
  createdAt := Instant.epoch
  startedAt := none
  finishedAt := none
  result := none
  error := none
  errorType := none

end Plain

end Queuefy
