import Queuefy.Calendar
import Queuefy.Lib.Verdict

/-! # Reading a cron expression

`parse` reads the five fields of an expression into the sets of values they stand for. A field's
values are kept below one past the field's last, so a set out of range cannot be built. What a
character is worth as a digit is the interpreter's Unicode database to say and is a parameter;
of the digits of ASCII it says what they are.
-/

namespace Queuefy.Cron

/-- What `int` takes: the characters that are decimal digits, and the most digits a text may have,
0 being no limit. -/
structure Numerals where
  decimal : Char → Option (Fin 10)
  ascii : ∀ c : Char, c.toNat < 128 →
    decimal c = if h : 48 ≤ c.toNat ∧ c.toNat < 58 then some ⟨c.toNat - 48, by omega⟩ else none
  longest : ℕ

/-- The digits of ASCII alone, and the limit an interpreter starts with. -/
def Numerals.plain : Numerals where
  decimal c := if h : 48 ≤ c.toNat ∧ c.toNat < 58 then some ⟨c.toNat - 48, by omega⟩ else none
  ascii _ _ := rfl
  longest := 4300

/-- What `CronError` was raised over. -/
inductive CronError
  | notANumber (value : List Char)
  | neverAdvances (token : List Char) (step : ℤ)
  | stepsOverOne (token base : List Char) (high : ℕ) (step : ℤ)
  | outside (token : List Char) (low high : ℕ)
  | fields (expression : String) (count : ℕ)
  | noSuchDay (expression : String)
  | matchesNothing (expression : String) (horizon : ℕ) (moment : Instant)
deriving DecidableEq

/-! ## Text -/

/-- `str.isspace`, the spaces `split` passes over. -/
def isSpace (c : Char) : Bool :=
  (9 ≤ c.toNat && c.toNat ≤ 13) || (28 ≤ c.toNat && c.toNat ≤ 32) || c.toNat == 0x85 ||
    c.toNat == 0xA0 || c.toNat == 0x1680 || (0x2000 ≤ c.toNat && c.toNat ≤ 0x200A) ||
    c.toNat == 0x2028 || c.toNat == 0x2029 || c.toNat == 0x202F || c.toNat == 0x205F ||
    c.toNat == 0x3000

/-- `str.split()`. -/
def split (text : List Char) : List (List Char) := (text.splitOnP isSpace).filter (· ≠ [])

/-- What `str.partition` takes a text apart into. -/
structure Parts where
  before : List Char
  found : Bool
  after : List Char

/-- `str.partition`, at the first separator. -/
def partition (separator : Char) (text : List Char) : Parts where
  before := text.takeWhile (· ≠ separator)
  found := decide (separator ∈ text)
  after := (text.dropWhile (· ≠ separator)).drop 1

/-- The spaces `int` passes over, which the four separators of ASCII are not among. -/
def isBlank (c : Char) : Bool := isSpace c && !(28 ≤ c.toNat && c.toNat ≤ 31)

def strip (text : List Char) : List Char :=
  ((text.dropWhile isBlank).reverse.dropWhile isBlank).reverse

variable (numerals : Numerals)

/-- The digits of a number, single underscores between them. -/
def digits : List Char → Option (List (Fin 10))
  | [] => none
  | [c] => (numerals.decimal c).map fun digit => [digit]
  | c :: '_' :: rest => do return (← numerals.decimal c) :: (← digits rest)
  | c :: rest => do return (← numerals.decimal c) :: (← digits rest)

/-- The number without its sign. -/
def unsigned (text : List Char) : Option ℕ :=
  match digits numerals text with
  | none => none
  | some ds =>
      if numerals.longest ≠ 0 ∧ numerals.longest < ds.length then none
      else some (ds.foldl (fun n digit => 10 * n + digit) 0)

/-- `int(value)`, where it is not a `ValueError`. -/
def int (value : List Char) : Option ℤ :=
  match strip value with
  | '-' :: rest => (unsigned numerals rest).map fun n => -(n : ℤ)
  | '+' :: rest => (unsigned numerals rest).map fun n => (n : ℤ)
  | rest => (unsigned numerals rest).map fun n => (n : ℤ)

def numberOf (value : List Char) : Except CronError ℤ :=
  match int numerals value with
  | some n => .ok n
  | none => .error (.notANumber value)

/-! ## Fields -/

/-- `range(start, end + 1, step)`, of what is in the field. -/
def range (high : ℕ) (start stop step : ℤ) : Finset (Fin (high + 1)) :=
  Finset.univ.filter fun v => start ≤ v.val ∧ (v.val : ℤ) ≤ stop ∧ step ∣ v.val - start

/-- What a token steps by. -/
def stepOf (parts : Parts) : Except CronError ℤ :=
  if parts.found then numberOf numerals parts.after else .ok 1

/-- The first and the last value a token names before it is sliced. -/
def boundsOf (token : List Char) (parts : Parts) (step : ℤ) (low high : ℕ) :
    Except CronError (ℤ × ℤ) :=
  if parts.before = ['*'] then .ok (low, high)
  else if '-' ∈ parts.before then do
    let start ← numberOf numerals (partition '-' parts.before).before
    let stop ← numberOf numerals (partition '-' parts.before).after
    return (start, stop)
  else do
    let start ← numberOf numerals parts.before
    if parts.found then .error (.stepsOverOne token parts.before high step) else .ok (start, start)

def valuesOf (token : List Char) (low high : ℕ) : Except CronError (Finset (Fin (high + 1))) := do
  let parts := partition '/' token
  let step ← stepOf numerals parts
  if step ≤ 0 then .error (.neverAdvances token step)
  else do
    let bounds ← boundsOf numerals token parts step low high
    if bounds.1 < low ∨ high < bounds.2 ∨ bounds.2 < bounds.1 then
      .error (.outside token low high)
    else .ok (range high bounds.1 bounds.2 step)

/-- One token more into the values of a field. -/
def update (low high : ℕ) (values : Finset (Fin (high + 1))) (token : List Char) :
    Except CronError (Finset (Fin (high + 1))) := do
  return values ∪ (← valuesOf numerals token low high)

def fieldOf (spec : List Char) (low high : ℕ) : Except CronError (Finset (Fin (high + 1))) :=
  (spec.splitOn ',').foldlM (update numerals low high) ∅

def starred (spec : List Char) : Bool := spec.head? = some '*'

/-- The most days each month ever has. -/
def monthLengths : List ℕ := [31, 29, 31, 30, 31, 30, 31, 31, 30, 31, 30, 31]

def reachable (days : Finset (Fin 32)) (months : Finset (Fin 13)) (weekdayStarred : Bool) : Bool :=
  !weekdayStarred ||
    decide (∃ month ∈ months, ∃ day ∈ days, day.val ≤ monthLengths.getD (month.val - 1) 0)

/-- What an expression is parsed into: the five fields, and whether each of the two day fields was
written as a star. -/
structure Schedule where
  minutes : Finset (Fin 60)
  hours : Finset (Fin 24)
  days : Finset (Fin 32)
  months : Finset (Fin 13)
  weekdays : Finset (Fin 8)
  dayStarred : Bool
  weekdayStarred : Bool
deriving DecidableEq

/-- Sunday is written 0 or 7, and read as 0. -/
def sunday (weekdays : Finset (Fin 8)) : Finset (Fin 8) :=
  if 7 ∈ weekdays then (weekdays \ {7}) ∪ {0} else weekdays

def parse (expression : String) : Except CronError Schedule :=
  match split expression.toList with
  | [minute, hour, day, month, weekday] => do
      let minutes ← fieldOf numerals minute 0 59
      let hours ← fieldOf numerals hour 0 23
      let days ← fieldOf numerals day 1 31
      let months ← fieldOf numerals month 1 12
      let weekdays ← fieldOf numerals weekday 0 7
      if !reachable days months (starred weekday) then .error (.noSuchDay expression)
      else .ok ⟨minutes, hours, days, months, sunday weekdays, starred day, starred weekday⟩
  | fields => .error (.fields expression fields.length)

/-! ## What begins with a star -/

section Star

variable {numerals : Numerals}

theorem isBlank_of_not_isSpace {c : Char} (h : isSpace c = false) : isBlank c = false := by
  rw [isBlank, h, Bool.false_and]

theorem strip_cons {c : Char} (h : isBlank c = false) (rest : List Char) :
    ∃ tail, strip (c :: rest) = c :: tail := by
  have hlast : ([c].dropWhile isBlank) = [c] := by simp [h]
  unfold strip
  rw [List.dropWhile_cons_of_neg (by simp [h]), List.reverse_cons, List.dropWhile_append]
  split
  · rw [hlast]
    exact ⟨[], rfl⟩
  · rw [List.reverse_append]
    exact ⟨_, rfl⟩

/-- No number begins with a star. -/
theorem numberOf_star (rest : List Char) {n : ℤ} : numberOf numerals ('*' :: rest) ≠ .ok n := by
  obtain ⟨tail, htail⟩ := strip_cons (c := '*') (by decide) rest
  have hstar : numerals.decimal '*' = none := by
    rw [numerals.ascii '*' (by decide)]
    rfl
  have hdigits : digits numerals ('*' :: tail) = none := by
    cases tail with
    | nil => rw [digits, hstar, Option.map_none]
    | cons c tail =>
        unfold digits
        split
        · rfl
        · rename_i heq
          simp at heq
        · rename_i heq
          rw [← (List.cons.inj heq).1, hstar]
          rfl
        · rename_i heq
          rw [← (List.cons.inj heq).1, hstar]
          rfl
  have hint : int numerals ('*' :: rest) = none := by
    unfold int unsigned
    rw [htail]
    simp [hdigits]
  simp [numberOf, hint]

theorem partition_star {separator : Char} (h : separator ≠ '*') (rest : List Char) :
    ∃ tail, (partition separator ('*' :: rest)).before = '*' :: tail := by
  refine ⟨rest.takeWhile (· ≠ separator), ?_⟩
  simp [partition, h.symm]

theorem boundsOf_star {token tail : List Char} {parts : Parts} {step : ℤ} {low high : ℕ}
    {bounds : ℤ × ℤ} (hparts : parts.before = '*' :: tail)
    (h : boundsOf numerals token parts step low high = .ok bounds) :
    bounds = ((low : ℤ), (high : ℤ)) := by
  unfold boundsOf at h
  rw [hparts] at h
  split at h
  · rw [Except.ok.injEq] at h
    exact h.symm
  · split at h
    · have hdash : '-' ≠ '*' := by decide
      obtain ⟨first, hfirst⟩ := partition_star hdash tail
      obtain ⟨start, hstart, -⟩ := Except.bind_ok_iff.1 h
      rw [hfirst] at hstart
      exact absurd hstart (numberOf_star first)
    · obtain ⟨start, hstart, -⟩ := Except.bind_ok_iff.1 h
      exact absurd hstart (numberOf_star tail)

end Star

/-! ## What a field holds -/

section Field

variable {numerals : Numerals} {low high : ℕ}

/-- What is read of a token that is taken: what it steps by, and the two values it names. -/
structure Taken (numerals : Numerals) (low high : ℕ) (token : List Char) (start stop step : ℤ) :
    Prop where
  stepped : stepOf numerals (partition '/' token) = .ok step
  advances : 1 ≤ step
  bounded : boundsOf numerals token (partition '/' token) step low high = .ok (start, stop)
  lowest : low ≤ start
  ordered : start ≤ stop
  highest : stop ≤ high

theorem valuesOf_ok_iff {token : List Char} {values : Finset (Fin (high + 1))} :
    valuesOf numerals token low high = .ok values ↔ ∃ start stop step,
      Taken numerals low high token start stop step ∧ values = range high start stop step := by
  constructor
  · intro h
    unfold valuesOf at h
    rcases Except.bind_ok_iff.1 h with ⟨step, hstep, h⟩
    rcases Except.check_ok_iff.1 h with ⟨hpos, h⟩
    rcases Except.bind_ok_iff.1 h with ⟨⟨start, stop⟩, hbounds, h⟩
    rcases Except.check_ok_iff.1 h with ⟨hinside, h⟩
    dsimp only at hinside
    exact ⟨start, stop, step, ⟨hstep, by omega, hbounds, by omega, by omega, by omega⟩,
      (Except.ok.inj h).symm⟩
  · rintro ⟨start, stop, step, htaken, rfl⟩
    have hpos := htaken.advances
    have hlow := htaken.lowest
    have hle := htaken.ordered
    have hhigh := htaken.highest
    have hadvances : ¬ step ≤ 0 := by omega
    have hinside : ¬ (start < (low : ℤ) ∨ (high : ℤ) < stop ∨ stop < start) := by omega
    unfold valuesOf
    apply Except.bind_ok_iff.2
    refine ⟨step, htaken.stepped, Except.check_ok_iff.2 ⟨hadvances, Except.bind_ok_iff.2 ?_⟩⟩
    exact ⟨(start, stop), htaken.bounded, Except.check_ok_iff.2 ⟨hinside, rfl⟩⟩

theorem mem_range {start stop step : ℤ} {v : Fin (high + 1)} :
    v ∈ range high start stop step ↔
      start ≤ v.val ∧ (v.val : ℤ) ≤ stop ∧ step ∣ v.val - start := by
  simp [range]

theorem valuesOf_low {token : List Char} {values : Finset (Fin (high + 1))}
    (h : valuesOf numerals token low high = .ok values) : ∀ v ∈ values, low ≤ v.val := by
  obtain ⟨start, stop, step, htaken, rfl⟩ := valuesOf_ok_iff.1 h
  intro v hv
  have hlow := htaken.lowest
  have hstart := (mem_range.1 hv).1
  omega

theorem valuesOf_nonempty {token : List Char} {values : Finset (Fin (high + 1))}
    (h : valuesOf numerals token low high = .ok values) : values.Nonempty := by
  obtain ⟨start, stop, step, htaken, rfl⟩ := valuesOf_ok_iff.1 h
  have hlow := htaken.lowest
  have hle := htaken.ordered
  have hhigh := htaken.highest
  refine ⟨⟨start.toNat, by omega⟩, mem_range.2 ?_⟩
  have hcast : ((start.toNat : ℕ) : ℤ) = start := Int.toNat_of_nonneg (by omega)
  simp only [hcast]
  exact ⟨le_rfl, hle, by simp⟩

/-- A token that begins with a star names the first value of its field. -/
theorem valuesOf_star {rest : List Char} {values : Finset (Fin (high + 1))}
    (h : valuesOf numerals ('*' :: rest) low high = .ok values) (hlow : low < high + 1) :
    ⟨low, hlow⟩ ∈ values := by
  obtain ⟨start, stop, step, htaken, rfl⟩ := valuesOf_ok_iff.1 h
  have hbounds := htaken.bounded
  have hslash : '/' ≠ '*' := by decide
  obtain ⟨tail, htail⟩ := partition_star hslash rest
  cases boundsOf_star htail hbounds
  rw [mem_range]
  refine ⟨le_rfl, ?_, by simp⟩
  show (low : ℤ) ≤ high
  omega

/-- The values of a field are those of its tokens, every one of which is taken. -/
theorem foldlM_update {tokens : List (List Char)} {values found : Finset (Fin (high + 1))}
    (h : tokens.foldlM (update numerals low high) values = .ok found) :
    (∀ token ∈ tokens, ∃ part, valuesOf numerals token low high = .ok part) ∧
      ∀ v, v ∈ found ↔ v ∈ values ∨
        ∃ token ∈ tokens, ∃ part, valuesOf numerals token low high = .ok part ∧ v ∈ part := by
  induction tokens generalizing values with
  | nil =>
      rw [List.foldlM_nil, Except.pure_ok_iff] at h
      subst h
      simp
  | cons token rest ih =>
      rw [List.foldlM_cons] at h
      obtain ⟨middle, hmiddle, hrest⟩ := Except.bind_ok_iff.1 h
      obtain ⟨part, hpart, hmiddle⟩ := Except.bind_ok_iff.1 hmiddle
      rw [Except.pure_ok_iff] at hmiddle
      subst hmiddle
      obtain ⟨htaken, hmem⟩ := ih hrest
      constructor
      · intro t ht
        rcases List.mem_cons.1 ht with rfl | ht
        · exact ⟨part, hpart⟩
        · exact htaken t ht
      · intro v
        rw [hmem, Finset.mem_union]
        constructor
        · rintro ((hv | hv) | ⟨t, ht, hv⟩)
          · exact Or.inl hv
          · exact Or.inr ⟨token, List.mem_cons_self, part, hpart, hv⟩
          · exact Or.inr ⟨t, List.mem_cons_of_mem _ ht, hv⟩
        · rintro (hv | ⟨t, ht, part', hpart', hv⟩)
          · exact Or.inl (Or.inl hv)
          · rcases List.mem_cons.1 ht with rfl | ht
            · rw [hpart, Except.ok.injEq] at hpart'
              exact Or.inl (Or.inr (hpart' ▸ hv))
            · exact Or.inr ⟨t, ht, part', hpart', hv⟩

theorem fieldOf_low {spec : List Char} {values : Finset (Fin (high + 1))}
    (h : fieldOf numerals spec low high = .ok values) : ∀ v ∈ values, low ≤ v.val := by
  intro v hv
  rcases ((foldlM_update h).2 v).1 hv with hv | ⟨token, -, part, hpart, hv⟩
  · simp at hv
  · exact valuesOf_low hpart v hv

theorem fieldOf_nonempty {spec : List Char} {values : Finset (Fin (high + 1))}
    (h : fieldOf numerals spec low high = .ok values) : values.Nonempty := by
  obtain ⟨token, htoken⟩ := List.exists_mem_of_ne_nil _ (List.splitOn_ne_nil ',' spec)
  obtain ⟨htaken, hmem⟩ := foldlM_update h
  obtain ⟨part, hpart⟩ := htaken token htoken
  obtain ⟨v, hv⟩ := valuesOf_nonempty hpart
  exact ⟨v, (hmem v).2 (Or.inr ⟨token, htoken, part, hpart, hv⟩)⟩

/-- A field written as a star names the first value it can. -/
theorem fieldOf_starred {spec : List Char} {values : Finset (Fin (high + 1))}
    (h : fieldOf numerals spec low high = .ok values) (hstar : starred spec = true)
    (hlow : low < high + 1) : ⟨low, hlow⟩ ∈ values := by
  obtain ⟨rest, rfl⟩ : ∃ rest, spec = '*' :: rest := by
    unfold starred at hstar
    cases spec with
    | nil => simp at hstar
    | cons c rest =>
        simp only [List.head?_cons, Option.some.injEq, decide_eq_true_eq] at hstar
        exact ⟨rest, by rw [hstar]⟩
  obtain ⟨first, more, hsplit⟩ := List.exists_cons_of_ne_nil (List.splitOn_ne_nil ',' rest)
  have htokens : ('*' :: rest).splitOn ',' = ('*' :: first) :: more := by
    rw [List.splitOn_cons_eq_if_modifyHead, if_neg (by decide), hsplit, List.modifyHead_cons]
  obtain ⟨htaken, hmem⟩ := foldlM_update h
  have hfirst : ('*' :: first) ∈ ('*' :: rest).splitOn ',' := by
    rw [htokens]
    exact List.mem_cons_self
  obtain ⟨part, hpart⟩ := htaken _ hfirst
  exact (hmem _).2 (Or.inr ⟨_, hfirst, part, hpart, valuesOf_star hpart hlow⟩)

end Field

/-! ## What a schedule holds -/

/-- A schedule the parser came back with. -/
structure Schedule.Parsed (c : Schedule) : Prop where
  minutes : c.minutes.Nonempty
  hours : c.hours.Nonempty
  months : c.months.Nonempty
  weekdays : c.weekdays.Nonempty
  day_ge : ∀ day ∈ c.days, 1 ≤ day.val
  month_ge : ∀ month ∈ c.months, 1 ≤ month.val
  weekday_lt : ∀ weekday ∈ c.weekdays, weekday.val < 7
  dayStarred : c.dayStarred = true → 1 ∈ c.days
  weekdayStarred : c.weekdayStarred = true → 0 ∈ c.weekdays
  reachable : c.weekdayStarred = true →
    ∃ month ∈ c.months, ∃ day ∈ c.days, day.val ≤ monthLengths.getD (month.val - 1) 0

theorem sunday_lt {weekdays : Finset (Fin 8)} : ∀ v ∈ sunday weekdays, v.val < 7 := by
  revert weekdays
  decide +kernel

theorem sunday_nonempty {weekdays : Finset (Fin 8)} (h : weekdays.Nonempty) :
    (sunday weekdays).Nonempty := by
  unfold sunday
  split
  · exact ⟨0, by simp⟩
  · exact h

theorem zero_mem_sunday {weekdays : Finset (Fin 8)} (h : 0 ∈ weekdays) : 0 ∈ sunday weekdays := by
  unfold sunday
  split
  · simp
  · exact h

theorem parse_parsed {numerals : Numerals} {expression : String} {c : Schedule}
    (h : parse numerals expression = .ok c) : c.Parsed := by
  unfold parse at h
  split at h
  · rename_i minute hour day month weekday _
    obtain ⟨minutes, hminutes, h⟩ := Except.bind_ok_iff.1 h
    obtain ⟨hours, hhours, h⟩ := Except.bind_ok_iff.1 h
    obtain ⟨days, hdays, h⟩ := Except.bind_ok_iff.1 h
    obtain ⟨months, hmonths, h⟩ := Except.bind_ok_iff.1 h
    obtain ⟨weekdays, hweekdays, h⟩ := Except.bind_ok_iff.1 h
    obtain ⟨hreachable, h⟩ := Except.check_ok_iff.1 h
    rw [Except.ok.injEq] at h
    subst h
    exact {
      minutes := fieldOf_nonempty hminutes
      hours := fieldOf_nonempty hhours
      months := fieldOf_nonempty hmonths
      weekdays := sunday_nonempty (fieldOf_nonempty hweekdays)
      day_ge := fieldOf_low hdays
      month_ge := fieldOf_low hmonths
      weekday_lt := sunday_lt
      dayStarred := fun hstar => fieldOf_starred hdays hstar (by decide)
      weekdayStarred := fun hstar =>
        zero_mem_sunday (fieldOf_starred hweekdays hstar (by decide))
      reachable := fun hstar => by
        have hweekday : starred weekday = true := hstar
        rw [hweekday] at hreachable
        simpa [Cron.reachable] using hreachable }
  · cases h

end Queuefy.Cron
