import Mathlib

/-! # The Gregorian calendar

Days are counted from the first of January of year 1, which is day 0 and a Monday. A date is
where a day stands among the whole years before it and the months of its own.
-/

namespace Gregorian

/-- Where a count falls in consecutive blocks of these lengths: the block and the place in it. -/
def locate : List ℕ → ℕ → ℕ × ℕ
  | [], n => (0, n)
  | length :: rest, n =>
      if n < length then (0, n)
      else ((locate rest (n - length)).1 + 1, (locate rest (n - length)).2)

theorem locate_spec {blocks : List ℕ} {n : ℕ} (h : n < blocks.sum) :
    ∃ length, blocks[(locate blocks n).1]? = some length ∧ (locate blocks n).2 < length ∧
      (blocks.take (locate blocks n).1).sum + (locate blocks n).2 = n := by
  induction blocks generalizing n with
  | nil => simp at h
  | cons length rest ih =>
      unfold locate
      split
      · rename_i hlt
        exact ⟨length, rfl, hlt, by simp⟩
      · rename_i hge
        rw [List.sum_cons] at h
        obtain ⟨l, hl, hlt, hsum⟩ := ih (n := n - length) (by omega)
        refine ⟨l, ?_, hlt, ?_⟩
        · rw [List.getElem?_cons_succ]
          exact hl
        · rw [List.take_succ_cons, List.sum_cons]
          omega

theorem locate_unique {blocks : List ℕ} {i k length : ℕ} (hi : blocks[i]? = some length)
    (hk : k < length) : locate blocks ((blocks.take i).sum + k) = (i, k) := by
  induction blocks generalizing i with
  | nil => simp at hi
  | cons first rest ih =>
      cases i with
      | zero =>
          rw [List.getElem?_cons_zero, Option.some.injEq] at hi
          subst hi
          simp [locate, hk]
      | succ i =>
          rw [List.getElem?_cons_succ] at hi
          have hsub : first + (rest.take i).sum + k - first = (rest.take i).sum + k := by omega
          have hge : ¬ first + (rest.take i).sum + k < first := by omega
          rw [List.take_succ_cons, List.sum_cons]
          show (if _ then _ else _) = _
          rw [if_neg hge, hsub, ih hi]

/-! ## Years -/

def leap (year : ℕ) : Bool := year % 4 == 0 && (year % 100 != 0 || year % 400 == 0)

theorem leap_iff {year : ℕ} :
    leap year = true ↔ year % 4 = 0 ∧ (year % 100 ≠ 0 ∨ year % 400 = 0) := by
  simp [leap]

/-- The days of so many whole years. -/
def daysIn (years : ℕ) : ℕ := 365 * years + years / 4 - years / 100 + years / 400

def yearLength (year : ℕ) : ℕ := if leap year then 366 else 365

theorem daysIn_succ (years : ℕ) : daysIn (years + 1) = daysIn years + yearLength (years + 1) := by
  have hfew : years / 100 ≤ years / 4 := Nat.div_le_div_left (by decide) (by decide)
  have hcentury : 100 ∣ years + 1 → 4 ∣ years + 1 := fun h => Dvd.dvd.trans (by decide) h
  have hcycle : 400 ∣ years + 1 → 100 ∣ years + 1 := fun h => Dvd.dvd.trans (by decide) h
  simp only [daysIn, yearLength, leap_iff, ← Nat.dvd_iff_mod_eq_zero, ne_eq, Nat.succ_div]
  generalize years / 100 = c at *
  generalize years / 4 = q at *
  by_cases h4 : 4 ∣ years + 1
  · by_cases h100 : 100 ∣ years + 1
    · by_cases h400 : 400 ∣ years + 1
      · simp only [h4, h100, h400, if_true, not_true, false_or, and_self]
        omega
      · simp only [h4, h100, h400, if_true, if_false, not_true, false_or, and_false]
        omega
    · simp only [h4, h100, mt hcycle h100, if_true, if_false, not_false_iff, true_or, and_self]
      omega
  · simp only [h4, mt hcentury h4, mt (hcentury ∘ hcycle) h4, if_false, false_and]
    omega

theorem yearLength_ge (year : ℕ) : 365 ≤ yearLength year := by
  unfold yearLength
  split <;> omega

theorem yearLength_le (year : ℕ) : yearLength year ≤ 366 := by
  unfold yearLength
  split <;> omega

theorem daysIn_strictMono : StrictMono daysIn := by
  apply strictMono_nat_of_lt_succ
  intro years
  have hlen := yearLength_ge (years + 1)
  rw [daysIn_succ]
  omega

theorem daysIn_add_le (years n : ℕ) : daysIn (years + n) ≤ daysIn years + 366 * n := by
  induction n with
  | zero => simp
  | succ n ih =>
      have hlen := yearLength_le (years + n + 1)
      rw [← Nat.add_assoc, daysIn_succ]
      omega

/-- The whole years before a day: the cycles of four hundred, of a hundred and of four before it,
and the years of its own cycle. -/
def yearsBefore (n : ℕ) : ℕ :=
  let inCycle := n % 146097
  let century := min (inCycle / 36524) 3
  let inCentury := inCycle - 36524 * century
  400 * (n / 146097) + 100 * century + 4 * (inCentury / 1461)
    + min (inCentury % 1461 / 365) 3

theorem daysIn_cycles {a b c e : ℕ} (hb : b ≤ 3) (hc : c ≤ 24) (he : e ≤ 3) :
    daysIn (400 * a + 100 * b + 4 * c + e) = 146097 * a + 36524 * b + 1461 * c + 365 * e := by
  unfold daysIn
  omega

theorem yearsBefore_spec (n : ℕ) :
    daysIn (yearsBefore n) ≤ n ∧ n < daysIn (yearsBefore n + 1) := by
  rw [daysIn_succ]
  unfold yearsBefore
  set b := min (n % 146097 / 36524) 3 with hb
  set r := n % 146097 - 36524 * b with hr
  set e := min (r % 1461 / 365) 3 with he
  have hb3 : b ≤ 3 := by omega
  have hr' : r < 36524 ∨ b = 3 ∧ r ≤ 36524 := by omega
  have hc : r / 1461 ≤ 24 := by omega
  have he3 : e ≤ 3 := by omega
  show daysIn (400 * (n / 146097) + 100 * b + 4 * (r / 1461) + e) ≤ n ∧
    n < daysIn (400 * (n / 146097) + 100 * b + 4 * (r / 1461) + e) +
      yearLength (400 * (n / 146097) + 100 * b + 4 * (r / 1461) + e + 1)
  rw [daysIn_cycles hb3 hc he3]
  constructor
  · omega
  · have hlen := yearLength_ge (400 * (n / 146097) + 100 * b + 4 * (r / 1461) + e + 1)
    by_cases hlast : e = 3 ∧ r % 1461 = 1460
    · -- the last day of a cycle of four years is there only when its year is a leap year
      have hleap : leap (400 * (n / 146097) + 100 * b + 4 * (r / 1461) + e + 1) = true := by
        rw [leap_iff]
        omega
      rw [yearLength, if_pos hleap]
      omega
    · omega

theorem yearsBefore_unique {n years : ℕ} (hlow : daysIn years ≤ n)
    (hhigh : n < daysIn (years + 1)) : yearsBefore n = years := by
  obtain ⟨hlow', hhigh'⟩ := yearsBefore_spec n
  have hle := daysIn_strictMono.lt_iff_lt.1 (lt_of_le_of_lt hlow hhigh')
  have hge := daysIn_strictMono.lt_iff_lt.1 (lt_of_le_of_lt hlow' hhigh)
  omega

theorem yearsBefore_mono : Monotone yearsBefore := by
  intro m n hmn
  have hm := (yearsBefore_spec m).1
  have hn := (yearsBefore_spec n).2
  have hlt := daysIn_strictMono.lt_iff_lt.1 (lt_of_le_of_lt (hm.trans hmn) hn)
  omega

theorem yearsBefore_succ (n : ℕ) : yearsBefore (n + 1) ≤ yearsBefore n + 1 := by
  have hn := (yearsBefore_spec n).2
  have hsucc := (yearsBefore_spec (n + 1)).1
  have hlt : daysIn (yearsBefore (n + 1)) < daysIn (yearsBefore n + 2) := by
    have hlen := yearLength_ge (yearsBefore n + 1 + 1)
    have hnext := daysIn_succ (yearsBefore n + 1)
    show _ < daysIn (yearsBefore n + 1 + 1)
    omega
  have hyears := daysIn_strictMono.lt_iff_lt.1 hlt
  omega

/-! ## Dates -/

/-- The months of a year. -/
def months (leap : Bool) : List ℕ :=
  [31, if leap then 29 else 28, 31, 30, 31, 30, 31, 31, 30, 31, 30, 31]

theorem months_sum (year : ℕ) : (months (leap year)).sum = yearLength year := by
  unfold months yearLength
  cases leap year <;> rfl

@[ext] structure Date where
  year : ℕ
  month : ℕ
  day : ℕ
deriving DecidableEq

/-- The date of a day. -/
def date (n : ℕ) : Date :=
  let year := yearsBefore n + 1
  let place := locate (months (leap year)) (n - daysIn (yearsBefore n))
  ⟨year, place.1 + 1, place.2 + 1⟩

/-- The day of a date. -/
def Date.number (d : Date) : ℕ :=
  daysIn (d.year - 1) + ((months (leap d.year)).take (d.month - 1)).sum + (d.day - 1)

/-- A date that is there: the month has the day. -/
structure Date.Real (d : Date) : Prop where
  year : 1 ≤ d.year
  month : 1 ≤ d.month
  first : 1 ≤ d.day
  last : ∃ length, (months (leap d.year))[d.month - 1]? = some length ∧ d.day ≤ length

theorem date_real (n : ℕ) : (date n).Real := by
  obtain ⟨hlow, hhigh⟩ := yearsBefore_spec n
  rw [daysIn_succ, ← months_sum] at hhigh
  have hdays : n - daysIn (yearsBefore n) < (months (leap (yearsBefore n + 1))).sum := by omega
  obtain ⟨length, hlength, hlt, -⟩ := locate_spec hdays
  exact ⟨Nat.succ_pos _, Nat.succ_pos _, Nat.succ_pos _, length, hlength, hlt⟩

theorem number_date (n : ℕ) : (date n).number = n := by
  obtain ⟨hlow, hhigh⟩ := yearsBefore_spec n
  rw [daysIn_succ, ← months_sum] at hhigh
  have hdays : n - daysIn (yearsBefore n) < (months (leap (yearsBefore n + 1))).sum := by omega
  obtain ⟨length, -, -, hsum⟩ := locate_spec hdays
  simp only [Date.number, date, Nat.add_sub_cancel]
  omega

theorem Date.Real.number_lt {d : Date} (h : d.Real) :
    ((months (leap d.year)).take (d.month - 1)).sum + (d.day - 1) < yearLength d.year := by
  obtain ⟨length, hlength, hday⟩ := h.last
  have hsplit : (months (leap d.year)).sum = ((months (leap d.year)).take (d.month - 1)).sum +
      ((months (leap d.year)).drop (d.month - 1)).sum := by
    rw [← List.sum_append, List.take_append_drop]
  have hdrop : length ≤ ((months (leap d.year)).drop (d.month - 1)).sum := by
    apply List.single_le_sum (fun x _ => Nat.zero_le x)
    have hget : ((months (leap d.year)).drop (d.month - 1))[0]? = some length := by
      rw [List.getElem?_drop, Nat.add_zero]
      exact hlength
    exact List.mem_of_getElem? hget
  have hfirst := h.first
  rw [← months_sum]
  omega

theorem date_number {d : Date} (h : d.Real) : date d.number = d := by
  have hlt := h.number_lt
  obtain ⟨length, hlength, hday⟩ := h.last
  have hyear := h.year
  have hmonth := h.month
  have hfirst := h.first
  have hsucc : d.year - 1 + 1 = d.year := by omega
  have hyears : yearsBefore d.number = d.year - 1 := by
    apply yearsBefore_unique
    · unfold Date.number
      omega
    · rw [daysIn_succ, hsucc]
      unfold Date.number
      omega
  have hplace : d.number - daysIn (d.year - 1) =
      ((months (leap d.year)).take (d.month - 1)).sum + (d.day - 1) := by
    unfold Date.number
    omega
  unfold date
  simp only [hyears, hsucc, hplace]
  rw [locate_unique hlength (by omega)]
  ext
  · rfl
  · show d.month - 1 + 1 = d.month
    omega
  · show d.day - 1 + 1 = d.day
    omega

theorem date_injective : Function.Injective date :=
  Function.LeftInverse.injective number_date

/-- The day of the week, Sunday being 0. -/
def weekday (n : ℕ) : ℕ := (n + 1) % 7

/-! ## Gaps

A property that repeats is never further away than its widest gap in one cycle. -/

/-- Whether below `n`, read downwards, no more than `gap` numbers in a row lack the property, of
which `left` may still come. -/
def spaced (p : ℕ → Bool) (gap : ℕ) : ℕ → ℕ → Bool
  | 0, _ => true
  | n + 1, left =>
      if p n then spaced p gap n gap
      else
        match left with
        | 0 => false
        | left + 1 => spaced p gap n left

theorem spaced_spec {p : ℕ → Bool} {gap n left : ℕ} (hleft : left ≤ gap)
    (h : spaced p gap n left = true) : (left < n → ∃ z < n, n ≤ z + left + 1 ∧ p z = true) ∧
      ∀ y, y + gap < n → ∃ k ≤ gap, p (y + k) = true := by
  induction n generalizing left with
  | zero => exact ⟨fun h => absurd h (Nat.not_lt_zero _), fun y h => absurd h (Nat.not_lt_zero _)⟩
  | succ n ih =>
      by_cases hp : p n = true
      · unfold spaced at h
        rw [if_pos hp] at h
        obtain ⟨-, hwindows⟩ := ih le_rfl h
        refine ⟨fun _ => ⟨n, Nat.lt_succ_self n, by omega, hp⟩, fun y hy => ?_⟩
        rcases Nat.lt_or_eq_of_le (Nat.lt_succ_iff.1 hy) with hlt | heq
        · exact hwindows y hlt
        · exact ⟨gap, le_rfl, by rw [heq]; exact hp⟩
      · cases left with
        | zero => simp [spaced, hp] at h
        | succ left =>
            unfold spaced at h
            rw [if_neg hp] at h
            obtain ⟨hlast, hwindows⟩ := ih (by omega) h
            constructor
            · intro hlt
              obtain ⟨z, hz, hnear, hpz⟩ := hlast (by omega)
              exact ⟨z, by omega, by omega, hpz⟩
            · intro y hy
              rcases Nat.lt_or_eq_of_le (Nat.lt_succ_iff.1 hy) with hlt | heq
              · exact hwindows y hlt
              · obtain ⟨z, hz, hnear, hpz⟩ := hlast (by omega)
                have hyz : y + (z - y) = z := by omega
                exact ⟨z - y, by omega, by rw [hyz]; exact hpz⟩

theorem daysIn_cycle (cycles years : ℕ) :
    daysIn (400 * cycles + years) = 146097 * cycles + daysIn years := by
  unfold daysIn
  omega

theorem leap_cycle (cycles year : ℕ) : leap (400 * cycles + year) = leap year := by
  unfold leap
  have h4 : (400 * cycles + year) % 4 = year % 4 := by omega
  have h100 : (400 * cycles + year) % 100 = year % 100 := by omega
  have h400 : (400 * cycles + year) % 400 = year % 400 := by omega
  rw [h4, h100, h400]

/-- Of any twelve years running one begins on the day of the week that is asked for. -/
theorem exists_year_begins (years shift weekday : ℕ) (hweekday : weekday < 7) :
    ∃ k < 12, (daysIn (years + k) + shift) % 7 = weekday := by
  have hspaced : ∀ w < 7, spaced (fun y => daysIn y % 7 == w) 11 412 11 = true := by
    decide +kernel
  have htarget : (weekday + 6 * shift) % 7 < 7 := Nat.mod_lt _ (by decide)
  obtain ⟨k, hk, hbegins⟩ :=
    (spaced_spec le_rfl (hspaced _ htarget)).2 (years % 400) (by omega)
  refine ⟨k, by omega, ?_⟩
  have hyears : years + k = 400 * (years / 400) + (years % 400 + k) := by omega
  rw [beq_iff_eq] at hbegins
  rw [hyears, daysIn_cycle]
  omega

/-- Of any forty years running one has a leap day on the day of the week that is asked for. -/
theorem exists_leap_day (years weekday : ℕ) (hweekday : weekday < 7) :
    ∃ k < 40, leap (years + k + 1) = true ∧ (daysIn (years + k) + 60) % 7 = weekday := by
  have hspaced : ∀ w < 7,
      spaced (fun y => leap (y + 1) && daysIn y % 7 == w) 39 440 39 = true := by
    decide +kernel
  have htarget : (weekday + 3) % 7 < 7 := Nat.mod_lt _ (by decide)
  obtain ⟨k, hk, hday⟩ := (spaced_spec le_rfl (hspaced _ htarget)).2 (years % 400) (by omega)
  rw [Bool.and_eq_true, beq_iff_eq] at hday
  have hyears : years + k = 400 * (years / 400) + (years % 400 + k) := by omega
  refine ⟨k, by omega, ?_, ?_⟩
  · rw [hyears, Nat.add_assoc, leap_cycle]
    exact hday.1
  · rw [hyears, daysIn_cycle]
    omega

end Gregorian
