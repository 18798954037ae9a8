import Queuefy.Cron.Parse
import Queuefy.Lib.Lists

/-! # The next slot of an expression

`next_after` goes from day to day and looks for a time only on a day that matches. A slot of an
expression is an instant on a whole minute whose month, day, hour and minute the expression
names; what the search finds is the least one that is after the moment it was asked about, which
is what looking at every minute after the moment would find.
-/

namespace Queuefy.Cron

/-- `value in values`, of a set of small numbers. -/
def Names {bound : ℕ} (values : Finset (Fin bound)) (value : ℕ) : Prop :=
  ∃ v ∈ values, v.val = value

instance {bound : ℕ} (values : Finset (Fin bound)) (value : ℕ) : Decidable (Names values value) :=
  inferInstanceAs (Decidable (∃ v ∈ values, v.val = value))

/-- `sorted(values)`. -/
def sorted {bound : ℕ} (values : Finset (Fin bound)) : List (Fin bound) :=
  (List.finRange bound).filter (· ∈ values)

@[simp] theorem mem_sorted {bound : ℕ} {values : Finset (Fin bound)} {v : Fin bound} :
    v ∈ sorted values ↔ v ∈ values := by
  simp [sorted]

theorem sorted_sortedLT {bound : ℕ} (values : Finset (Fin bound)) : (sorted values).SortedLT :=
  ((List.sortedLT_finRange bound).pairwise.filter _).sortedLT

section Day

variable (moment : Instant) (days : Finset (Fin 32)) (months : Finset (Fin 13))
  (weekdays : Finset (Fin 8)) (dayStarred weekdayStarred : Bool)

/-- The two day fields are joined by an or when neither was written as a star, and by an and when
either was. -/
def onDay : Bool :=
  if Names months moment.date.month then
    let dayMatch := decide (Names days moment.date.day)
    let weekdayMatch := decide (Names weekdays moment.weekday)
    if dayStarred || weekdayStarred then dayMatch && weekdayMatch else dayMatch || weekdayMatch
  else false

end Day

/-- The first minute of an hour that is not before the moment. -/
def minuteOn (moment : Instant) (minutes : Finset (Fin 60)) (hour : Fin 24) : Option Instant :=
  if hour < moment.hour then none
  else ((sorted minutes).find? fun minute =>
    decide (moment.hour < hour ∨ moment.minute ≤ minute)).map fun minute =>
      moment.replace hour minute

/-- The first minute of the day that is not before the moment. -/
def timeOn (moment : Instant) (minutes : Finset (Fin 60)) (hours : Finset (Fin 24)) :
    Option Instant :=
  (sorted hours).findSome? (minuteOn moment minutes)

def horizon : ℕ := 41 * 366

/-- What `next_after` raises. -/
inductive Raised
  | cron (error : CronError)
  | overflow (error : OverflowError)
deriving DecidableEq

namespace Schedule

variable (c : Schedule)

@[irreducible] def matchesDay (t : Instant) : Bool :=
  onDay t c.days c.months c.weekdays c.dayStarred c.weekdayStarred

/-- `(candidate + timedelta(days=1)).replace(hour=0, minute=0)`. -/
@[irreducible] def tomorrow (candidate : Instant) : Option Instant :=
  (candidate.plus daySpan).map fun next => next.replace 0 0

/-- The loop of `next_after`, with so many days left to look at. -/
def search (exhausted : Raised) : ℕ → Instant → Except Raised Instant
  | 0, _ => .error exhausted
  | n + 1, candidate =>
      match (if c.matchesDay candidate then timeOn candidate c.minutes c.hours else none) with
      | some found => .ok found
      | none =>
          match tomorrow candidate with
          | none => .error (.overflow .dateValueOutOfRange)
          | some next => search exhausted n next

/-- An instant the expression names. -/
structure Slot (t : Instant) : Prop where
  aligned : t.Aligned
  day : c.matchesDay t = true
  hour : t.hour ∈ c.hours
  minute : t.minute ∈ c.minutes

instance (t : Instant) : Decidable (c.Slot t) :=
  decidable_of_iff (t.Aligned ∧ c.matchesDay t = true ∧ t.hour ∈ c.hours ∧ t.minute ∈ c.minutes)
    ⟨fun h => ⟨h.1, h.2.1, h.2.2.1, h.2.2.2⟩, fun h => ⟨h.1, h.2, h.3, h.4⟩⟩

/-- Every minute one at a time, from the candidate on. -/
def walk : ℕ → Instant → Option Instant
  | 0, _ => none
  | n + 1, candidate =>
      if c.Slot candidate then some candidate else (candidate.plus minuteSpan).bind (walk n)

end Schedule

/-- `(moment + timedelta(minutes=1)).replace(second=0, microsecond=0)`. -/
@[irreducible] def firstMinute (moment : Instant) : Option Instant :=
  (moment.plus minuteSpan).map Instant.floor

def nextAfter (numerals : Numerals) (expression : String) (moment : Instant) :
    Except Raised Instant :=
  match parse numerals expression with
  | .error error => .error (.cron error)
  | .ok c =>
      match firstMinute moment with
      | none => .error (.overflow .dateValueOutOfRange)
      | some candidate =>
          c.search (.cron (.matchesNothing expression horizon moment)) horizon candidate

/-! ## The time of a day -/

section Time

variable {moment t found : Instant} {minutes : Finset (Fin 60)} {hours : Finset (Fin 24)}

theorem minuteOn_isSome (haligned : moment.Aligned) (ht : t.Aligned) (hday : t.day = moment.day)
    (hminute : t.minute ∈ minutes) (hle : moment ≤ t) :
    (minuteOn moment minutes t.hour).isSome = true := by
  rw [haligned.le_iff_of_day ht hday] at hle
  have hnot : ¬ t.hour < moment.hour := by
    rcases hle with hlt | ⟨heq, -⟩
    · exact not_lt.2 hlt.le
    · exact not_lt.2 heq.le
  rw [minuteOn, if_neg hnot, Option.isSome_map, List.find?_isSome]
  refine ⟨t.minute, mem_sorted.2 hminute, ?_⟩
  rw [decide_eq_true_eq]
  exact hle.imp id And.right

theorem timeOn_isSome (haligned : moment.Aligned) (ht : t.Aligned) (hday : t.day = moment.day)
    (hhour : t.hour ∈ hours) (hminute : t.minute ∈ minutes) (hle : moment ≤ t) :
    (timeOn moment minutes hours).isSome = true := by
  rw [timeOn, List.findSome?_isSome_iff]
  exact ⟨t.hour, mem_sorted.2 hhour, minuteOn_isSome haligned ht hday hminute hle⟩

theorem timeOn_isLeast (haligned : moment.Aligned) (h : timeOn moment minutes hours = some found) :
    IsLeast {t | t.Aligned ∧ t.day = moment.day ∧ t.hour ∈ hours ∧ t.minute ∈ minutes ∧
      moment ≤ t} found := by
  obtain ⟨hour, hlook, ⟨hhour, -⟩, hleast⟩ := List.findSome?_isLeast (sorted_sortedLT hours) h
  unfold minuteOn at hlook
  split at hlook
  · cases hlook
  · rename_i hge
    obtain ⟨minute, hfind, rfl⟩ := Option.map_eq_some_iff.1 hlook
    obtain ⟨⟨hminute, hlater⟩, hfirst⟩ :=
      (List.find?_eq_some_isLeast (sorted_sortedLT minutes)).1 hfind
    rw [mem_sorted] at hhour hminute
    rw [decide_eq_true_eq] at hlater
    have hfound : (moment.replace hour minute).Aligned := haligned.replace hour minute
    constructor
    · refine ⟨hfound, by simp, by simpa using hhour, by simpa using hminute, ?_⟩
      rw [haligned.le_iff_of_day hfound (by simp), Instant.replace_hour, Instant.replace_minute]
      rcases lt_or_eq_of_le (not_lt.1 hge) with hlt | heq
      · exact Or.inl hlt
      · exact Or.inr ⟨heq, hlater.resolve_left (by simp [heq])⟩
    · rintro t ⟨ht, hday, hthour, htminute, hle⟩
      rw [hfound.le_iff_of_day ht (by simpa using hday), Instant.replace_hour,
        Instant.replace_minute]
      have hhour_le : hour ≤ t.hour :=
        hleast ⟨mem_sorted.2 hthour, minuteOn_isSome haligned ht hday htminute hle⟩
      rcases lt_or_eq_of_le hhour_le with hlt | rfl
      · exact Or.inl hlt
      · refine Or.inr ⟨rfl, hfirst ⟨mem_sorted.2 htminute, ?_⟩⟩
        rw [haligned.le_iff_of_day ht hday] at hle
        rw [decide_eq_true_eq]
        exact hle.imp id And.right

end Time

/-! ## The days -/

namespace Schedule

variable {c : Schedule} {candidate t found : Instant} {exhausted : Raised}

theorem matchesDay_of_day (h : t.day = candidate.day) :
    c.matchesDay t = c.matchesDay candidate := by
  have hdate : t.date = candidate.date := by rw [Instant.date, h, Instant.date]
  have hweekday : t.weekday = candidate.weekday := by rw [Instant.weekday, h, Instant.weekday]
  unfold matchesDay onDay
  rw [hdate, hweekday]

/-- The instants the search is for. -/
def slotsFrom (c : Schedule) (candidate : Instant) : Set Instant := {t | c.Slot t ∧ candidate ≤ t}

theorem today_isLeast (haligned : candidate.Aligned) (hday : c.matchesDay candidate = true)
    (h : timeOn candidate c.minutes c.hours = some found) :
    IsLeast (c.slotsFrom candidate) found ∧ found.day = candidate.day := by
  obtain ⟨⟨hfound, hsame, hhour, hminute, hle⟩, hleast⟩ := timeOn_isLeast haligned h
  refine ⟨⟨⟨⟨hfound, ?_, hhour, hminute⟩, hle⟩, ?_⟩, hsame⟩
  · rw [matchesDay_of_day hsame]
    exact hday
  · rintro t ⟨ht, hle⟩
    rcases Nat.lt_or_eq_of_le (Instant.day_mono hle) with hlt | heq
    · rw [hfound.le_iff ht.aligned, hsame]
      exact Or.inl hlt
    · exact hleast ⟨ht.aligned, heq.symm, ht.hour, ht.minute, hle⟩

theorem day_lt_of_none (haligned : candidate.Aligned)
    (h : (if c.matchesDay candidate then timeOn candidate c.minutes c.hours else none) = none)
    (ht : t ∈ c.slotsFrom candidate) : candidate.day < t.day := by
  obtain ⟨hslot, hle⟩ := ht
  apply lt_of_le_of_ne (Instant.day_mono hle)
  intro heq
  rw [← matchesDay_of_day heq.symm, hslot.day, if_pos rfl] at h
  have hsome := timeOn_isSome haligned hslot.aligned heq.symm hslot.hour hslot.minute hle
  rw [h] at hsome
  cases hsome

theorem tomorrow_eq_some {next : Instant} (haligned : candidate.Aligned)
    (h : tomorrow candidate = some next) : next.Aligned ∧ next.day = candidate.day + 1 ∧
      ∀ t : Instant, t.Aligned → candidate.day < t.day → next ≤ t := by
  unfold tomorrow at h
  obtain ⟨later, hplus, rfl⟩ := Option.map_eq_some_iff.1 h
  have hlater : later.Aligned := haligned.plus (by decide) hplus
  have hday : later.day = candidate.day + 1 := by
    rw [Instant.day, Instant.plus_elapsed.1 hplus]
    exact Nat.add_div_right _ (by decide)
  refine ⟨hlater.replace 0 0, ?_, fun t ht hlt => ?_⟩
  · rw [Instant.replace_day, hday]
  · rw [(hlater.replace 0 0).le_iff ht]
    simp only [Instant.replace_day, Instant.replace_hour, Instant.replace_minute, hday]
    rcases Nat.lt_or_eq_of_le hlt with hlt | heq
    · exact Or.inl hlt
    · refine Or.inr ⟨heq, ?_⟩
      rcases lt_or_eq_of_le (Fin.zero_le t.hour) with hlt | heq
      · exact Or.inl hlt
      · exact Or.inr ⟨heq, Fin.zero_le _⟩

theorem tomorrow_eq_none (h : tomorrow candidate = none) (t : Instant) : t.day ≤ candidate.day := by
  unfold tomorrow at h
  rw [Option.map_eq_none_iff, Instant.plus_none] at h
  have ht := t.elapsed_lt
  simp only [Instant.day, daysHeld, daySpan] at *
  omega

/-- With no slot left on its day a candidate looks for the same slots as the day after. -/
theorem slotsFrom_tomorrow {next : Instant} (haligned : candidate.Aligned)
    (hnext : tomorrow candidate = some next)
    (hnone : (if c.matchesDay candidate then timeOn candidate c.minutes c.hours else none) = none) :
    c.slotsFrom next = c.slotsFrom candidate := by
  obtain ⟨hnextAligned, hday, hle⟩ := tomorrow_eq_some haligned hnext
  have hcandidate : candidate ≤ next := by
    rw [haligned.le_iff hnextAligned, hday]
    exact Or.inl (Nat.lt_succ_self _)
  ext t
  constructor
  · rintro ⟨ht, hfrom⟩
    exact ⟨ht, hcandidate.trans hfrom⟩
  · intro ht
    exact ⟨ht.1, hle t ht.1.aligned (day_lt_of_none haligned hnone ht)⟩

/-- The search comes back with the least slot from the candidate on, where that slot is on one of
the days it looks at. -/
theorem search_eq_ok {n : ℕ} (haligned : candidate.Aligned) :
    c.search exhausted n candidate = .ok found ↔
      IsLeast (c.slotsFrom candidate) found ∧ found.day < candidate.day + n := by
  induction n generalizing candidate with
  | zero =>
      simp only [search, reduceCtorEq, false_iff, not_and, not_lt, Nat.add_zero]
      rintro ⟨⟨-, hle⟩, -⟩
      exact Instant.day_mono hle
  | succ n ih =>
      rw [search]
      split
      · rename_i today htoday
        rw [Option.ite_none_right_eq_some] at htoday
        obtain ⟨hleast, hday⟩ := today_isLeast haligned htoday.1 htoday.2
        rw [Except.ok.injEq]
        constructor
        · rintro rfl
          exact ⟨hleast, by omega⟩
        · rintro ⟨hother, -⟩
          exact hleast.unique hother
      · rename_i hnone
        split
        · rename_i hlast
          simp only [reduceCtorEq, false_iff, not_and, not_lt]
          rintro ⟨hfound, -⟩
          have hday := day_lt_of_none haligned hnone hfound
          exact absurd (tomorrow_eq_none hlast found) (not_le.2 hday)
        · rename_i next hnext
          obtain ⟨hnextAligned, hday, -⟩ := tomorrow_eq_some haligned hnext
          rw [ih hnextAligned, slotsFrom_tomorrow haligned hnext hnone, hday]
          constructor
          · rintro ⟨hleast, hfound⟩
            exact ⟨hleast, by omega⟩
          · rintro ⟨hleast, hfound⟩
            exact ⟨hleast, by omega⟩

/-! ## Every minute -/

theorem walk_eq_some {k : ℕ} (haligned : candidate.Aligned)
    (hleast : IsLeast (c.slotsFrom candidate) found)
    (hk : found.elapsed = candidate.elapsed + k * minuteSpan) :
    c.walk (k + 1) candidate = some found := by
  induction k generalizing candidate with
  | zero =>
      have heq : candidate = found := by
        apply Instant.ext_elapsed
        omega
      rw [walk, heq, if_pos hleast.1.1]
  | succ k ih =>
      have hlt : candidate < found := by
        rw [Instant.lt_iff_elapsed, hk]
        simp only [minuteSpan]
        omega
      have hnot : ¬ c.Slot candidate := fun hslot =>
        absurd (hleast.2 ⟨hslot, le_rfl⟩) (not_le.2 hlt)
      have hheld := found.elapsed_lt
      obtain ⟨next, hnext⟩ : ∃ next, candidate.plus minuteSpan = some next := by
        rw [← Option.ne_none_iff_exists', ne_eq, Instant.plus_none]
        simp only [minuteSpan] at *
        omega
      have helapsed := Instant.plus_elapsed.1 hnext
      have hnextAligned : next.Aligned := haligned.plus (by decide) hnext
      have hle : next ≤ found := by
        rw [Instant.le_iff_elapsed, helapsed, hk]
        simp only [minuteSpan]
        omega
      rw [walk, if_neg hnot, hnext]
      apply ih hnextAligned
      · refine ⟨⟨hleast.1.1, hle⟩, ?_⟩
        rintro t ⟨ht, hfrom⟩
        apply hleast.2 ⟨ht, le_trans _ hfrom⟩
        rw [Instant.le_iff_elapsed, helapsed]
        omega
      · rw [helapsed, hk]
        ring

end Schedule

/-! ## After a moment -/

theorem firstMinute_eq_some {m first : Instant} (h : firstMinute m = some first) :
    first.Aligned ∧ ∀ t : Instant, t.Aligned → (first ≤ t ↔ m < t) := by
  unfold firstMinute at h
  obtain ⟨later, hplus, rfl⟩ := Option.map_eq_some_iff.1 h
  refine ⟨later.floor_aligned, fun t ht => ?_⟩
  unfold Instant.Aligned at ht
  rw [Instant.le_iff_elapsed, Instant.lt_iff_elapsed, Instant.elapsed_floor,
    Instant.plus_elapsed.1 hplus]
  simp only [minuteSpan] at *
  omega

/-- A moment an instant on a whole minute is after has a minute after it. -/
theorem firstMinute_isSome {m t : Instant} (ht : t.Aligned) (hlt : m < t) :
    ∃ first, firstMinute m = some first := by
  have hheld := t.elapsed_lt
  unfold firstMinute
  unfold Instant.Aligned at ht
  rw [Instant.lt_iff_elapsed] at hlt
  rw [← Option.ne_none_iff_exists', ne_eq, Option.map_eq_none_iff, Instant.plus_none]
  simp only [minuteSpan, daysHeld, daySpan] at *
  omega

/-- Before the last year there is always a minute more, on the same day or the next. -/
theorem firstMinute_of_year {m : Instant} (h : m.date.year < 9999) :
    ∃ first, firstMinute m = some first ∧ first.day ≤ m.day + 1 := by
  have hday : m.day + 1 < daysHeld := by
    have hlt := (Gregorian.yearsBefore_spec m.day).2
    have hyears : Gregorian.yearsBefore m.day + 1 ≤ 9998 := Nat.lt_succ_iff.1 h
    have hle := Gregorian.daysIn_strictMono.monotone hyears
    have hlast : Gregorian.daysIn 9998 + 365 = daysHeld := by decide
    omega
  unfold firstMinute
  cases hplus : m.plus minuteSpan with
  | none =>
      rw [Instant.plus_none] at hplus
      simp only [Instant.day, minuteSpan, daysHeld, daySpan] at *
      omega
  | some later =>
      refine ⟨later.floor, rfl, ?_⟩
      rw [Instant.day, Instant.elapsed_floor, Instant.plus_elapsed.1 hplus]
      simp only [Instant.day, minuteSpan, daySpan]
      omega

theorem nextAfter_eq_ok {numerals : Numerals} {expression : String} {c : Schedule}
    (hparse : parse numerals expression = .ok c) {m found : Instant} :
    nextAfter numerals expression m = .ok found ↔
      IsLeast {t | c.Slot t ∧ m < t} found ∧
        ∃ first, firstMinute m = some first ∧ found.day < first.day + horizon := by
  rw [nextAfter, hparse]
  cases hfirst : firstMinute m with
  | none => simp
  | some first =>
      obtain ⟨haligned, hfrom⟩ := firstMinute_eq_some hfirst
      have hset : c.slotsFrom first = {t | c.Slot t ∧ m < t} := by
        ext t
        exact and_congr_right fun ht => hfrom t ht.aligned
      show c.search _ horizon first = .ok found ↔ _
      rw [Schedule.search_eq_ok haligned, hset]
      simp

theorem parse_of_nextAfter {numerals : Numerals} {expression : String} {m found : Instant}
    (h : nextAfter numerals expression m = .ok found) : ∃ c, parse numerals expression = .ok c := by
  unfold nextAfter at h
  split at h
  · cases h
  · rename_i c hparse
    exact ⟨c, hparse⟩

theorem nextAfter_until {numerals : Numerals} {expression : String} {c : Schedule}
    (hparse : parse numerals expression = .ok c) {m m' found : Instant}
    (h : nextAfter numerals expression m = .ok found) (hm : m ≤ m') (hlt : m' < found) :
    nextAfter numerals expression m' = .ok found := by
  rw [nextAfter_eq_ok hparse] at h ⊢
  obtain ⟨hleast, first, hfirst, hday⟩ := h
  obtain ⟨haligned, hfrom⟩ := firstMinute_eq_some hfirst
  obtain ⟨first', hfirst'⟩ := firstMinute_isSome hleast.1.1.aligned hlt
  obtain ⟨haligned', hfrom'⟩ := firstMinute_eq_some hfirst'
  refine ⟨⟨⟨hleast.1.1, hlt⟩, fun t ht => hleast.2 ⟨ht.1, lt_of_le_of_lt hm ht.2⟩⟩,
    first', hfirst', ?_⟩
  have hlater : first ≤ first' := (hfrom first' haligned').2
    (lt_of_le_of_lt hm ((hfrom' first' haligned').1 le_rfl))
  have hmono := Instant.day_mono hlater
  omega

/-- The search finds the least slot after the moment, which is what every minute looked at in turn
finds; so a later moment never has an earlier answer, and every moment before the answer has the
same one. -/
theorem search_is_plain {numerals : Numerals} {expression : String} {c : Schedule}
    (hparse : parse numerals expression = .ok c) {m found : Instant}
    (h : nextAfter numerals expression m = .ok found) :
    IsLeast {t | c.Slot t ∧ m < t} found ∧
      (∃ first steps, firstMinute m = some first ∧ c.walk steps first = some found) ∧
      (∀ m' found', m ≤ m' → nextAfter numerals expression m' = .ok found' → found ≤ found') ∧
      ∀ m', m ≤ m' → m' < found → nextAfter numerals expression m' = .ok found := by
  obtain ⟨hleast, first, hfirst, hday⟩ := (nextAfter_eq_ok hparse).1 h
  obtain ⟨haligned, hfrom⟩ := firstMinute_eq_some hfirst
  have hfound : found.Aligned := hleast.1.1.aligned
  refine ⟨hleast, ?_, fun m' found' hm h' => ?_, fun m' hm hlt => nextAfter_until hparse h hm hlt⟩
  · have hset : IsLeast (c.slotsFrom first) found := by
      refine ⟨⟨hleast.1.1, (hfrom found hfound).2 hleast.1.2⟩, ?_⟩
      rintro t ⟨ht, hle⟩
      exact hleast.2 ⟨ht, (hfrom t ht.aligned).1 hle⟩
    have hle := Instant.le_iff_elapsed.1 hset.1.2
    refine ⟨first, (found.elapsed - first.elapsed) / minuteSpan + 1, hfirst,
      Schedule.walk_eq_some haligned hset ?_⟩
    unfold Instant.Aligned at *
    simp only [minuteSpan] at *
    omega
  · rw [nextAfter_eq_ok hparse] at h'
    exact hleast.2 ⟨h'.1.1.1, lt_of_le_of_lt hm h'.1.1.2⟩

/-- Ten in the morning of Thursday 2026-01-01, and midnight of the Monday after it. -/
def thursday : Instant := ⟨1767261600000000, by decide, by decide⟩

def monday : Instant := ⟨1767571200000000, by decide, by decide⟩

theorem search_is_plain_monday : ∃ c, parse .plain "0 0 1 * 1" = .ok c ∧
    IsLeast {t | c.Slot t ∧ thursday < t} monday ∧
      ∀ m, thursday ≤ m → m < monday → nextAfter .plain "0 0 1 * 1" m = .ok monday := by
  have hfound : nextAfter .plain "0 0 1 * 1" thursday = .ok monday := by decide +kernel
  obtain ⟨c, hparse⟩ := parse_of_nextAfter hfound
  have hplain := search_is_plain hparse hfound
  exact ⟨c, hparse, hplain.1, hplain.2.2.2⟩

end Queuefy.Cron
