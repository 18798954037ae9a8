import Queuefy.Cron.Search

/-! # The horizon of the search

Every expression the parser takes asks for a date that comes back, on a day of the week it names:
the first of a month it names, or, where the weekday field was written as a star, a day that some
year of a month it names has. Forty years always hold one, so the search answers within them.
-/

namespace Queuefy.Cron

open Gregorian

/-! ## Dates on a day of the week -/

theorem take_months : ∀ i < 12, ∀ b : Bool, ((months b).take i).sum =
    ((months false).take i).sum + if 2 ≤ i ∧ b = true then 1 else 0 := by
  decide

theorem month_length : ∀ i < 12, ∀ b : Bool, ∀ day ≤ monthLengths.getD i 0,
    ¬ (i = 1 ∧ day = 29) → ∃ length ∈ (months b)[i]?, day ≤ length := by
  decide

theorem Date.number_mk (years month day : ℕ) : Date.number ⟨years + 1, month, day⟩ =
    daysIn years + ((months (leap (years + 1))).take (month - 1)).sum + (day - 1) := rfl

/-- A date some year has falls on any day of the week in one of any forty years running. -/
theorem exists_date (years month day weekday : ℕ) (hweekday : weekday < 7) (hmonth : 1 ≤ month)
    (hmonths : month ≤ 12) (hday : 1 ≤ day) (hlast : day ≤ monthLengths.getD (month - 1) 0) :
    ∃ k < 40, (⟨years + k + 1, month, day⟩ : Date).Real ∧
      Gregorian.weekday (Date.number ⟨years + k + 1, month, day⟩) = weekday := by
  by_cases hleap : month = 2 ∧ day = 29
  · obtain ⟨rfl, rfl⟩ := hleap
    obtain ⟨k, hk, hleap, hbegins⟩ := exists_leap_day years weekday hweekday
    refine ⟨k, hk, ⟨Nat.succ_pos _, hmonth, hday, 29, ?_, le_rfl⟩, ?_⟩
    · rw [hleap]
      rfl
    · rw [Date.number_mk, hleap, Gregorian.weekday]
      exact hbegins
  · have hreal : ∀ y, (⟨y + 1, month, day⟩ : Date).Real := by
      intro y
      obtain ⟨length, hlength, hle⟩ :=
        month_length (month - 1) (by omega) (leap (y + 1)) day hlast (by omega)
      exact ⟨Nat.succ_pos y, hmonth, hday, length, hlength, hle⟩
    have hoffset := fun y => take_months (month - 1) (by omega) (leap (y + 1))
    set offset := ((months false).take (month - 1)).sum with hoff
    by_cases hearly : month ≤ 2
    · obtain ⟨k, hk, hbegins⟩ := exists_year_begins years (offset + day) weekday hweekday
      refine ⟨k, by omega, hreal _, ?_⟩
      rw [Date.number_mk, hoffset, if_neg (by omega), Gregorian.weekday]
      omega
    · -- past the leap day a date is so many days before the year after begins
      obtain ⟨k, hk, hbegins⟩ := exists_year_begins (years + 1) (offset + day + 6) weekday hweekday
      refine ⟨k, by omega, hreal _, ?_⟩
      have hsucc := daysIn_succ (years + k)
      have hnext : years + 1 + k = years + k + 1 := by omega
      rw [hnext, hsucc, yearLength] at hbegins
      rw [Date.number_mk, hoffset, Gregorian.weekday]
      split at hbegins
      · rename_i htrue
        rw [if_pos ⟨by omega, htrue⟩]
        omega
      · rename_i hfalse
        rw [if_neg fun h => hfalse h.2]
        omega

/-! ## Slots -/

theorem names_iff {bound : ℕ} {values : Finset (Fin bound)} {v : Fin bound} (h : v ∈ values) :
    Names values v.val :=
  ⟨v, h, rfl⟩

namespace Schedule

variable {c : Schedule}

theorem matchesDay_iff {t : Instant} : c.matchesDay t = true ↔
    Names c.months t.date.month ∧
      (if c.dayStarred = true ∨ c.weekdayStarred = true
        then Names c.days t.date.day ∧ Names c.weekdays t.weekday
        else Names c.days t.date.day ∨ Names c.weekdays t.weekday) := by
  unfold matchesDay onDay
  by_cases hmonth : Names c.months t.date.month
  · by_cases hstar : c.dayStarred = true ∨ c.weekdayStarred = true
    · simp [hmonth, hstar]
    · simp [hmonth, hstar]
  · simp [hmonth]

/-- A parsed schedule matches every day of one date of the calendar that falls on one day of the
week. -/
theorem Parsed.exists_match (h : c.Parsed) : ∃ month day weekday, 1 ≤ month ∧ month ≤ 12 ∧
    1 ≤ day ∧ day ≤ monthLengths.getD (month - 1) 0 ∧ weekday < 7 ∧
      ∀ t : Instant, t.date.month = month → t.date.day = day → t.weekday = weekday →
        c.matchesDay t = true := by
  have hmonths : ∀ month ∈ c.months, month.val ≤ 12 := fun month _ => by omega
  by_cases hstar : c.weekdayStarred = true
  · obtain ⟨month, hmonth, day, hday, hlast⟩ := h.reachable hstar
    refine ⟨month, day, 0, h.month_ge month hmonth, hmonths month hmonth, h.day_ge day hday, hlast,
      by decide, fun t htmonth htday htweekday => ?_⟩
    rw [matchesDay_iff, if_pos (Or.inr hstar), htmonth, htday, htweekday]
    exact ⟨names_iff hmonth, names_iff hday, names_iff (h.weekdayStarred hstar)⟩
  · obtain ⟨month, hmonth⟩ := h.months
    obtain ⟨weekday, hweekday⟩ := h.weekdays
    have hfirst : ∀ i < 12, 1 ≤ monthLengths.getD i 0 := by decide
    have hge := h.month_ge month hmonth
    have hle := hmonths month hmonth
    refine ⟨month, 1, weekday, hge, hle, le_rfl, hfirst _ (by omega), h.weekday_lt weekday hweekday,
      fun t htmonth htday htweekday => ?_⟩
    rw [matchesDay_iff, htmonth, htday, htweekday]
    refine ⟨names_iff hmonth, ?_⟩
    split
    · rename_i hday
      exact ⟨names_iff (h.dayStarred (hday.resolve_right hstar)), names_iff hweekday⟩
    · exact Or.inr (names_iff hweekday)

theorem Parsed.exists_slot (h : c.Parsed) {first : Instant} (haligned : first.Aligned)
    (hyear : yearsBefore first.day + 41 ≤ 9999) :
    ∃ t, c.Slot t ∧ first ≤ t ∧ t.day < first.day + horizon := by
  obtain ⟨month, day, weekday, hmonth, hmonths, hday, hlast, hweekday, hmatch⟩ := h.exists_match
  obtain ⟨k, hk, hreal, hfalls⟩ :=
    exists_date (yearsBefore first.day + 1) month day weekday hweekday hmonth hmonths hday hlast
  obtain ⟨hour, hhour⟩ := h.hours
  obtain ⟨minute, hminute⟩ := h.minutes
  obtain ⟨hlow, hhigh⟩ := yearsBefore_spec first.day
  obtain ⟨n, hn⟩ : ∃ n, Date.number ⟨yearsBefore first.day + 1 + k + 1, month, day⟩ = n := ⟨_, rfl⟩
  have hdate := date_number hreal
  rw [hn] at hfalls hdate
  have hyears : yearsBefore n = yearsBefore first.day + 1 + k :=
    Nat.succ_injective (congrArg Date.year hdate)
  obtain ⟨hnlow, hnhigh⟩ := yearsBefore_spec n
  rw [hyears] at hnlow hnhigh
  have hafter : daysIn (yearsBefore first.day + 1) ≤ n :=
    (daysIn_strictMono.monotone (by omega)).trans hnlow
  have hbefore : n < daysIn (yearsBefore first.day + 41) :=
    lt_of_lt_of_le hnhigh (daysIn_strictMono.monotone (by omega))
  have hspan := daysIn_add_le (yearsBefore first.day) 41
  have hheld : daysIn (yearsBefore first.day + 41) ≤ daysHeld :=
    daysIn_strictMono.monotone hyear
  obtain ⟨t, htaligned, htday, hthour, htminute⟩ :=
    Instant.exists_minute (hbefore.trans_le hheld) hour minute
  refine ⟨t, ⟨htaligned, ?_, hthour ▸ hhour, htminute ▸ hminute⟩, ?_, ?_⟩
  · apply hmatch
    · rw [Instant.date, htday, hdate]
    · rw [Instant.date, htday, hdate]
    · rw [Instant.weekday, htday, hfalls]
  · rw [haligned.le_iff htaligned, htday]
    exact Or.inl (by omega)
  · rw [htday]
    simp only [horizon]
    omega

end Schedule

theorem exists_isLeast {s : Set Instant} {t : Instant} (ht : t ∈ s) : ∃ u, IsLeast s u := by
  have hne : s.Nonempty := ⟨t, ht⟩
  refine ⟨Function.argminOn Instant.elapsed s hne, Function.argminOn_mem _ _ _, fun u hu => ?_⟩
  exact Instant.le_iff_elapsed.2 (Function.argminOn_le _ _ hu)

/-- The search for an expression the parser took answers within its horizon, from every moment
whose next forty-two years a `datetime` holds. -/
theorem horizon_is_enough {numerals : Numerals} {expression : String} {c : Schedule}
    (hparse : parse numerals expression = .ok c) {m : Instant} (hyear : m.date.year + 42 ≤ 9999) :
    ∃ first found, firstMinute m = some first ∧ nextAfter numerals expression m = .ok found ∧
      found.day < first.day + horizon := by
  obtain ⟨first, hfirst, hday⟩ := firstMinute_of_year (m := m) (by omega)
  obtain ⟨haligned, hfrom⟩ := firstMinute_eq_some hfirst
  have hyears : yearsBefore first.day ≤ m.date.year := by
    have hmono := yearsBefore_mono hday
    have hsucc := yearsBefore_succ m.day
    show _ ≤ yearsBefore m.day + 1
    omega
  obtain ⟨t, hslot, hle, htday⟩ :=
    (parse_parsed hparse).exists_slot haligned (by omega)
  obtain ⟨found, hfound⟩ := exists_isLeast (s := {t | c.Slot t ∧ m < t})
    ⟨hslot, (hfrom t hslot.aligned).1 hle⟩
  have hmono := Instant.day_mono (hfound.2 ⟨hslot, (hfrom t hslot.aligned).1 hle⟩)
  refine ⟨first, found, hfirst, ?_, by omega⟩
  rw [nextAfter_eq_ok hparse]
  exact ⟨hfound, first, hfirst, by omega⟩

/-- Midnight of 2088-03-01, right after the leap day on a Sunday that is followed by the widest
gap. -/
def marchFirst : Instant := ⟨3728937600000000, by decide, by decide⟩

theorem horizon_is_enough_widest : ∃ c, parse .plain "0 0 29 2 */7" = .ok c ∧
    ∃ first found, firstMinute marchFirst = some first ∧
      nextAfter .plain "0 0 29 2 */7" marchFirst = .ok found ∧
        found.day < first.day + horizon := by
  have hyear : marchFirst.date.year + 42 ≤ 9999 := by decide +kernel
  have htaken : (parse .plain "0 0 29 2 */7").toBool = true := by decide +kernel
  cases hparse : parse .plain "0 0 29 2 */7" with
  | error e =>
      rw [hparse] at htaken
      cases htaken
  | ok c => exact ⟨c, rfl, horizon_is_enough hparse hyear⟩

end Queuefy.Cron
