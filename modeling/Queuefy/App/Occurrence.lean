import Queuefy.Calendar
import Queuefy.Lib.Lists

/-! # The key of a slot

`occurrence_key` names one slot of a recurring task by the task and the instant. Two slots never
share a key, and no slot has a longer one than the last instant there is.
-/

namespace Queuefy

open Padded Gregorian

namespace Instant

def second (t : Instant) : ℕ := t.elapsed % minuteSpan / 1000000

def microsecond (t : Instant) : ℕ := t.elapsed % 1000000

/-- What `isoformat` writes after the seconds, the offset of UTC included. -/
def fraction (t : Instant) : List Char :=
  (if t.microsecond = 0 then [] else '.' :: pad 6 t.microsecond) ++ "+00:00".toList

/-- `moment.isoformat()`, the separator between the date and the time given. -/
def isoformat (t : Instant) (separator : Char) : List Char :=
  pad 4 t.date.year ++ '-' :: (pad 2 t.date.month ++ '-' :: (pad 2 t.date.day ++
    separator :: (pad 2 t.hour ++ ':' :: (pad 2 t.minute ++ ':' :: (pad 2 t.second ++
      t.fraction)))))

end Instant

/-- What makes one slot of a recurring task a single run. -/
def occurrenceKey (name : String) (moment : Instant) : String :=
  name ++ "@" ++ String.ofList (moment.isoformat 'T')

/-- The longest key a store keeps. -/
def keyLimit : ℕ := 255

namespace Instant

theorem date_bounds (t : Instant) :
    t.date.year < 10 ^ 4 ∧ t.date.month < 10 ^ 2 ∧ t.date.day < 10 ^ 2 := by
  have hyears : yearsBefore t.day < 9999 := by
    have hlow := (yearsBefore_spec t.day).1
    have hheld : t.day < daysIn 9999 := t.day_lt
    exact daysIn_strictMono.lt_iff_lt.1 (hlow.trans_lt hheld)
  obtain ⟨-, -, -, length, hlength, hday⟩ := date_real t.day
  obtain ⟨hindex, hget⟩ := List.getElem?_eq_some_iff.1 hlength
  have hmonths : ∀ b, (months b).length = 12 := by decide
  have hlengths : ∀ b, ∀ l ∈ months b, l ≤ 31 := by decide
  have hle := hlengths _ length (hget ▸ List.getElem_mem hindex)
  rw [hmonths] at hindex
  refine ⟨?_, ?_, ?_⟩
  · show yearsBefore t.day + 1 < _
    omega
  · show (Gregorian.date t.day).month < _
    omega
  · show (Gregorian.date t.day).day < _
    omega

theorem fraction_injective {t u : Instant} (h : t.fraction = u.fraction) :
    t.microsecond = u.microsecond := by
  have ht : t.microsecond < 10 ^ 6 := Nat.mod_lt _ (by decide)
  have hu : u.microsecond < 10 ^ 6 := Nat.mod_lt _ (by decide)
  have hfraction := List.append_cancel_right h
  by_cases hzero : t.microsecond = 0
  · by_cases hzero' : u.microsecond = 0
    · rw [hzero, hzero']
    · rw [if_pos hzero, if_neg hzero'] at hfraction
      cases hfraction
  · by_cases hzero' : u.microsecond = 0
    · rw [if_neg hzero, if_pos hzero'] at hfraction
      cases hfraction
    · rw [if_neg hzero, if_neg hzero'] at hfraction
      exact pad_injective ht hu (List.cons.inj hfraction).2

theorem isoformat_injective {t u : Instant} {separator : Char}
    (h : t.isoformat separator = u.isoformat separator) : t = u := by
  obtain ⟨hyear, hmonth, hday⟩ := t.date_bounds
  obtain ⟨hyear', hmonth', hday'⟩ := u.date_bounds
  have hsecond : t.second < 10 ^ 2 := by
    simp only [second, minuteSpan]
    omega
  have hsecond' : u.second < 10 ^ 2 := by
    simp only [second, minuteSpan]
    omega
  obtain ⟨hyears, h⟩ := List.append_inj h (by simp)
  obtain ⟨hmonths, h⟩ := List.append_inj (List.cons.inj h).2 (by simp)
  obtain ⟨hdays, h⟩ := List.append_inj (List.cons.inj h).2 (by simp)
  obtain ⟨hhours, h⟩ := List.append_inj (List.cons.inj h).2 (by simp)
  obtain ⟨hminutes, h⟩ := List.append_inj (List.cons.inj h).2 (by simp)
  obtain ⟨hseconds, h⟩ := List.append_inj (List.cons.inj h).2 (by simp)
  have hhour := pad_injective (by omega) (by omega) hhours
  have hminute := pad_injective (by omega) (by omega) hminutes
  have hsec := pad_injective hsecond hsecond' hseconds
  have hmicro := fraction_injective h
  have hdate : t.day = u.day := date_injective (Date.ext
    (pad_injective hyear hyear' hyears) (pad_injective hmonth hmonth' hmonths)
    (pad_injective hday hday' hdays))
  apply ext_elapsed
  rw [t.elapsed_eq, u.elapsed_eq, hdate, hhour, hminute]
  simp only [second, microsecond, minuteSpan] at hsec hmicro ⊢
  omega

theorem at_not_mem_isoformat (t : Instant) : '@' ∉ t.isoformat 'T' := by
  have hpad : ∀ width n, '@' ∉ pad width n := by
    intro width n h
    exact absurd (isDigit_of_mem_pad h) (by decide)
  have hfraction : '@' ∉ t.fraction := by
    unfold fraction
    split
    · decide
    · simp [hpad]
  simp [isoformat, hpad, hfraction]

theorem length_isoformat (t : Instant) (separator : Char) :
    (t.isoformat separator).length ≤ 32 := by
  have hfraction : t.fraction.length ≤ 13 := by
    unfold fraction
    split
    · decide
    · simp
  simp only [isoformat, List.length_append, List.length_cons, length_pad]
  omega

end Instant

/-- Two slots never share a key. -/
theorem occurrenceKey_injective {name name' : String} {slot slot' : Instant}
    (h : occurrenceKey name slot = occurrenceKey name' slot') : name = name' ∧ slot = slot' := by
  have hlist := congrArg String.toList h
  simp only [occurrenceKey, String.toList_append, String.toList_ofList, List.append_assoc] at hlist
  obtain ⟨hname, hslot⟩ :=
    split_at_last slot.at_not_mem_isoformat slot'.at_not_mem_isoformat hlist
  exact ⟨String.toList_injective hname, Instant.isoformat_injective hslot⟩

/-- The last instant there is, which the key of a slot is measured against. -/
def latest : Instant := ⟨widestSlot, earliestSlot_le_widestSlot, le_rfl⟩

example : occurrenceKey "nightly_report" ⟨1785556800000000, by decide, by decide⟩ =
    "nightly_report@2026-08-01T04:00:00+00:00" := by decide +kernel

end Queuefy
