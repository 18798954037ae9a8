import Queuefy.Clock
import Queuefy.Lib.Gregorian

/-! # The fields of an instant

The day an instant falls on, its hour and its minute, and what `datetime.replace` makes of it. An
instant on a whole minute is its day, its hour and its minute, and is ordered by them.
-/

namespace Queuefy

open Gregorian

/-- The microseconds of a minute, of an hour and of a day. -/
def minuteSpan : ℕ := 60000000

def hourSpan : ℕ := 3600000000

def daySpan : ℕ := 86400000000

/-- The days a `datetime` holds. -/
def daysHeld : ℕ := 3652059

namespace Instant

/-- The microseconds since `datetime(1, 1, 1)`. -/
def elapsed (t : Instant) : ℕ := (t.micro - earliestSlot).toNat

theorem micro_eq (t : Instant) : t.micro = t.elapsed + earliestSlot := by
  have hlow := t.earliest
  unfold elapsed
  omega

theorem elapsed_lt (t : Instant) : t.elapsed < daysHeld * daySpan := by
  have hlow := t.earliest
  have hhigh := t.widest
  simp only [earliestSlot, widestSlot] at hlow hhigh
  simp only [elapsed, earliestSlot, daysHeld, daySpan]
  omega

theorem le_iff_elapsed {t u : Instant} : t ≤ u ↔ t.elapsed ≤ u.elapsed := by
  rw [le_def, micro_eq, u.micro_eq]
  omega

theorem lt_iff_elapsed {t u : Instant} : t < u ↔ t.elapsed < u.elapsed := by
  rw [lt_def, micro_eq, u.micro_eq]
  omega

theorem ext_elapsed {t u : Instant} (h : t.elapsed = u.elapsed) : t = u := by
  apply Instant.ext
  rw [micro_eq, u.micro_eq, h]

/-- The instant so many microseconds after `datetime(1, 1, 1)`. -/
def ofElapsed (n : ℕ) (h : n < daysHeld * daySpan) : Instant where
  micro := n + earliestSlot
  earliest := by omega
  widest := by
    simp only [daysHeld, daySpan] at h
    simp only [earliestSlot, widestSlot]
    omega

@[simp] theorem elapsed_ofElapsed {n : ℕ} (h : n < daysHeld * daySpan) :
    (ofElapsed n h).elapsed = n := by
  show (((n : ℤ) + earliestSlot) - earliestSlot).toNat = n
  omega

theorem plus_elapsed {t u : Instant} {d : ℕ} :
    t.plus d = some u ↔ u.elapsed = t.elapsed + d := by
  rw [plus_eq_some, micro_eq, t.micro_eq]
  omega

theorem plus_none {t : Instant} {d : ℕ} :
    t.plus d = none ↔ daysHeld * daySpan ≤ t.elapsed + d := by
  rw [plus_eq_none, micro_eq]
  simp only [daysHeld, daySpan, earliestSlot, widestSlot]
  omega

/-- The day, counted from `datetime(1, 1, 1)`. -/
def day (t : Instant) : ℕ := t.elapsed / daySpan

def hour (t : Instant) : Fin 24 :=
  ⟨t.elapsed % daySpan / hourSpan, by simp only [daySpan, hourSpan]; omega⟩

def minute (t : Instant) : Fin 60 :=
  ⟨t.elapsed % hourSpan / minuteSpan, by simp only [hourSpan, minuteSpan]; omega⟩

theorem day_lt (t : Instant) : t.day < daysHeld :=
  Nat.div_lt_of_lt_mul (by have h := t.elapsed_lt; rwa [Nat.mul_comm] at h)

theorem day_mono {t u : Instant} (h : t ≤ u) : t.day ≤ u.day :=
  Nat.div_le_div_right (le_iff_elapsed.1 h)

/-- The year, the month and the day of the month. -/
def date (t : Instant) : Date := Gregorian.date t.day

/-- `(moment.weekday() + 1) % 7`. -/
def weekday (t : Instant) : ℕ := Gregorian.weekday t.day

/-- Whether the seconds and the microseconds are zero. -/
def Aligned (t : Instant) : Prop := t.elapsed % minuteSpan = 0

instance (t : Instant) : Decidable t.Aligned := inferInstanceAs (Decidable (_ = _))

/-- `moment.replace(second=0, microsecond=0)`. -/
def floor (t : Instant) : Instant :=
  ofElapsed (t.elapsed - t.elapsed % minuteSpan) (by have h := t.elapsed_lt; omega)

/-- `moment.replace(hour=hour, minute=minute)`. -/
def replace (t : Instant) (hour : Fin 24) (minute : Fin 60) : Instant :=
  ofElapsed (t.day * daySpan + hour * hourSpan + minute * minuteSpan + t.elapsed % minuteSpan) (by
    have hday := t.day_lt
    have hhour := hour.isLt
    have hminute := minute.isLt
    simp only [daysHeld, daySpan, hourSpan, minuteSpan] at *
    omega)

/-! ## Instants on a whole minute -/

theorem elapsed_eq (t : Instant) : t.elapsed = t.day * daySpan + t.hour * hourSpan +
    t.minute * minuteSpan + t.elapsed % minuteSpan := by
  simp only [day, hour, minute, daySpan, hourSpan, minuteSpan]
  omega

theorem Aligned.elapsed {t : Instant} (h : t.Aligned) :
    t.elapsed = t.day * daySpan + t.hour * hourSpan + t.minute * minuteSpan := by
  have hfields := t.elapsed_eq
  rwa [h, Nat.add_zero] at hfields

/-- Instants on whole minutes are ordered by their days, then their hours, then their minutes. -/
theorem Aligned.le_iff {t u : Instant} (ht : t.Aligned) (hu : u.Aligned) :
    t ≤ u ↔ t.day < u.day ∨ t.day = u.day ∧ (t.hour < u.hour ∨
      t.hour = u.hour ∧ t.minute ≤ u.minute) := by
  have h := t.hour.isLt
  have h' := u.hour.isLt
  have hm := t.minute.isLt
  have hm' := u.minute.isLt
  rw [le_iff_elapsed, ht.elapsed, hu.elapsed, Fin.lt_def, Fin.ext_iff, Fin.le_def]
  simp only [daySpan, hourSpan, minuteSpan]
  omega

theorem Aligned.le_iff_of_day {t u : Instant} (ht : t.Aligned) (hu : u.Aligned)
    (hday : u.day = t.day) :
    t ≤ u ↔ t.hour < u.hour ∨ t.hour = u.hour ∧ t.minute ≤ u.minute := by
  rw [ht.le_iff hu, hday]
  simp

theorem Aligned.plus {t u : Instant} (h : t.Aligned) {d : ℕ} (hd : d % minuteSpan = 0)
    (hplus : t.plus d = some u) : u.Aligned := by
  unfold Aligned at *
  rw [plus_elapsed.1 hplus, Nat.add_mod, h, hd, Nat.zero_mod]

section Replace

variable (t : Instant) (hour : Fin 24) (minute : Fin 60)

theorem elapsed_replace : (t.replace hour minute).elapsed =
    t.day * daySpan + hour * hourSpan + minute * minuteSpan + t.elapsed % minuteSpan :=
  elapsed_ofElapsed _

@[simp] theorem replace_day : (t.replace hour minute).day = t.day := by
  have hhour := hour.isLt
  have hminute := minute.isLt
  rw [day, elapsed_replace]
  simp only [daySpan, hourSpan, minuteSpan]
  omega

@[simp] theorem replace_hour : (t.replace hour minute).hour = hour := by
  have hhour := hour.isLt
  have hminute := minute.isLt
  rw [Fin.ext_iff]
  show (t.replace _ _).elapsed % _ / _ = _
  rw [elapsed_replace]
  simp only [daySpan, hourSpan, minuteSpan]
  omega

@[simp] theorem replace_minute : (t.replace hour minute).minute = minute := by
  have hhour := hour.isLt
  have hminute := minute.isLt
  rw [Fin.ext_iff]
  show (t.replace _ _).elapsed % _ / _ = _
  rw [elapsed_replace]
  simp only [daySpan, hourSpan, minuteSpan]
  omega

variable {t} in
theorem Aligned.replace (h : t.Aligned) : (t.replace hour minute).Aligned := by
  unfold Aligned at *
  rw [elapsed_replace, h]
  simp only [daySpan, hourSpan, minuteSpan]
  omega

end Replace

/-- Every day has every minute. -/
theorem exists_minute {n : ℕ} (hn : n < daysHeld) (hour : Fin 24) (minute : Fin 60) :
    ∃ t : Instant, t.Aligned ∧ t.day = n ∧ t.hour = hour ∧ t.minute = minute := by
  have hheld : n * daySpan < daysHeld * daySpan := Nat.mul_lt_mul_of_pos_right hn (by decide)
  have hday : (ofElapsed (n * daySpan) hheld).day = n := by
    rw [day, elapsed_ofElapsed]
    exact Nat.mul_div_cancel _ (by decide)
  have haligned : (ofElapsed (n * daySpan) hheld).Aligned := by
    rw [Aligned, elapsed_ofElapsed]
    simp only [daySpan, minuteSpan]
    omega
  exact ⟨(ofElapsed (n * daySpan) hheld).replace hour minute, haligned.replace hour minute,
    by rw [replace_day, hday], by simp, by simp⟩

theorem elapsed_floor (t : Instant) : t.floor.elapsed = t.elapsed - t.elapsed % minuteSpan :=
  elapsed_ofElapsed _

theorem floor_aligned (t : Instant) : t.floor.Aligned := by
  unfold Aligned
  rw [elapsed_floor]
  simp only [minuteSpan]
  omega

end Instant

end Queuefy
