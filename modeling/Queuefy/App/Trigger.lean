import Queuefy.Cron.Search
import Queuefy.Run

/-! # Triggers

What the two triggers of the library have in common: the instant either names is after the one it
was asked about, and stays the answer until it has come.
-/

namespace Queuefy

/-- A trigger that names the same instant until that instant has come. -/
structure Trigger.Steady (trigger : Trigger) : Prop where
  after : ∀ {m due}, trigger.nextAfter m = some due → m < due
  same : ∀ {m m' due}, trigger.nextAfter m = some due → m ≤ m' → m' < due →
    trigger.nextAfter m' = some due

/-- A cron trigger, whose expression was parsed where it was declared. -/
structure CronTrigger where
  numerals : Cron.Numerals
  expression : String
  schedule : Cron.Schedule
  parsed : Cron.parse numerals expression = .ok schedule

def CronTrigger.nextAfter (trigger : CronTrigger) (moment : Instant) : Option Instant :=
  (Cron.nextAfter trigger.numerals trigger.expression moment).toOption

def CronTrigger.trigger (trigger : CronTrigger) : Trigger := ⟨trigger.nextAfter⟩

/-- The triggers of the library. -/
inductive Trigger.Recurring : Trigger → Prop
  | interval (every : Interval) : Trigger.Recurring every.trigger
  | cron (expression : CronTrigger) : Trigger.Recurring expression.trigger

theorem Interval.nextAfter_eq_some {every : Interval} {m due : Instant} :
    every.nextAfter m = some due ↔ due.micro = every.span * (m.micro / every.span + 1) := by
  rw [nextAfter, Instant.plus_eq_some]
  simp [Instant.epoch]

theorem Interval.steady (every : Interval) : every.trigger.Steady where
  after := by
    intro m due h
    rw [trigger, nextAfter_eq_some] at h
    rw [Instant.lt_def, h, Int.mul_comm]
    exact Int.lt_ediv_add_one_mul_self _ every.positive
  same := by
    intro m m' due h hm hlt
    rw [trigger, nextAfter_eq_some] at h ⊢
    rw [Instant.le_def] at hm
    rw [Instant.lt_def, h] at hlt
    have hle : m.micro / every.span ≤ m'.micro / every.span :=
      Int.ediv_le_ediv every.positive hm
    have hge : m'.micro / every.span < m.micro / every.span + 1 := by
      rw [Int.ediv_lt_iff_lt_mul every.positive, Int.mul_comm]
      exact hlt
    have heq : m'.micro / every.span = m.micro / every.span := by omega
    rw [h, heq]

theorem CronTrigger.nextAfter_eq_some {trigger : CronTrigger} {m due : Instant} :
    trigger.nextAfter m = some due ↔
      Cron.nextAfter trigger.numerals trigger.expression m = .ok due := by
  unfold nextAfter
  cases Cron.nextAfter trigger.numerals trigger.expression m with
  | ok found => simp [Except.toOption]
  | error e => simp [Except.toOption]

theorem CronTrigger.steady (expression : CronTrigger) : expression.trigger.Steady where
  after := by
    intro m due h
    rw [trigger, nextAfter_eq_some, Cron.nextAfter_eq_ok expression.parsed] at h
    exact h.1.1.2
  same := by
    intro m m' due h hm hlt
    rw [trigger, nextAfter_eq_some] at h ⊢
    exact Cron.nextAfter_until expression.parsed h hm hlt

theorem Trigger.Recurring.steady {trigger : Trigger} (h : trigger.Recurring) : trigger.Steady := by
  cases h with
  | interval every => exact every.steady
  | cron expression => exact expression.steady

end Queuefy
