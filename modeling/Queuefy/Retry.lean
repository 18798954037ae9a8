import Queuefy.Run

/-! # How long an attempt waits

`delay_for` works out the wait of the attempt that just failed: it grows under the policy of the
run and is held under a ceiling, the jittered policy before the draw and the others after. The
arithmetic is exact, over any ordered field.
-/

namespace Queuefy

variable {K : Type} [Field K] [LinearOrder K]

/-- How many times a wait doubles. -/
def maxDoublings : ℤ := 64

/-- `growth_for`. -/
def growthFor (policy : RetryPolicy) (base : K) (attempt : ℤ) : K :=
  match policy with
  | .fixed => base
  | .linear => base * attempt
  | .exponential | .exponentialJitter => base * ((2 : ℤ) : K) ^ min (attempt - 1) maxDoublings

/-- `delay_for`, with the fraction drawn of the jitter. -/
def delayFor (policy : RetryPolicy) (base : K) (attempt : ℤ) (jitter ceiling draw : K) : K :=
  if policy ≠ .exponentialJitter then min (growthFor policy base attempt) ceiling
  else min (growthFor policy base attempt) (ceiling / (1 + jitter)) * (1 + draw)

variable {policy : RetryPolicy} {base jitter ceiling draw : K} {attempt later : ℤ}

theorem delayFor_of_ne (h : policy ≠ .exponentialJitter) :
    delayFor policy base attempt jitter ceiling draw =
      min (growthFor policy base attempt) ceiling :=
  if_pos h

theorem delayFor_jittered : delayFor .exponentialJitter base attempt jitter ceiling draw =
    min (growthFor .exponentialJitter base attempt) (ceiling / (1 + jitter)) * (1 + draw) :=
  if_neg (not_not.2 rfl)

variable [IsStrictOrderedRing K]

theorem growthFor_nonneg (hbase : 0 ≤ base) (hattempt : 1 ≤ attempt) :
    0 ≤ growthFor policy base attempt := by
  have hcount : (0 : K) ≤ attempt := by exact_mod_cast (by omega : 0 ≤ attempt)
  cases policy with
  | fixed => exact hbase
  | linear => exact mul_nonneg hbase hcount
  | exponential => exact mul_nonneg hbase (zpow_nonneg (by norm_num) _)
  | exponentialJitter => exact mul_nonneg hbase (zpow_nonneg (by norm_num) _)

theorem growthFor_mono (hbase : 0 ≤ base) (h : attempt ≤ later) :
    growthFor policy base attempt ≤ growthFor policy base later := by
  have hcount : (attempt : K) ≤ later := by exact_mod_cast h
  have hdoubled : ((2 : ℤ) : K) ^ min (attempt - 1) maxDoublings ≤
      ((2 : ℤ) : K) ^ min (later - 1) maxDoublings :=
    zpow_le_zpow_right₀ (by norm_num) (min_le_min_right _ (by omega))
  cases policy with
  | fixed => exact le_rfl
  | linear => exact mul_le_mul_of_nonneg_left hcount hbase
  | exponential => exact mul_le_mul_of_nonneg_left hdoubled hbase
  | exponentialJitter => exact mul_le_mul_of_nonneg_left hdoubled hbase

theorem delayFor_nonneg (hbase : 0 ≤ base) (hattempt : 1 ≤ attempt) (hjitter : 0 ≤ jitter)
    (hceiling : 0 ≤ ceiling) (hdraw : 0 ≤ draw) :
    0 ≤ delayFor policy base attempt jitter ceiling draw := by
  have hgrowth : 0 ≤ growthFor policy base attempt := growthFor_nonneg hbase hattempt
  by_cases h : policy = .exponentialJitter
  · subst h
    rw [delayFor_jittered]
    have hheld : 0 ≤ ceiling / (1 + jitter) := div_nonneg hceiling (by linarith)
    exact mul_nonneg (le_min hgrowth hheld) (by linarith)
  · rw [delayFor_of_ne h]
    exact le_min hgrowth hceiling

theorem delayFor_le_ceiling (hjitter : 0 ≤ jitter) (hceiling : 0 ≤ ceiling) (hdraw : 0 ≤ draw)
    (hdrawn : draw ≤ jitter) : delayFor policy base attempt jitter ceiling draw ≤ ceiling := by
  by_cases h : policy = .exponentialJitter
  · subst h
    rw [delayFor_jittered]
    calc min (growthFor .exponentialJitter base attempt) (ceiling / (1 + jitter)) * (1 + draw)
        ≤ ceiling / (1 + jitter) * (1 + draw) :=
          mul_le_mul_of_nonneg_right (min_le_right _ _) (by linarith)
      _ ≤ ceiling / (1 + jitter) * (1 + jitter) :=
          mul_le_mul_of_nonneg_left (by linarith) (div_nonneg hceiling (by linarith))
      _ = ceiling := div_mul_cancel₀ _ (by linarith)
  · rw [delayFor_of_ne h]
    exact min_le_right _ _

theorem delayFor_mono (hbase : 0 ≤ base) (hattempt : 1 ≤ attempt) (hjitter : 0 ≤ jitter)
    (hceiling : 0 ≤ ceiling) {draw' : K} (hdraw : 0 ≤ draw) (h : attempt ≤ later)
    (hdraws : draw ≤ draw') : delayFor policy base attempt jitter ceiling draw ≤
      delayFor policy base later jitter ceiling draw' := by
  have hgrowth : growthFor policy base attempt ≤ growthFor policy base later :=
    growthFor_mono hbase h
  by_cases hpolicy : policy = .exponentialJitter
  · subst hpolicy
    rw [delayFor_jittered, delayFor_jittered]
    have hheld : 0 ≤ ceiling / (1 + jitter) := div_nonneg hceiling (by linarith)
    have hlater : 0 ≤ growthFor .exponentialJitter base later :=
      growthFor_nonneg hbase (hattempt.trans h)
    exact mul_le_mul (min_le_min_right _ hgrowth) (by linarith) (by linarith)
      (le_min hlater hheld)
  · rw [delayFor_of_ne hpolicy, delayFor_of_ne hpolicy]
    exact min_le_min_right _ hgrowth

theorem held_le_delayFor (hbase : 0 ≤ base) (hattempt : 1 ≤ attempt) (hjitter : 0 ≤ jitter)
    (hceiling : 0 ≤ ceiling) (hdraw : 0 ≤ draw) :
    min (growthFor .exponentialJitter base attempt) (ceiling / (1 + jitter)) ≤
      delayFor .exponentialJitter base attempt jitter ceiling draw := by
  have hgrowth : 0 ≤ growthFor .exponentialJitter base attempt :=
    growthFor_nonneg hbase hattempt
  have hheld : 0 ≤ ceiling / (1 + jitter) := div_nonneg hceiling (by linarith)
  rw [delayFor_jittered]
  exact le_mul_of_one_le_right (le_min hgrowth hheld) (by linarith)

/-- A wait lies between nothing and the ceiling; without jitter it never shrinks from one attempt
to a later one; and the draw only adds to a growth the ceiling leaves the whole jitter over. -/
theorem backing_off (hbase : 0 ≤ base) (hattempt : 1 ≤ attempt) (hjitter : 0 ≤ jitter)
    (hceiling : 0 < ceiling) (hdraw : 0 ≤ draw) (hdrawn : draw ≤ jitter) :
    (0 ≤ delayFor policy base attempt jitter ceiling draw ∧
      delayFor policy base attempt jitter ceiling draw ≤ ceiling) ∧
    (policy ≠ .exponentialJitter ∨ jitter = 0 → ∀ later draw', attempt ≤ later → 0 ≤ draw' →
      draw' ≤ jitter → delayFor policy base attempt jitter ceiling draw ≤
        delayFor policy base later jitter ceiling draw') ∧
    (growthFor .exponentialJitter base attempt ≤ ceiling / (1 + jitter) →
      growthFor .exponentialJitter base attempt ≤
        delayFor .exponentialJitter base attempt jitter ceiling draw) ∧
    (ceiling / (1 + jitter) ≤ growthFor .exponentialJitter base attempt →
      ceiling / (1 + jitter) ≤
        delayFor .exponentialJitter base attempt jitter ceiling draw) := by
  have hheld := held_le_delayFor hbase hattempt hjitter hceiling.le hdraw
  refine ⟨⟨delayFor_nonneg hbase hattempt hjitter hceiling.le hdraw,
    delayFor_le_ceiling hjitter hceiling.le hdraw hdrawn⟩, ?_, ?_, ?_⟩
  · rintro hpolicy later draw' hlater hdraw' hdrawn'
    rcases hpolicy with hpolicy | rfl
    · rw [delayFor_of_ne hpolicy, delayFor_of_ne hpolicy]
      exact min_le_min_right _ (growthFor_mono hbase hlater)
    · exact delayFor_mono hbase hattempt hjitter hceiling.le hdraw hlater
        (hdrawn.trans hdraw')
  · intro hgrowth
    rwa [min_eq_left hgrowth] at hheld
  · intro hgrowth
    rwa [min_eq_right hgrowth] at hheld

/-- The third attempt of a base of ten under an hour's ceiling and half of it drawn. -/
theorem backing_off_minutes :
    (0 ≤ delayFor .exponentialJitter (10 : ℚ) 3 (1 / 2) 3600 (1 / 4) ∧
      delayFor .exponentialJitter (10 : ℚ) 3 (1 / 2) 3600 (1 / 4) ≤ 3600) ∧
    (RetryPolicy.exponentialJitter ≠ .exponentialJitter ∨ (1 / 2 : ℚ) = 0 → ∀ later draw',
      3 ≤ later → 0 ≤ draw' → draw' ≤ 1 / 2 →
        delayFor .exponentialJitter (10 : ℚ) 3 (1 / 2) 3600 (1 / 4) ≤
          delayFor .exponentialJitter 10 later (1 / 2) 3600 draw') ∧
    (growthFor .exponentialJitter (10 : ℚ) 3 ≤ 3600 / (1 + 1 / 2) →
      growthFor .exponentialJitter (10 : ℚ) 3 ≤
        delayFor .exponentialJitter 10 3 (1 / 2) 3600 (1 / 4)) ∧
    (3600 / (1 + 1 / 2) ≤ growthFor .exponentialJitter (10 : ℚ) 3 →
      3600 / (1 + 1 / 2) ≤ delayFor .exponentialJitter (10 : ℚ) 3 (1 / 2) 3600 (1 / 4)) :=
  backing_off (by norm_num) (by norm_num) (by norm_num) (by norm_num) (by norm_num) (by norm_num)

/-- Just under the ceiling a draw may leave a run waiting less than it would without jitter. -/
theorem drawn_under_growth :
    growthFor .exponentialJitter (10 : ℚ) 2 ≤ 22 ∧
      delayFor .exponentialJitter (10 : ℚ) 2 (1 / 2) 22 0 <
        growthFor .exponentialJitter 10 2 := by
  decide +kernel

end Queuefy
