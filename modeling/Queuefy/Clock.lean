import Queuefy.Lib.Rounding

/-! # Instants and spans

An instant is the whole microseconds since `EPOCH`, which is the finest a `datetime`
keeps one to, together with the bounds a `datetime` has. Moving one by a span is partial:
what lands outside the bounds is the `OverflowError` of the source. A span is a `timedelta`, also
whole microseconds: what a guard reads of one is its seconds, which is the double nearest to
them, and what a number of seconds comes to is rounded to a microsecond again.
-/

namespace Queuefy

/-- `datetime(1, 1, 1)` in microseconds since the epoch. -/
def earliestSlot : Int := -62135596800000000

/-- `datetime(9999, 12, 31, 23, 59, 59, 999999)` in microseconds since the epoch. -/
def widestSlot : Int := 253402300799999999

theorem earliestSlot_le_widestSlot : earliestSlot ≤ widestSlot := by decide

/-- An aware UTC `datetime`. -/
@[ext] structure Instant where
  micro : Int
  earliest : earliestSlot ≤ micro
  widest : micro ≤ widestSlot
deriving DecidableEq

/-- The error `datetime` arithmetic raises past its range. -/
inductive OverflowError
  | dateValueOutOfRange
deriving DecidableEq

namespace Instant

instance : LinearOrder Instant :=
  LinearOrder.lift' Instant.micro fun _ _ h => Instant.ext h

theorem le_def {a b : Instant} : a ≤ b ↔ a.micro ≤ b.micro := Iff.rfl

theorem lt_def {a b : Instant} : a < b ↔ a.micro < b.micro := Iff.rfl

/-- `moment + span`, the `timedelta` counted in microseconds. -/
def plus (t : Instant) (d : Int) : Option Instant :=
  if h : earliestSlot ≤ t.micro + d ∧ t.micro + d ≤ widestSlot then some ⟨t.micro + d, h.1, h.2⟩
  else none

theorem plus_eq_some {t u : Instant} {d : Int} :
    t.plus d = some u ↔ u.micro = t.micro + d := by
  unfold plus
  split
  · rename_i h
    rw [Option.some.injEq, Instant.ext_iff, eq_comm]
  · rename_i h
    constructor
    · intro hn
      cases hn
    · intro he
      exact (h (he ▸ ⟨u.earliest, u.widest⟩)).elim

theorem plus_eq_none {t : Instant} {d : Int} :
    t.plus d = none ↔ t.micro + d < earliestSlot ∨ widestSlot < t.micro + d := by
  unfold plus
  split
  · rename_i h
    simp only [reduceCtorEq, false_iff]
    omega
  · rename_i h
    simp only [true_iff]
    omega

theorem plus_ne_none {t : Instant} {d : Int} :
    t.plus d ≠ none ↔ earliestSlot ≤ t.micro + d ∧ t.micro + d ≤ widestSlot := by
  rw [ne_eq, plus_eq_none]
  omega

/-- The epoch itself, from which every stamp is counted. -/
def epoch : Instant := ⟨0, by decide, by decide⟩

end Instant

/-- The whole seconds between an instant and the last one a `datetime` holds. -/
def widestWait (now : Instant) : Int := (widestSlot - now.micro) / 1000000

/-- What `waited` lets through at an instant: a span no longer than what is left of the range. -/
def waited (span : Int) (now : Instant) : Prop := span ≤ 1000000 * widestWait now

instance (span : Int) (now : Instant) : Decidable (waited span now) :=
  inferInstanceAs (Decidable (_ ≤ _))

/-! ## Spans -/

/-- A `timedelta`, in microseconds, within the days one holds. -/
@[ext] structure Timedelta where
  micro : Int
  least : -86399999913600000000 ≤ micro
  most : micro ≤ 86399999999999999999
deriving DecidableEq

/-- `span.total_seconds()`. -/
def Timedelta.totalSeconds (span : Timedelta) : ℚ := nearest (span.micro / 1000000 : ℚ)

theorem Timedelta.totalSeconds_nonpos {span : Timedelta} (h : span.micro ≤ 0) :
    span.totalSeconds ≤ 0 := by
  apply nearest_nonpos
  have hcast : (span.micro : ℚ) ≤ 0 := by exact_mod_cast h
  linarith

theorem Timedelta.totalSeconds_neg {span : Timedelta} (h : span.micro < 0) :
    span.totalSeconds < 0 := by
  apply nearest_of_neg
  have hcast : (span.micro : ℚ) < 0 := by exact_mod_cast h
  linarith

/-- The whole part `modf` splits off a number. -/
def wholePart (x : ℚ) : Int := if 0 ≤ x then ⌊x⌋ else ⌈x⌉

/-- `timedelta(seconds=...)`, in microseconds. The whole seconds are counted apart; the rest is a
double by a million, which is a double again before it is rounded to a microsecond. -/
def microseconds (seconds : ℚ) : Int :=
  wholePart seconds * 1000000 +
    halfEven (nearest ((seconds - wholePart seconds) * 1000000))

-- 3.5e-06 is kept a little short of itself, and comes to four microseconds all the same
example : microseconds (8264141345021879 / 2361183241434822606848) = 4 := by decide +kernel

/-- The whole seconds an instant after the epoch may be away from it. -/
def widestSeconds : Int := widestSlot / 1000000

/-- The whole seconds between the first instant a `datetime` holds and an instant. -/
def widestPast (now : Instant) : Int := (now.micro - earliestSlot) / 1000000

theorem wholePart_neg (x : ℚ) : wholePart (-x) = -wholePart x := by
  unfold wholePart
  rcases lt_trichotomy x 0 with hneg | rfl | hpos
  · rw [if_pos (by linarith), if_neg (by linarith), Int.floor_neg]
  · simp
  · rw [if_neg (by linarith), if_pos hpos.le, Int.ceil_neg]

theorem microseconds_neg (x : ℚ) : microseconds (-x) = -microseconds x := by
  have hrest : (-x - wholePart (-x)) * 1000000 = -((x - wholePart x) * 1000000) := by
    rw [wholePart_neg]
    push_cast
    ring
  rw [microseconds, microseconds, hrest, nearest_neg, halfEven_neg, wholePart_neg]
  ring

@[simp] theorem microseconds_intCast (n : Int) : microseconds n = n * 1000000 := by
  have hwhole : wholePart n = n := by simp [wholePart]
  have hzero := halfEven_intCast (K := ℚ) 0
  rw [Int.cast_zero] at hzero
  rw [microseconds, hwhole, sub_self, zero_mul, nearest_zero, hzero, add_zero]

/-- The rest of a second never rounds to less than none or to more than a whole one. -/
theorem rest_bounds {x : ℚ} (h : 0 ≤ x) :
    0 ≤ halfEven (nearest ((x - wholePart x) * 1000000)) ∧
      halfEven (nearest ((x - wholePart x) * 1000000)) ≤ 1000000 := by
  have hwhole : wholePart x = ⌊x⌋ := if_pos h
  have hlow := Int.floor_le x
  have hhigh := (Int.lt_floor_add_one x).le
  have hleast : ((0 : Int) : ℚ) ≤ (x - wholePart x) * 1000000 := by
    rw [hwhole, Int.cast_zero]
    linarith
  have hmost : (x - wholePart x) * 1000000 ≤ ((1000000 : Int) : ℚ) := by
    rw [hwhole]
    push_cast
    linarith
  have hexact : ∀ n : Int, n.natAbs ≤ 2 ^ 53 → nearest (n : ℚ) = n := fun n hn => by
    rw [nearest_intCast, double_of_natAbs_le hn]
  constructor
  · have hkept := nearest_mono hleast
    rw [hexact 0 (by decide)] at hkept
    exact le_halfEven_intCast hkept
  · have hkept := nearest_mono hmost
    rw [hexact 1000000 (by decide)] at hkept
    exact halfEven_le_intCast hkept

theorem microseconds_mono_of_nonneg {x y : ℚ} (hx : 0 ≤ x) (h : x ≤ y) :
    microseconds x ≤ microseconds y := by
  have hy := hx.trans h
  have hxwhole : wholePart x = ⌊x⌋ := if_pos hx
  have hywhole : wholePart y = ⌊y⌋ := if_pos hy
  rcases (Int.floor_mono h).lt_or_eq with hlt | heq
  · have hxrest := (rest_bounds hx).2
    have hyrest := (rest_bounds hy).1
    unfold microseconds
    rw [hxwhole] at hxrest ⊢
    rw [hywhole] at hyrest ⊢
    omega
  · have hsame : wholePart x = wholePart y := by rw [hxwhole, hywhole, heq]
    unfold microseconds
    rw [hsame]
    have hrest : (x - wholePart y) * 1000000 ≤ (y - wholePart y) * 1000000 := by linarith
    have hround := halfEven_mono (nearest_mono hrest)
    omega

theorem microseconds_nonneg {x : ℚ} (h : 0 ≤ x) : 0 ≤ microseconds x := by
  have hzero : microseconds ((0 : Int) : ℚ) = 0 := by rw [microseconds_intCast, zero_mul]
  rw [← hzero]
  exact microseconds_mono_of_nonneg (by simp) (by exact_mod_cast h)

theorem microseconds_mono {x y : ℚ} (h : x ≤ y) : microseconds x ≤ microseconds y := by
  rcases le_or_gt 0 x with hx | hx
  · exact microseconds_mono_of_nonneg hx h
  · have hback := microseconds_neg x
    rcases le_or_gt 0 y with hy | hy
    · have hxnonneg := microseconds_nonneg (x := -x) (by linarith)
      have hynonneg := microseconds_nonneg hy
      omega
    · have hmono := microseconds_mono_of_nonneg (x := -y) (y := -x) (by linarith) (by linarith)
      have hyback := microseconds_neg y
      omega

end Queuefy
