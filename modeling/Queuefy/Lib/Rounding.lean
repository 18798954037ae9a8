import Mathlib

/-! # Rounding half to even

The whole number nearest to a number, the even one of two that are as near, and the number of
fifty-three binary digits nearest to one, which is what a double keeps of it.
-/

namespace Queuefy

variable {K : Type} [Field K] [LinearOrder K] [FloorRing K]

/-- The whole number nearest to `x`, and the even one half way between two. -/
def halfEven (x : K) : ℤ :=
  if 2 * Int.fract x < 1 ∨ (2 * Int.fract x = 1 ∧ Even ⌊x⌋) then ⌊x⌋ else ⌊x⌋ + 1

theorem floor_le_halfEven (x : K) : ⌊x⌋ ≤ halfEven x := by
  unfold halfEven
  split
  · exact le_rfl
  · exact Int.le_add_one le_rfl

theorem halfEven_le_floor_add_one (x : K) : halfEven x ≤ ⌊x⌋ + 1 := by
  unfold halfEven
  split
  · exact Int.le_add_one le_rfl
  · exact le_rfl

variable [IsStrictOrderedRing K]

@[simp] theorem halfEven_intCast (n : ℤ) : halfEven (n : K) = n := by
  simp [halfEven]

theorem halfEven_mono {x y : K} (h : x ≤ y) : halfEven x ≤ halfEven y := by
  rcases (Int.floor_mono h).lt_or_eq with hlt | heq
  · calc halfEven x ≤ ⌊x⌋ + 1 := halfEven_le_floor_add_one x
      _ ≤ ⌊y⌋ := hlt
      _ ≤ halfEven y := floor_le_halfEven y
  · -- of two numbers between the same whole ones, the lower goes up only where the other does
    have hfract : Int.fract x ≤ Int.fract y := by
      rw [Int.fract, Int.fract, heq]
      exact sub_le_sub_right h _
    unfold halfEven
    rw [← heq]
    split
    · split
      · exact le_rfl
      · exact Int.le_add_one le_rfl
    · rename_i hx
      rw [if_neg]
      intro hy
      apply hx
      rcases hy with hlow | ⟨hhalf, heven⟩
      · exact Or.inl (by linarith)
      · rcases hfract.lt_or_eq with hlt | hsame
        · exact Or.inl (by linarith)
        · exact Or.inr ⟨by rw [hsame, hhalf], heven⟩

theorem halfEven_le_intCast {x : K} {n : ℤ} (h : x ≤ n) : halfEven x ≤ n := by
  simpa using halfEven_mono h

theorem le_halfEven_intCast {x : K} {n : ℤ} (h : n ≤ x) : n ≤ halfEven x := by
  simpa using halfEven_mono h

theorem halfEven_neg (x : K) : halfEven (-x) = -halfEven x := by
  by_cases hwhole : Int.fract x = 0
  · have hx : x = ⌊x⌋ := by
      have hsplit := Int.floor_add_fract x
      rw [hwhole, add_zero] at hsplit
      exact hsplit.symm
    rw [hx, ← Int.cast_neg, halfEven_intCast, halfEven_intCast]
  · -- the numbers on both sides swap, and with them which of the two is even
    have hfloor : ⌊-x⌋ = -(⌊x⌋ + 1) := by
      rw [Int.floor_neg, (Int.ceil_eq_floor_add_one_iff_notMem x).2
        fun ⟨n, hn⟩ => hwhole (by rw [← hn, Int.fract_intCast])]
    have hfract : Int.fract (-x) = 1 - Int.fract x := Int.fract_neg hwhole
    have heven : Even (-(⌊x⌋ + 1)) ↔ ¬ Even ⌊x⌋ := by
      rw [even_neg, Int.even_add_one]
    have hlow : 2 * (1 - Int.fract x) < 1 ↔ 1 < 2 * Int.fract x := by
      constructor <;> intro h <;> linarith
    have hhalf : 2 * (1 - Int.fract x) = 1 ↔ 2 * Int.fract x = 1 := by
      constructor <;> intro h <;> linarith
    simp only [halfEven, hfloor, hfract, heven, hlow, hhalf]
    rcases lt_trichotomy (2 * Int.fract x) 1 with hlt | heq | hgt
    · rw [if_neg (by rintro (h | h) <;> linarith [h]), if_pos (Or.inl hlt)]
      ring
    · by_cases hev : Even ⌊x⌋
      · rw [if_neg (by simp [heq, hev]), if_pos (Or.inr ⟨heq, hev⟩)]
        ring
      · rw [if_pos (Or.inr ⟨heq, hev⟩), if_neg (by simp [heq, hev])]
    · rw [if_pos (Or.inl hgt), if_neg (by rintro (h | h) <;> linarith [h])]

/-- The last of the fifty-three binary digits a double keeps of a number. -/
def lastPlace (x : K) : K := 2 ^ (Int.log 2 |x| - 52)

theorem lastPlace_pos (x : K) : 0 < lastPlace x := by
  unfold lastPlace
  positivity

/-- The number of fifty-three binary digits nearest to `x`, the even one half way between two. -/
def nearest (x : K) : K := halfEven (x / lastPlace x) * lastPlace x

omit [IsStrictOrderedRing K] in
theorem lastPlace_neg (x : K) : lastPlace (-x) = lastPlace x := by
  rw [lastPlace, lastPlace, abs_neg]

theorem nearest_neg (x : K) : nearest (-x) = -nearest x := by
  rw [nearest, nearest, lastPlace_neg, neg_div, halfEven_neg, Int.cast_neg, neg_mul]

@[simp] theorem nearest_zero : nearest (0 : K) = 0 := by
  have hzero := halfEven_intCast (K := K) 0
  rw [Int.cast_zero] at hzero
  rw [nearest, zero_div, hzero, Int.cast_zero, zero_mul]

/-- What is between two powers of two stays there. -/
theorem pow_log_le_nearest {x : K} (h : 0 < x) : 2 ^ Int.log 2 x ≤ nearest x := by
  have hplace := lastPlace_pos x
  have hlog : (2 : K) ^ Int.log 2 x ≤ x := by
    exact_mod_cast Int.zpow_log_le_self (b := 2) (by decide) h
  have hsplit : (2 : K) ^ Int.log 2 x = ((2 ^ 52 : ℤ) : K) * lastPlace x := by
    rw [lastPlace, abs_of_pos h, zpow_sub₀ (by norm_num)]
    push_cast
    field_simp
    norm_num
  have hdigits : ((2 ^ 52 : ℤ) : K) ≤ x / lastPlace x := by
    rw [le_div_iff₀ hplace, ← hsplit]
    exact hlog
  have hround : ((2 ^ 52 : ℤ) : K) ≤ halfEven (x / lastPlace x) := by
    exact_mod_cast le_halfEven_intCast hdigits
  rw [hsplit, nearest]
  exact mul_le_mul_of_nonneg_right hround hplace.le

theorem nearest_le_pow {x : K} (h : 0 < x) : nearest x ≤ 2 ^ (Int.log 2 x + 1) := by
  have hplace := lastPlace_pos x
  have hlog : x ≤ (2 : K) ^ (Int.log 2 x + 1) := by
    exact_mod_cast (Int.lt_zpow_succ_log_self (b := 2) (by decide) x).le
  have hsplit : (2 : K) ^ (Int.log 2 x + 1) = ((2 ^ 53 : ℤ) : K) * lastPlace x := by
    rw [lastPlace, abs_of_pos h, zpow_sub₀ (by norm_num), zpow_add_one₀ (by norm_num)]
    push_cast
    field_simp
    norm_num
  have hdigits : x / lastPlace x ≤ ((2 ^ 53 : ℤ) : K) := by
    rw [div_le_iff₀ hplace, ← hsplit]
    exact hlog
  have hround : (halfEven (x / lastPlace x) : K) ≤ ((2 ^ 53 : ℤ) : K) := by
    exact_mod_cast halfEven_le_intCast hdigits
  rw [hsplit, nearest]
  exact mul_le_mul_of_nonneg_right hround hplace.le

theorem nearest_pos {x : K} (h : 0 < x) : 0 < nearest x :=
  lt_of_lt_of_le (by positivity) (pow_log_le_nearest h)

theorem nearest_mono_pos {x y : K} (hx : 0 < x) (h : x ≤ y) : nearest x ≤ nearest y := by
  have hy := lt_of_lt_of_le hx h
  rcases (Int.log_mono_right (b := 2) hx h).lt_or_eq with hlt | heq
  · calc nearest x ≤ 2 ^ (Int.log 2 x + 1) := nearest_le_pow hx
      _ ≤ 2 ^ Int.log 2 y := zpow_le_zpow_right₀ (by norm_num) hlt
      _ ≤ nearest y := pow_log_le_nearest hy
  · have hplace : lastPlace x = lastPlace y := by
      rw [lastPlace, lastPlace, abs_of_pos hx, abs_of_pos hy, heq]
    have hround : (halfEven (x / lastPlace y) : K) ≤ halfEven (y / lastPlace y) := by
      exact_mod_cast halfEven_mono (div_le_div_of_nonneg_right h (lastPlace_pos y).le)
    rw [nearest, nearest, hplace]
    exact mul_le_mul_of_nonneg_right hround (lastPlace_pos y).le

theorem nearest_mono {x y : K} (h : x ≤ y) : nearest x ≤ nearest y := by
  rcases lt_trichotomy x 0 with hx | rfl | hx
  · rcases lt_or_ge y 0 with hy | hy
    · have hmono := nearest_mono_pos (neg_pos.2 hy) (neg_le_neg h)
      rw [nearest_neg, nearest_neg] at hmono
      exact neg_le_neg_iff.1 hmono
    · have hneg := nearest_pos (neg_pos.2 hx)
      rw [nearest_neg] at hneg
      rcases hy.eq_or_lt with rfl | hpos
      · rw [nearest_zero]
        linarith
      · linarith [nearest_pos hpos]
  · rcases h.eq_or_lt with rfl | hpos
    · exact le_rfl
    · rw [nearest_zero]
      exact (nearest_pos hpos).le
  · exact nearest_mono_pos hx h

theorem nearest_nonpos {x : K} (h : x ≤ 0) : nearest x ≤ 0 := by
  simpa using nearest_mono h

/-- A number under nothing keeps digits enough not to come out as nothing. -/
theorem nearest_of_neg {x : K} (h : x < 0) : nearest x < 0 := by
  have hpos := nearest_pos (neg_pos.2 h)
  rw [nearest_neg] at hpos
  exact neg_pos.1 hpos

/-! ## Whole numbers -/

/-- `n / d` rounded to the nearest whole number, and to the even one half way between two. -/
def roundHalfEven (n d : Nat) : Nat :=
  if 2 * (n % d) > d ∨ (2 * (n % d) = d ∧ n / d % 2 = 1) then n / d + 1 else n / d

theorem roundHalfEven_one (n : Nat) : roundHalfEven n 1 = n := by
  simp [roundHalfEven, Nat.mod_one]

theorem le_roundHalfEven (n d : Nat) : n / d ≤ roundHalfEven n d := by
  unfold roundHalfEven
  split <;> omega

/-- The digits of a whole number past the fifty-three a double keeps. -/
def spilled (n : Nat) : Nat := Nat.log2 n - 52

/-- The double nearest to a whole number, which past `2 ^ 53` is a whole number again. -/
def double (n : Int) : Int :=
  n.sign * (roundHalfEven n.natAbs (2 ^ spilled n.natAbs) * 2 ^ spilled n.natAbs : Nat)

theorem spilled_of_lt {n : Nat} (h : n < 2 ^ 53) : spilled n = 0 := by
  unfold spilled
  by_cases hn : n = 0
  · simp [hn]
  · have := (Nat.log2_lt hn).2 h
    omega

/-- A double keeps every whole number up to `2 ^ 53` as it is. -/
theorem double_of_natAbs_le {n : Int} (h : n.natAbs ≤ 2 ^ 53) : double n = n := by
  rcases Nat.lt_or_eq_of_le h with hlt | heq
  · rw [double, spilled_of_lt hlt, pow_zero, roundHalfEven_one, mul_one, Int.sign_mul_natAbs]
  · have hround : roundHalfEven (2 ^ 53) (2 ^ spilled (2 ^ 53)) * 2 ^ spilled (2 ^ 53) =
        2 ^ 53 := by decide
    rw [double, heq, hround, ← heq, Int.sign_mul_natAbs]

/-- And nothing past `2 ^ 53` is kept under it. -/
theorem le_double_natAbs {n : Int} (h : 2 ^ 53 ≤ n.natAbs) :
    2 ^ 53 ≤ roundHalfEven n.natAbs (2 ^ spilled n.natAbs) * 2 ^ spilled n.natAbs := by
  have hn : n.natAbs ≠ 0 := by
    have : 0 < 2 ^ 53 := by decide
    omega
  have hlog : 53 ≤ Nat.log2 n.natAbs := (Nat.le_log2 hn).2 h
  have hpow : 2 ^ (52 + spilled n.natAbs) ≤ n.natAbs := by
    apply (Nat.le_log2 hn).1
    unfold spilled
    omega
  have hdiv : 2 ^ 52 ≤ n.natAbs / 2 ^ spilled n.natAbs := by
    rw [Nat.le_div_iff_mul_le (Nat.two_pow_pos _), ← pow_add]
    exact hpow
  have hone : 1 ≤ spilled n.natAbs := by
    unfold spilled
    omega
  calc 2 ^ 53 = 2 ^ 52 * 2 ^ 1 := by norm_num
    _ ≤ roundHalfEven n.natAbs (2 ^ spilled n.natAbs) * 2 ^ spilled n.natAbs :=
        Nat.mul_le_mul (hdiv.trans (le_roundHalfEven _ _))
          (Nat.pow_le_pow_right (by decide) hone)

theorem le_double {n : Int} (h : 2 ^ 53 ≤ n) : 2 ^ 53 ≤ double n := by
  have hkept := le_double_natAbs (n := n) (by omega)
  rw [double, Int.sign_eq_one_of_pos (by omega), one_mul]
  exact_mod_cast hkept

/-- Every whole number a double keeps as it is stays on the side of the others it is on. -/
theorem le_double_iff {m n : Int} (hm : m.natAbs ≤ 2 ^ 53) (hn : -2 ^ 53 ≤ n) :
    m ≤ double n ↔ m ≤ n := by
  rcases le_or_gt n (2 ^ 53) with hle | hgt
  · rw [double_of_natAbs_le (by omega)]
  · have := le_double (le_of_lt hgt)
    omega

@[simp] theorem double_neg (n : Int) : double (-n) = -double n := by
  simp [double]

/-- A whole number short of `2 ^ 53` stands to the double of any other as it stands to that. -/
theorem double_le_iff {m n : Int} (hm : m.natAbs < 2 ^ 53) : double n ≤ m ↔ n ≤ m := by
  rcases Nat.lt_or_ge n.natAbs (2 ^ 53) with hlt | hge
  · rw [double_of_natAbs_le hlt.le]
  · rcases Int.le_total 0 n with hpos | hneg
    · have := le_double (n := n) (by omega)
      omega
    · have hfar := le_double (n := -n) (by omega)
      rw [double_neg] at hfar
      omega

theorem double_lt_iff {m n : Int} (hm : m.natAbs < 2 ^ 53) : double n < m ↔ n < m := by
  rcases Nat.lt_or_ge n.natAbs (2 ^ 53) with hlt | hge
  · rw [double_of_natAbs_le hlt.le]
  · rcases Int.le_total 0 n with hpos | hneg
    · have := le_double (n := n) (by omega)
      omega
    · have hfar := le_double (n := -n) (by omega)
      rw [double_neg] at hfar
      omega

theorem eq_double_iff {m n : Int} (hm : m.natAbs < 2 ^ 53) : m = double n ↔ m = n := by
  have hle := double_le_iff (n := n) hm
  have hlt := double_lt_iff (n := n) hm
  omega

/-! ## The two ways of rounding are one -/

theorem halfEven_natCast_div {n d : ℕ} (hd : 0 < d) :
    halfEven ((n : K) / d) = roundHalfEven n d := by
  have hpos : (0 : K) < d := Nat.cast_pos.2 hd
  have hfloor : ⌊(n : K) / d⌋ = (n / d : ℕ) := by
    rw [Int.floor_div_natCast, Int.floor_natCast]
    rfl
  have hlow : 2 * (((n % d : ℕ) : K) / d) < 1 ↔ 2 * (n % d) < d := by
    rw [← mul_div_assoc, div_lt_one hpos]
    exact_mod_cast Iff.rfl
  have hhalf : 2 * (((n % d : ℕ) : K) / d) = 1 ↔ 2 * (n % d) = d := by
    rw [← mul_div_assoc, div_eq_one_iff_eq hpos.ne']
    exact_mod_cast Iff.rfl
  have heven : Even ((n / d : ℕ) : ℤ) ↔ n / d % 2 = 0 := by
    rw [Int.even_coe_nat, Nat.even_iff]
  simp only [halfEven, roundHalfEven, Int.fract_div_natCast_eq_div_natCast_mod, hfloor, hlow, hhalf,
    heven]
  split
  · rw [if_neg (by omega)]
  · rw [if_pos (by omega)]
    push_cast
    rfl

theorem nearest_natCast (n : ℕ) :
    nearest (n : K) = (roundHalfEven n (2 ^ spilled n) * 2 ^ spilled n : ℕ) := by
  have hlog : Int.log 2 |(n : K)| = Nat.log2 n := by
    rw [Nat.abs_cast, Int.log_natCast, Nat.log2_eq_log_two]
  rcases Nat.lt_or_ge (Nat.log2 n) 52 with hlt | hge
  · -- every digit is kept, and some that are not there
    have hspilled : spilled n = 0 := by
      unfold spilled
      omega
    have hplace : lastPlace (n : K) = ((2 ^ (52 - Nat.log2 n) : ℕ) : K)⁻¹ := by
      have hless : (Nat.log2 n : ℤ) - 52 = -((52 - Nat.log2 n : ℕ) : ℤ) := by omega
      rw [lastPlace, hlog, hless, zpow_neg, zpow_natCast]
      push_cast
      rfl
    have hpow : ((2 ^ (52 - Nat.log2 n) : ℕ) : K) ≠ 0 := by positivity
    have hdigits : (n : K) / lastPlace (n : K) = ((n * 2 ^ (52 - Nat.log2 n) : ℕ) : ℤ) := by
      rw [hplace, div_inv_eq_mul]
      push_cast
      rfl
    rw [nearest, hdigits, halfEven_intCast, hplace, hspilled, pow_zero, roundHalfEven_one, mul_one,
      Int.cast_natCast, Nat.cast_mul, mul_assoc, mul_inv_cancel₀ hpow, mul_one]
  · have hplace : lastPlace (n : K) = ((2 ^ spilled n : ℕ) : K) := by
      have hmore : (Nat.log2 n : ℤ) - 52 = (spilled n : ℕ) := by
        unfold spilled
        omega
      rw [lastPlace, hlog, hmore, zpow_natCast]
      push_cast
      rfl
    rw [nearest, hplace, halfEven_natCast_div (Nat.two_pow_pos _), Int.cast_natCast, Nat.cast_mul]

/-- What a double keeps of a whole number is the number of fifty-three digits nearest to it. -/
theorem nearest_intCast (n : ℤ) : nearest (n : K) = double n := by
  have hnat : ∀ m : ℕ, nearest ((m : ℤ) : K) = double m := by
    intro m
    rw [Int.cast_natCast, nearest_natCast, double, Int.natAbs_natCast]
    rcases Nat.eq_zero_or_pos m with rfl | hm
    · simp [roundHalfEven]
    · rw [Int.sign_eq_one_of_pos (by omega), one_mul, Int.cast_natCast]
  rcases n.eq_nat_or_neg with ⟨m, rfl | rfl⟩
  · exact hnat m
  · rw [Int.cast_neg, nearest_neg, hnat, double_neg, Int.cast_neg]

/-! ## What a double holds -/

/-- A number a double holds: fifty-three digits, the last no finer than the finest there is, short
of what has too many. -/
def IsDouble (x : ℚ) : Prop := nearest x = x ∧ x.den ∣ 2 ^ 1074 ∧ |x| < 2 ^ 1024

instance (x : ℚ) : Decidable (IsDouble x) := inferInstanceAs (Decidable (_ ∧ _ ∧ _))

theorem isDouble_intCast {n : ℤ} (h : n.natAbs ≤ 2 ^ 53) : IsDouble n := by
  refine ⟨?_, ?_, ?_⟩
  · rw [nearest_intCast, double_of_natAbs_le h]
  · rw [Rat.den_intCast]
    exact one_dvd _
  · have habs : |(n : ℚ)| ≤ 2 ^ 53 := by
      rw [← Int.cast_abs, Int.abs_eq_natAbs, Int.cast_natCast]
      exact_mod_cast h
    exact lt_of_le_of_lt habs (pow_lt_pow_right₀ (by norm_num) (by norm_num))

end Queuefy
