import Mathlib.Algebra.Order.Ring.Nat

/-!
# Natural numbers as doubles

The double nearest to a natural number, as a natural number again: 53
bits are kept, and a tie goes to the even significand. A number of at
most 53 bits is its own double (`toDouble_of_lt`), rounding does not
change the order (`toDouble_mono`), and it is off by at most the
number's part in `2 ^ 53` (`toDouble_le`, `le_toDouble`). The numbers
rounded here stay below the largest double.
-/

namespace Double

/-- `x` in units of `u`, to the nearest, ties to even. -/
def nearest (u x : ℕ) : ℕ :=
  if 2 * (x % u) < u ∨ 2 * (x % u) = u ∧ x / u % 2 = 0 then x / u * u else (x / u + 1) * u

/-- The unit in the last place of `x`. -/
def ulp (x : ℕ) : ℕ := 2 ^ (Nat.log2 x - 52)

/-- The conversion of an unsigned integer to `double`. -/
def toDouble (x : ℕ) : ℕ := nearest (ulp x) x

/-- The sum of two doubles. -/
def add (x y : ℕ) : ℕ := toDouble (x + y)

variable {u x y : ℕ}

/-! ## Rounding to a unit -/

theorem le_nearest (u x : ℕ) : x / u * u ≤ nearest u x := by
  unfold nearest
  split
  · exact le_rfl
  · exact Nat.mul_le_mul_right u (Nat.le_succ _)

theorem nearest_le (u x : ℕ) : nearest u x ≤ (x / u + 1) * u := by
  unfold nearest
  split
  · exact Nat.mul_le_mul_right u (Nat.le_succ _)
  · exact le_rfl

@[simp] theorem nearest_one (x : ℕ) : nearest 1 x = x := by
  unfold nearest
  rw [if_pos (.inl (by omega)), Nat.div_one, Nat.mul_one]

/-- Half a unit is the most it is off. -/
theorem nearest_off (hu : 0 < u) (x : ℕ) :
    2 * nearest u x ≤ 2 * x + u ∧ 2 * x ≤ 2 * nearest u x + u := by
  have hdiv := Nat.div_add_mod' x u
  have hlt := Nat.mod_lt x hu
  unfold nearest
  split
  · omega
  · rw [Nat.add_mul, Nat.one_mul]
    omega

theorem nearest_mono (u : ℕ) (h : x ≤ y) : nearest u x ≤ nearest u y := by
  rcases Nat.lt_or_eq_of_le (Nat.div_le_div_right h : x / u ≤ y / u) with hlt | heq
  · exact (nearest_le u x).trans ((Nat.mul_le_mul_right u hlt).trans (le_nearest u y))
  · -- with the same quotient the remainders are in order
    have hx := Nat.div_add_mod' x u
    have hy := Nat.div_add_mod' y u
    unfold nearest
    rw [heq] at hx ⊢
    split
    · split
      · exact le_rfl
      · exact Nat.mul_le_mul_right u (Nat.le_succ _)
    · rw [if_neg (by omega)]

/-! ## Rounding to 53 bits -/

theorem ulp_pos (x : ℕ) : 0 < ulp x := Nat.two_pow_pos _

theorem ulp_of_lt (h : x < 2 ^ 53) : ulp x = 1 := by
  have hlog : Nat.log2 x ≤ 52 := by
    rcases Nat.eq_zero_or_pos x with rfl | hx
    · decide
    · exact Nat.lt_succ_iff.mp ((Nat.log2_lt hx.ne').mpr h)
  rw [ulp, Nat.sub_eq_zero_of_le hlog, Nat.pow_zero]

theorem toDouble_of_lt (h : x < 2 ^ 53) : toDouble x = x := by
  rw [toDouble, ulp_of_lt h, nearest_one]

/-- From 53 bits on a number has `2 ^ 52` units or more. -/
theorem ulp_mul_le (h : 2 ^ 52 ≤ x) : ulp x * 2 ^ 52 ≤ x := by
  have hx : x ≠ 0 := (Nat.lt_of_lt_of_le (Nat.two_pow_pos 52) h).ne'
  have hlog : 52 ≤ Nat.log2 x := (Nat.le_log2 hx).mpr h
  rw [ulp, ← Nat.pow_add, Nat.sub_add_cancel hlog]
  exact Nat.log2_self_le hx

theorem lt_ulp_mul (x : ℕ) : x < ulp x * 2 ^ 53 := by
  refine Nat.lt_of_lt_of_le (Nat.lt_log2_self (n := x)) ?_
  rw [ulp, ← Nat.pow_add]
  exact Nat.pow_le_pow_right (by decide) (by omega)

theorem toDouble_off (x : ℕ) :
    toDouble x * 2 ^ 53 ≤ x * 2 ^ 53 + x ∧ x * 2 ^ 53 ≤ toDouble x * 2 ^ 53 + x := by
  rcases Nat.lt_or_ge x (2 ^ 53) with hlt | hge
  · rw [toDouble_of_lt hlt]
    exact ⟨Nat.le_add_right _ _, Nat.le_add_right _ _⟩
  · have hulp := ulp_mul_le ((Nat.pow_le_pow_right (by decide) (by decide)).trans hge)
    have hoff := nearest_off (ulp_pos x) x
    unfold toDouble
    omega

theorem log2_mono (h : x ≤ y) : Nat.log2 x ≤ Nat.log2 y := by
  rcases Nat.eq_zero_or_pos x with rfl | hx
  · exact Nat.zero_le _
  · exact (Nat.le_log2 (hx.trans_le h).ne').mpr ((Nat.log2_self_le hx.ne').trans h)

theorem toDouble_mono (h : x ≤ y) : toDouble x ≤ toDouble y := by
  have hexp : Nat.log2 x - 52 ≤ Nat.log2 y - 52 := Nat.sub_le_sub_right (log2_mono h) 52
  rcases Nat.lt_or_eq_of_le hexp with hlt | heq
  · -- between the two there is a power of two, which is a double
    have hx : x / ulp x + 1 ≤ 2 ^ 53 :=
      (Nat.div_lt_iff_lt_mul (ulp_pos x)).mpr (Nat.mul_comm _ _ ▸ lt_ulp_mul x)
    have hy : 2 ^ 52 ≤ y / ulp y := by
      refine (Nat.le_div_iff_mul_le (ulp_pos y)).mpr ?_
      rw [Nat.mul_comm]
      refine ulp_mul_le ?_
      rcases Nat.eq_zero_or_pos y with rfl | hpos
      · exact absurd hlt (Nat.not_lt_zero _)
      · exact (Nat.le_log2 hpos.ne').mp (by omega)
    have hstep : 2 ^ 53 * ulp x ≤ 2 ^ 52 * ulp y := by
      have hpow : ulp x * 2 ≤ ulp y := by
        rw [ulp, ← Nat.pow_succ]
        exact Nat.pow_le_pow_right (by decide) hlt
      omega
    exact (nearest_le _ x).trans ((Nat.mul_le_mul_right _ hx).trans
      (hstep.trans ((Nat.mul_le_mul_right _ hy).trans (le_nearest _ y))))
  · have hulp : ulp x = ulp y := congrArg (2 ^ ·) heq
    unfold toDouble
    rw [hulp]
    exact nearest_mono (ulp y) h

/-- What is smaller as a double is smaller. -/
theorem lt_of_toDouble_lt (h : toDouble x < toDouble y) : x < y :=
  not_le.mp fun hle => absurd (toDouble_mono hle) (not_le.mpr h)

/-- Below 53 bits a comparison is that of the numbers. -/
theorem toDouble_lt_iff (hx : x < 2 ^ 53) : toDouble x < toDouble y ↔ x < y := by
  refine ⟨lt_of_toDouble_lt, fun h => ?_⟩
  refine Nat.lt_of_lt_of_le ?_ (toDouble_mono (Nat.succ_le_of_lt h))
  rw [toDouble_of_lt hx]
  rcases Nat.lt_or_eq_of_le (Nat.succ_le_of_lt hx) with hlt | heq
  · rw [toDouble_of_lt hlt]
    exact Nat.lt_succ_self x
  · rw [heq]
    exact hx.trans_le (by decide +kernel)

end Double
