import Mathlib.Data.BitVec
import Mathlib.Order.Defs.LinearOrder

/-!
# Words ordered by value and by inclusion of bits

Machine words compare by value. A word whose bits are among those of
another is not the greater one, and this stays so when both are read
backwards.
-/

namespace BitOrder

variable {w : ℕ} {x y : BitVec w}

instance linearOrder : LinearOrder (BitVec w) where
  le_refl _ := Nat.le_refl _
  le_trans _ _ _ h h' := Nat.le_trans h h'
  lt_iff_le_not_ge _ _ := Nat.lt_iff_le_and_not_ge
  le_antisymm _ _ h h' := BitVec.eq_of_toNat_eq (Nat.le_antisymm h h')
  le_total _ _ := Nat.le_total _ _
  toDecidableLE := inferInstance

theorem reverse_and (x y : BitVec w) : (x &&& y).reverse = x.reverse &&& y.reverse := by
  apply BitVec.eq_of_getLsbD_eq
  intro i hi
  simp only [BitVec.getLsbD_reverse, BitVec.getLsbD_and, BitVec.getMsbD_and]

theorem reverse_inj : x.reverse = y.reverse ↔ x = y := by
  constructor
  · intro h
    have h' := congrArg BitVec.reverse h
    rwa [BitVec.reverse_reverse_eq, BitVec.reverse_reverse_eq] at h'
  · intro h
    rw [h]

theorem le_of_and_eq (h : x &&& y = x) : x ≤ y := by
  have hn : x.toNat &&& y.toNat = x.toNat := by rw [← BitVec.toNat_and, h]
  calc x.toNat = x.toNat &&& y.toNat := hn.symm
    _ ≤ y.toNat := Nat.and_le_right

theorem reverse_lt_of_and_eq (h : x &&& y = x) (hne : x ≠ y) : x.reverse < y.reverse := by
  have hle : x.reverse ≤ y.reverse := by
    apply le_of_and_eq
    rw [← reverse_and, h]
  exact lt_of_le_of_ne hle fun heq => hne (reverse_inj.mp heq)

/-! ## Blocks

The words whose reversals agree above the lowest `w - i` bits: these are the
words with one remainder modulo `2 ^ i`. -/

theorem testBit_toNat_reverse (x : BitVec w) (j : ℕ) :
    x.reverse.toNat.testBit j = (decide (j < w) && x.toNat.testBit (w - 1 - j)) := by
  rw [BitVec.testBit_toNat, BitVec.getLsbD_reverse, BitVec.getMsbD_eq_getLsbD,
    BitVec.testBit_toNat]

variable {i : ℕ}

/-- The upper `i` bits of a reversal are the lower ones of the word. -/
theorem testBit_reverse_div (hi : i ≤ w) (x : BitVec w) {j : ℕ} (hj : j < i) :
    (x.reverse.toNat / 2 ^ (w - i)).testBit j = (x.toNat % 2 ^ i).testBit (i - 1 - j) := by
  rw [← Nat.shiftRight_eq_div_pow, Nat.testBit_shiftRight, testBit_toNat_reverse,
    Nat.testBit_mod_two_pow, decide_eq_true (by omega), decide_eq_true (by omega),
    show w - 1 - (w - i + j) = i - 1 - j by omega]

theorem reverse_div_lt (hi : i ≤ w) (x : BitVec w) : x.reverse.toNat / 2 ^ (w - i) < 2 ^ i := by
  rw [Nat.div_lt_iff_lt_mul (Nat.two_pow_pos _), ← Nat.pow_add, Nat.add_sub_cancel' hi]
  exact x.reverse.isLt

theorem reverse_div_eq_iff (hi : i ≤ w) :
    x.reverse.toNat / 2 ^ (w - i) = y.reverse.toNat / 2 ^ (w - i)
      ↔ x.toNat % 2 ^ i = y.toNat % 2 ^ i := by
  constructor
  · intro h
    apply Nat.eq_of_testBit_eq
    intro j
    by_cases hj : j < i
    · have hx := testBit_reverse_div hi x (j := i - 1 - j) (by omega)
      have hy := testBit_reverse_div hi y (j := i - 1 - j) (by omega)
      rw [show i - 1 - (i - 1 - j) = j by omega] at hx hy
      rw [← hx, ← hy, h]
    · simp [Nat.testBit_mod_two_pow, hj]
  · intro h
    apply Nat.eq_of_testBit_eq
    intro j
    by_cases hj : j < i
    · rw [testBit_reverse_div hi x hj, testBit_reverse_div hi y hj, h]
    · have hpow : 2 ^ i ≤ 2 ^ j := Nat.pow_le_pow_right (by decide) (not_lt.mp hj)
      rw [Nat.testBit_lt_two_pow (lt_of_lt_of_le (reverse_div_lt hi x) hpow),
        Nat.testBit_lt_two_pow (lt_of_lt_of_le (reverse_div_lt hi y) hpow)]

/-- The first word of a block. -/
theorem two_pow_dvd_reverse (hx : x.toNat < 2 ^ i) : 2 ^ (w - i) ∣ x.reverse.toNat := by
  apply Nat.dvd_of_mod_eq_zero
  apply Nat.eq_of_testBit_eq
  intro j
  rw [Nat.testBit_mod_two_pow, testBit_toNat_reverse, Nat.zero_testBit]
  by_cases hj : j < w - i
  · have hpow : 2 ^ i ≤ 2 ^ (w - 1 - j) := Nat.pow_le_pow_right (by decide) (by omega)
    rw [Nat.testBit_lt_two_pow (lt_of_lt_of_le hx hpow), Bool.and_false, Bool.and_false]
  · simp [hj]

theorem reverse_mem_block_iff (hi : i ≤ w) (hx : x.toNat < 2 ^ i) :
    x.reverse.toNat ≤ y.reverse.toNat ∧ y.reverse.toNat < x.reverse.toNat + 2 ^ (w - i)
      ↔ y.toNat % 2 ^ i = x.toNat := by
  obtain ⟨q, hq⟩ := two_pow_dvd_reverse hx
  have hpos : 0 < 2 ^ (w - i) := Nat.two_pow_pos _
  have hdiv : x.reverse.toNat / 2 ^ (w - i) = q := by
    rw [hq, Nat.mul_div_cancel_left _ hpos]
  conv_rhs => rw [← Nat.mod_eq_of_lt hx, ← reverse_div_eq_iff hi, hdiv, Nat.div_eq_iff hpos]
  rw [hq, Nat.mul_comm q]
  omega

/-- A block has two halves. -/
theorem reverse_add_two_pow (hi : i < w) (hx : x.toNat < 2 ^ i)
    (hy : y.toNat = x.toNat + 2 ^ i) :
    y.reverse.toNat = x.reverse.toNat + 2 ^ (w - (i + 1)) := by
  have hpow : 2 ^ (i + 1) = 2 ^ i + 2 ^ i := by rw [Nat.pow_succ, Nat.mul_two]
  have hhalf : 2 ^ (w - i) = 2 ^ (w - (i + 1)) + 2 ^ (w - (i + 1)) := by
    rw [show w - i = w - (i + 1) + 1 by omega, Nat.pow_succ, Nat.mul_two]
  -- `y` is in the block of `x`, and not in the first half
  have hin : y.toNat % 2 ^ i = x.toNat := by
    rw [hy, Nat.add_mod_right, Nat.mod_eq_of_lt hx]
  have hout : ¬y.toNat % 2 ^ (i + 1) = x.toNat := by
    rw [Nat.mod_eq_of_lt (by omega), hy]
    have := Nat.two_pow_pos i
    omega
  have hlow : x.toNat < 2 ^ (i + 1) := by omega
  rw [← reverse_mem_block_iff hi.le hx] at hin
  rw [← reverse_mem_block_iff hi hlow, not_and, not_lt] at hout
  -- both begin halves
  obtain ⟨p, hp⟩ := two_pow_dvd_reverse hlow
  obtain ⟨q, hq⟩ := two_pow_dvd_reverse (x := y) (i := i + 1) (by omega)
  have hle := hout hin.1
  have hlt := hin.2
  rw [hhalf] at hlt
  rw [hp, hq, ← Nat.mul_succ] at hle ⊢
  rw [hp, hq, ← Nat.add_assoc, ← Nat.mul_succ, ← Nat.mul_succ] at hlt
  have hqp : q = p + 1 := by
    have h₁ := Nat.le_of_mul_le_mul_left hle (Nat.two_pow_pos _)
    have h₂ := Nat.lt_of_mul_lt_mul_left hlt
    omega
  rw [hqp]

end BitOrder
