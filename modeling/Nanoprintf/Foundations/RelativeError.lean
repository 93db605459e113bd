import Mathlib.Algebra.Order.Field.Basic
import Mathlib.Algebra.Order.Ring.Pow
import Mathlib.Tactic.Linarith
import Mathlib.Tactic.Ring

/-!
# Relative errors in both directions

`Within ε k x y` says that `y` is `x` up to `k` relative errors of at most `ε`, each
too much or too little. The errors of successive steps compose, and a few of them
are about as large as their sum.
-/

set_option autoImplicit false

namespace Foundations

variable {α : Type*} [Field α] [LinearOrder α] [IsStrictOrderedRing α]

/-- `k` relative errors of at most `ε` lead from `x` to `y`. -/
structure Within (ε : α) (k : ℕ) (x y : α) : Prop where
  lower : x * (1 - ε) ^ k ≤ y
  upper : y ≤ x * (1 + ε) ^ k

namespace Within

variable {ε x y z : α} {j k : ℕ}

omit [IsStrictOrderedRing α] in
theorem refl (ε x : α) : Within ε 0 x x where
  lower := by rw [pow_zero, mul_one]
  upper := by rw [pow_zero, mul_one]

theorem of_abs_le (near : |y - x| ≤ ε * x) : Within ε 1 x y := by
  obtain ⟨lower, upper⟩ := abs_le.mp near
  constructor
  · rw [pow_one]
    linarith
  · rw [pow_one]
    linarith

theorem trans (nonneg : 0 ≤ ε) (small : ε ≤ 1) (first : Within ε j x y)
    (second : Within ε k y z) : Within ε (j + k) x z where
  lower := calc
    x * (1 - ε) ^ (j + k) = x * (1 - ε) ^ j * (1 - ε) ^ k := by rw [pow_add, mul_assoc]
    _ ≤ y * (1 - ε) ^ k := mul_le_mul_of_nonneg_right first.lower (pow_nonneg (by linarith) k)
    _ ≤ z := second.lower
  upper := calc
    z ≤ y * (1 + ε) ^ k := second.upper
    _ ≤ x * (1 + ε) ^ j * (1 + ε) ^ k :=
        mul_le_mul_of_nonneg_right first.upper (pow_nonneg (by linarith) k)
    _ = x * (1 + ε) ^ (j + k) := by rw [pow_add, mul_assoc]

theorem scale {c : α} (nonneg : 0 ≤ c) (within : Within ε k x y) :
    Within ε k (x * c) (y * c) where
  lower := by
    rw [mul_right_comm]
    exact mul_le_mul_of_nonneg_right within.lower nonneg
  upper := by
    rw [mul_right_comm]
    exact mul_le_mul_of_nonneg_right within.upper nonneg

/-- A few errors in the same direction. -/
theorem one_add_pow_le (nonneg : 0 ≤ ε) (k : ℕ) (few : k * ε ≤ 1) :
    (1 + ε) ^ k ≤ 1 + k * ε + (k * ε) ^ 2 := by
  induction k with
  | zero => simp
  | succ k ih =>
      push_cast at few ⊢
      have fewer : k * ε ≤ 1 := by linarith
      have square : k * ε * (k * ε) * ε ≤ k * ε * ε := by
        have less := mul_le_mul_of_nonneg_right fewer (mul_nonneg (mul_nonneg k.cast_nonneg nonneg)
          nonneg)
        linarith
      calc (1 + ε) ^ (k + 1) = (1 + ε) ^ k * (1 + ε) := pow_succ _ _
        _ ≤ (1 + k * ε + (k * ε) ^ 2) * (1 + ε) :=
            mul_le_mul_of_nonneg_right (ih fewer) (by linarith)
        _ = 1 + (k + 1) * ε + (k * ε * ε + (k * ε) ^ 2 + k * ε * (k * ε) * ε) := by ring
        _ ≤ 1 + (k + 1) * ε + (k * ε * ε + (k * ε) ^ 2 + k * ε * ε) := by linarith
        _ ≤ 1 + (k + 1) * ε + ((k + 1) * ε) ^ 2 := by
            have rest : 0 ≤ ε ^ 2 := sq_nonneg ε
            linarith

/-- The errors add up, but for the square of their sum. -/
theorem abs_sub_le (nonneg : 0 ≤ ε) (small : ε ≤ 1) (positive : 0 ≤ x) (few : k * ε ≤ 1)
    (within : Within ε k x y) : |y - x| ≤ (k * ε + (k * ε) ^ 2) * x := by
  have square : 0 ≤ (k * ε) ^ 2 := sq_nonneg _
  refine abs_le.mpr ⟨?_, ?_⟩
  · have bernoulli : 1 - k * ε ≤ (1 - ε) ^ k := by
      have pow := one_add_mul_le_pow (show -2 ≤ -ε by linarith) k
      rwa [mul_neg, ← sub_eq_add_neg, ← sub_eq_add_neg] at pow
    have below := (mul_le_mul_of_nonneg_left bernoulli positive).trans within.lower
    have more := mul_nonneg square positive
    linarith
  · have above := within.upper.trans
      (mul_le_mul_of_nonneg_left (one_add_pow_le nonneg k few) positive)
    linarith

end Within

/-- An error on top of another one. -/
theorem abs_sub_trans {δ ε x y z : α} (nonneg : 0 ≤ ε) (first : |y - x| ≤ δ * x)
    (second : |z - y| ≤ ε * y) : |z - x| ≤ (δ + ε + δ * ε) * x := by
  have above : y ≤ x + δ * x := by linarith [(abs_le.mp first).2]
  have more : ε * y ≤ ε * (x + δ * x) := mul_le_mul_of_nonneg_left above nonneg
  calc |z - x| ≤ |z - y| + |y - x| := abs_sub_le z y x
    _ ≤ ε * (x + δ * x) + δ * x := add_le_add (second.trans more) first
    _ = (δ + ε + δ * ε) * x := by ring

end Foundations
