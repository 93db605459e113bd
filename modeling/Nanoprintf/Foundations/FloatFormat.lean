import Mathlib.Algebra.Order.Field.Power
import Mathlib.Algebra.Order.Field.Basic
import Mathlib.Tactic.FieldSimp
import Mathlib.Tactic.Linarith
import Mathlib.Tactic.Positivity
import Mathlib.Tactic.Ring

/-!
# Numbers of a floating point format

A format keeps `p` digits in base `b`, with a least exponent below which numbers are no
longer normalized. Two of its numbers are apart by one part in `b ^ p` of either of
them, so that what is closer than half of that to a number has it as its nearest one.
-/

set_option autoImplicit false

namespace Foundations

variable {α : Type*} [Field α] [LinearOrder α] [IsStrictOrderedRing α]

/-- `x` is the number with the mantissa `m` and the exponent `e`. -/
structure Encodes (b p : ℕ) (least : ℤ) (m : ℕ) (e : ℤ) (x : α) : Prop where
  lower : least ≤ e
  small : m < b ^ p
  normal : e = least ∨ b ^ p ≤ b * m
  value : x = m * (b : α) ^ e

/-- `x` is a number of the format. -/
def Representable (b p : ℕ) (least : ℤ) (x : α) : Prop := ∃ m e, Encodes b p least m e x

section

variable {b p : ℕ} {least : ℤ} {x y : α}

/-- Multiples of one unit that differ do so by a unit. -/
theorem unit_le_abs_sub {u : α} (positive : 0 < u) {m n : ℕ} (differ : m * u ≠ n * u) :
    u ≤ |m * u - n * u| := by
  have apart : (m : ℤ) - n ≠ 0 := by
    intro same
    refine differ ?_
    rw [show m = n by omega]
  have one : (1 : α) ≤ |((m : ℤ) - n : ℤ)| := by
    exact_mod_cast Int.one_le_abs apart
  calc u = 1 * u := (one_mul u).symm
    _ ≤ |((m : ℤ) - n : ℤ)| * u := by
        refine mul_le_mul_of_nonneg_right ?_ positive.le
        exact_mod_cast one
    _ = |(m : α) * u - n * u| := by
        rw [← sub_mul, abs_mul, abs_of_pos positive]
        push_cast
        rfl

/-- **Numbers of a format are apart.** -/
theorem Representable.spacing (base : 1 < b) (first : Representable b p least x)
    (second : Representable b p least y) (differ : x ≠ y) : x / b ^ p ≤ |x - y| := by
  obtain ⟨m, e, lower, small, normal, rfl⟩ := first
  obtain ⟨n, k, lower', small', -, rfl⟩ := second
  have positive : (0 : α) < b := by exact_mod_cast (by omega : 0 < b)
  have power : (0 : α) < b ^ p := by positivity
  have unit : (0 : α) < (b : α) ^ e := zpow_pos positive e
  rcases le_or_gt e k with above | below
  · -- both are multiples of the unit of the first
    obtain ⟨d, rfl⟩ : ∃ d : ℕ, k = e + d := ⟨(k - e).toNat, by omega⟩
    have multiple : (n : α) * (b : α) ^ (e + (d : ℤ)) = (n * b ^ d : ℕ) * (b : α) ^ e := by
      rw [zpow_add₀ positive.ne', zpow_natCast]
      push_cast
      ring
    rw [multiple] at differ ⊢
    refine le_trans ?_ (unit_le_abs_sub unit differ)
    rw [div_le_iff₀ power, mul_comm]
    exact mul_le_mul_of_nonneg_left (by exact_mod_cast small.le) unit.le
  · -- the second is below every number with the exponent of the first
    have full : b ^ p ≤ b * m := normal.resolve_left (by omega)
    set u : α := (b : α) ^ (e - 1)
    have finer : (0 : α) < u := zpow_pos positive _
    have scaled : (m : α) * (b : α) ^ e = (b * m : ℕ) * u := by
      rw [show e = 1 + (e - 1) by ring, zpow_add₀ positive.ne', zpow_one]
      push_cast
      ring
    have most : (n : α) * (b : α) ^ k ≤ (b ^ p - 1 : ℕ) * u :=
      mul_le_mul (by exact_mod_cast (by omega : n ≤ b ^ p - 1))
        (zpow_le_zpow_right₀ (by exact_mod_cast base.le) (by omega)) (zpow_pos positive k).le
        (Nat.cast_nonneg _)
    obtain ⟨c, split⟩ : ∃ c, b * m = b ^ p + c := ⟨b * m - b ^ p, by omega⟩
    have one : 1 ≤ b ^ p := Nat.one_le_pow _ _ (by omega)
    have gap : ((c + 1 : ℕ) : α) * u ≤ (m : α) * (b : α) ^ e - n * (b : α) ^ k := by
      have less : ((b ^ p - 1 : ℕ) : α) = b ^ p - 1 := by
        rw [Nat.cast_sub one]
        push_cast
        rfl
      rw [scaled, split]
      rw [less] at most
      push_cast
      linarith
    have part : (m : α) * (b : α) ^ e / b ^ p ≤ (c + 1 : ℕ) * u := by
      rw [div_le_iff₀ power, scaled, split, mul_right_comm]
      refine mul_le_mul_of_nonneg_right ?_ finer.le
      have whole : b ^ p + c ≤ (c + 1) * b ^ p := by
        have more : c * 1 ≤ c * b ^ p := Nat.mul_le_mul_left c one
        rw [Nat.add_mul, Nat.one_mul]
        omega
      exact_mod_cast whole
    exact (part.trans gap).trans (le_abs_self _)

/-- **What is close to a number of a format** has it as its nearest one. -/
theorem Representable.nearest (base : 1 < b) (first : Representable b p least x)
    (second : Representable b p least y) (differ : x ≠ y) {s : α}
    (close : 2 * |s - x| < x / b ^ p ∨ s = x) : |s - x| < |s - y| := by
  have apart := first.spacing base second differ
  have sides : |x - y| ≤ |s - x| + |s - y| := by
    rw [abs_sub_comm s x]
    exact abs_sub_le x s y
  rcases close with close | rfl
  · linarith
  · rw [sub_self, abs_zero]
    exact abs_pos.mpr (sub_ne_zero.mpr differ)

end

end Foundations
