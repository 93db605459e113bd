import Mathlib.Algebra.Order.Field.Basic
import Mathlib.Tactic.Linarith
import Mathlib.Tactic.Ring

/-!
# Numbers that are rounded down repeatedly

A loop that scales a number rounds it down now and then. `Truncated ε k x y` says
that `y` is what is left of `x` after `k` truncations, each of which loses at most
the fraction `ε` of what it truncates. The losses add up, because what a later
truncation works on is never more than what there was at the start; `iterate` adds
them over the steps of a loop.
-/

set_option autoImplicit false

namespace Foundations

variable {α : Type*} [Field α] [LinearOrder α] [IsStrictOrderedRing α]

/-- `k` truncations that lose the fraction `ε` at most lead from `x` to `y`. -/
structure Truncated (ε : α) (k : ℕ) (x y : α) : Prop where
  le : y ≤ x
  loss : x - y ≤ k * ε * x

namespace Truncated

variable {ε x y z : α} {j k : ℕ}

omit [IsStrictOrderedRing α] in
theorem refl (ε x : α) : Truncated ε 0 x x where
  le := le_rfl
  loss := by
    rw [sub_self, Nat.cast_zero, zero_mul, zero_mul]

theorem trans (nonneg : 0 ≤ ε) (first : Truncated ε j x y) (second : Truncated ε k y z) :
    Truncated ε (j + k) x z where
  le := second.le.trans first.le
  loss := by
    have smaller : k * ε * y ≤ k * ε * x :=
      mul_le_mul_of_nonneg_left first.le (mul_nonneg k.cast_nonneg nonneg)
    calc x - z = (x - y) + (y - z) := (sub_add_sub_cancel x y z).symm
      _ ≤ j * ε * x + k * ε * x := add_le_add first.loss (second.loss.trans smaller)
      _ = (j + k : ℕ) * ε * x := by
          rw [Nat.cast_add]
          ring

/-- What is lost from a number that was a little less than another to begin with. -/
theorem loss_lt {v δ : α} (nonneg : 0 ≤ ε) (start : x ≤ v) (near : v - x < δ * v)
    (run : Truncated ε k x y) : v - y < (δ + k * ε) * v := by
  have smaller : k * ε * x ≤ k * ε * v :=
    mul_le_mul_of_nonneg_left start (mul_nonneg k.cast_nonneg nonneg)
  calc v - y = (v - x) + (x - y) := (sub_add_sub_cancel v x y).symm
    _ < δ * v + k * ε * v := add_lt_add_of_lt_of_le near (run.loss.trans smaller)
    _ = (δ + k * ε) * v := by ring

/-- The truncations of a loop. An invariant keeps each of its steps within the
bound; `value s left` is what the state `s` stands for with `left` steps to go. -/
theorem iterate {σ : Type*} {step : σ → σ} {count : σ → ℕ} {value : σ → ℕ → α}
    {Inv : σ → Prop} (nonneg : 0 ≤ ε) (keeps : ∀ s, Inv s → Inv (step s))
    (one : ∀ s left, Inv s → ∃ k, count (step s) = count s + k ∧
      Truncated ε k (value s (left + 1)) (value (step s) left))
    (n : ℕ) {s : σ} (start : Inv s) :
    ∃ k, count (step^[n] s) = count s + k ∧ Truncated ε k (value s n) (value (step^[n] s) 0) := by
  induction n generalizing s with
  | zero => exact ⟨0, rfl, refl ε _⟩
  | succ n ih =>
      obtain ⟨j, counted, first⟩ := one s n start
      obtain ⟨k, counted', rest⟩ := ih (keeps s start)
      rw [Function.iterate_succ_apply]
      exact ⟨j + k, by rw [counted', counted, Nat.add_assoc], first.trans nonneg rest⟩

end Truncated

end Foundations
