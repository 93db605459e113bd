import Mathlib.Data.Nat.Digits.Lemmas
import Mathlib.Tactic

/-!
# Positional numerals, least significant digit first

Two readings of a natural number as a list of digits, both starting with the
units: `numeral`, which has no superfluous leading digit, and `lowDigits`, which
has as many digits as asked for. A digit generator that emits from the least
significant digit up produces the first; a generator that fills a field from the
most significant digit down, one digit at a time, produces the second, because
appending a digit `d` to the run of `V` is the run of `b * V + d`
(`lowDigits_succ_mul_add`).

`numeralLength` counts the digits, and `numeral_eq_lowDigits` passes from one
reading to the other.
-/

set_option autoImplicit false

namespace Foundations

/-- The base-`b` numeral of `V`, units first; zero has one digit. -/
def numeral (b V : ℕ) : List ℕ := if V = 0 then [0] else Nat.digits b V

/-- How many digits the numeral has. -/
def numeralLength (b V : ℕ) : ℕ := (numeral b V).length

/-- The `n` low base-`b` digits of `V`, units first. -/
def lowDigits (b : ℕ) : ℕ → ℕ → List ℕ
  | 0, _ => []
  | n + 1, V => V % b :: lowDigits b n (V / b)

/-! ## Runs of a given length -/

@[simp] theorem lowDigits_zero (b V : ℕ) : lowDigits b 0 V = [] := rfl

theorem lowDigits_succ (b n V : ℕ) : lowDigits b (n + 1) V = V % b :: lowDigits b n (V / b) := rfl

@[simp] theorem length_lowDigits (b n V : ℕ) : (lowDigits b n V).length = n := by
  induction n generalizing V with
  | zero => rfl
  | succ n ih => simp [lowDigits, ih]

theorem lowDigits_lt {b n V d : ℕ} (positive : 0 < b) (member : d ∈ lowDigits b n V) : d < b := by
  induction n generalizing V with
  | zero => simp at member
  | succ n ih =>
      rcases List.mem_cons.mp member with rfl | later
      · exact Nat.mod_lt _ positive
      · exact ih later

/-- Appending a least significant digit. -/
theorem lowDigits_succ_mul_add {b n V d : ℕ} (digit : d < b) :
    lowDigits b (n + 1) (b * V + d) = d :: lowDigits b n V := by
  rw [lowDigits_succ, Nat.mul_add_mod, Nat.mod_eq_of_lt digit,
    Nat.mul_add_div (by omega), Nat.div_eq_of_lt digit, Nat.add_zero]

theorem lowDigits_add (b m n V : ℕ) :
    lowDigits b (m + n) V = lowDigits b m V ++ lowDigits b n (V / b ^ m) := by
  induction m generalizing V with
  | zero => simp
  | succ m ih =>
      rw [show m + 1 + n = m + n + 1 by omega, lowDigits_succ, ih, lowDigits_succ,
        List.cons_append, Nat.div_div_eq_div_mul, ← pow_succ']

theorem lowDigits_of_zero (b n : ℕ) : lowDigits b n 0 = List.replicate n 0 := by
  induction n with
  | zero => rfl
  | succ n ih => rw [lowDigits_succ, Nat.zero_mod, Nat.zero_div, ih, List.replicate_succ]

/-- Multiplying by a power of the base puts zeros in front. -/
theorem lowDigits_mul_pow {b : ℕ} (positive : 0 < b) (m n V : ℕ) :
    lowDigits b (m + n) (V * b ^ m) = List.replicate m 0 ++ lowDigits b n V := by
  rw [lowDigits_add, Nat.mul_div_cancel _ (Nat.pow_pos positive)]
  congr 1
  induction m with
  | zero => rfl
  | succ m ih =>
      rw [lowDigits_succ, pow_succ, ← mul_assoc, Nat.mul_mod_left, Nat.mul_div_cancel _ positive,
        ih, List.replicate_succ]

/-- Dropping the low digits divides. -/
theorem drop_lowDigits (b n V : ℕ) {k : ℕ} (bound : k ≤ n) :
    (lowDigits b n V).drop k = lowDigits b (n - k) (V / b ^ k) := by
  obtain ⟨m, rfl⟩ := Nat.exists_eq_add_of_le bound
  rw [lowDigits_add, List.drop_left' (by simp), Nat.add_sub_cancel_left]

/-- A digit of a run. -/
theorem getElem?_lowDigits (b n V : ℕ) {i : ℕ} (bound : i < n) :
    (lowDigits b n V)[i]? = some (V / b ^ i % b) := by
  obtain ⟨m, rfl⟩ := Nat.exists_eq_add_of_lt bound
  rw [show i + m + 1 = i + (m + 1) by omega, lowDigits_add,
    List.getElem?_append_right (by simp), lowDigits_succ]
  simp

/-! ## Minimal numerals -/

theorem numeral_of_lt {b V : ℕ} (small : V < b) : numeral b V = [V] := by
  unfold numeral
  split
  · next zero => rw [zero]
  · next nonzero => exact Nat.digits_of_lt b V nonzero small

/-- One step of a division loop. -/
theorem numeral_of_le {b V : ℕ} (base : 1 < b) (large : b ≤ V) :
    numeral b V = V % b :: numeral b (V / b) := by
  have nonzero : V ≠ 0 := by omega
  have quotient : V / b ≠ 0 := (Nat.div_pos large (by omega)).ne'
  rw [numeral, if_neg nonzero, numeral, if_neg quotient,
    Nat.digits_def' base (Nat.pos_of_ne_zero nonzero)]

theorem numeralLength_pos (b V : ℕ) : 0 < numeralLength b V := by
  unfold numeralLength numeral
  split
  · simp
  · next nonzero => exact List.length_pos_iff.mpr (Nat.digits_ne_nil_iff_ne_zero.mpr nonzero)

theorem lt_pow_numeralLength {b : ℕ} (base : 1 < b) (V : ℕ) : V < b ^ numeralLength b V := by
  unfold numeralLength numeral
  split
  · next zero => simp [zero]; omega
  · exact Nat.lt_base_pow_length_digits base

theorem pow_numeralLength_le {b V : ℕ} (base : 1 < b) (nonzero : V ≠ 0) :
    b ^ (numeralLength b V - 1) ≤ V := by
  have bound := Nat.base_pow_length_digits_le b V base nonzero
  rw [numeralLength, numeral, if_neg nonzero]
  have long : 0 < (b.digits V).length :=
    List.length_pos_iff.mpr (Nat.digits_ne_nil_iff_ne_zero.mpr nonzero)
  rw [← Nat.sub_add_cancel long, pow_succ, mul_comm] at bound
  exact Nat.le_of_mul_le_mul_left bound (by omega)

/-- The length of a numeral is determined by the powers around the value. -/
theorem numeralLength_eq {b V n : ℕ} (base : 1 < b) (lower : b ^ n ≤ V) (upper : V < b ^ (n + 1)) :
    numeralLength b V = n + 1 := by
  have nonzero : V ≠ 0 := by
    have := Nat.pow_pos (n := n) (show 0 < b by omega)
    omega
  have first := (Nat.pow_lt_pow_iff_right base).mp
    ((pow_numeralLength_le base nonzero).trans_lt upper)
  have second := (Nat.pow_lt_pow_iff_right base).mp (lower.trans_lt (lt_pow_numeralLength base V))
  omega

theorem numeralLength_le {b V n : ℕ} (base : 1 < b) (positive : 0 < n) (upper : V < b ^ n) :
    numeralLength b V ≤ n := by
  by_cases zero : V = 0
  · simp only [numeralLength, numeral, if_pos zero, List.length_singleton]
    exact positive
  · have := (Nat.pow_lt_pow_iff_right base).mp ((pow_numeralLength_le base zero).trans_lt upper)
    omega

theorem numeralLength_mono {b V W : ℕ} (base : 1 < b) (le : V ≤ W) :
    numeralLength b V ≤ numeralLength b W :=
  numeralLength_le base (numeralLength_pos b W) (le.trans_lt (lt_pow_numeralLength base W))

theorem numeralLength_mul_pow {b V : ℕ} (base : 1 < b) (nonzero : V ≠ 0) (d : ℕ) :
    numeralLength b (V * b ^ d) = numeralLength b V + d := by
  have positive := numeralLength_pos b V
  have power : 0 < b ^ d := Nat.pow_pos (by omega)
  have lower := Nat.mul_le_mul_right (b ^ d) (pow_numeralLength_le base nonzero)
  have upper := Nat.mul_lt_mul_of_pos_right (lt_pow_numeralLength base V) power
  rw [← pow_add] at lower upper
  rw [numeralLength_eq (n := numeralLength b V - 1 + d) base lower]
  · omega
  · rwa [show numeralLength b V - 1 + d + 1 = numeralLength b V + d by omega]

/-- The numeral is the run of its own length. -/
theorem numeral_eq_lowDigits {b : ℕ} (base : 1 < b) (V : ℕ) :
    numeral b V = lowDigits b (numeralLength b V) V := by
  induction V using Nat.strong_induction_on with
  | _ V ih =>
    by_cases small : V < b
    · rw [numeralLength, numeral_of_lt small, List.length_singleton, lowDigits_succ,
        Nat.mod_eq_of_lt small, lowDigits_zero]
    · have large : b ≤ V := by omega
      rw [numeralLength, numeral_of_le base large, List.length_cons, lowDigits_succ]
      exact congrArg (V % b :: ·) (ih (V / b) (Nat.div_lt_self (by omega) base))

end Foundations
