import Mathlib.Data.Rat.Floor
import Mathlib.Data.Int.Log
import Mathlib.Tactic

/-!
# Rounding half to even, from digits

`roundHalfEven` is the nearest integer, and the even one at a midpoint. It is
characterised by a distance (`roundHalfEven_eq_iff`), which gives the two facts a
decimal conversion rests on.

* The decision can be read off a run of digits. If `D` is the value scaled by
  `10 ^ k` and truncated, then the `k` low digits of `D`, together with whether
  the truncation lost anything, decide the rounding of the value
  (`roundHalfEven_of_digits`).
* Rounding to fewer places agrees with rounding to more places when the latter
  ends in zeros (`roundHalfEven_of_trailing_zeros`).
-/

set_option autoImplicit false

namespace Foundations

/-- The nearest integer; at a midpoint, the even one. -/
def roundHalfEven (q : ℚ) : ℤ :=
  if q - ⌊q⌋ < 1 / 2 then ⌊q⌋
  else if 1 / 2 < q - ⌊q⌋ then ⌊q⌋ + 1
  else ⌊q⌋ + ⌊q⌋ % 2

theorem roundHalfEven_spec (q : ℚ) :
    |q - roundHalfEven q| ≤ 1 / 2 ∧ (|q - roundHalfEven q| = 1 / 2 → roundHalfEven q % 2 = 0) := by
  have lower := Int.floor_le q
  have upper := Int.lt_floor_add_one q
  unfold roundHalfEven
  split_ifs with below above
  · rw [abs_of_nonneg (by linarith)]
    exact ⟨below.le, fun tie => absurd tie (by linarith)⟩
  · push_cast
    rw [abs_of_nonpos (by linarith)]
    exact ⟨by linarith, fun tie => absurd tie (by linarith)⟩
  · have tie : q = ⌊q⌋ + 1 / 2 := by linarith
    rcases Int.emod_two_eq_zero_or_one ⌊q⌋ with even | odd
    · rw [even, add_zero, abs_of_nonneg (by linarith)]
      exact ⟨by linarith, fun _ => even⟩
    · rw [odd]
      push_cast
      rw [abs_of_nonpos (by linarith)]
      exact ⟨by linarith, fun _ => by omega⟩

/-- Rounding half to even is the integer within half a unit, even when the
distance is exactly half a unit. -/
theorem roundHalfEven_eq_iff (q : ℚ) (n : ℤ) :
    roundHalfEven q = n ↔ |q - n| ≤ 1 / 2 ∧ (|q - n| = 1 / 2 → n % 2 = 0) := by
  constructor
  · rintro rfl
    exact roundHalfEven_spec q
  · rintro ⟨near, even⟩
    obtain ⟨near', even'⟩ := roundHalfEven_spec q
    set m := roundHalfEven q
    have apart : |(m : ℚ) - n| ≤ 1 := by
      calc |(m : ℚ) - n| ≤ |(m : ℚ) - q| + |q - n| := abs_sub_le _ _ _
        _ ≤ 1 / 2 + 1 / 2 := add_le_add (by rwa [abs_sub_comm]) near
        _ = 1 := by norm_num
    by_contra different
    have step : |m - n| = 1 := by
      have cast : |m - n| ≤ 1 := by exact_mod_cast apart
      have positive : 0 < |m - n| := abs_pos.mpr (sub_ne_zero.mpr different)
      omega
    -- Two different candidates one apart are both exactly half a unit away.
    have both : |q - m| = 1 / 2 ∧ |q - n| = 1 / 2 := by
      have unit : |(m : ℚ) - n| = 1 := by exact_mod_cast congrArg (fun z : ℤ => (z : ℚ)) step
      have triangle : |(m : ℚ) - n| ≤ |(m : ℚ) - q| + |q - n| := abs_sub_le _ _ _
      rw [abs_sub_comm (m : ℚ) q] at triangle
      constructor <;> linarith
    have evenM := even' both.1
    have evenN := even both.2
    rcases abs_eq (by norm_num : (0 : ℤ) ≤ 1) |>.mp step with up | down <;> omega

theorem roundHalfEven_intCast (n : ℤ) : roundHalfEven n = n := by
  rw [roundHalfEven_eq_iff]
  simp

theorem le_roundHalfEven {q : ℚ} {n : ℤ} (below : n ≤ q) : n ≤ roundHalfEven q := by
  have near := (roundHalfEven_spec q).1
  have lower := (abs_le.mp near).2
  by_contra less
  have : (roundHalfEven q : ℚ) + 1 ≤ n := by exact_mod_cast (by omega : roundHalfEven q + 1 ≤ n)
  linarith

theorem roundHalfEven_le {q : ℚ} {n : ℤ} (above : q ≤ n) : roundHalfEven q ≤ n := by
  have near := (roundHalfEven_spec q).1
  have upper := (abs_le.mp near).1
  by_contra more
  have : (n : ℚ) + 1 ≤ roundHalfEven q := by exact_mod_cast (by omega : n + 1 ≤ roundHalfEven q)
  linarith

theorem roundHalfEven_nonneg {q : ℚ} (nonneg : 0 ≤ q) : 0 ≤ roundHalfEven q :=
  le_roundHalfEven (by exact_mod_cast nonneg)

/-- Rounding to fewer places agrees with rounding to more places that ends in
zeros. -/
theorem roundHalfEven_of_trailing_zeros {q : ℚ} {n : ℤ} {k : ℕ} (positive : 0 < k)
    (rounded : roundHalfEven (q * 10 ^ k) = n * 10 ^ k) : roundHalfEven q = n := by
  obtain ⟨near, -⟩ := (roundHalfEven_eq_iff _ _).mp rounded
  have ten : (10 : ℚ) ≤ 10 ^ k := by
    calc (10 : ℚ) = 10 ^ 1 := (pow_one _).symm
      _ ≤ 10 ^ k := pow_le_pow_right₀ (by norm_num) positive
  have scaled : |q - n| * 10 ^ k ≤ 1 / 2 := by
    rw [← abs_of_pos (show (0 : ℚ) < 10 ^ k by positivity), ← abs_mul, sub_mul]
    push_cast at near
    exact near
  have strict : |q - n| < 1 / 2 := by nlinarith [abs_nonneg (q - (n : ℚ))]
  exact (roundHalfEven_eq_iff _ _).mpr ⟨strict.le, fun tie => absurd tie strict.ne⟩

/-! ## The decision from a run of digits -/

/-- Whether a run `D`, truncated from a value scaled by `10 ^ k` and followed by
something nonzero exactly when `sticky`, rounds up when its `k` low digits go. -/
def roundsUp (D k : ℕ) (sticky : Prop) : Prop :=
  10 ^ k < 2 * (D % 10 ^ k) ∨ 2 * (D % 10 ^ k) = 10 ^ k ∧ (sticky ∨ D / 10 ^ k % 2 = 1)

instance (D k : ℕ) (sticky : Prop) [Decidable sticky] : Decidable (roundsUp D k sticky) :=
  inferInstanceAs (Decidable (_ ∨ _))

/-- Digits that go are rounded to the nearer side, whatever is known to follow them. -/
theorem roundsUp_near (D k : ℕ) (sticky : Prop) [Decidable (roundsUp D k sticky)] :
    2 * (10 ^ k * (D / 10 ^ k + if roundsUp D k sticky then 1 else 0)) ≤ 2 * D + 10 ^ k ∧
      2 * D ≤ 2 * (10 ^ k * (D / 10 ^ k + if roundsUp D k sticky then 1 else 0)) + 10 ^ k := by
  have parts := Nat.div_add_mod D (10 ^ k)
  have rest : D % 10 ^ k < 10 ^ k := Nat.mod_lt _ (by positivity)
  rw [mul_add]
  split_ifs with up
  · rw [roundsUp] at up
    omega
  · rw [roundsUp] at up
    omega

/-- The first of the low digits decides, unless it is a five. -/
theorem roundsUp_succ (D k : ℕ) (sticky : Prop) :
    roundsUp D (k + 1) sticky ↔ 5 < D / 10 ^ k % 10 ∨
      D / 10 ^ k % 10 = 5 ∧ (D % 10 ^ k ≠ 0 ∨ sticky ∨ D / 10 ^ (k + 1) % 2 = 1) := by
  have small : D % 10 ^ k < 10 ^ k := Nat.mod_lt D (by positivity)
  have digit : D / 10 ^ k % 10 < 10 := Nat.mod_lt _ (by norm_num)
  rw [roundsUp, Nat.mod_pow_succ]
  generalize D / 10 ^ (k + 1) % 2 = odd
  generalize D / 10 ^ k % 10 = d at digit
  generalize D % 10 ^ k = rest at small
  rw [pow_succ]
  generalize 10 ^ k = power at small
  rcases lt_trichotomy d 5 with less | rfl | more
  · have bound : power * d ≤ power * 4 := Nat.mul_le_mul_left _ (by omega)
    constructor
    · rintro (high | ⟨tie, -⟩) <;> omega
    · rintro (high | ⟨tie, -⟩) <;> omega
  · constructor
    · rintro (high | ⟨tie, decided⟩)
      · exact .inr ⟨rfl, .inl (by omega)⟩
      · exact .inr ⟨rfl, .inr decided⟩
    · rintro (high | ⟨-, nonzero | decided⟩)
      · omega
      · exact .inl (by omega)
      · by_cases zero : rest = 0
        · exact .inr ⟨by omega, decided⟩
        · exact .inl (by omega)
  · have bound : power * 6 ≤ power * d := Nat.mul_le_mul_left _ (by omega)
    constructor
    · exact fun _ => .inl more
    · exact fun _ => .inl (by omega)

/-- The low digits of a truncated value decide its rounding. -/
theorem roundHalfEven_of_digits {q : ℚ} {D k : ℕ} {sticky : Prop} [Decidable (roundsUp D k sticky)]
    (positive : 0 < k) (lower : (D : ℚ) ≤ q * 10 ^ k) (upper : q * 10 ^ k < D + 1)
    (lost : sticky ↔ (D : ℚ) ≠ q * 10 ^ k) :
    roundHalfEven q = ((D / 10 ^ k + if roundsUp D k sticky then 1 else 0 : ℕ) : ℤ) := by
  set E := D / 10 ^ k
  set R := D % 10 ^ k
  have split : (D : ℚ) = E * 10 ^ k + R := by
    exact_mod_cast (Nat.div_add_mod' D (10 ^ k)).symm
  have small : R + 1 ≤ 10 ^ k := Nat.mod_lt D (by positivity)
  have power : (0 : ℚ) < 10 ^ k := by positivity
  -- The modulus is even, so a remainder short of one half stays short of it.
  obtain ⟨H, half⟩ : ∃ H : ℕ, 10 ^ k = 2 * H := by
    obtain ⟨m, rfl⟩ := Nat.exists_eq_add_of_lt positive
    exact ⟨5 * 10 ^ (0 + m), by rw [pow_succ]; ring⟩
  have halfQ : (10 : ℚ) ^ k = 2 * H := by exact_mod_cast half
  rw [roundHalfEven_eq_iff]
  have scale : ∀ z : ℚ, |q - z| * 10 ^ k = |q * 10 ^ k - z * 10 ^ k| := by
    intro z
    rw [← sub_mul, abs_mul, abs_of_pos power]
  by_cases up : roundsUp D k sticky
  · rw [if_pos up]
    have least : (H : ℚ) ≤ R := by
      rcases up with more | ⟨tie, -⟩
      · exact_mod_cast (by omega : H ≤ R)
      · exact_mod_cast (by omega : H ≤ R)
    have smallQ : (R : ℚ) + 1 ≤ 10 ^ k := by exact_mod_cast small
    have distance : |q - ((E + 1 : ℕ) : ℤ)| * 10 ^ k = (E + 1) * 10 ^ k - q * 10 ^ k := by
      rw [scale, abs_of_nonpos]
      · push_cast
        ring
      · push_cast
        linarith
    constructor
    · rw [← mul_le_mul_iff_left₀ power, distance]
      linarith
    · intro tie
      have exact : (E + 1) * 10 ^ k - q * 10 ^ k = 1 / 2 * 10 ^ k := by rw [← distance, tie]
      have equal : (D : ℚ) = q * 10 ^ k := by linarith
      have remainder : (R : ℚ) = H := by linarith
      have remainder' : R = H := by exact_mod_cast remainder
      rcases up with more | ⟨-, lostBits | odd⟩
      · omega
      · exact absurd equal (lost.mp lostBits)
      · omega
  · rw [if_neg up, Nat.add_zero]
    have most : R ≤ H := by
      by_contra more
      exact up (.inl (by omega))
    have distance : |q - ((E : ℕ) : ℤ)| * 10 ^ k = q * 10 ^ k - E * 10 ^ k := by
      rw [scale, abs_of_nonneg]
      · push_cast
        ring
      · push_cast
        have : (0 : ℚ) ≤ R := by positivity
        linarith
    have tail : R = H → (D : ℚ) = q * 10 ^ k := by
      intro tie
      by_contra different
      exact up (.inr ⟨by omega, .inl (lost.mpr different)⟩)
    constructor
    · rw [← mul_le_mul_iff_left₀ power, distance]
      rcases most.lt_or_eq with less | tie
      · have : (R : ℚ) + 1 ≤ H := by exact_mod_cast less
        linarith
      · have : (R : ℚ) = H := by exact_mod_cast tie
        have := tail tie
        linarith
    · intro tie
      have exact : q * 10 ^ k - E * 10 ^ k = 1 / 2 * 10 ^ k := by rw [← distance, tie]
      have equalOrLess : R = H := by
        by_contra less
        have : (R : ℚ) + 1 ≤ H := by exact_mod_cast (by omega : R + 1 ≤ H)
        linarith
      by_contra odd
      exact up (.inr ⟨by omega, .inr (by omega)⟩)

/-- Rounding a quotient, halves going up. -/
theorem round_natCast_div (a : ℕ) {b : ℕ} (positive : 0 < b) :
    round ((a : ℚ) / b) = ((2 * a + b) / (2 * b) : ℕ) := by
  have nonzero : (b : ℚ) ≠ 0 := by exact_mod_cast positive.ne'
  have shifted : (a : ℚ) / b + 1 / 2 = ((2 * a + b : ℕ) : ℚ) / (2 * b : ℕ) := by
    push_cast
    field_simp
  rw [round_eq, shifted]
  exact Rat.floor_natCast_div_natCast _ _

end Foundations
