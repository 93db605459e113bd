import Nanoprintf.Utoa
import Nanoprintf.Foundations.Rounding

/-!
# Decimal notation

What the float conversions are for, stated without them: the text of a decimal
number in fixed and in scientific notation, in reading order, and the rounding of
a rational number to either. A rational is rounded half to even; the scientific
form normalises the digit that rounding may carry into.
-/

set_option autoImplicit false

namespace Nanoprintf

open Foundations

/-- The characters of the `n` low decimal digits of `V`, units first. -/
def digitText (n V : ℕ) : List Char := (lowDigits 10 n V).map (digitChar 0)

/-- The decimal point, if there is one. -/
def pointText (point : Bool) : List Char := if point then ['.'] else []

/-- `T / 10 ^ q` with `q` fraction digits. -/
def fixedText (T q : ℕ) (point : Bool) : List Char :=
  (numeralText 10 0 (T / 10 ^ q)).reverse ++ pointText point ++ (digitText q T).reverse

/-- A decimal exponent: a sign and at least two digits. -/
def exponentText (caseAdj : ℕ) (x : ℤ) : List Char :=
  [Char.ofNat ('E'.toNat + caseAdj), if x < 0 then '-' else '+'] ++
    (if x.natAbs < 10 then ['0'] else []) ++ (numeralText 10 0 x.natAbs).reverse

/-- `n / 10 ^ p * 10 ^ x`, for an `n` of `p + 1` digits. -/
def sciText (n p : ℕ) (x : ℤ) (point : Bool) (caseAdj : ℕ) : List Char :=
  digitChar 0 (n / 10 ^ p) :: pointText point ++ (digitText p n).reverse ++ exponentText caseAdj x

/-- A nonnegative rational rounded half to even to `q` fraction digits, as a
multiple of `10 ^ -q`. -/
def fixedRound (q : ℕ) (v : ℚ) : ℕ := (roundHalfEven (v * 10 ^ q)).toNat

/-- A nonnegative rational rounded half to even to `p + 1` significant digits: the
digits and the exponent of the first. -/
def sciRound (p : ℕ) (v : ℚ) : ℕ × ℤ :=
  if v = 0 then (0, 0)
  else
    let x := Int.log 10 v
    let n := (roundHalfEven (v * 10 ^ (p - x))).toNat
    if n = 10 ^ (p + 1) then (10 ^ p, x + 1) else (n, x)

/-! ## Runs of digits -/

@[simp] theorem length_digitText (n V : ℕ) : (digitText n V).length = n := by
  rw [digitText, List.length_map, length_lowDigits]

@[simp] theorem digitText_zero (V : ℕ) : digitText 0 V = [] := rfl

@[simp] theorem length_pointText (point : Bool) :
    (pointText point).length = if point then 1 else 0 := by
  cases point <;> rfl

@[simp] theorem reverse_pointText (point : Bool) : (pointText point).reverse = pointText point := by
  cases point <;> rfl

theorem length_fixedText (T q : ℕ) (point : Bool) :
    (fixedText T q point).length =
      numeralLength 10 (T / 10 ^ q) + (if point then 1 else 0) + q := by
  simp [fixedText, length_numeralText, Nat.add_assoc]

/-- Appending a digit at the low end. -/
theorem digitText_cons {n V d : ℕ} (digit : d < 10) :
    digitText (n + 1) (10 * V + d) = digitChar 0 d :: digitText n V := by
  rw [digitText, lowDigits_succ_mul_add digit, List.map_cons, digitText]

theorem digitText_succ (n V : ℕ) :
    digitText (n + 1) V = digitChar 0 (V % 10) :: digitText n (V / 10) := by
  rw [digitText, lowDigits_succ, List.map_cons, digitText]

theorem digitText_add (m n V : ℕ) :
    digitText (m + n) V = digitText m V ++ digitText n (V / 10 ^ m) := by
  rw [digitText, lowDigits_add, List.map_append, digitText, digitText]

theorem digitChar_zero : digitChar 0 0 = '0' := rfl

/-- Trailing zeros. -/
theorem digitText_mul_pow (m n V : ℕ) :
    digitText (m + n) (V * 10 ^ m) = List.replicate m '0' ++ digitText n V := by
  rw [digitText, lowDigits_mul_pow (by norm_num), List.map_append, List.map_replicate,
    digitChar_zero, digitText]

/-- What is above a run of digits does not show in it. -/
theorem digitText_add_mul_pow (n V m : ℕ) : digitText n (V + m * 10 ^ n) = digitText n V := by
  induction n generalizing V with
  | zero => rfl
  | succ n ih =>
      have digit : (V + m * 10 ^ (n + 1)) % 10 = V % 10 := by
        rw [pow_succ, ← mul_assoc, Nat.add_mul_mod_self_right]
      have rest : (V + m * 10 ^ (n + 1)) / 10 = V / 10 + m * 10 ^ n := by
        rw [pow_succ, ← mul_assoc, Nat.add_mul_div_right _ _ (by norm_num)]
      rw [digitText_succ, digit, rest, ih, digitText_succ]

theorem drop_digitText {n k : ℕ} (V : ℕ) (bound : k ≤ n) :
    (digitText n V).drop k = digitText (n - k) (V / 10 ^ k) := by
  rw [digitText, ← List.map_drop, drop_lowDigits 10 n V bound, digitText]

theorem numeralText_eq (V : ℕ) :
    numeralText 10 0 V = digitText (numeralLength 10 V) V := by
  rw [numeralText, numeral_eq_lowDigits (by norm_num), digitText]

theorem digitChar_toNat {d : ℕ} (digit : d < 10) : (digitChar 0 d).toNat = 48 + d := by
  interval_cases d <;> rfl

theorem digitChar_inj {c d : ℕ} (first : c < 10) (second : d < 10)
    (same : digitChar 0 c = digitChar 0 d) : c = d := by
  have codes := congrArg Char.toNat same
  rw [digitChar_toNat first, digitChar_toNat second] at codes
  omega

/-! ## Rounding -/

theorem fixedRound_nonneg {q : ℕ} {v : ℚ} (nonneg : 0 ≤ v) :
    (fixedRound q v : ℤ) = roundHalfEven (v * 10 ^ q) :=
  Int.toNat_of_nonneg (roundHalfEven_nonneg (by positivity))

theorem fixedRound_eq {q T : ℕ} {v : ℚ} (rounded : roundHalfEven (v * 10 ^ q) = T) :
    fixedRound q v = T := by
  rw [fixedRound, rounded, Int.toNat_natCast]

theorem fixedRound_of_exact {q T : ℕ} {v : ℚ} (exact : v * 10 ^ q = T) : fixedRound q v = T := by
  refine fixedRound_eq ?_
  rw [exact]
  exact_mod_cast roundHalfEven_intCast T

/-- The rounding of a number in its integer part and what is above it. -/
theorem fixedRound_of_parts {q T : ℕ} {v φ : ℚ} (parts : v * 10 ^ q = T + φ) (nonneg : 0 ≤ φ)
    (less : φ < 1) :
    fixedRound q v = T + if 1 / 2 < φ ∨ φ = 1 / 2 ∧ T % 2 = 1 then 1 else 0 := by
  have whole : ⌊v * 10 ^ q⌋ = T := by
    rw [parts, Int.floor_natCast_add, Int.floor_eq_zero_iff.mpr ⟨nonneg, less⟩, add_zero]
  have rest : v * 10 ^ q - ⌊v * 10 ^ q⌋ = φ := by
    rw [whole, parts, Int.cast_natCast, add_sub_cancel_left]
  refine fixedRound_eq ?_
  rw [roundHalfEven, rest, whole]
  rcases lt_trichotomy φ (1 / 2) with below | tie | above
  · rw [if_pos below, if_neg (by rintro (up | ⟨same, -⟩) <;> linarith), Nat.add_zero]
  · rw [if_neg (by linarith), if_neg (by linarith), tie]
    rcases Nat.mod_two_eq_zero_or_one T with even | odd
    · rw [if_neg (by rw [even]; norm_num)]
      omega
    · rw [if_pos (.inr ⟨rfl, odd⟩)]
      omega
  · rw [if_neg (by linarith), if_pos above, if_pos (.inl above)]
    push_cast
    rfl

/-- The same with the part above the integer as a quotient. -/
theorem fixedRound_of_quotient {q T a b : ℕ} {v : ℚ} (parts : v * 10 ^ q = T + (a : ℚ) / b)
    (less : a < b) :
    fixedRound q v = T + if b < 2 * a ∨ 2 * a = b ∧ T % 2 = 1 then 1 else 0 := by
  have positive : (0 : ℚ) < b := by exact_mod_cast (by omega : 0 < b)
  have above : (1 : ℚ) / 2 < (a : ℚ) / b ↔ b < 2 * a := by
    rw [div_lt_div_iff₀ two_pos positive, one_mul, mul_comm]
    exact_mod_cast Iff.rfl
  have tie : (a : ℚ) / b = 1 / 2 ↔ 2 * a = b := by
    rw [div_eq_div_iff positive.ne' two_ne_zero, one_mul, mul_comm]
    exact_mod_cast Iff.rfl
  rw [fixedRound_of_parts parts (by positivity)
    (by rw [div_lt_one positive]; exact_mod_cast less)]
  simp only [above, tie]

/-- Rounding does not go below a multiple of the place. -/
theorem le_fixedRound {q a : ℕ} {v : ℚ} (below : a ≤ v) : a * 10 ^ q ≤ fixedRound q v := by
  have scaled : ((a * 10 ^ q : ℕ) : ℤ) ≤ roundHalfEven (v * 10 ^ q) := by
    refine le_roundHalfEven ?_
    push_cast
    exact mul_le_mul_of_nonneg_right below (by positivity)
  rw [fixedRound]
  omega

/-! ## A carry out of a run -/

/-- A run of `n` digits that has been rounded up to `U` may be one digit longer, which the
exponent absorbs. -/
def carried (n U : ℕ) (dec : ℤ) : ℕ × ℤ := if U < 10 ^ n then (U, dec) else (10 ^ (n - 1), dec + 1)

theorem carried_lt {n : ℕ} (nonzero : n ≠ 0) (U : ℕ) (dec : ℤ) : (carried n U dec).1 < 10 ^ n := by
  unfold carried
  by_cases fits : U < 10 ^ n
  · rwa [if_pos fits]
  · rw [if_neg fits]
    exact Nat.pow_lt_pow_right (by norm_num) (by omega)

theorem le_carried (n U : ℕ) (dec : ℤ) : dec ≤ (carried n U dec).2 := by
  unfold carried
  split_ifs <;> simp

/-- The decade of a number. -/
theorem log_ten_eq {v : ℚ} {x : ℤ} (lower : 10 ^ x ≤ v) (upper : v < 10 ^ (x + 1)) :
    Int.log 10 v = x := by
  have positive : 0 < v := lt_of_lt_of_le (by positivity) lower
  have base : 1 < 10 := by norm_num
  have low := (Int.zpow_le_iff_le_log base positive).mp (by exact_mod_cast lower)
  have high := (Int.lt_zpow_iff_log_lt base positive).mp (by exact_mod_cast upper)
  omega

/-- The significant digits of a number in a decade are those of its rounding. -/
theorem sciRound_eq {p U : ℕ} {v : ℚ} {x : ℤ} (lower : 10 ^ x ≤ v) (upper : v < 10 ^ (x + 1))
    (rounded : roundHalfEven (v * 10 ^ (p - x)) = U) :
    sciRound p v = if U = 10 ^ (p + 1) then (10 ^ p, x + 1) else (U, x) := by
  have positive : 0 < v := lt_of_lt_of_le (by positivity) lower
  rw [sciRound, if_neg positive.ne', log_ten_eq lower upper]
  simp only [rounded, Int.toNat_natCast]

/-- The significant digits of a number that is not zero are all there. -/
theorem sciRound_bounds (p : ℕ) {v : ℚ} (nonneg : 0 ≤ v) :
    (sciRound p v).1 < 10 ^ (p + 1) ∧ (v ≠ 0 → 10 ^ p ≤ (sciRound p v).1) := by
  unfold sciRound
  by_cases zero : v = 0
  · rw [if_pos zero]
    exact ⟨by positivity, fun nonzero => absurd zero nonzero⟩
  · have positive : 0 < v := lt_of_le_of_ne nonneg (Ne.symm zero)
    have ten : (10 : ℚ) ≠ 0 := by norm_num
    have lower : (10 : ℚ) ^ Int.log 10 v ≤ v := by
      exact_mod_cast Int.zpow_log_le_self (by norm_num : 1 < 10) positive
    have upper : v < 10 ^ (Int.log 10 v + 1) := by
      exact_mod_cast Int.lt_zpow_succ_log_self (by norm_num : 1 < 10) v
    set x := Int.log 10 v
    have scale : (0 : ℚ) < 10 ^ ((p : ℤ) - x) := by positivity
    have least : ((10 ^ p : ℕ) : ℤ) ≤ roundHalfEven (v * 10 ^ ((p : ℤ) - x)) := by
      refine le_roundHalfEven ?_
      calc (((10 ^ p : ℕ) : ℤ) : ℚ) = 10 ^ x * 10 ^ ((p : ℤ) - x) := by
            rw [← zpow_add₀ ten, add_sub_cancel, zpow_natCast]
            push_cast
            rfl
        _ ≤ _ := mul_le_mul_of_nonneg_right lower scale.le
    have most : roundHalfEven (v * 10 ^ ((p : ℤ) - x)) ≤ ((10 ^ (p + 1) : ℕ) : ℤ) := by
      refine roundHalfEven_le ?_
      calc v * 10 ^ ((p : ℤ) - x) ≤ 10 ^ (x + 1) * 10 ^ ((p : ℤ) - x) :=
            mul_le_mul_of_nonneg_right upper.le scale.le
        _ = (((10 ^ (p + 1) : ℕ) : ℤ) : ℚ) := by
            rw [← zpow_add₀ ten, show x + 1 + ((p : ℤ) - x) = ((p + 1 : ℕ) : ℤ) by push_cast; ring,
              zpow_natCast]
            push_cast
            rfl
    have power : 10 ^ p < 10 ^ (p + 1) := Nat.pow_lt_pow_right (by norm_num) (by omega)
    rw [if_neg zero]
    simp only
    split_ifs with carry
    · exact ⟨power, fun _ => le_rfl⟩
    · simp only
      omega

/-- A rounded run of `n` digits, and the carry out of it. -/
theorem sciRound_carried {p n U : ℕ} {v : ℚ} {dec : ℤ} (nonzero : n ≠ 0) (few : n ≤ p + 1)
    (small : U ≤ 10 ^ n) (lower : 10 ^ (dec + n - 1) ≤ v) (upper : v < 10 ^ (dec + n))
    (rounded : roundHalfEven (v * 10 ^ (p - (dec + n - 1))) = (U * 10 ^ (p + 1 - n) : ℕ)) :
    (carried n U dec).1 * 10 ^ (p + 1 - n) = (sciRound p v).1 ∧
      (carried n U dec).2 + n - 1 = (sciRound p v).2 := by
  obtain ⟨m, rfl⟩ : ∃ m, n = m + 1 := ⟨n - 1, by omega⟩
  have power : 0 < 10 ^ (p + 1 - (m + 1)) := by positivity
  have whole : 10 ^ (m + 1) * 10 ^ (p + 1 - (m + 1)) = 10 ^ (p + 1) := by
    rw [← pow_add]
    congr 1
    omega
  rw [sciRound_eq lower (by rwa [sub_add_cancel]) rounded]
  unfold carried
  by_cases fits : U < 10 ^ (m + 1)
  · have less : U * 10 ^ (p + 1 - (m + 1)) ≠ 10 ^ (p + 1) := by
      rw [← whole]
      exact (Nat.mul_lt_mul_of_pos_right fits power).ne
    rw [if_pos fits, if_neg less]
    exact ⟨rfl, rfl⟩
  · obtain rfl : U = 10 ^ (m + 1) := by omega
    rw [if_neg fits, if_pos whole, Nat.add_sub_cancel, ← pow_add]
    constructor
    · congr 1
      omega
    · simp only
      ring

theorem sciRound_exact_of_lt {p n U : ℕ} {v : ℚ} {dec : ℤ} (nonzero : n ≠ 0) (few : n ≤ p + 1)
    (least : 10 ^ (n - 1) ≤ U) (small : U < 10 ^ n) (value : v = U * 10 ^ dec) :
    U * 10 ^ (p + 1 - n) = (sciRound p v).1 ∧ dec + n - 1 = (sciRound p v).2 := by
  obtain ⟨m, rfl⟩ : ∃ m, n = m + 1 := ⟨n - 1, by omega⟩
  obtain ⟨j, rfl⟩ := Nat.exists_eq_add_of_le (show m ≤ p by omega)
  have ten : (10 : ℚ) ≠ 0 := by norm_num
  have scale : (0 : ℚ) < 10 ^ dec := by positivity
  have leastQ : (10 : ℚ) ^ m ≤ U := by exact_mod_cast least
  have smallQ : (U : ℚ) < 10 ^ (m + 1) := by exact_mod_cast small
  have spec := @sciRound_carried _ _ _ v dec nonzero few small.le ?_ ?_ ?_
  · rwa [carried, if_pos small] at spec
  · rw [value, show dec + (m + 1 : ℕ) - 1 = m + dec by push_cast; ring, zpow_add₀ ten, zpow_natCast]
    exact mul_le_mul_of_nonneg_right leastQ scale.le
  · rw [value, add_comm dec, zpow_add₀ ten, zpow_natCast]
    exact mul_lt_mul_of_pos_right smallQ scale
  · have exact : v * 10 ^ (((m + j : ℕ) : ℤ) - (dec + (m + 1 : ℕ) - 1)) =
        ((U * 10 ^ (m + j + 1 - (m + 1)) : ℕ) : ℤ) := by
      rw [value, mul_assoc, ← zpow_add₀ ten, show m + j + 1 - (m + 1) = j by omega,
        show dec + (((m + j : ℕ) : ℤ) - (dec + (m + 1 : ℕ) - 1)) = j by push_cast; ring,
        zpow_natCast]
      push_cast
      rfl
    rw [exact, roundHalfEven_intCast]

/-- An exact run of `n` digits, or of one more when it is a power of ten. -/
theorem sciRound_exact {p n U : ℕ} {v : ℚ} {dec : ℤ} (nonzero : n ≠ 0) (few : n ≤ p + 1)
    (least : 10 ^ (n - 1) ≤ U) (small : U ≤ 10 ^ n) (value : v = U * 10 ^ dec) :
    (carried n U dec).1 * 10 ^ (p + 1 - n) = (sciRound p v).1 ∧
      (carried n U dec).2 + n - 1 = (sciRound p v).2 := by
  unfold carried
  by_cases fits : U < 10 ^ n
  · rw [if_pos fits]
    exact sciRound_exact_of_lt nonzero few least fits value
  · rw [if_neg fits]
    refine sciRound_exact_of_lt nonzero few le_rfl
      (Nat.pow_lt_pow_right (by norm_num) (by omega)) ?_
    obtain rfl : U = 10 ^ n := by omega
    obtain ⟨m, rfl⟩ : ∃ m, n = m + 1 := ⟨n - 1, by omega⟩
    rw [value, Nat.add_sub_cancel, zpow_add_one₀ (by norm_num)]
    push_cast
    ring

end Nanoprintf
