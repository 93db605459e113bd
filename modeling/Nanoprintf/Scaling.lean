import Nanoprintf.RealValue
import Nanoprintf.Foundations.Rounding

/-!
# The scaling loops, without a buffer

The loops that turn a binary exponent into decimal digits store characters while
they run, and each stops where its own conversion has enough. `fracScale` is the
arithmetic they share, with the number of leading zeros it may still produce as
a budget. An unlimited run splits at the exponent zero: `approach` gets there,
one decimal zero for each multiplication by five, and `settle` is the four steps
that remain and leave the first digit in the top four bits.
-/

set_option autoImplicit false

namespace Nanoprintf

open Foundations

/-- The weight of the digit that the print loops take from the top of the
mantissa. -/
def Config.unit (cfg : Config) : ℕ := 2 ^ (cfg.manBits - 4)

theorem Config.two_pow_manBits (cfg : Config) : 2 ^ cfg.manBits = 16 * cfg.unit := by
  have bits := cfg.manBits_ge
  rw [Config.unit, show 16 = 2 ^ 4 from rfl, ← pow_add]
  congr 1
  omega

theorem Config.two_pow_top (cfg : Config) : 2 ^ (cfg.manBits - 1) = 8 * cfg.unit := by
  have bits := cfg.manBits_ge
  rw [Config.unit, show 8 = 2 ^ 3 from rfl, ← pow_add]
  congr 1
  omega

theorem Config.unit_ge (cfg : Config) : 16 ≤ cfg.unit := by
  have bits := cfg.manBits_ge
  exact Nat.pow_le_pow_right two_pos (show 4 ≤ cfg.manBits - 4 by omega)

/-- What the limit of the multiplication is made for. -/
theorem Config.fiveLimit_spec (cfg : Config) :
    5 * cfg.fiveLimit + 4 ≤ 16 * cfg.unit ∧ 16 * cfg.unit < 5 * cfg.fiveLimit + 9 := by
  have large := cfg.unit_ge
  unfold Config.fiveLimit
  rw [cfg.two_pow_manBits]
  omega

theorem timesFive_eq {cfg : Config} {man carry : ℕ} (small : man ≤ cfg.fiveLimit)
    (bit : carry ≤ 1) : timesFive cfg man carry = 5 * man + 3 * carry := by
  obtain ⟨limit, -⟩ := cfg.fiveLimit_spec
  unfold timesFive
  rw [cfg.two_pow_manBits, Nat.mod_eq_of_lt (show man * 5 < 16 * cfg.unit by omega)]
  by_cases pending : carry ≠ 0
  · simp only [if_pos pending]
    rw [Nat.mod_eq_of_lt (by omega)]
    omega
  · simp only [if_neg pending]
    omega

theorem isLarge_iff (cfg : Config) (man : ℕ) : isLarge cfg man = true ↔ cfg.fiveLimit < man := by
  simp [isLarge]

/-! ## The loop with a budget of zeros -/

/-- Where a scaling loop stops: the steps left, the zeros produced, and the
mantissa with the bit below it. -/
structure Scaled where
  left : ℕ
  zeros : ℕ
  man : ℕ
  carry : ℕ
  deriving DecidableEq, Repr

/-- The fraction scaling loop, which may produce `budget` zeros. -/
def fracScale (cfg : Config) : (budget left digit man carry : ℕ) → Scaled
  | _, 0, _, man, carry => ⟨0, 0, man, carry⟩
  | budget, left + 1, digit, man, carry =>
    if budget = 0 then ⟨left + 1, 0, man, carry⟩
    else if isLarge cfg man || digit ≠ 0 then
      fracScale cfg budget left digit (man >>> 1) (man &&& 1)
    else if 4 < left + 1 then
      let r := fracScale cfg (budget - 1) left digit (timesFive cfg man carry) 0
      { r with zeros := r.zeros + 1 }
    else fracScale cfg budget left (digit + 1) (timesFive cfg man carry) 0

/-- The way to exponent zero: the zeros produced, the mantissa and the bit below
it after `j` steps. -/
def approach (limit : ℕ) : (j man carry : ℕ) → ℕ × ℕ × ℕ
  | 0, man, carry => (0, man, carry)
  | j + 1, man, carry =>
    if limit < man then approach limit j (man / 2) (man % 2)
    else
      let (zeros, man, carry) := approach limit j (5 * man + 3 * carry) 0
      (zeros + 1, man, carry)

/-- The last four steps, in which the mantissa is halved three times and
multiplied by five as soon as there is room: the mantissa and the bit below. -/
def settle (limit man carry : ℕ) : ℕ × ℕ :=
  if man ≤ limit then ((5 * man + 3 * carry) / 8, (5 * man + 3 * carry) / 4 % 2)
  else if man / 2 ≤ limit then
    ((5 * (man / 2) + 3 * (man % 2)) / 4, (5 * (man / 2) + 3 * (man % 2)) / 2 % 2)
  else if man / 4 ≤ limit then
    ((5 * (man / 4) + 3 * (man / 2 % 2)) / 2, (5 * (man / 4) + 3 * (man / 2 % 2)) % 2)
  else (5 * (man / 8) + 3 * (man / 4 % 2), 0)

/-- A mantissa of `manBits` bits and a bit. -/
def Fits (cfg : Config) (man carry : ℕ) : Prop := man < 16 * cfg.unit ∧ carry ≤ 1

theorem Fits.half {cfg : Config} {man carry : ℕ} (fits : Fits cfg man carry) :
    Fits cfg (man / 2) (man % 2) := by
  obtain ⟨small, -⟩ := fits
  constructor <;> omega

theorem Fits.five {cfg : Config} {man carry : ℕ} (fits : Fits cfg man carry)
    (small : man ≤ cfg.fiveLimit) : Fits cfg (5 * man + 3 * carry) 0 := by
  obtain ⟨-, bit⟩ := fits
  obtain ⟨limit, -⟩ := cfg.fiveLimit_spec
  constructor <;> omega

/-! ## Steps -/

theorem fracScale_halve {cfg : Config} {budget digit man : ℕ} (left carry : ℕ)
    (positive : budget ≠ 0) (halves : cfg.fiveLimit < man ∨ digit ≠ 0) :
    fracScale cfg budget (left + 1) digit man carry =
      fracScale cfg budget left digit (man / 2) (man % 2) := by
  have taken : (isLarge cfg man || decide (digit ≠ 0)) = true := by
    simpa [isLarge_iff] using halves
  rw [fracScale, if_neg positive, if_pos taken, Nat.shiftRight_one, Nat.and_one_is_mod]

theorem fracScale_zero {cfg : Config} {budget left man carry : ℕ} (early : 4 ≤ left)
    (small : man ≤ cfg.fiveLimit) (bit : carry ≤ 1) :
    fracScale cfg (budget + 1) (left + 1) 0 man carry =
      { fracScale cfg budget left 0 (5 * man + 3 * carry) 0 with
        zeros := (fracScale cfg budget left 0 (5 * man + 3 * carry) 0).zeros + 1 } := by
  have passed : ¬ (isLarge cfg man || decide ((0 : ℕ) ≠ 0)) = true := by
    simpa [isLarge_iff] using small
  rw [fracScale, if_neg (Nat.succ_ne_zero budget), if_neg passed, if_pos (by omega),
    timesFive_eq small bit, Nat.add_sub_cancel]

theorem fracScale_digit {cfg : Config} {budget left man carry : ℕ} (positive : budget ≠ 0)
    (late : left < 4) (small : man ≤ cfg.fiveLimit) (bit : carry ≤ 1) :
    fracScale cfg budget (left + 1) 0 man carry =
      fracScale cfg budget left 1 (5 * man + 3 * carry) 0 := by
  have passed : ¬ (isLarge cfg man || decide ((0 : ℕ) ≠ 0)) = true := by
    simpa [isLarge_iff] using small
  rw [fracScale, if_neg positive, if_neg passed, if_neg (by omega), timesFive_eq small bit]

@[simp] theorem fracScale_done (cfg : Config) (budget digit man carry : ℕ) :
    fracScale cfg budget 0 digit man carry = ⟨0, 0, man, carry⟩ := by
  cases budget <;> rfl

theorem fracScale_settle {cfg : Config} {budget man carry : ℕ} (positive : budget ≠ 0)
    (fits : Fits cfg man carry) :
    fracScale cfg budget 4 0 man carry =
      ⟨0, 0, (settle cfg.fiveLimit man carry).1, (settle cfg.fiveLimit man carry).2⟩ := by
  obtain ⟨limit, limit'⟩ := cfg.fiveLimit_spec
  have room := cfg.unit_ge
  have one : (1 : ℕ) ≠ 0 := one_ne_zero
  obtain ⟨small, bit⟩ := fits
  unfold settle
  split_ifs with first second third
  · rw [fracScale_digit positive (by omega) first bit, fracScale_halve _ _ positive (.inr one),
      fracScale_halve _ _ positive (.inr one), fracScale_halve _ _ positive (.inr one),
      fracScale_done]
    simp only [Nat.div_div_eq_div_mul, Nat.reduceMul]
  · rw [fracScale_halve _ _ positive (.inl (by omega)),
      fracScale_digit positive (by omega) second (by omega),
      fracScale_halve _ _ positive (.inr one), fracScale_halve _ _ positive (.inr one),
      fracScale_done, Nat.div_div_eq_div_mul]
  · rw [fracScale_halve _ _ positive (.inl (by omega)),
      fracScale_halve _ _ positive (.inl (by omega)), Nat.div_div_eq_div_mul,
      fracScale_digit positive (by omega) third (by omega),
      fracScale_halve _ _ positive (.inr one), fracScale_done]
  · rw [fracScale_halve _ _ positive (.inl (by omega)),
      fracScale_halve _ _ positive (.inl (by omega)), Nat.div_div_eq_div_mul,
      fracScale_halve _ _ positive (.inl (by omega)), Nat.div_div_eq_div_mul,
      fracScale_digit positive (by omega) (by omega) (by omega), fracScale_done]

/-- An unlimited run is the approach followed by the settling. -/
theorem fracScale_full {cfg : Config} (j : ℕ) {budget man carry : ℕ} (fits : Fits cfg man carry)
    (enough : (approach cfg.fiveLimit j man carry).1 < budget) :
    fracScale cfg budget (j + 4) 0 man carry =
      ⟨0, (approach cfg.fiveLimit j man carry).1,
        (settle cfg.fiveLimit (approach cfg.fiveLimit j man carry).2.1
          (approach cfg.fiveLimit j man carry).2.2).1,
        (settle cfg.fiveLimit (approach cfg.fiveLimit j man carry).2.1
          (approach cfg.fiveLimit j man carry).2.2).2⟩ := by
  induction j generalizing budget man carry with
  | zero =>
      rw [approach] at enough
      exact fracScale_settle (by omega) fits
  | succ j ih =>
      rw [approach] at enough ⊢
      rw [show j + 1 + 4 = j + 4 + 1 by omega]
      by_cases large : cfg.fiveLimit < man
      · rw [if_pos large] at enough ⊢
        rw [fracScale_halve _ _ (by omega) (.inl large), ih fits.half enough]
      · rw [if_neg large] at enough ⊢
        obtain ⟨budget, rfl⟩ := Nat.exists_eq_succ_of_ne_zero (show budget ≠ 0 by omega)
        have inner := @ih budget _ _ (fits.five (by omega)) (by simpa using enough)
        rw [fracScale_zero (by omega) (by omega) fits.2, inner]

/-- A run that stops for want of zeros stops before the settling, right after it
has produced the last of them, and an unlimited run goes on from there. -/
theorem fracScale_stops {cfg : Config} (j : ℕ) {budget man carry : ℕ} (fits : Fits cfg man carry)
    (short : budget ≤ (approach cfg.fiveLimit j man carry).1) :
    ∃ (i m c : ℕ), fracScale cfg budget (j + 4) 0 man carry = ⟨i + 4, budget, m, c⟩ ∧ i ≤ j ∧
      Fits cfg m c ∧ (budget = 0 → i = j ∧ m = man ∧ c = carry) ∧
      (budget ≠ 0 → c = 0 ∧ ∃ p q, q ≤ 1 ∧ m = 5 * p + 3 * q) ∧
      approach cfg.fiveLimit j man carry =
        ((approach cfg.fiveLimit i m c).1 + budget, (approach cfg.fiveLimit i m c).2) := by
  induction j generalizing budget man carry with
  | zero =>
      rw [approach] at short
      obtain rfl : budget = 0 := by omega
      exact ⟨0, man, carry, rfl, le_rfl, fits, fun _ => ⟨rfl, rfl, rfl⟩,
        fun more => absurd rfl more,
        rfl⟩
  | succ j ih =>
      by_cases vanishes : budget = 0
      · subst vanishes
        exact ⟨j + 1, man, carry, rfl, le_rfl, fits, fun _ => ⟨rfl, rfl, rfl⟩,
          fun more => absurd rfl more, rfl⟩
      rw [approach] at short ⊢
      rw [show j + 1 + 4 = j + 4 + 1 by omega]
      by_cases large : cfg.fiveLimit < man
      · rw [if_pos large] at short ⊢
        rw [fracScale_halve _ _ vanishes (.inl large)]
        obtain ⟨i, m, c, run, inside, fit, -, last, rest⟩ := ih fits.half short
        exact ⟨i, m, c, run, by omega, fit, fun zero => absurd zero vanishes, last, rest⟩
      · rw [if_neg large] at short ⊢
        obtain ⟨budget, rfl⟩ := Nat.exists_eq_succ_of_ne_zero vanishes
        have less : budget ≤ (approach cfg.fiveLimit j (5 * man + 3 * carry) 0).1 := by
          simpa using short
        obtain ⟨i, m, c, run, inside, fit, first, last, rest⟩ := ih (fits.five (by omega)) less
        rw [fracScale_zero (by omega) (by omega) fits.2, run]
        refine ⟨i, m, c, rfl, by omega, fit, fun zero => absurd zero vanishes, fun _ => ?_, ?_⟩
        · by_cases only : budget = 0
          · obtain ⟨-, rfl, rfl⟩ := first only
            exact ⟨rfl, man, carry, fits.2, rfl⟩
          · exact last only
        · rw [rest]
          rfl

/-! ## Bounds -/

/-- The mantissa after the four last steps, the bit below it added. -/
def settled (limit man carry : ℕ) : ℕ := (settle limit man carry).1 + (settle limit man carry).2

theorem approach_fits {cfg : Config} (j : ℕ) {man carry : ℕ} (fits : Fits cfg man carry) :
    Fits cfg (approach cfg.fiveLimit j man carry).2.1 (approach cfg.fiveLimit j man carry).2.2 := by
  induction j generalizing man carry with
  | zero => exact fits
  | succ j ih =>
      rw [approach]
      split_ifs with large
      · exact ih fits.half
      · exact ih (fits.five (by omega))

/-- The first digit is a digit. -/
theorem settled_lt {cfg : Config} {man carry : ℕ} (fits : Fits cfg man carry) :
    settled cfg.fiveLimit man carry < 10 * cfg.unit ∧ (settle cfg.fiveLimit man carry).2 ≤ 1 := by
  obtain ⟨limit, limit'⟩ := cfg.fiveLimit_spec
  have room := cfg.unit_ge
  obtain ⟨small, bit⟩ := fits
  unfold settled settle
  split_ifs with first second third
  · constructor <;> simp only <;> omega
  · constructor <;> simp only <;> omega
  · constructor <;> simp only <;> omega
  · constructor <;> simp only <;> omega

/-- A mantissa that is large enough leaves a first digit that is not zero. -/
theorem unit_le_settled {cfg : Config} {man carry : ℕ} (fits : Fits cfg man carry)
    (large : cfg.fiveLimit < 2 * man + carry) : cfg.unit ≤ settled cfg.fiveLimit man carry := by
  obtain ⟨limit, limit'⟩ := cfg.fiveLimit_spec
  have room := cfg.unit_ge
  obtain ⟨small, bit⟩ := fits
  -- the bit below the first digit makes up for a product just short of it
  have eighths : ∀ x, 8 * cfg.unit ≤ x + 1 → cfg.unit ≤ x / 8 + x / 4 % 2 := by
    intro x near
    omega
  unfold settled settle
  split_ifs with first second third
  · exact eighths _ (by omega)
  · simp only
    omega
  · simp only
    omega
  · simp only
    omega

/-- The approach makes every mantissa large that has steps enough. -/
theorem approach_large {cfg : Config} (j : ℕ) {man carry : ℕ} (bit : carry ≤ 1)
    (start : cfg.fiveLimit < 2 ^ j * (2 * man + carry)) :
    cfg.fiveLimit < 2 * (approach cfg.fiveLimit j man carry).2.1 +
      (approach cfg.fiveLimit j man carry).2.2 := by
  induction j generalizing man carry with
  | zero => simpa [approach] using start
  | succ j ih =>
      have power : 0 < 2 ^ j := by positivity
      rw [approach]
      split_ifs with large
      · refine ih (by omega) ?_
        calc cfg.fiveLimit < man := large
          _ = 2 * (man / 2) + man % 2 := by omega
          _ ≤ 2 ^ j * (2 * (man / 2) + man % 2) := Nat.le_mul_of_pos_left _ power
      · refine ih (Nat.zero_le _) ?_
        calc cfg.fiveLimit < 2 ^ (j + 1) * (2 * man + carry) := start
          _ = 2 ^ j * (2 * (2 * man + carry)) := by rw [pow_succ, mul_assoc]
          _ ≤ 2 ^ j * (2 * (5 * man + 3 * carry) + 0) := Nat.mul_le_mul_left _ (by omega)

theorem approach_nil (limit j : ℕ) : approach limit j 0 0 = (j, 0, 0) := by
  induction j with
  | zero => rfl
  | succ j ih => rw [approach, if_neg (by omega), ih]

/-- The zeros and the halvings of an approach balance. -/
theorem approach_balance {limit : ℕ} (positive : 0 < limit) (j : ℕ) {man carry : ℕ}
    (nonzero : man ≠ 0 ∨ carry ≠ 0) :
    (approach limit j man carry).1 ≤ j ∧
      2 ^ (2 * (approach limit j man carry).1) * (man + 1) ≤
        2 ^ j * ((approach limit j man carry).2.1 + 1) := by
  induction j generalizing man carry with
  | zero => simp [approach]
  | succ j ih =>
      rw [approach]
      split_ifs with large
      · obtain ⟨bound, balance⟩ := @ih (man / 2) (man % 2) (by omega)
        refine ⟨by omega, ?_⟩
        calc _ ≤ 2 ^ (2 * (approach limit j (man / 2) (man % 2)).1) * (2 * (man / 2 + 1)) :=
              Nat.mul_le_mul_left _ (by omega)
          _ = 2 * (2 ^ (2 * (approach limit j (man / 2) (man % 2)).1) * (man / 2 + 1)) := by ring
          _ ≤ 2 * (2 ^ j * ((approach limit j (man / 2) (man % 2)).2.1 + 1)) :=
              Nat.mul_le_mul_left _ balance
          _ = _ := by rw [pow_succ]; ring
      · obtain ⟨bound, balance⟩ := @ih (5 * man + 3 * carry) 0 (by omega)
        refine ⟨by simpa using bound, ?_⟩
        simp only
        calc _ = 2 *
              (2 ^ (2 * (approach limit j (5 * man + 3 * carry) 0).1) * (2 * (man + 1))) := by
              rw [Nat.mul_succ 2, pow_add]; ring
          _ ≤ 2 * (2 ^ (2 * (approach limit j (5 * man + 3 * carry) 0).1) *
                (5 * man + 3 * carry + 1)) :=
              Nat.mul_le_mul_left _ (Nat.mul_le_mul_left _ (by omega))
          _ ≤ 2 * (2 ^ j * ((approach limit j (5 * man + 3 * carry) 0).2.1 + 1)) :=
              Nat.mul_le_mul_left _ balance
          _ = _ := by rw [pow_succ]; ring

/-- A bound on the leading zeros of a fraction. -/
theorem approach_zeros_le {cfg : Config} (j : ℕ) {man carry : ℕ} (fits : Fits cfg man carry)
    (nonzero : man ≠ 0 ∨ carry ≠ 0) :
    2 * (approach cfg.fiveLimit j man carry).1 ≤ j + cfg.manBits := by
  obtain ⟨limit, limit'⟩ := cfg.fiveLimit_spec
  have room := cfg.unit_ge
  obtain ⟨-, balance⟩ := approach_balance (show 0 < cfg.fiveLimit by omega) j nonzero
  have final := (approach_fits j fits).1
  rw [← cfg.two_pow_manBits] at final
  have powers : 2 ^ (2 * (approach cfg.fiveLimit j man carry).1) ≤ 2 ^ (j + cfg.manBits) :=
    calc _ ≤ 2 ^ (2 * (approach cfg.fiveLimit j man carry).1) * (man + 1) :=
          Nat.le_mul_of_pos_right _ (by omega)
      _ ≤ 2 ^ j * ((approach cfg.fiveLimit j man carry).2.1 + 1) := balance
      _ ≤ 2 ^ j * 2 ^ cfg.manBits := Nat.mul_le_mul_left _ (by omega)
      _ = 2 ^ (j + cfg.manBits) := (pow_add ..).symm
  exact (Nat.pow_le_pow_iff_right one_lt_two).mp powers

/-! ## Exactness -/

/-- With three more factors of two than the approach has steps, no bit is lost. -/
theorem approach_exact {limit : ℕ} (j : ℕ) {man : ℕ} (bits : 2 ^ (j + 3) ∣ man) :
    8 ∣ (approach limit j man 0).2.1 ∧ (approach limit j man 0).2.2 = 0 ∧
      man * 10 ^ (approach limit j man 0).1 = (approach limit j man 0).2.1 * 2 ^ j := by
  induction j generalizing man with
  | zero => exact ⟨bits, rfl, by simp [approach]⟩
  | succ j ih =>
      have even : 2 ∣ man := Dvd.dvd.trans (dvd_pow_self 2 (by omega)) bits
      rw [approach]
      split_ifs with large
      · obtain ⟨half, rfl⟩ := even
        rw [Nat.mul_mod_right, Nat.mul_div_cancel_left _ two_pos]
        have fewer : 2 ^ (j + 3) ∣ half := by
          rw [show j + 1 + 3 = j + 3 + 1 by omega, pow_succ'] at bits
          exact Nat.dvd_of_mul_dvd_mul_left two_pos bits
        obtain ⟨eighth, clean, value⟩ := ih fewer
        exact ⟨eighth, clean, by rw [pow_succ, ← mul_assoc, ← value]; ring⟩
      · have fewer : 2 ^ (j + 3) ∣ 5 * man :=
          Dvd.dvd.mul_left ((pow_dvd_pow 2 (by omega)).trans bits) 5
        rw [Nat.mul_zero, Nat.add_zero]
        obtain ⟨eighth, clean, value⟩ := ih fewer
        refine ⟨eighth, clean, ?_⟩
        simp only
        rw [pow_succ 2 j, ← mul_assoc, ← value, pow_succ]
        ring

theorem settled_exact {cfg : Config} {man : ℕ} (small : man < 16 * cfg.unit) (bits : 8 ∣ man) :
    8 * settled cfg.fiveLimit man 0 = 5 * man := by
  obtain ⟨limit, limit'⟩ := cfg.fiveLimit_spec
  have room := cfg.unit_ge
  obtain ⟨a, rfl⟩ := bits
  unfold settled settle
  split_ifs with first second third <;> simp only <;> omega

end Nanoprintf
