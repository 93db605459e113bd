import Nanoprintf.Builds
import Nanoprintf.EtoaAgreement
import Nanoprintf.EtoaExact
import Nanoprintf.Foundations.RelativeError
import Nanoprintf.FtoaRounding
import Nanoprintf.IntegerScaling

/-!
# How far a printed number is from its argument

Outside of the range in which no bit is lost the conversions work with a number that
is not their argument. Here is how close it is: every step of the scaling loops has a
relative error of at most three units in the last place of the intermediate, and there
are not many more than a thousand steps. What `%f` and `%e` print is that number
rounded once more.
-/

set_option autoImplicit false

namespace Nanoprintf

open Foundations

variable {cfg : Config}

/-! ## Steps -/

/-- What a step may lose or gain of a number. -/
def Config.stepError (cfg : Config) : ℚ := 3 / 2 ^ cfg.manBits

theorem Config.stepError_nonneg (cfg : Config) : 0 ≤ cfg.stepError := by
  rw [Config.stepError]
  positivity

theorem Config.stepError_le_one (cfg : Config) : cfg.stepError ≤ 1 := by
  have unit := cfg.unit_ge
  have large : (3 : ℚ) ≤ 2 ^ cfg.manBits := by
    have whole : 3 ≤ 2 ^ cfg.manBits := by
      rw [cfg.two_pow_manBits]
      omega
    exact_mod_cast whole
  exact (div_le_one (by positivity)).mpr large

/-- Numbers that differ by little against the range of the intermediate. -/
theorem within_step {a b d : ℕ} (lower : a ≤ b + d) (upper : b ≤ a + d)
    (small : d * (16 * cfg.unit) ≤ 3 * a) : Within cfg.stepError 1 (a : ℚ) b := by
  have part : (d : ℚ) ≤ cfg.stepError * a := by
    have whole : ((16 * cfg.unit : ℕ) : ℚ) = 2 ^ cfg.manBits := by
      rw [← cfg.two_pow_manBits]
      push_cast
      rfl
    rw [Config.stepError, div_mul_eq_mul_div, le_div_iff₀ (by positivity), ← whole]
    exact_mod_cast small
  have lowerQ : (a : ℚ) ≤ b + d := by exact_mod_cast lower
  have upperQ : (b : ℚ) ≤ a + d := by exact_mod_cast upper
  refine .of_abs_le (abs_le.mpr ⟨?_, ?_⟩)
  · linarith
  · linarith

/-- A mantissa with the bit below it. -/
def weight (man carry : ℕ) : ℚ := (2 * man + carry : ℕ) / 2

/-- Where the bit below the mantissa is set, the mantissa is large. -/
def CarryKept (cfg : Config) (man carry : ℕ) : Prop :=
  carry = 0 ∨ cfg.fiveLimit ≤ 2 * man + 1

/-- A halving loses the bit below. -/
theorem within_halve {man carry : ℕ} (fits : Fits cfg man carry) (large : cfg.fiveLimit < man)
    (j : ℕ) : Within cfg.stepError 1 (weight man carry / 2 ^ (j + 1))
      (weight (man / 2) (man % 2) / 2 ^ j) := by
  obtain ⟨-, limit⟩ := cfg.fiveLimit_spec
  have unit := cfg.unit_ge
  have bit := fits.2
  have one := @within_step cfg (2 * man + carry) (2 * man) 1 (by omega) (by omega) (by omega)
  convert one.scale (show (0 : ℚ) ≤ 1 / 2 ^ (j + 2) by positivity) using 1
  · rw [weight]
    field_simp
    ring
  · rw [weight, Nat.div_add_mod]
    push_cast
    field_simp
    ring

/-- A multiplication by five counts the bit below as three fifths. -/
theorem within_five {man carry : ℕ} (fits : Fits cfg man carry) (kept : CarryKept cfg man carry)
    (j : ℕ) : Within cfg.stepError 1 (weight man carry / 2 ^ (j + 1))
      (weight (5 * man + 3 * carry) 0 / 2 ^ j * (1 / 10)) := by
  obtain ⟨-, limit⟩ := cfg.fiveLimit_spec
  have unit := cfg.unit_ge
  have bit := fits.2
  have one := @within_step cfg (5 * (2 * man + carry)) (2 * (5 * man + 3 * carry)) carry
    (by omega) (by omega) (by
      rcases kept with rfl | large
      · omega
      · obtain rfl | rfl : carry = 0 ∨ carry = 1 := by omega
        · omega
        · omega)
  convert one.scale (show (0 : ℚ) ≤ 1 / (10 * 2 ^ (j + 1)) by positivity) using 1
  · rw [weight]
    push_cast
    field_simp
    ring
  · rw [weight]
    push_cast
    field_simp
    ring

/-- **The approach to exponent zero** makes one error for each step. -/
theorem approach_within (j : ℕ) {man carry : ℕ} (fits : Fits cfg man carry)
    (kept : CarryKept cfg man carry) :
    Within cfg.stepError j (weight man carry / 2 ^ j)
      (weight (approach cfg.fiveLimit j man carry).2.1 (approach cfg.fiveLimit j man carry).2.2 /
        10 ^ (approach cfg.fiveLimit j man carry).1) := by
  induction j generalizing man carry with
  | zero =>
      rw [pow_zero, div_one]
      simp only [approach, pow_zero, div_one]
      exact .refl _ _
  | succ j ih =>
      rw [approach]
      split_ifs with large
      · have both := (within_halve fits large j).trans cfg.stepError_nonneg cfg.stepError_le_one
          (ih fits.half (.inr (by omega)))
        rwa [Nat.add_comm] at both
      · have both := (within_five fits kept j).trans cfg.stepError_nonneg cfg.stepError_le_one
          ((ih (fits.five (by omega)) (.inl rfl)).scale (show (0 : ℚ) ≤ 1 / 10 by norm_num))
        rw [Nat.add_comm, div_mul_div_comm, mul_one, ← pow_succ] at both
        exact both

/-- The last four steps make a few errors more. -/
theorem settled_near (limit man carry : ℕ) (bit : carry ≤ 1) :
    5 * (2 * man + carry) ≤ 16 * settled limit man carry + 35 ∧
      16 * settled limit man carry ≤ 5 * (2 * man + carry) + 35 := by
  unfold settled settle
  split_ifs
  · simp only
    omega
  · simp only
    omega
  · simp only
    omega
  · simp only
    omega

/-! ## The fraction -/

/-- The mantissa of a fraction is what it keeps of the bits. -/
theorem fracMan_near {bits : ℕ} (wide : cfg.manBits < cfg.binBits) :
    (2 * (fracMan cfg bits).1 + (fracMan cfg bits).2) * 2 ^ (cfg.binBits - cfg.manBits - 1) ≤
        bits ∧
      bits < (2 * (fracMan cfg bits).1 + (fracMan cfg bits).2) *
        2 ^ (cfg.binBits - cfg.manBits - 1) + 2 ^ (cfg.binBits - cfg.manBits - 1) := by
  obtain ⟨s, split⟩ : ∃ s, cfg.binBits - cfg.manBits = s + 1 :=
    ⟨cfg.binBits - cfg.manBits - 1, by omega⟩
  have joined : 2 * (fracMan cfg bits).1 + (fracMan cfg bits).2 = bits / 2 ^ s := by
    rw [fracMan, if_pos wide, split, Nat.add_sub_cancel, pow_succ, ← Nat.div_div_eq_div_mul]
    simp only
    omega
  rw [joined, split, Nat.add_sub_cancel]
  have parts := Nat.div_add_mod' bits (2 ^ s)
  have rest : bits % 2 ^ s < 2 ^ s := Nat.mod_lt _ (by positivity)
  omega

/-- The bits of a fraction are worth keeping: their first one is set, or the intermediate keeps all
of them. -/
def BitsKept (cfg : Config) (bits : ℕ) : Prop :=
  2 ^ (cfg.binBits - 1) ≤ bits ∨ 2 ^ (cfg.binBits - cfg.manBits) ∣ bits

theorem fracMan_within {bits : ℕ} (kept : BitsKept cfg bits) :
    Within cfg.stepError 1 ((bits : ℚ) / 2 ^ cfg.binBits)
      (weight (fracMan cfg bits).1 (fracMan cfg bits).2 / 2 ^ cfg.manBits) := by
  have exactly := @within_step cfg bits bits 0 le_rfl le_rfl (by omega)
  rcases lt_or_ge cfg.manBits cfg.binBits with wide | narrow
  · obtain ⟨s, split⟩ : ∃ s, cfg.binBits = cfg.manBits + (s + 1) :=
      ⟨cfg.binBits - cfg.manBits - 1, by omega⟩
    obtain ⟨lower, upper⟩ := @fracMan_near cfg bits wide
    rw [show cfg.binBits - cfg.manBits - 1 = s by omega] at lower upper
    set w := 2 * (fracMan cfg bits).1 + (fracMan cfg bits).2 with joined
    have one : Within cfg.stepError 1 (bits : ℚ) (w * 2 ^ s : ℕ) := by
      rcases kept with top | whole
      · refine within_step upper.le (by omega) ?_
        rw [← cfg.two_pow_manBits, ← pow_add, show s + cfg.manBits = cfg.binBits - 1 by omega]
        omega
      · obtain ⟨q, rfl⟩ := whole
        rw [show cfg.binBits - cfg.manBits = s + 1 by omega, pow_succ, mul_assoc] at *
        have same : w = 2 * q := by
          have positive : 0 < 2 ^ s := by positivity
          have least : w ≤ 2 * q := Nat.le_of_mul_le_mul_right (by linarith) positive
          have greatest : 2 * q < w + 1 := Nat.lt_of_mul_lt_mul_right (a := 2 ^ s) (by linarith)
          omega
        rw [same, mul_comm (2 * q)]
        exact exactly
    convert one.scale (show (0 : ℚ) ≤ 1 / 2 ^ cfg.binBits by positivity) using 1
    · rw [mul_one_div]
    · rw [weight, ← joined, split, pow_add, pow_succ]
      push_cast
      field_simp
  · obtain ⟨s, split⟩ : ∃ s, cfg.manBits = cfg.binBits + s := ⟨cfg.manBits - cfg.binBits, by omega⟩
    convert exactly.scale (show (0 : ℚ) ≤ 1 / 2 ^ cfg.binBits by positivity) using 1
    · rw [mul_one_div]
    · rw [weight, fracMan, if_neg (by omega), show cfg.manBits - cfg.binBits = s by omega, split,
        pow_add]
      push_cast
      field_simp
      ring

theorem carryKept_fracMan {bits : ℕ} (kept : BitsKept cfg bits) :
    CarryKept cfg (fracMan cfg bits).1 (fracMan cfg bits).2 := by
  obtain ⟨limit, -⟩ := cfg.fiveLimit_spec
  rcases kept with top | ⟨q, rfl⟩
  · have large := fracMan_top top
    exact .inr (by omega)
  · left
    rw [fracMan]
    split_ifs with wide
    · obtain ⟨s, split⟩ : ∃ s, cfg.binBits - cfg.manBits = s + 1 :=
        ⟨cfg.binBits - cfg.manBits - 1, by omega⟩
      rw [split, Nat.add_sub_cancel, pow_succ, mul_assoc, Nat.mul_div_cancel_left _ (by positivity)]
      simp
    · rfl

/-- What the last steps make of a mantissa that is large enough. -/
theorem settled_abs_le {man carry : ℕ} (bit : carry ≤ 1)
    (large : cfg.fiveLimit < 2 * man + carry) (z : ℕ) :
    |(settled cfg.fiveLimit man carry : ℚ) / (cfg.unit * 10 ^ (z + 1)) -
        weight man carry / 10 ^ z / 2 ^ cfg.manBits| ≤
      36 / 2 ^ cfg.manBits * (weight man carry / 10 ^ z / 2 ^ cfg.manBits) := by
  obtain ⟨lower, upper⟩ := settled_near cfg.fiveLimit man carry bit
  obtain ⟨-, limit⟩ := cfg.fiveLimit_spec
  have unit := cfg.unit_ge
  set S := settled cfg.fiveLimit man carry
  set w := 2 * man + carry with joined
  have whole : (2 : ℚ) ^ cfg.manBits = 16 * cfg.unit := by
    have power := cfg.two_pow_manBits
    exact_mod_cast power
  have positive : (0 : ℚ) < cfg.unit := by exact_mod_cast (by omega : 0 < cfg.unit)
  have room : (17920 : ℚ) * cfg.unit ≤ 5760 * w := by exact_mod_cast (by omega)
  have lowerQ : (5 : ℚ) * w ≤ 16 * S + 35 := by exact_mod_cast lower
  have upperQ : (16 : ℚ) * S ≤ 5 * w + 35 := by exact_mod_cast upper
  have gap : (S : ℚ) / (cfg.unit * 10 ^ (z + 1)) - weight man carry / 10 ^ z / 2 ^ cfg.manBits =
      (16 * S - 5 * w) / (160 * cfg.unit * 10 ^ z) := by
    rw [weight, ← joined, whole, pow_succ]
    field_simp
    ring
  have bound : 36 / 2 ^ cfg.manBits * (weight man carry / 10 ^ z / 2 ^ cfg.manBits) =
      (360 * w / (32 * cfg.unit)) / (160 * cfg.unit * 10 ^ z) := by
    rw [weight, ← joined, whole]
    field_simp
    ring
  rw [gap, bound, abs_div, abs_of_pos (show (0 : ℚ) < 160 * cfg.unit * 10 ^ z by positivity)]
  refine div_le_div_of_nonneg_right ?_ (by positivity)
  have most : (35 : ℚ) ≤ 360 * w / (32 * cfg.unit) := by
    rw [le_div_iff₀ (by positivity)]
    linarith
  refine (abs_le.mpr ⟨?_, ?_⟩).trans most
  · linarith
  · linarith

/-- The intermediate keeps the first bits of the argument: its leading bit is implicit, or those
there is no room for are zero. -/
def Resolved (cfg : Config) (bin : ℕ) : Prop :=
  2 ^ cfg.realManBits ≤ bin ∨ 2 ^ (cfg.realManBits + 1 - cfg.manBits) ∣ bin

theorem bitsKept_of_neg {bin : ℕ} {exp : ℤ} (negative : exp < 0) (resolved : Resolved cfg bin) :
    BitsKept cfg (fracBits cfg bin exp) := by
  obtain ⟨wide, -⟩ := cfg.binBits_bounds
  rw [fracBits, if_pos negative]
  rcases resolved with top | ⟨q, rfl⟩
  · left
    calc 2 ^ (cfg.binBits - 1)
        = 2 ^ cfg.realManBits * 2 ^ (cfg.binBits - cfg.realManBits - 1) := by
          rw [← pow_add]
          congr 1
          omega
      _ ≤ _ := Nat.mul_le_mul_right _ top
  · right
    rw [mul_right_comm, ← pow_add]
    exact Dvd.dvd.mul_right (pow_dvd_pow 2 (by omega)) q

/-- What remains of a thousand errors and a few. -/
theorem errors_le {k : ℕ} (few : k ≤ 1022) (wide : 16 ≤ cfg.manBits) :
    k * cfg.stepError ≤ 1 ∧
      (k * cfg.stepError + (k * cfg.stepError) ^ 2) + 36 / 2 ^ cfg.manBits +
        (k * cfg.stepError + (k * cfg.stepError) ^ 2) * (36 / 2 ^ cfg.manBits) ≤
      2 ^ 12 / 2 ^ cfg.manBits := by
  have power : (2 : ℚ) ^ 16 ≤ 2 ^ cfg.manBits := pow_le_pow_right₀ one_le_two wide
  have fewQ : (k : ℚ) ≤ 1022 := by exact_mod_cast few
  set t : ℚ := 1 / 2 ^ cfg.manBits with unit
  have nonneg : 0 ≤ t := by positivity
  have small : t ≤ 1 / 2 ^ 16 := one_div_le_one_div_of_le (by positivity) power
  have step : cfg.stepError = 3 * t := by
    rw [Config.stepError, unit]
    ring
  have most : k * cfg.stepError ≤ 3066 * t := by
    rw [step]
    nlinarith
  have least : 0 ≤ k * cfg.stepError := mul_nonneg k.cast_nonneg cfg.stepError_nonneg
  have square : (k * cfg.stepError) ^ 2 ≤ 144 * t := by
    have both := mul_le_mul most most least (by positivity)
    nlinarith
  rw [show (36 : ℚ) / 2 ^ cfg.manBits = 36 * t by rw [unit]; ring,
    show (2 : ℚ) ^ 12 / 2 ^ cfg.manBits = 4096 * t by rw [unit]; ring]
  refine ⟨by linarith, ?_⟩
  have rest : (k * cfg.stepError + (k * cfg.stepError) ^ 2) * (36 * t) ≤ 3210 * t * (36 * t) :=
    mul_le_mul_of_nonneg_right (by linarith) (by positivity)
  nlinarith

/-- **The scaling of a fraction** is off by a small part of what it scales. -/
theorem scaled_near {man carry j z m c : ℕ} (fits : Fits cfg man carry)
    (kept : CarryKept cfg man carry) (wide : 16 ≤ cfg.manBits) (few : j ≤ 1021)
    (run : approach cfg.fiveLimit j man carry = (z, m, c))
    (large : m = 0 ∧ c = 0 ∨ cfg.fiveLimit < 2 * m + c) {x : ℚ} (nonneg : 0 ≤ x)
    (front : Within cfg.stepError 1 x (weight man carry / 2 ^ j / 2 ^ cfg.manBits)) :
    |(settled cfg.fiveLimit m c : ℚ) / (cfg.unit * 10 ^ (z + 1)) - x| ≤
      2 ^ 12 / 2 ^ cfg.manBits * x := by
  have ends := approach_fits j fits
  have back := (approach_within j fits kept).scale
    (show (0 : ℚ) ≤ 1 / 2 ^ cfg.manBits by positivity)
  rw [run] at ends back
  simp only [mul_one_div] at back
  obtain ⟨small, total⟩ := @errors_le cfg (1 + j) (by omega) wide
  have near := (front.trans cfg.stepError_nonneg cfg.stepError_le_one back).abs_sub_le
    cfg.stepError_nonneg cfg.stepError_le_one nonneg small
  have last : |(settled cfg.fiveLimit m c : ℚ) / (cfg.unit * 10 ^ (z + 1)) -
      weight m c / 10 ^ z / 2 ^ cfg.manBits| ≤
        36 / 2 ^ cfg.manBits * (weight m c / 10 ^ z / 2 ^ cfg.manBits) := by
    rcases large with ⟨rfl, rfl⟩ | large
    · simp [settled, settle, weight]
    · exact settled_abs_le ends.2 large z
  exact (abs_sub_trans (by positivity) near last).trans (mul_le_mul_of_nonneg_right total nonneg)

/-- The bits of a fraction stand for a number below one. -/
theorem fracBits_value {bin : ℕ} (j : ℕ) :
    (fracBits cfg bin (-1 - (j : ℤ)) : ℚ) / 2 ^ cfg.binBits / 2 ^ j =
      bin * 2 ^ (-1 - (j : ℤ) - cfg.realManBits) := by
  obtain ⟨room, -⟩ := cfg.binBits_bounds
  obtain ⟨r, split⟩ : ∃ r, cfg.binBits = cfg.realManBits + 1 + r :=
    ⟨cfg.binBits - cfg.realManBits - 1, by omega⟩
  have power : (2 : ℚ) ^ (-1 - (j : ℤ) - cfg.realManBits) = (2 ^ (cfg.realManBits + 1 + j))⁻¹ := by
    rw [← zpow_natCast, ← zpow_neg]
    congr 1
    push_cast
    ring
  rw [power, fracBits, if_pos (by omega), split,
    show cfg.realManBits + 1 + r - cfg.realManBits - 1 = r by omega]
  push_cast
  field_simp
  ring

/-- **The fraction of a number below one** is off by a small part of it. -/
theorem fractionAt_near {bin : ℕ} {exp : ℤ} (norm : Normalized cfg bin exp) (negative : exp < 0)
    (resolved : Resolved cfg bin) (wide : 16 ≤ cfg.manBits) :
    |(fractionAt cfg bin exp).value cfg - bin * 2 ^ (exp - cfg.realManBits)| ≤
      2 ^ 12 / 2 ^ cfg.manBits * (bin * 2 ^ (exp - cfg.realManBits)) := by
  have kept := bitsKept_of_neg negative resolved
  have valid := fractionAt_valid norm 0 (by omega)
  obtain ⟨j, rfl⟩ : ∃ j : ℕ, exp = -1 - j := ⟨(-1 - exp).toNat, by omega⟩
  have left : (fractionAt cfg bin (-1 - (j : ℤ))).left = j + 4 := by
    unfold fractionAt
    simp only [if_pos negative]
    omega
  have most := valid.left_le
  have front := (fracMan_within kept).scale (show (0 : ℚ) ≤ 1 / 2 ^ j by positivity)
  rw [mul_one_div, mul_one_div, fracBits_value, div_right_comm] at front
  rcases run : approach cfg.fiveLimit j (fracMan cfg (fracBits cfg bin (-1 - (j : ℤ)))).1
    (fracMan cfg (fracBits cfg bin (-1 - (j : ℤ)))).2 with ⟨z, m, c⟩
  have value : (fractionAt cfg bin (-1 - (j : ℤ))).value cfg =
      settled cfg.fiveLimit m c / (cfg.unit * 10 ^ (z + 1)) := by
    rw [Fraction.value_eq, Fraction.settled, Fraction.zeros, left, Nat.add_sub_cancel]
    unfold fractionAt
    simp only [run]
  rw [value]
  refine scaled_near valid.fits (carryKept_fracMan kept) wide (by omega) run ?_ (by positivity)
    front
  by_cases zero : (fractionAt cfg bin (-1 - (j : ℤ))).IsZero
  · left
    obtain ⟨man, carry⟩ := zero
    unfold fractionAt at man carry
    simp only at man carry
    rw [man, carry, approach_nil] at run
    obtain ⟨-, rest⟩ := Prod.mk.inj run
    exact ⟨(Prod.mk.inj rest).1.symm, (Prod.mk.inj rest).2.symm⟩
  · right
    have start := valid.large rfl zero
    rw [left, Nat.add_sub_cancel] at start
    have ends := approach_large j valid.fits.2 start
    unfold fractionAt at ends
    simp only [run] at ends
    exact ends

/-- The mantissa of a fraction is off by half a unit at most. -/
theorem fracMan_abs_le (bits : ℕ) :
    |weight (fracMan cfg bits).1 (fracMan cfg bits).2 / 2 ^ cfg.manBits -
      (bits : ℚ) / 2 ^ cfg.binBits| ≤ 1 / 2 / 2 ^ cfg.manBits := by
  rcases lt_or_ge cfg.manBits cfg.binBits with wide | narrow
  · obtain ⟨s, split⟩ : ∃ s, cfg.binBits = cfg.manBits + (s + 1) :=
      ⟨cfg.binBits - cfg.manBits - 1, by omega⟩
    obtain ⟨lower, upper⟩ := @fracMan_near cfg bits wide
    rw [show cfg.binBits - cfg.manBits - 1 = s by omega] at lower upper
    set w := 2 * (fracMan cfg bits).1 + (fracMan cfg bits).2 with joined
    have lowerQ : (w : ℚ) * 2 ^ s ≤ bits := by exact_mod_cast lower
    have upperQ : (bits : ℚ) < w * 2 ^ s + 2 ^ s := by exact_mod_cast upper
    have gap : weight (fracMan cfg bits).1 (fracMan cfg bits).2 / 2 ^ cfg.manBits -
        (bits : ℚ) / 2 ^ cfg.binBits =
          (w * 2 ^ s - bits) / (2 ^ cfg.manBits * 2 ^ (s + 1)) := by
      rw [weight, ← joined, split, pow_add, pow_succ]
      field_simp
    have half : (1 : ℚ) / 2 / 2 ^ cfg.manBits = 2 ^ s / (2 ^ cfg.manBits * 2 ^ (s + 1)) := by
      rw [pow_succ]
      field_simp
    rw [gap, half, abs_div, abs_of_pos (show (0 : ℚ) < 2 ^ cfg.manBits * 2 ^ (s + 1) by positivity)]
    exact div_le_div_of_nonneg_right (abs_le.mpr ⟨by linarith, by linarith⟩) (by positivity)
  · obtain ⟨s, split⟩ : ∃ s, cfg.manBits = cfg.binBits + s := ⟨cfg.manBits - cfg.binBits, by omega⟩
    have same : weight (fracMan cfg bits).1 (fracMan cfg bits).2 / 2 ^ cfg.manBits =
        (bits : ℚ) / 2 ^ cfg.binBits := by
      rw [weight, fracMan, if_neg (by omega), show cfg.manBits - cfg.binBits = s by omega, split,
        pow_add]
      push_cast
      field_simp
      ring
    rw [same, sub_self, abs_zero]
    positivity

/-- The fraction behind an integer part is off by a few units. -/
theorem fractionAt_behind (bin : ℕ) {exp : ℤ} (nonneg : 0 ≤ exp)
    (bit : (fractionAt cfg bin exp).carry ≤ 1) :
    |(fractionAt cfg bin exp).value cfg - (fracBits cfg bin exp : ℚ) / 2 ^ cfg.binBits| ≤
      4 / 2 ^ cfg.manBits := by
  have first := @fracMan_abs_le cfg (fracBits cfg bin exp)
  have unit := cfg.unit_ge
  have positive : (0 : ℚ) < cfg.unit := by exact_mod_cast (by omega : 0 < cfg.unit)
  have whole : (2 : ℚ) ^ cfg.manBits = 16 * cfg.unit := by
    have power := cfg.two_pow_manBits
    exact_mod_cast power
  obtain ⟨lower, upper⟩ := settled_near cfg.fiveLimit _ _ bit
  have left : (fractionAt cfg bin exp).left = 4 := if_neg (not_lt.mpr nonneg)
  have value : (fractionAt cfg bin exp).value cfg =
      settled cfg.fiveLimit (fractionAt cfg bin exp).man (fractionAt cfg bin exp).carry /
        (cfg.unit * 10) := by
    rw [Fraction.value_eq, Fraction.settled, Fraction.zeros, left, Nat.sub_self, approach, zero_add,
      pow_one]
  have second : |(fractionAt cfg bin exp).value cfg -
      weight (fractionAt cfg bin exp).man (fractionAt cfg bin exp).carry / 2 ^ cfg.manBits| ≤
        7 / 2 / 2 ^ cfg.manBits := by
    rw [value, weight, whole]
    set S := settled cfg.fiveLimit (fractionAt cfg bin exp).man (fractionAt cfg bin exp).carry
    set w := 2 * (fractionAt cfg bin exp).man + (fractionAt cfg bin exp).carry
    have lowerQ : (5 : ℚ) * w ≤ 16 * S + 35 := by exact_mod_cast lower
    have upperQ : (16 : ℚ) * S ≤ 5 * w + 35 := by exact_mod_cast upper
    have gap : (S : ℚ) / (cfg.unit * 10) - (w : ℚ) / 2 / (16 * cfg.unit) =
        (16 * S - 5 * w) / (160 * cfg.unit) := by
      field_simp
      ring
    have most : (7 : ℚ) / 2 / (16 * cfg.unit) = 35 / (160 * cfg.unit) := by
      field_simp
      norm_num
    rw [gap, most, abs_div, abs_of_pos (show (0 : ℚ) < 160 * cfg.unit by positivity)]
    exact div_le_div_of_nonneg_right (abs_le.mpr ⟨by linarith, by linarith⟩) (by positivity)
  have total : (7 : ℚ) / 2 / 2 ^ cfg.manBits + 1 / 2 / 2 ^ cfg.manBits = 4 / 2 ^ cfg.manBits := by
    ring
  exact (abs_sub_le _ _ _).trans (total ▸ add_le_add second first)

/-! ## The integer part -/

/-- Where a bit is left below the integer mantissa, the mantissa is large. -/
def UpKept (cfg : Config) (s : IntScale) : Prop :=
  s.carry = 0 ∨ 8 * cfg.unit ≤ 5 * (s.man + 1)

theorem upKept_iterate (n : ℕ) {s : IntScale} (fits : Fits cfg s.man s.carry)
    (kept : UpKept cfg s) : UpKept cfg ((IntScale.next cfg)^[n] s) := by
  induction n with
  | zero => exact kept
  | succ n ih =>
      rw [Function.iterate_succ_apply']
      rcases IntScale.next_cases (IntScale.iterate_fits n fits) with
        ⟨-, -, same⟩ | ⟨full, -, same⟩
      · rw [same]
        exact .inl rfl
      · rw [same]
        exact .inr (by simp only; omega)

theorem upKept_start {bin : ℕ} {exp : ℤ} (norm : Normalized cfg bin exp)
    (large : cfg.shiftBits < exp) : UpKept cfg (intScaleStart cfg bin exp) := by
  obtain ⟨real, -, either⟩ := cfg.shiftBits_spec
  have full := norm.full (by omega : 0 ≤ exp)
  have shift : intShift cfg exp = cfg.shiftBits := if_pos large
  obtain ⟨start, -⟩ := @intStart_eq cfg bin exp norm.small
  rw [shift] at start
  rw [UpKept, intScaleStart, start]
  by_cases whole : cfg.realManBits = cfg.shiftBits
  · exact .inl (if_pos whole)
  · right
    have top : 2 ^ cfg.shiftBits ≤ bin / 2 ^ (cfg.realManBits - cfg.shiftBits) := by
      rw [Nat.le_div_iff_mul_le (by positivity), ← pow_add, Nat.add_sub_cancel' real]
      exact full
    have power : 2 ^ cfg.shiftBits = 8 * cfg.unit := by
      rw [← cfg.two_pow_top]
      congr 1
      omega
    simp only
    omega

/-- What a number above the range of the mantissa is scaled to. -/
theorem machine_of_scaled {bin : ℕ} {exp : ℤ} (norm : Normalized cfg bin exp)
    (large : cfg.shiftBits < exp) :
    let last := (IntScale.next cfg)^[(intStart cfg bin exp).2.2] (intScaleStart cfg bin exp)
    machine cfg bin exp = ⟨last.man, last.carry, last.dec, none⟩ := by
  intro last
  obtain ⟨man, carry, start, -⟩ := intStart_truncates norm large
  have steps : (intStart cfg bin exp).2.2 = (exp - cfg.shiftBits).toNat :=
    congrArg (fun p => p.2.2) start
  have ran : etoaIntScale cfg (intStart cfg bin exp).2.2 0 (intStart cfg bin exp).1
      (intStart cfg bin exp).2.1 = (last.dec, last.man, last.carry) :=
    @etoaIntScale_iterate cfg (intStart cfg bin exp).2.2 (intScaleStart cfg bin exp)
  have integer :
      etoaInteger cfg bin exp = ((cfg.realManBits : ℤ), last.dec, last.man, last.carry) := by
    have more : (intStart cfg bin exp).2.2 ≠ 0 := by omega
    rw [etoaInteger, if_pos (by omega)]
    exact Prod.ext (if_pos more) ran
  rw [machine, integer]
  simp only [lt_irrefl, if_false]

/-- Where a bit is left below a large mantissa, rounding it up makes a small error. -/
theorem carry_le {s : IntScale} (bit : s.carry ≤ 1) (kept : UpKept cfg s) :
    (s.carry : ℚ) / 2 * 10 ^ s.dec ≤ 6 / 2 ^ cfg.manBits * s.scaled := by
  have unit := cfg.unit_ge
  have small : s.carry * (16 * cfg.unit) ≤ 6 * (2 * s.man + s.carry) := by
    rcases kept with clear | large
    · rw [clear]
      omega
    · obtain clear | one : s.carry = 0 ∨ s.carry = 1 := by omega
      · rw [clear]
        omega
      · rw [one]
        omega
  have whole : (2 : ℚ) ^ cfg.manBits = 16 * cfg.unit := by
    have power := cfg.two_pow_manBits
    exact_mod_cast power
  have positive : (0 : ℚ) < 2 ^ cfg.manBits := by positivity
  have smallQ : (s.carry : ℚ) * 2 ^ cfg.manBits ≤ 6 * (2 * s.man + s.carry) := by
    rw [whole]
    exact_mod_cast small
  rw [IntScale.scaled, ← mul_assoc]
  refine mul_le_mul_of_nonneg_right ?_ (by positivity)
  rw [div_mul_eq_mul_div, le_div_iff₀ positive]
  linarith

/-- **A large number** is off by a small part of it. -/
theorem machine_near_of_gt {bin : ℕ} {exp : ℤ} (norm : Normalized cfg bin exp)
    (large : cfg.shiftBits < exp) :
    |(machine cfg bin exp).value cfg - bin * 2 ^ (exp - cfg.realManBits)| ≤
      2 ^ 12 / 2 ^ cfg.manBits * (bin * 2 ^ (exp - cfg.realManBits)) := by
  have valid := machine_valid norm
  obtain ⟨man, carry, start, fits, -⟩ := intStart_truncates norm large
  have begins : Fits cfg (intScaleStart cfg bin exp).man (intScaleStart cfg bin exp).carry := by
    rwa [intScaleStart, start]
  rw [machine_of_scaled norm large] at valid ⊢
  obtain ⟨below, near⟩ := intScaleStart_near norm large
  obtain ⟨k, counted, truncated⟩ :=
    IntScale.iterate_truncated (intStart cfg bin exp).2.2 begins
  have ends := IntScale.iterate_fits (intStart cfg bin exp).2.2 begins
  have kept := upKept_iterate (intStart cfg bin exp).2.2 begins (upKept_start norm large)
  set last := (IntScale.next cfg)^[(intStart cfg bin exp).2.2] (intScaleStart cfg bin exp)
  have divided : last.dec = k := counted.trans (Nat.zero_add k)
  have most : (k : ℚ) ≤ 512 := by
    have dec := valid.dec_le
    exact_mod_cast divided ▸ dec
  have lost := truncated.loss_lt (by positivity) below near
  have under := truncated.le.trans below
  have up := carry_le ends.2 kept
  set x : ℚ := bin * 2 ^ (exp - cfg.realManBits)
  have value : Machine.value cfg ⟨last.man, last.carry, last.dec, none⟩ =
      last.scaled + last.carry / 2 * 10 ^ last.dec := by
    simp only [Machine.value, IntScale.scaled]
    ring
  have positive : (0 : ℚ) < 2 ^ cfg.manBits := by positivity
  have nonneg : 0 ≤ x := by positivity
  have part :
      (1 / 2 ^ cfg.manBits + k * (5 / 2 ^ cfg.manBits)) * x ≤ 2561 / 2 ^ cfg.manBits * x := by
    refine mul_le_mul_of_nonneg_right ?_ nonneg
    rw [mul_div_assoc', ← add_div]
    exact div_le_div_of_nonneg_right (by linarith) positive.le
  have six : (6 : ℚ) / 2 ^ cfg.manBits * last.scaled ≤ 6 / 2 ^ cfg.manBits * x :=
    mul_le_mul_of_nonneg_left under (by positivity)
  have bound : (6 : ℚ) / 2 ^ cfg.manBits * x + 2561 / 2 ^ cfg.manBits * x ≤
      2 ^ 12 / 2 ^ cfg.manBits * x := by
    rw [← add_mul, ← add_div]
    exact mul_le_mul_of_nonneg_right (div_le_div_of_nonneg_right (by norm_num) positive.le) nonneg
  have rounded : 0 ≤ (last.carry : ℚ) / 2 * 10 ^ last.dec := by positivity
  have few : 0 ≤ (2561 : ℚ) / 2 ^ cfg.manBits * x := by positivity
  have slack : 0 ≤ (6 : ℚ) / 2 ^ cfg.manBits * x := by positivity
  rw [value]
  exact abs_le.mpr ⟨by linarith, by linarith⟩

/-! ## The number a conversion works with -/

/-- **The number that is printed is near the argument**: for every finite argument it is off by less
than one part in `2 ^ (N - 12)`, if the intermediate has room for its first bits. -/
theorem machine_near {bin : ℕ} {exp : ℤ} (norm : Normalized cfg bin exp)
    (resolved : Resolved cfg bin) (wide : 16 ≤ cfg.manBits) :
    |(machine cfg bin exp).value cfg - bin * 2 ^ (exp - cfg.realManBits)| ≤
      2 ^ 12 / 2 ^ cfg.manBits * (bin * 2 ^ (exp - cfg.realManBits)) := by
  obtain ⟨real, -⟩ := cfg.shiftBits_spec
  rcases lt_or_ge exp 0 with negative | nonneg
  · rw [machine_of_neg norm.small negative]
    simp only [Machine.value, Nat.cast_zero, zero_add]
    exact fractionAt_near norm negative resolved wide
  by_cases covered : exp ≤ cfg.shiftBits
  · have full := norm.full nonneg
    have valid := machine_valid norm
    have integer : (1 : ℚ) ≤ bin * 2 ^ (exp - cfg.realManBits) :=
      (one_le_zpow₀ one_le_two nonneg).trans (two_zpow_le_value exp full)
    rw [machine_of_le norm.small nonneg covered] at valid ⊢
    by_cases inside : exp < cfg.realManBits
    · rw [if_pos inside] at valid ⊢
      obtain ⟨-, fraction⟩ := valid.fraction _ rfl
      have near := fractionAt_behind bin nonneg fraction.fits.2
      obtain ⟨bits, floor⟩ := fracBits_eq_fract norm.small (by omega) inside
      rw [if_neg (not_lt.mpr nonneg)] at floor
      set x : ℚ := bin * 2 ^ (exp - cfg.realManBits)
      have positive : 0 ≤ x := zero_le_one.trans integer
      have split : x = (bin / 2 ^ (cfg.realManBits - exp.toNat) : ℕ) +
          (fracBits cfg bin exp : ℚ) / 2 ^ cfg.binBits := by
        rw [bits, mul_div_cancel_right₀ _ (by positivity), ← floor,
          natCast_floor_eq_intCast_floor positive, Int.floor_add_fract]
      have gap : Machine.value cfg ⟨bin / 2 ^ (cfg.realManBits - exp.toNat),
          if (cfg.realManBits : ℤ) = exp then 0
            else bin / 2 ^ (cfg.realManBits - exp.toNat - 1) % 2, 0,
          some (fractionAt cfg bin exp)⟩ - x =
            (fractionAt cfg bin exp).value cfg - (fracBits cfg bin exp : ℚ) / 2 ^ cfg.binBits := by
        rw [split]
        simp only [Machine.value]
        ring
      rw [gap]
      calc _ ≤ 4 / 2 ^ cfg.manBits := near
        _ ≤ 2 ^ 12 / 2 ^ cfg.manBits * 1 := by
            rw [mul_one]
            exact div_le_div_of_nonneg_right (by norm_num) (by positivity)
        _ ≤ 2 ^ 12 / 2 ^ cfg.manBits * x := mul_le_mul_of_nonneg_left integer (by positivity)
    · obtain rfl : exp = cfg.realManBits := by omega
      have same : Machine.value cfg ⟨bin / 2 ^ (cfg.realManBits - (cfg.realManBits : ℤ).toNat),
          if (cfg.realManBits : ℤ) = cfg.realManBits then 0
            else bin / 2 ^ (cfg.realManBits - (cfg.realManBits : ℤ).toNat - 1) % 2, 0,
          if (cfg.realManBits : ℤ) < cfg.realManBits then some (fractionAt cfg bin cfg.realManBits)
            else none⟩ = bin * 2 ^ ((cfg.realManBits : ℤ) - cfg.realManBits) := by
        simp [Machine.value]
      rw [same, sub_self, abs_zero]
      positivity
  · exact machine_near_of_gt norm (by omega)

/-- Of a subnormal argument the intermediate has room for all bits that are set. -/
def SubnormalFits (cfg : Config) (f : RealBits cfg) : Prop :=
  biasedExp cfg f.toNat = 0 → 2 ^ (cfg.realManBits + 1 - cfg.manBits) ∣ fracField cfg f.toNat

instance (f : RealBits cfg) : Decidable (SubnormalFits cfg f) :=
  inferInstanceAs (Decidable (_ → _))

theorem Reads.resolved {f : RealBits cfg} {bin : ℕ} {exp : ℤ} (reads : Reads cfg f bin exp)
    (subnormal : SubnormalFits cfg f) : Resolved cfg bin := by
  have split := reads.normalized
  rw [normalize] at split
  by_cases zero : biasedExp cfg f.toNat = 0
  · rw [if_neg (not_not.mpr zero)] at split
    right
    rw [← (Prod.mk.inj split).1]
    exact subnormal zero
  · rw [if_pos zero] at split
    have manLt : fracField cfg f.toNat < 2 ^ cfg.realManBits := Nat.mod_lt _ (by positivity)
    have implicit : bin = 2 ^ cfg.realManBits + fracField cfg f.toNat := by
      rw [← (Prod.mk.inj split).1, Nat.or_comm, ← Nat.shiftLeft_add_eq_or_of_lt manLt,
        Nat.one_shiftLeft]
    left
    omega

/-- **A conversion works with a number near its argument.** -/
theorem approximation_near {f : RealBits cfg} (finite : IsFinite cfg f)
    (subnormal : SubnormalFits cfg f) (wide : 16 ≤ cfg.manBits) :
    |approximation cfg f - magnitude cfg f| ≤ 2 ^ 12 / 2 ^ cfg.manBits * magnitude cfg f := by
  obtain ⟨bin, exp, reads⟩ := exists_reads finite
  rw [approximation, reads.machineOf_eq, reads.value]
  exact machine_near reads.norm (reads.resolved subnormal) wide

/-! ## The number that is printed -/

theorem fixedRound_near (q : ℕ) {v : ℚ} (nonneg : 0 ≤ v) :
    |(fixedRound q v : ℚ) / 10 ^ q - v| ≤ 1 / 2 / 10 ^ q := by
  have positive : (0 : ℚ) < 10 ^ q := by positivity
  have cast : ((fixedRound q v : ℤ) : ℚ) = roundHalfEven (v * 10 ^ q) := by
    exact_mod_cast fixedRound_nonneg nonneg
  have near := (roundHalfEven_spec (v * 10 ^ q)).1
  rw [← cast, Int.cast_natCast, abs_sub_comm] at near
  have scaled : (fixedRound q v : ℚ) / 10 ^ q - v = (fixedRound q v - v * 10 ^ q) / 10 ^ q := by
    field_simp
  rw [scaled, abs_div, abs_of_pos positive]
  exact div_le_div_of_nonneg_right near positive.le

theorem sciRound_near (p : ℕ) {v : ℚ} (nonneg : 0 ≤ v) :
    |((sciRound p v).1 : ℚ) * 10 ^ ((sciRound p v).2 - p) - v| ≤
      1 / 2 * 10 ^ ((sciRound p v).2 - p) := by
  unfold sciRound
  by_cases zero : v = 0
  · rw [if_pos zero, zero]
    simp only [Nat.cast_zero, zero_mul, sub_self, abs_zero]
    positivity
  rw [if_neg zero]
  set x := Int.log 10 v
  have positive : (0 : ℚ) < 10 ^ (x - p) := by positivity
  have inverse : (10 : ℚ) ^ (p - x) * 10 ^ (x - p) = 1 := by
    rw [← zpow_add₀ (by norm_num), sub_add_sub_cancel, sub_self, zpow_zero]
  have cast :
      ((roundHalfEven (v * 10 ^ (p - x))).toNat : ℚ) = roundHalfEven (v * 10 ^ (p - x)) := by
    exact_mod_cast Int.toNat_of_nonneg (roundHalfEven_nonneg (by positivity))
  have near := (roundHalfEven_spec (v * 10 ^ (p - x))).1
  rw [← cast, abs_sub_comm] at near
  set n := (roundHalfEven (v * 10 ^ (p - x))).toNat
  have scaled : (n : ℚ) * 10 ^ (x - p) - v = (n - v * 10 ^ (p - x)) * 10 ^ (x - p) := by
    rw [sub_mul, mul_assoc v, inverse, mul_one]
  have digits : |(n : ℚ) * 10 ^ (x - p) - v| ≤ 1 / 2 * 10 ^ (x - p) := by
    rw [scaled, abs_mul, abs_of_pos positive]
    exact mul_le_mul_of_nonneg_right near positive.le
  simp only
  split_ifs with carry
  · -- the digits are those of the next decade
    have next : (10 : ℚ) ^ (x + 1 - p) = 10 * 10 ^ (x - p) := by
      rw [show x + 1 - p = 1 + (x - p) by ring, zpow_add₀ (by norm_num), zpow_one]
    have same : ((10 ^ p : ℕ) : ℚ) * 10 ^ (x + 1 - p) = n * 10 ^ (x - p) := by
      have ten : (n : ℚ) = 10 ^ (p + 1) := by exact_mod_cast carry
      rw [ten, next, pow_succ]
      push_cast
      ring
    rw [same, next]
    exact digits.trans (by linarith)
  · exact digits

/-- The number a conversion works with is its integer and less than one more. -/
theorem Machine.Valid.value_between {m : Machine} (valid : m.Valid cfg) :
    (m.int : ℚ) * 10 ^ m.dec ≤ m.value cfg ∧ m.value cfg ≤ (m.int + 1) * 10 ^ m.dec := by
  have bit : (m.up : ℚ) ≤ 1 := by exact_mod_cast valid.fits.2
  cases frac : m.frac with
  | none =>
      have positive : (0 : ℚ) ≤ 10 ^ m.dec := by positivity
      rw [Machine.value, frac]
      refine ⟨mul_le_mul_of_nonneg_right ?_ positive, mul_le_mul_of_nonneg_right ?_ positive⟩
      · simp
      · linarith
  | some f =>
      obtain ⟨dec, part⟩ := valid.fraction f frac
      have less := part.value_lt_one
      have nonneg := @Fraction.value_nonneg cfg f
      rw [Machine.value, frac, dec, pow_zero, mul_one, mul_one]
      exact ⟨by linarith, by linarith⟩

/-- Digits of the integer that go are rounded at the first of them, whatever follows the integer. -/
theorem droppedRound_near {m : Machine} (valid : m.Valid cfg) {p k : ℕ} (nonzero : k ≠ 0)
    (many : numeralLength 10 m.int = p + 1 + k) (tail : Bool) :
    |((droppedRound m tail p k).1 : ℚ) * 10 ^ (droppedRound m tail p k).2 - m.value cfg| ≤
      3 / 5 * 10 ^ (droppedRound m tail p k).2 := by
  obtain ⟨lower, upper⟩ := valid.value_between
  have ten : 10 ^ k = 10 * 10 ^ (k - 1) := by
    rw [← pow_succ']
    congr 1
    omega
  have power : 0 < 10 ^ (k - 1) := by positivity
  have below : m.int / 10 ^ k < 10 ^ (p + 1) := by
    rw [Nat.div_lt_iff_lt_mul (by positivity), ← pow_add, ← many]
    exact lt_pow_numeralLength (by norm_num) m.int
  set U := m.int / 10 ^ k + if roundsUp m.int k (tail = false) then 1 else 0 with rounded
  have small : U ≤ 10 ^ (p + 1) := by
    rw [rounded]
    split_ifs <;> omega
  obtain ⟨above, under⟩ := roundsUp_near m.int k (tail = false)
  rw [← rounded] at above under
  have deep : ((m.dec + k : ℕ) : ℤ) ≤ (droppedRound m tail p k).2 := by
    exact_mod_cast le_carried _ _ _
  have value : ((droppedRound m tail p k).1 : ℚ) * 10 ^ (droppedRound m tail p k).2 =
      U * 10 ^ k * 10 ^ m.dec := by
    rw [droppedRound, carried_value (by omega) small, zpow_add₀ (by norm_num), zpow_natCast,
      zpow_natCast]
    ring
  have unit : (10 : ℚ) ^ k * 10 ^ m.dec ≤ 10 ^ (droppedRound m tail p k).2 := by
    rw [← pow_add, Nat.add_comm, ← zpow_natCast]
    exact zpow_le_zpow_right₀ (by norm_num) deep
  have tens : (10 : ℚ) ≤ 10 ^ k := by
    exact_mod_cast (by omega : 10 ≤ 10 ^ k)
  have aboveQ : 2 * ((10 : ℚ) ^ k * U) ≤ 2 * m.int + 10 ^ k := by exact_mod_cast above
  have underQ : 2 * (m.int : ℚ) ≤ 2 * (10 ^ k * U) + 10 ^ k := by exact_mod_cast under
  have scale : (0 : ℚ) ≤ 10 ^ m.dec := by positivity
  have high := mul_le_mul_of_nonneg_right
    (show (U : ℚ) * 10 ^ k ≤ m.int + 3 / 5 * 10 ^ k by linarith) scale
  have low := mul_le_mul_of_nonneg_right
    (show (m.int : ℚ) + 1 ≤ U * 10 ^ k + 3 / 5 * 10 ^ k by linarith) scale
  rw [value]
  refine (abs_le.mpr ⟨?_, ?_⟩).trans (mul_le_mul_of_nonneg_left unit (by norm_num))
  · linarith
  · linarith

/-! ## The conversions -/

/-- **`%f` is accurate**: the number it prints is half a unit of its last place from its
argument, and a small part of the argument. -/
theorem npfEtoaRev_fixed_near [cfg.RepExact] {f : RealBits cfg} (finite : IsFinite cfg f)
    (subnormal : SubnormalFits cfg f) (wide : 16 ≤ cfg.manBits) {spec : NpfFormatSpec}
    (conversion : spec.convSpec = .floatDec)
    {q : ℕ} (precision : npfDecPrec cfg spec = q) (buf : ConvBuffer cfg) {t : List Char}
    (leaves : Leaves (npfEtoaRev cfg buf spec f) t) :
    |denotes t - magnitude cfg f| ≤
      1 / 2 / 10 ^ q + 2 ^ 12 / 2 ^ cfg.manBits * magnitude cfg f := by
  rcases npfEtoaRev_fixed finite conversion precision buf with ⟨-, printed⟩ | ⟨-, word⟩
  · obtain rfl := leaves.unique printed
    rw [denotes_fixedText pointed]
    exact (abs_sub_le _ _ _).trans (add_le_add (fixedRound_near q (Machine.Valid.value_nonneg _))
      (approximation_near finite subnormal wide))
  · exact (leaves.not_word (by simp [errWord, inCase]) word).elim

/-- `%.1f` prints `0.05` as `0.0`. -/
theorem npfEtoaRev_fixed_near_twentieth :
    |denotes "0.0".toList - magnitude .standard (pattern _ 0x3fa999999999999a)| ≤
      1 / 2 / 10 ^ 1 + 2 ^ 12 / 2 ^ Config.standard.manBits *
        magnitude .standard (pattern _ 0x3fa999999999999a) :=
  @npfEtoaRev_fixed_near .standard _ (pattern _ 0x3fa999999999999a) (by decide)
    (by decide) (by decide) (.lower .floatDec 1) rfl 1 rfl .blank _ (by decide)

/-- **`%e` is accurate**: the number it prints is less than a unit of its last place from its
argument, and a small part of the argument. -/
theorem npfEtoaRev_scientific_near [cfg.RepExact] {f : RealBits cfg} (finite : IsFinite cfg f)
    (subnormal : SubnormalFits cfg f) (wide : 16 ≤ cfg.manBits) {spec : NpfFormatSpec}
    (conversion : spec.convSpec = .floatSci)
    (compiled : cfg.floatSci = true) {p : ℕ} (precision : npfDecPrec cfg spec = p)
    (buf : ConvBuffer cfg) {t : List Char} (leaves : Leaves (npfEtoaRev cfg buf spec f) t) :
    |denotes t - magnitude cfg f| ≤
      3 / 5 * 10 ^ (printedExponent t - p) + 2 ^ 12 / 2 ^ cfg.manBits * magnitude cfg f := by
  have near := approximation_near finite subnormal wide
  have digits : ∀ {n : ℕ} {x : ℤ}, (n : ℚ) / 10 ^ p * 10 ^ x = n * 10 ^ (x - p) := by
    intro n x
    rw [zpow_sub₀ (by norm_num), zpow_natCast]
    ring
  rcases npfEtoaRev_scientific_cases finite conversion compiled precision buf with
    word | ⟨-, -, printed⟩ | ⟨-, k, dropped, many, printed⟩
  · exact (leaves.not_word (by simp [errWord, inCase]) word).elim
  · obtain rfl := leaves.unique printed
    have nonneg : 0 ≤ approximation cfg f := Machine.Valid.value_nonneg _
    have small := (sciRound_bounds p nonneg).1
    rw [denotes_sciText _ _ small pointed, printedExponent_sciText _ _ _ small, digits]
    have rounded : |((sciRound p (approximation cfg f)).1 : ℚ) *
        10 ^ ((sciRound p (approximation cfg f)).2 - p) - approximation cfg f| ≤
          3 / 5 * 10 ^ ((sciRound p (approximation cfg f)).2 - p) :=
      (sciRound_near p nonneg).trans (mul_le_mul_of_nonneg_right (by norm_num) (by positivity))
    exact (abs_sub_le _ _ _).trans (add_le_add rounded near)
  · obtain rfl := leaves.unique printed
    have small := droppedRound_lt (machineOf cfg f) (integerTail cfg f) p k
    rw [denotes_sciText _ _ small pointed, printedExponent_sciText _ _ _ small, digits,
      add_sub_cancel_right]
    exact (abs_sub_le _ _ _).trans
      (add_le_add (droppedRound_near (machineOf_valid finite) dropped many _) near)

/-- `%.3e` prints `1e15` as `1.000e+15`. -/
theorem npfEtoaRev_scientific_near_large :
    |denotes "1.000e+15".toList - magnitude .standard (pattern _ 0x430c6bf526340000)| ≤
      3 / 5 * 10 ^ (printedExponent "1.000e+15".toList - (3 : ℕ)) +
        2 ^ 12 / 2 ^ Config.standard.manBits *
          magnitude .standard (pattern _ 0x430c6bf526340000) :=
  @npfEtoaRev_scientific_near .standard _ (pattern _ 0x430c6bf526340000) (by decide)
    (by decide) (by decide) (.lower .floatSci 3) rfl rfl 3 rfl .blank _ (by decide)

end Nanoprintf
