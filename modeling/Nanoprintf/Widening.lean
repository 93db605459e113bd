import Nanoprintf.BuildResults
import Nanoprintf.RealPatterns

/-!
# A float computed as a double

A `float` has the same value as a `double`, with another mantissa and, where it is
subnormal, another exponent. `Machine.Alike` is what the conversions can tell apart of the
numbers they work with, and `machine_widened` says that they cannot tell the one from the
other: the scaling of the double catches up with the scaling of the float before any digit
is taken.
-/

set_option autoImplicit false

namespace Nanoprintf

open Foundations

variable {cfg : Config}

/-- The build that computes with `double` and is the same otherwise. -/
def Config.doubled (cfg : Config) : Config :=
  { cfg with
    singlePrecision := false
    single_float := nofun }

instance : cfg.doubled.RepExact := .of_double _ rfl

instance [carried : cfg.FixedCarried] : cfg.doubled.FixedCarried := ⟨carried.carried⟩

/-! ## Fractions with low bits that are zero -/

/-- The fraction mantissa of a number of `w` bits that stands at the top. -/
theorem fracMan_top_bits {n w : ℕ} (inside : w ≤ cfg.binBits) :
    fracMan cfg (n * 2 ^ (cfg.binBits - w)) =
      if w ≤ cfg.manBits then (n * 2 ^ (cfg.manBits - w), 0)
      else (n / 2 ^ (w - cfg.manBits), n / 2 ^ (w - cfg.manBits - 1) % 2) := by
  have div : ∀ a b : ℕ, n * 2 ^ a / 2 ^ (a + b) = n / 2 ^ b := fun a b => by
    rw [pow_add, mul_comm n, Nat.mul_div_mul_left _ _ (by positivity)]
  have mul : ∀ a b : ℕ, n * 2 ^ (a + b) / 2 ^ a = n * 2 ^ b := fun a b => by
    rw [pow_add, mul_left_comm, Nat.mul_div_cancel_left _ (by positivity)]
  rw [fracMan]
  split_ifs with narrow few few
  · rw [show cfg.binBits - w = cfg.binBits - cfg.manBits + (cfg.manBits - w) by omega, mul,
      show cfg.binBits - cfg.manBits + (cfg.manBits - w) =
        cfg.binBits - cfg.manBits - 1 + (cfg.manBits - w + 1) by omega, mul, pow_succ, ← mul_assoc,
      Nat.mul_mod_left]
  · rw [show cfg.binBits - cfg.manBits = cfg.binBits - w + (w - cfg.manBits) by omega, div,
      show cfg.binBits - w + (w - cfg.manBits) - 1 = cfg.binBits - w + (w - cfg.manBits - 1)
        by omega, div]
  · rw [mul_assoc, ← pow_add, show cfg.binBits - w + (cfg.manBits - cfg.binBits) = cfg.manBits - w
      by omega]
  · omega

theorem approach_halve {limit man : ℕ} (j carry : ℕ) (large : limit < man) :
    approach limit (j + 1) man carry = approach limit j (man / 2) (man % 2) :=
  if_pos large

theorem approach_five {limit man : ℕ} (j carry : ℕ) (small : man ≤ limit) :
    approach limit (j + 1) man carry =
      ((approach limit j (5 * man + 3 * carry) 0).1 + 1,
        (approach limit j (5 * man + 3 * carry) 0).2) :=
  if_neg (Nat.not_lt.mpr small)

theorem fracScale_spent (left digit man carry : ℕ) :
    fracScale cfg 0 (left + 1) digit man carry = ⟨left + 1, 0, man, carry⟩ := rfl

/-- A mantissa with a zero for its low bit is halved to the other one, later at the latest. -/
theorem approach_double {limit : ℕ} (j : ℕ) {man : ℕ} (large : limit < 2 ^ j * (2 * man)) :
    approach limit (j + 1) (2 * man) 0 = approach limit j man 0 := by
  induction j generalizing man with
  | zero =>
      rw [approach_halve _ _ (by simpa using large)]
      simp
  | succ j ih =>
      by_cases more : limit < 2 * man
      · rw [approach_halve _ _ more]
        simp
      · have next : limit < 2 ^ j * (2 * (5 * man)) := by
          calc limit < 2 ^ (j + 1) * (2 * man) := large
            _ = 2 ^ j * (2 * (2 * man)) := by ring
            _ ≤ 2 ^ j * (2 * (5 * man)) := Nat.mul_le_mul_left _ (by omega)
        rw [approach_five _ _ (show 2 * man ≤ limit by omega),
          show 5 * (2 * man) + 3 * 0 = 2 * (5 * man) by ring, ih next,
          approach_five _ _ (show man ≤ limit by omega), show 5 * man + 3 * 0 = 5 * man by ring]

theorem approach_shift {limit : ℕ} (j y : ℕ) {man : ℕ} (large : limit < 2 ^ j * (2 * man)) :
    approach limit (j + y) (man * 2 ^ y) 0 = approach limit j man 0 := by
  induction y with
  | zero => rw [pow_zero, mul_one, Nat.add_zero]
  | succ y ih =>
      have more : limit < 2 ^ (j + y) * (2 * (man * 2 ^ y)) := by
        have one : 1 ≤ 2 ^ y := Nat.one_le_two_pow
        calc limit < 2 ^ j * (2 * man) := large
          _ ≤ 2 ^ j * (2 * man) * (2 ^ y * 2 ^ y) := Nat.le_mul_of_pos_right _ (by positivity)
          _ = 2 ^ (j + y) * (2 * (man * 2 ^ y)) := by ring
      rw [← ih, ← approach_double _ more, pow_succ, Nat.add_assoc, mul_comm 2, mul_assoc]

/-- The scaling used the whole precision up, and what is left does not round. -/
structure Scaled.Quiet (cfg : Config) (q : ℕ) (r : Scaled) : Prop where
  zeros : r.zeros = q
  below : 4 < r.left ∨ r.man < 8 * cfg.unit ∧ r.carry = 0

theorem fracScale_double {budget : ℕ} (j : ℕ) {man : ℕ} (fits : 2 * man < 16 * cfg.unit)
    (large : cfg.fiveLimit < 2 ^ j * (2 * man)) :
    fracScale cfg budget (j + 5) 0 (2 * man) 0 = fracScale cfg budget (j + 4) 0 man 0 ∨
      (fracScale cfg budget (j + 5) 0 (2 * man) 0).Quiet cfg budget ∧
        (fracScale cfg budget (j + 4) 0 man 0).Quiet cfg budget := by
  induction j generalizing budget man with
  | zero =>
      rcases budget with - | budget
      · rw [fracScale_spent, fracScale_spent]
        exact .inr ⟨⟨rfl, .inl (by norm_num)⟩, rfl, .inr ⟨by simp only; omega, rfl⟩⟩
      · refine .inl ?_
        rw [fracScale_halve _ _ (by omega) (.inl (by simpa using large))]
        simp
  | succ j ih =>
      rcases budget with - | budget
      · rw [fracScale_spent, fracScale_spent]
        exact .inr ⟨⟨rfl, .inl (by simp only; omega)⟩, rfl, .inl (by simp only; omega)⟩
      · by_cases more : cfg.fiveLimit < 2 * man
        · refine .inl ?_
          rw [fracScale_halve _ _ (by omega) (.inl more)]
          simp
        · have limit := cfg.fiveLimit_spec
          have next : cfg.fiveLimit < 2 ^ j * (2 * (5 * man)) := by
            calc cfg.fiveLimit < 2 ^ (j + 1) * (2 * man) := large
              _ = 2 ^ j * (2 * (2 * man)) := by ring
              _ ≤ 2 ^ j * (2 * (5 * man)) := Nat.mul_le_mul_left _ (by omega)
          rw [show j + 1 + 5 = j + 5 + 1 by omega, show j + 1 + 4 = j + 4 + 1 by omega,
            fracScale_zero (by omega) (by omega) (by omega),
            fracScale_zero (by omega) (by omega) (by omega),
            show 5 * (2 * man) + 3 * 0 = 2 * (5 * man) by ring,
            show 5 * man + 3 * 0 = 5 * man by ring]
          rcases @ih budget (5 * man) (by omega) next with same | ⟨⟨zeros, below⟩, zeros', below'⟩
          · exact .inl (by rw [same])
          · exact .inr ⟨⟨by simp only [zeros], below⟩, by simp only [zeros'], below'⟩

/-- The scaling of a shifted mantissa comes to the same, or neither scaling leaves anything. -/
theorem fracScale_shift {budget : ℕ} (j y : ℕ) {man : ℕ} (fits : man * 2 ^ y < 16 * cfg.unit)
    (large : cfg.fiveLimit < 2 ^ j * (2 * man)) :
    fracScale cfg budget (j + 4 + y) 0 (man * 2 ^ y) 0 = fracScale cfg budget (j + 4) 0 man 0 ∨
      (fracScale cfg budget (j + 4 + y) 0 (man * 2 ^ y) 0).Quiet cfg budget ∧
        (fracScale cfg budget (j + 4) 0 man 0).Quiet cfg budget := by
  induction y with
  | zero =>
      rw [pow_zero, mul_one, Nat.add_zero]
      exact .inl rfl
  | succ y ih =>
      have double : man * 2 ^ (y + 1) = 2 * (man * 2 ^ y) := by ring
      have more : cfg.fiveLimit < 2 ^ (j + y) * (2 * (man * 2 ^ y)) := by
        calc cfg.fiveLimit < 2 ^ j * (2 * man) := large
          _ ≤ 2 ^ j * (2 * man) * (2 ^ y * 2 ^ y) := Nat.le_mul_of_pos_right _ (by positivity)
          _ = 2 ^ (j + y) * (2 * (man * 2 ^ y)) := by ring
      have step := @fracScale_double cfg budget (j + y) _ (double ▸ fits) more
      rw [double]
      rw [show j + y + 5 = j + 4 + (y + 1) by omega, show j + y + 4 = j + 4 + y by omega] at step
      rcases ih (by omega) with same | ⟨quiet, quiet'⟩
      · rw [same] at step
        exact step
      · rcases step with same | ⟨first, -⟩
        · exact .inr ⟨same ▸ quiet, quiet'⟩
        · exact .inr ⟨first, quiet'⟩

/-! ## Numbers the conversions cannot tell apart -/

structure Machine.Alike (cfg : Config) (m m' : Machine) : Prop where
  int : m.int = m'.int
  dec : m.dec = m'.dec
  value : m.value cfg = m'.value cfg
  fused : ∀ q, fusedRound cfg q m = fusedRound cfg q m'

/-- A fraction that leaves no digit and does not round. -/
theorem fusedRound_quiet {q int up dec : ℕ} {f : Fraction}
    (quiet : (fracScale cfg q f.left 0 f.man f.carry).Quiet cfg q) :
    fusedRound cfg q ⟨int, up, dec, some f⟩ = int * 10 ^ q := by
  obtain ⟨zeros, below⟩ := quiet
  have digits : fusedDigits cfg q f = (0,
      if (fracScale cfg q f.left 0 f.man f.carry).man ≠ 2 ^ cfg.manBits - 1 then
        (fracScale cfg q f.left 0 f.man f.carry).man +
          (fracScale cfg q f.left 0 f.man f.carry).carry
      else (fracScale cfg q f.left 0 f.man f.carry).man) := by
    rw [fusedDigits]
    simp only [zeros, Nat.sub_self, if_true]
  rw [fusedRound]
  simp only [digits, Nat.add_zero]
  rw [if_neg, Nat.add_zero]
  rintro ⟨early, round⟩
  obtain ⟨small, keeps⟩ := below.resolve_left (by omega)
  split_ifs at round <;> omega

theorem fracScale_nil (budget left digit : ℕ) :
    (fracScale cfg budget left digit 0 0).man = 0 ∧
      (fracScale cfg budget left digit 0 0).carry = 0 := by
  have five : timesFive cfg 0 0 = 0 := by simp [timesFive]
  induction left generalizing budget digit with
  | zero => exact ⟨rfl, rfl⟩
  | succ left ih =>
      rw [fracScale]
      simp only [Nat.zero_shiftRight, Nat.zero_and, five]
      split_ifs
      · exact ⟨rfl, rfl⟩
      · exact ih _ _
      · exact ih _ _
      · exact ih _ _

/-- A fraction that is zero. -/
theorem fusedRound_nil (q int up dec left : ℕ) :
    fusedRound cfg q ⟨int, up, dec, some ⟨0, 0, left⟩⟩ = int * 10 ^ q := by
  obtain ⟨man, carry⟩ := @fracScale_nil cfg q left 0
  have positive := cfg.unit_ge
  have digits : fusedDigits cfg q ⟨0, 0, left⟩ = (0, 0) := by
    rw [fusedDigits]
    simp only [man, carry]
    split_ifs <;> simp
  rw [fusedRound]
  simp only [digits, Nat.add_zero]
  rw [if_neg (by omega), Nat.add_zero]

theorem Machine.Alike.refl (m : Machine) : m.Alike cfg m := ⟨rfl, rfl, rfl, fun _ => rfl⟩

/-- Behind an integer that is exact a fraction that is zero makes no difference. -/
theorem Machine.alike_nil (int left : ℕ) :
    Machine.Alike cfg ⟨int, 0, 0, none⟩ ⟨int, 0, 0, some ⟨0, 0, left⟩⟩ where
  int := rfl
  dec := rfl
  value := by
    simp [Machine.value, Fraction.value, Fraction.IsZero]
  fused q := by
    rw [fusedRound_nil, fusedRound]
    simp

/-- A fraction makes no difference by how far its mantissa is shifted. -/
theorem Machine.alike_shift {man j : ℕ} (y : ℕ) (fits : man * 2 ^ y < 16 * cfg.unit)
    (large : man ≠ 0 → cfg.fiveLimit < 2 ^ j * (2 * man)) :
    Machine.Alike cfg ⟨0, 0, 0, some ⟨man, 0, j + 4⟩⟩
      ⟨0, 0, 0, some ⟨man * 2 ^ y, 0, j + 4 + y⟩⟩ := by
  by_cases zero : man = 0
  · subst zero
    refine ⟨rfl, rfl, ?_, fun q => ?_⟩
    · simp [Machine.value, Fraction.value, Fraction.IsZero]
    · rw [Nat.zero_mul, fusedRound_nil, fusedRound_nil]
  · have shifted := approach_shift j y (large zero)
    have steps : j + 4 + y - 4 = j + y := by omega
    refine ⟨rfl, rfl, ?_, fun q => ?_⟩
    · simp [Machine.value, Fraction.value, Fraction.IsZero, Fraction.settled, Fraction.zeros, steps,
        shifted, zero]
    · rcases @fracScale_shift cfg q j y man fits (large zero) with same | ⟨quiet, quiet'⟩
      · have digits : fusedDigits cfg q ⟨man * 2 ^ y, 0, j + 4 + y⟩ =
            fusedDigits cfg q ⟨man, 0, j + 4⟩ := by
          rw [fusedDigits, fusedDigits]
          simp only [same]
        rw [fusedRound, fusedRound]
        simp only [digits, same]
      · rw [fusedRound_quiet quiet', fusedRound_quiet quiet]

/-! ## Reading the double -/

/-- The mantissa and the exponent of a double for those of a float. -/
structure Widened (y bin : ℕ) (exp : ℤ) (bin' : ℕ) (exp' : ℤ) : Prop where
  mantissa : bin' = bin * 2 ^ (29 + y)
  exponent : exp' = exp - y
  low : y ≠ 0 → exp < 0

section

variable (single : cfg.singlePrecision = true)
include single

theorem realManBits_single : cfg.realManBits = 23 := by
  rw [Config.realManBits, Config.realMantDig, if_pos single]

theorem realExpBias_single : cfg.realExpBias = 127 := by
  rw [Config.realExpBias, Config.realMaxExp, if_pos single]
  rfl

theorem exists_widened {bin bin' : ℕ} {exp exp' : ℤ} (norm : Normalized cfg bin exp)
    (norm' : Normalized cfg.doubled bin' exp')
    (value : (bin' : ℚ) * 2 ^ (exp' - 52) = bin * 2 ^ (exp - 23)) :
    ∃ y, Widened y bin exp bin' exp' := by
  have bits := realManBits_single single
  have bias := realExpBias_single single
  have lower := norm.lower
  have normal := norm.normal
  have lower' : 1 - 1023 ≤ exp' := norm'.lower
  have normal' : exp' = 1 - 1023 ∨ 2 ^ 52 ≤ bin' := norm'.normal
  have top := norm.value_lt
  have top' : (bin' : ℚ) * 2 ^ (exp' - 52) < 2 ^ (exp' + 1) := norm'.value_lt
  rw [bias] at lower normal
  rw [bits] at normal top
  push_cast at top
  by_cases zero : bin = 0
  · subst zero
    obtain rfl : bin' = 0 := by
      have := mul_eq_zero.mp (value.trans (by simp))
      exact_mod_cast this.resolve_right (by positivity)
    refine ⟨896, (Nat.zero_mul _).symm, ?_, fun _ => ?_⟩
    · have := normal.resolve_right (by norm_num)
      have := normal'.resolve_right (by norm_num)
      push_cast
      omega
    · have := normal.resolve_right (by norm_num)
      omega
  · have order : exp' ≤ exp := by
      by_contra above
      have full : (2 : ℚ) ^ exp' ≤ bin' * 2 ^ (exp' - 52) :=
        @two_zpow_le_value cfg.doubled _ exp' (normal'.resolve_left (by omega))
      have := (zpow_lt_zpow_iff_right₀ one_lt_two).mp ((full.trans_eq value).trans_lt top)
      omega
    obtain ⟨y, rfl⟩ : ∃ y : ℕ, exp' = exp - y := ⟨(exp - exp').toNat, by omega⟩
    refine ⟨y, ?_, rfl, fun nonzero => ?_⟩
    · have shifted : (bin' : ℚ) * 2 ^ (exp - y - 52) =
          (bin * 2 ^ (29 + y) : ℕ) * 2 ^ (exp - y - 52) := by
        rw [value]
        push_cast
        rw [mul_assoc, ← zpow_natCast, ← zpow_add₀ two_ne_zero]
        congr 2
        push_cast
        ring
      exact_mod_cast mul_right_cancel₀ (zpow_ne_zero _ two_ne_zero) shifted
    · by_contra nonneg
      have full := @two_zpow_le_value cfg bin exp (by
        rw [bits]
        exact normal.resolve_left (by omega))
      rw [bits] at full
      have := (zpow_lt_zpow_iff_right₀ one_lt_two).mp
        ((full.trans_eq (by rw [value]; norm_cast)).trans_lt top')
      omega

theorem binBits_single_ge : 24 ≤ cfg.binBits := by
  have bits := realManBits_single single
  have bounds := cfg.binBits_bounds.1
  omega

/-- The bits of a fraction below one stand at the same place. -/
theorem fracMan_widened_neg {y bin bin' : ℕ} {exp exp' : ℤ} (wide : Widened y bin exp bin' exp')
    (negative : exp < 0) :
    fracMan cfg (fracBits cfg bin exp) =
        (if 24 ≤ cfg.manBits then (bin * 2 ^ (cfg.manBits - 24), 0)
        else (bin / 2 ^ (24 - cfg.manBits), bin / 2 ^ (24 - cfg.manBits - 1) % 2)) ∧
      fracMan cfg.doubled (fracBits cfg.doubled bin' exp') =
        (if 24 ≤ cfg.manBits then (bin * 2 ^ y * 2 ^ (cfg.manBits - 24), 0)
        else (bin * 2 ^ y / 2 ^ (24 - cfg.manBits),
          bin * 2 ^ y / 2 ^ (24 - cfg.manBits - 1) % 2)) := by
  have bits := realManBits_single single
  constructor
  · rw [fracBits, if_pos negative, bits, Nat.sub_sub]
    exact fracMan_top_bits (binBits_single_ge single)
  · have same : fracBits cfg.doubled bin' exp' = bin * 2 ^ y * 2 ^ (cfg.doubled.binBits - 24) := by
      have below : exp' < 0 := by
        rw [wide.exponent]
        omega
      rw [fracBits, if_pos below, wide.mantissa]
      change bin * 2 ^ (29 + y) * 2 ^ 11 = bin * 2 ^ y * 2 ^ 40
      ring
    rw [same]
    exact fracMan_top_bits (show 24 ≤ 64 by norm_num)

/-- The bits of a fraction behind an integer stand at the same place. -/
theorem fracMan_widened (bin e : ℕ) (inside : e < 23) :
    fracMan cfg.doubled (fracBits cfg.doubled (bin * 2 ^ 29) e) =
      fracMan cfg (fracBits cfg bin e) := by
  have bits := realManBits_single single
  have room := binBits_single_ge single
  have first : fracBits cfg bin e = bin * 2 ^ e % 2 ^ 23 * 2 ^ (cfg.binBits - 23) := by
    rw [fracBits, if_neg (by omega), bits, Int.toNat_natCast]
  have second : fracBits cfg.doubled (bin * 2 ^ 29) e =
      bin * 2 ^ e % 2 ^ 23 * 2 ^ (cfg.doubled.binBits - 23) := by
    rw [fracBits, if_neg (by omega), Int.toNat_natCast]
    change bin * 2 ^ 29 * 2 ^ e % (2 ^ 23 * 2 ^ 29) * 2 ^ 12 = bin * 2 ^ e % 2 ^ 23 * 2 ^ 41
    rw [mul_right_comm, Nat.mul_mod_mul_right, mul_assoc]
    norm_num
  rw [first, second, fracMan_top_bits (show 23 ≤ 64 by norm_num), fracMan_top_bits (by omega)]
  rfl

omit single in
/-- A double that was a float has no fraction from the exponent 23 on. -/
theorem fractionAt_widened_whole (bin : ℕ) {e : ℕ} (whole : 23 ≤ e) :
    fractionAt cfg.doubled (bin * 2 ^ 29) e = ⟨0, 0, 4⟩ := by
  have zero : fracBits cfg.doubled (bin * 2 ^ 29) e = 0 := by
    rw [fracBits, if_neg (by omega), Int.toNat_natCast]
    change bin * 2 ^ 29 * 2 ^ e % 2 ^ 52 * 2 ^ 12 = 0
    obtain ⟨k, rfl⟩ := Nat.exists_eq_add_of_le whole
    rw [show bin * 2 ^ 29 * 2 ^ (23 + k) = bin * 2 ^ k * 2 ^ 52 by ring, Nat.mul_mod_left,
      Nat.zero_mul]
  rw [fractionAt, zero, if_neg (by omega), fracMan]
  split_ifs <;> simp

/-- A value below one. -/
theorem machine_widened_neg {y bin bin' : ℕ} {exp exp' : ℤ} (norm : Normalized cfg bin exp)
    (norm' : Normalized cfg.doubled bin' exp') (wide : Widened y bin exp bin' exp')
    (kept : y ≠ 0 → 24 ≤ cfg.manBits ∨ bin = 0) (negative : exp < 0) :
    Machine.Alike cfg (machine cfg bin exp) (machine cfg.doubled bin' exp') := by
  have below : exp' < 0 := by
    rw [wide.exponent]
    omega
  obtain ⟨first, second⟩ := fracMan_widened_neg single wide negative
  have valid := machine_valid norm
  rw [machine_of_neg norm.small negative] at valid ⊢
  rw [machine_of_neg norm'.small below]
  rw [fractionAt, if_pos negative] at valid ⊢
  rw [fractionAt, if_pos below]
  obtain ⟨j, left⟩ : ∃ j, (3 - exp).toNat = j + 4 := ⟨(-1 - exp).toNat, by omega⟩
  have left' : (3 - exp').toNat = j + 4 + y := by
    rw [wide.exponent]
    omega
  rw [left] at valid ⊢
  rw [left']
  by_cases same : y = 0
  · subst same
    rw [first, second, pow_zero, mul_one, Nat.add_zero]
    exact .refl _
  · have shifted : fracMan cfg (fracBits cfg bin exp) = (bin * 2 ^ (cfg.manBits - 24), 0) ∧
        fracMan cfg.doubled (fracBits cfg.doubled bin' exp') =
          (bin * 2 ^ (cfg.manBits - 24) * 2 ^ y, 0) := by
      rcases kept same with enough | rfl
      · rw [first, second, if_pos enough, if_pos enough, mul_right_comm]
        exact ⟨rfl, rfl⟩
      · rw [first, second]
        simp
    have fits := fracMan_fits (fracBits_lt exp' norm'.small)
    rw [shifted.2] at fits ⊢
    rw [shifted.1] at valid ⊢
    refine Machine.alike_shift y fits.1 fun nonzero => ?_
    have large := (valid.fraction _ rfl).2.large rfl fun isZero => nonzero isZero.1
    simpa using large

omit single in
theorem etoaIntScale_doubled (expI dec man carry : ℕ) :
    etoaIntScale cfg.doubled expI dec man carry = etoaIntScale cfg expI dec man carry := by
  induction expI generalizing dec man carry with
  | zero => rfl
  | succ expI ih =>
      rw [etoaIntScale, etoaIntScale, ih]
      simp only [ih]
      rfl

omit single in
/-- A mantissa that is shorter than its type is first shifted. -/
theorem etoaIntScale_shift (k n : ℕ) {man : ℕ} (small : man * 2 ^ k < 16 * cfg.unit) :
    etoaIntScale cfg (k + n) 0 man 0 = etoaIntScale cfg n 0 (man * 2 ^ k) 0 := by
  induction k generalizing man with
  | zero => rw [Nat.zero_add, pow_zero, mul_one]
  | succ k ih =>
      have next : (2 * man + 0) * 2 ^ k = man * 2 ^ (k + 1) := by ring
      have half : man < 8 * cfg.unit := by
        have : man * 2 ≤ man * 2 ^ (k + 1) :=
          Nat.mul_le_mul_left _ (by rw [pow_succ]; exact Nat.le_mul_of_pos_left _ (by positivity))
        omega
      rw [show k + 1 + n = k + n + 1 by omega, etoaIntScale_double _ _ half (Nat.zero_le _),
        ih (next ▸ small), next]

/-- How far the integer part of a float is from its mantissa. -/
theorem shiftBits_single : cfg.shiftBits = min cfg.manBits 24 - 1 := by
  rw [Config.shiftBits, Config.realMantDig, if_pos single]
  split_ifs <;> omega

omit single in
theorem shiftBits_doubled (cfg : Config) : cfg.doubled.shiftBits = min cfg.manBits 53 - 1 := by
  change (if cfg.manBits < 53 then cfg.manBits else 53) - 1 = _
  split_ifs <;> omega

omit single in
/-- The integer part of the double is the one of the float. -/
theorem widened_div {k : ℕ} (bin : ℕ) (le : k ≤ 23) :
    bin * 2 ^ 29 / 2 ^ (52 - k) = bin / 2 ^ (23 - k) := by
  rw [show 52 - k = 29 + (23 - k) by omega, pow_add, mul_comm bin,
    Nat.mul_div_mul_left _ _ (by positivity)]

omit single in
theorem widened_div_whole {k : ℕ} (bin : ℕ) (whole : 23 ≤ k) (le : k ≤ 52) :
    bin * 2 ^ 29 / 2 ^ (52 - k) = bin * 2 ^ (k - 23) := by
  rw [show bin * 2 ^ 29 = bin * 2 ^ (k - 23) * 2 ^ (52 - k) by
    rw [mul_assoc, ← pow_add, show k - 23 + (52 - k) = 29 by omega]]
  exact Nat.mul_div_cancel _ (by positivity)

omit single in
/-- The bit below an integer that a double keeps whole. -/
theorem widened_up (bin : ℕ) {k : ℕ} (whole : 23 ≤ k) (le : k ≤ 52) :
    (if 52 = k then 0 else bin * 2 ^ 29 / 2 ^ (52 - k - 1) % 2) = 0 := by
  split_ifs with last
  · rfl
  · rw [Nat.sub_sub, widened_div_whole bin (by omega) (by omega),
      show k + 1 - 23 = k - 23 + 1 by omega, pow_succ, ← mul_assoc, Nat.mul_mod_left]

/-- A value that the double keeps whole. -/
theorem machine_single_whole {bin e : ℕ} (norm : Normalized cfg bin e) (whole : 23 ≤ e)
    (covered : e + 1 ≤ cfg.manBits) : machine cfg bin e = ⟨bin * 2 ^ (e - 23), 0, 0, none⟩ := by
  have bits := realManBits_single single
  have shift := shiftBits_single single
  rcases Nat.eq_or_lt_of_le whole with rfl | above
  · rw [machine_of_le norm.small (Int.natCast_nonneg _) (by omega), bits]
    simp
  · have small := norm.small
    have top : bin < 2 ^ 24 := by rwa [bits] at small
    have fits : bin * 2 ^ (e - 23) < 16 * cfg.unit := by
      rw [← cfg.two_pow_manBits]
      calc bin * 2 ^ (e - 23) < 2 ^ 24 * 2 ^ (e - 23) :=
            Nat.mul_lt_mul_of_pos_right top (by positivity)
        _ = 2 ^ (e + 1) := by rw [← pow_add, show 24 + (e - 23) = e + 1 by omega]
        _ ≤ 2 ^ cfg.manBits := Nat.pow_le_pow_right two_pos covered
    have scaled : scaledInt cfg bin e = (0, bin * 2 ^ (e - 23), 0) := by
      rw [scaledInt, bits, show cfg.shiftBits = 23 by omega, if_pos rfl, Nat.sub_self, pow_zero,
        Nat.div_one, show ((e : ℤ) - (23 : ℕ)).toNat = e - 23 by omega]
      exact etoaIntScale_exact _ _ fits
    rw [machine_of_gt small (by omega), scaled]

/-- A value that both scale. -/
theorem scaledInt_widened {bin e : ℕ} (norm : Normalized cfg bin e)
    (above : cfg.doubled.shiftBits < e) :
    scaledInt cfg.doubled (bin * 2 ^ 29) e = scaledInt cfg bin e := by
  have bits := realManBits_single single
  have top : bin < 2 ^ 24 := by
    have small := norm.small
    rwa [bits] at small
  have shift := shiftBits_single single
  have shift' := shiftBits_doubled cfg
  have room := cfg.manBits_ge
  rw [scaledInt, etoaIntScale_doubled, scaledInt, bits]
  change etoaIntScale cfg _ 0 (bin * 2 ^ 29 / 2 ^ (52 - cfg.doubled.shiftBits))
    (if 52 = cfg.doubled.shiftBits then 0
      else bin * 2 ^ 29 / 2 ^ (52 - cfg.doubled.shiftBits - 1) % 2) = _
  rcases Nat.lt_or_ge cfg.manBits 24 with narrow | wide
  · have same : cfg.doubled.shiftBits = cfg.shiftBits := by omega
    rw [same, widened_div bin (by omega), if_neg (by omega), if_neg (by omega), Nat.sub_sub,
      Nat.sub_sub, widened_div bin (by omega)]
  · obtain ⟨k, shifted⟩ : ∃ k, cfg.doubled.shiftBits = 23 + k :=
      ⟨cfg.doubled.shiftBits - 23, by omega⟩
    have fits : bin * 2 ^ k < 16 * cfg.unit := by
      rw [← cfg.two_pow_manBits]
      calc bin * 2 ^ k < 2 ^ 24 * 2 ^ k :=
            Nat.mul_lt_mul_of_pos_right top (by positivity)
        _ = 2 ^ (24 + k) := (pow_add 2 24 k).symm
        _ ≤ 2 ^ cfg.manBits := Nat.pow_le_pow_right two_pos (by omega)
    rw [widened_up bin (by omega) (by omega), widened_div_whole bin (by omega) (by omega), shifted,
      show cfg.shiftBits = 23 by omega, if_pos rfl, Nat.sub_self, pow_zero, Nat.div_one,
      show 23 + k - 23 = k by omega, ← etoaIntScale_shift k _ fits]
    congr 1
    omega

omit single in
theorem machine_doubled {bin e : ℕ} (norm' : Normalized cfg.doubled (bin * 2 ^ 29) e)
    (covered : e ≤ cfg.doubled.shiftBits) :
    machine cfg.doubled (bin * 2 ^ 29) e = ⟨bin * 2 ^ 29 / 2 ^ (52 - e),
      if 52 = e then 0 else bin * 2 ^ 29 / 2 ^ (52 - e - 1) % 2, 0,
      if e < 52 then some (fractionAt cfg.doubled (bin * 2 ^ 29) e) else none⟩ := by
  have casts : ((cfg.doubled.realManBits : ℤ) = e ↔ 52 = e) ∧
      ((e : ℤ) < cfg.doubled.realManBits ↔ e < 52) := by
    change (((52 : ℕ) : ℤ) = e ↔ 52 = e) ∧ ((e : ℤ) < (52 : ℕ) ↔ e < 52)
    omega
  rw [machine_of_le norm'.small (Int.natCast_nonneg e) (by omega), Int.toNat_natCast]
  simp only [casts]
  rfl

omit single in
theorem machine_doubled_whole {bin e : ℕ} (norm' : Normalized cfg.doubled (bin * 2 ^ 29) e)
    (whole : 23 ≤ e) (covered : e ≤ cfg.doubled.shiftBits) :
    machine cfg.doubled (bin * 2 ^ 29) e =
      ⟨bin * 2 ^ (e - 23), 0, 0, if e < 52 then some ⟨0, 0, 4⟩ else none⟩ := by
  have shift' := shiftBits_doubled cfg
  rw [machine_doubled norm' covered, widened_up bin whole (by omega),
    widened_div_whole bin whole (by omega), fractionAt_widened_whole bin whole]

/-- A value with bits on both sides of the point. -/
theorem machine_widened_inside {bin e : ℕ} (norm : Normalized cfg bin e)
    (norm' : Normalized cfg.doubled (bin * 2 ^ 29) e) (inside : e < 23)
    (covered : e ≤ cfg.doubled.shiftBits) :
    machine cfg.doubled (bin * 2 ^ 29) e = machine cfg bin e := by
  have bits := realManBits_single single
  have shift := shiftBits_single single
  have shift' := shiftBits_doubled cfg
  have same : fractionAt cfg.doubled (bin * 2 ^ 29) e = fractionAt cfg bin e := by
    rw [fractionAt, fractionAt, fracMan_widened single bin e inside]
  rw [machine_doubled norm' covered, machine_of_le norm.small (Int.natCast_nonneg e) (by omega),
    same, bits, Int.toNat_natCast, widened_div bin (by omega), if_neg (by omega), Nat.sub_sub,
    widened_div bin (by omega), if_pos (by omega), if_neg (by omega), if_pos (by omega),
    Nat.sub_sub]

/-- A value that is one or more. -/
theorem machine_widened_nonneg {bin e : ℕ} (norm : Normalized cfg bin e)
    (norm' : Normalized cfg.doubled (bin * 2 ^ 29) e) :
    Machine.Alike cfg (machine cfg bin e) (machine cfg.doubled (bin * 2 ^ 29) e) := by
  have shift := shiftBits_single single
  have shift' := shiftBits_doubled cfg
  by_cases covered : e ≤ cfg.doubled.shiftBits
  · rcases Nat.lt_or_ge e 23 with inside | whole
    · exact machine_widened_inside single norm norm' inside covered ▸ .refl _
    · rw [machine_single_whole single norm whole (by omega),
        machine_doubled_whole norm' whole covered]
      split_ifs
      · exact Machine.alike_nil _ _
      · exact .refl _
  · rw [machine_of_gt norm.small (by omega), machine_of_gt norm'.small (by omega),
      scaledInt_widened single norm (by omega)]
    exact .refl _

/-- **The conversions cannot tell a float from its double**, if the intermediate has room for the
bits of a subnormal one. -/
theorem machine_widened {y bin bin' : ℕ} {exp exp' : ℤ} (norm : Normalized cfg bin exp)
    (norm' : Normalized cfg.doubled bin' exp') (wide : Widened y bin exp bin' exp')
    (kept : y ≠ 0 → 24 ≤ cfg.manBits ∨ bin = 0) :
    Machine.Alike cfg (machine cfg bin exp) (machine cfg.doubled bin' exp') := by
  rcases lt_or_ge exp 0 with negative | nonneg
  · exact machine_widened_neg single norm norm' wide kept negative
  · have zero : y = 0 := by
      by_contra nonzero
      exact absurd (wide.low nonzero) (by omega)
    obtain ⟨e, rfl⟩ := Int.eq_ofNat_of_zero_le nonneg
    have exponent := wide.exponent
    have mantissa := wide.mantissa
    rw [zero, Nat.cast_zero, sub_zero] at exponent
    rw [zero, Nat.add_zero] at mantissa
    subst exponent mantissa
    exact machine_widened_nonneg single norm norm'

/-- Outside the exponents at which only a double keeps the number whole, both know the same of
the digits below an integer. -/
theorem intTail_widened {bin e : ℕ} (norm : Normalized cfg bin e)
    (norm' : Normalized cfg.doubled (bin * 2 ^ 29) e)
    (outside : e < 24 ∨ min cfg.manBits 53 ≤ e) :
    intTail cfg bin e = intTail cfg.doubled (bin * 2 ^ 29) e := by
  have shift := shiftBits_single single
  have shift' := shiftBits_doubled cfg
  have room := cfg.manBits_ge
  rcases Nat.lt_or_ge cfg.doubled.shiftBits e with above | covered
  · rw [intTail, intTail, machine_of_gt norm.small (by omega), machine_of_gt norm'.small (by omega)]
    exact decide_eq_decide.mpr (by omega)
  rcases Nat.lt_or_ge e 23 with inside | whole
  · have bits := realManBits_single single
    rw [intTail, intTail, machine_widened_inside single norm norm' inside covered]
    rcases (machine cfg bin e).frac with - | f
    · exact decide_eq_decide.mpr (by omega)
    · rfl
  · obtain rfl : e = 23 := by omega
    rw [intTail, intTail, machine_single_whole single norm le_rfl (by omega),
      machine_doubled_whole norm' le_rfl covered, if_pos (by norm_num)]
    exact (decide_eq_true (by omega)).trans (decide_eq_true (Nat.zero_mod _)).symm

end

/-! ## The double of a float -/

/-- The conversion to `double`, field by field. -/
theorem widen_fields (f : BitVec 32) : ∃ exp man, exp < 2 ^ 11 ∧ man < 2 ^ 52 ∧
    widen f = BitVec.ofNat 64 ((f.toNat >>> 31) <<< 63 ||| exp <<< 52 ||| man) ∧
    (f.toNat / 2 ^ 23 % 2 ^ 8 = 255 → exp = 2047 ∧ man = f.toNat % 2 ^ 23 * 2 ^ 29) := by
  have small : (f.toNat % 2 ^ 23) <<< 29 < 2 ^ 52 := by
    rw [Nat.shiftLeft_eq]
    omega
  rw [widen, Nat.shiftRight_eq_div_pow f.toNat 23, show (256 : ℕ) = 2 ^ 8 from rfl]
  have low : f.toNat / 2 ^ 23 % 2 ^ 8 < 2 ^ 8 := Nat.mod_lt _ (by norm_num)
  have log : f.toNat % 2 ^ 23 ≠ 0 → (f.toNat % 2 ^ 23).log2 < 23 := fun nonzero =>
    (Nat.log2_lt nonzero).mpr (Nat.mod_lt _ (by norm_num))
  split_ifs with special normal zero
  · exact ⟨_, _, by norm_num, small, rfl, fun _ => ⟨rfl, Nat.shiftLeft_eq _ _⟩⟩
  · exact ⟨_, _, by omega, small, rfl, fun top => absurd top special⟩
  · exact ⟨_, _, by norm_num, by norm_num, rfl, fun top => absurd top special⟩
  · exact ⟨_, _, by have := log zero; omega, Nat.mod_lt _ (by positivity), rfl,
      fun top => absurd top special⟩

theorem shiftRight_31_lt (f : BitVec 32) : f.toNat >>> 31 < 2 := by
  have word := f.isLt
  rw [Nat.shiftRight_eq_div_pow]
  omega

theorem widen_special {f : BitVec 32} (special : f.toNat / 2 ^ 23 % 2 ^ 8 = 255) :
    doubleExp (widen f) = 2047 ∧ doubleFrac (widen f) = f.toNat % 2 ^ 23 * 2 ^ 29 := by
  obtain ⟨exp, man, low, small, fields, top⟩ := widen_fields f
  obtain ⟨rfl, rfl⟩ := top special
  obtain ⟨exp, frac, -⟩ := doubleFields (shiftRight_31_lt f) low small fields
  exact ⟨exp, frac⟩

theorem widen_msb (f : BitVec 32) : (widen f).msb = f.msb := by
  obtain ⟨exp, man, low, small, fields, -⟩ := widen_fields f
  rw [(doubleFields (shiftRight_31_lt f) low small fields).2.2, BitVec.msb_eq_decide,
    decide_eq_decide, Nat.shiftRight_eq_div_pow]
  have word := f.isLt
  omega

end Nanoprintf
