import Mathlib.Algebra.Order.Floor.Semifield
import Nanoprintf.Etoa
import Nanoprintf.Scaling

/-!
# The number a conversion works with

Before any digit is produced the arithmetic of a conversion is determined by the
mantissa and exponent of its argument: `machine` collects what the integer
scaling leaves and where the fraction starts. `Machine.value` is the rational
number that this denotes once the fraction is scaled without a limit. Outside
the range in which no bit is lost it is not the argument, but it is one number,
the same for every precision and both styles; `machine_value_exact` says that it
is the argument inside that range.
-/

set_option autoImplicit false

namespace Nanoprintf

open Foundations

/-! ## The integer scaling -/

theorem div5_eq {cfg : Config} {man : ℕ} (small : man < 2 ^ cfg.manBits) :
    div5 cfg man = (man / 5, man % 5) := by
  unfold div5
  by_cases free : (cfg.divisionFree && decide (cfg.manBits ≤ 32)) = true
  · rw [if_pos free]
    simp only [Bool.and_eq_true, decide_eq_true_eq] at free
    have word : man < 2 ^ 32 := small.trans_le (Nat.pow_le_pow_right two_pos free.2)
    simp only [npfDiv10_eq word]
    split_ifs with more
    · congr 1 <;> omega
    · congr 1 <;> omega
  · rw [if_neg free]

theorem fifth_eq {cfg : Config} {man carry : ℕ} (fits : Fits cfg man carry) :
    fifth cfg man carry = (man / 5, (man % 5 + carry + 1) / 4) := by
  rw [fifth, div5_eq (cfg.two_pow_manBits ▸ fits.1)]
  simp only [Nat.shiftRight_eq_div_pow, Nat.reducePow]

theorem isFull_iff {cfg : Config} {man : ℕ} : isFull cfg man = true ↔ 8 * cfg.unit ≤ man := by
  have positive := cfg.unit_ge
  rw [isFull, Nat.shiftRight_eq_div_pow, cfg.two_pow_top, decide_eq_true_iff, Ne,
    Nat.div_eq_zero_iff_lt
    (by omega)]
  omega

theorem doubleUp_eq {cfg : Config} {man carry : ℕ} (room : man < 8 * cfg.unit) (bit : carry ≤ 1) :
    doubleUp cfg man carry = 2 * man + carry := by
  rw [doubleUp, ← Nat.shiftLeft_add_eq_or_of_lt (show carry < 2 ^ 1 by omega), Nat.shiftLeft_eq,
    cfg.two_pow_manBits, Nat.mod_eq_of_lt (by omega)]
  omega

theorem etoaIntScale_double {cfg : Config} {man carry : ℕ} (expI dec : ℕ)
    (room : man < 8 * cfg.unit) (bit : carry ≤ 1) :
    etoaIntScale cfg (expI + 1) dec man carry =
      etoaIntScale cfg expI dec (2 * man + carry) 0 := by
  have free : (!isFull cfg man) = true := by
    rw [Bool.not_eq_true', Bool.eq_false_iff, Ne, isFull_iff]
    omega
  rw [etoaIntScale, if_pos free, doubleUp_eq room bit]

theorem etoaIntScale_fifth {cfg : Config} {man carry : ℕ} (expI dec : ℕ)
    (full : 8 * cfg.unit ≤ man) (fits : Fits cfg man carry) :
    etoaIntScale cfg (expI + 1) dec man carry =
      etoaIntScale cfg expI (dec + 1) (man / 5) ((man % 5 + carry + 1) / 4) := by
  have taken : ¬ (!isFull cfg man) = true := by
    rw [Bool.not_eq_true', Bool.eq_false_iff, Ne, isFull_iff, not_not]
    exact full
  rw [etoaIntScale, if_neg taken, fifth_eq fits]

/-- The integer scaling stays in range, keeps a mantissa that is not zero, and
divides at most every other step. -/
theorem etoaIntScale_spec {cfg : Config} (expI dec : ℕ) {man carry : ℕ}
    (fits : Fits cfg man carry) (nonzero : man ≠ 0) :
    ∃ d a c, etoaIntScale cfg expI dec man carry = (dec + d, a, c) ∧ Fits cfg a c ∧ a ≠ 0 ∧
      2 * d ≤ expI + (if 8 * cfg.unit ≤ man then 1 else 0) := by
  have room := cfg.unit_ge
  induction expI generalizing dec man carry with
  | zero => exact ⟨0, man, carry, rfl, fits, nonzero, Nat.zero_le _⟩
  | succ expI ih =>
      obtain ⟨small, bit⟩ := fits
      by_cases full : 8 * cfg.unit ≤ man
      · obtain ⟨d, a, c, run, fits', nonzero', bound⟩ := @ih (dec + 1) (man / 5)
          ((man % 5 + carry + 1) / 4) ⟨by omega, by omega⟩ (by omega)
        rw [if_neg (by omega)] at bound
        rw [etoaIntScale_fifth expI dec full ⟨small, bit⟩, if_pos full]
        exact ⟨d + 1, a, c, by rw [run, Nat.add_assoc, Nat.add_comm 1 d], fits', nonzero', by omega⟩
      · obtain ⟨d, a, c, run, fits', nonzero', bound⟩ := @ih dec (2 * man + carry)
          0 ⟨by omega, by omega⟩ (by omega)
        rw [etoaIntScale_double expI dec (by omega) bit, if_neg full]
        refine ⟨d, a, c, run, fits', nonzero', ?_⟩
        split_ifs at bound <;> omega

/-- A number that fits the mantissa is only shifted. -/
theorem etoaIntScale_exact {cfg : Config} (expI dec : ℕ) {man : ℕ}
    (small : man * 2 ^ expI < 16 * cfg.unit) :
    etoaIntScale cfg expI dec man 0 = (dec, man * 2 ^ expI, 0) := by
  induction expI generalizing man with
  | zero => rw [etoaIntScale, pow_zero, mul_one]
  | succ expI ih =>
      have half : man < 8 * cfg.unit := by
        have : man * 2 ≤ man * 2 ^ (expI + 1) :=
          Nat.mul_le_mul_left _ (by rw [pow_succ]; exact Nat.le_mul_of_pos_left _ (by positivity))
        omega
      have next : (2 * man + 0) * 2 ^ expI = man * 2 ^ (expI + 1) := by
        rw [pow_succ]
        ring
      rw [etoaIntScale_double expI dec half (Nat.zero_le _), ← next]
      exact ih (next ▸ small)

/-! ## The fraction -/

/-- A fraction mantissa, the bit below it and the steps of its scaling. -/
structure Fraction where
  man : ℕ
  carry : ℕ
  left : ℕ
  deriving DecidableEq, Repr

/-- What the integer scaling leaves, and the fraction unless it is invalid. -/
structure Machine where
  int : ℕ
  up : ℕ
  dec : ℕ
  frac : Option Fraction
  deriving DecidableEq, Repr

/-- What a conversion works with. -/
def machine (cfg : Config) (bin : ℕ) (exp : ℤ) : Machine :=
  let (exp, dec, int, up) := etoaInteger cfg bin exp
  { int := int, up := up, dec := dec,
    frac :=
      if exp < cfg.realManBits then
        let (man, carry, left) := fracStart cfg bin exp
        some ⟨man, carry, left⟩
      else none }

/-- The zeros after the point, in a scaling without a limit. -/
def Fraction.zeros (cfg : Config) (f : Fraction) : ℕ :=
  (approach cfg.fiveLimit (f.left - 4) f.man f.carry).1

/-- The mantissa the digits after those zeros are taken from. -/
def Fraction.settled (cfg : Config) (f : Fraction) : ℕ :=
  Nanoprintf.settled cfg.fiveLimit (approach cfg.fiveLimit (f.left - 4) f.man f.carry).2.1
    (approach cfg.fiveLimit (f.left - 4) f.man f.carry).2.2

/-- The fraction has no digits: the code skips it. -/
def Fraction.IsZero (f : Fraction) : Prop := f.man = 0 ∧ f.carry = 0

instance (f : Fraction) : Decidable f.IsZero := inferInstanceAs (Decidable (_ ∧ _))

/-- The number a fraction denotes. -/
def Fraction.value (cfg : Config) (f : Fraction) : ℚ :=
  if f.IsZero then 0 else f.settled cfg / (cfg.unit * 10 ^ (f.zeros cfg + 1))

/-- The number a conversion works with. -/
def Machine.value (cfg : Config) (m : Machine) : ℚ :=
  match m.frac with
  | none => (m.int + m.up) * 10 ^ m.dec
  | some f => m.int + f.value cfg

/-- A fraction in the range of its type: the digits after its zeros start with one
that is not zero, except behind an integer part. -/
structure Fraction.Valid (cfg : Config) (int : ℕ) (f : Fraction) : Prop where
  fits : Fits cfg f.man f.carry
  left_ge : 4 ≤ f.left
  left_le : f.left ≤ 1025
  behind : int ≠ 0 → f.left = 4
  large : int = 0 → ¬ f.IsZero →
    cfg.fiveLimit < 2 ^ (f.left - 4) * (2 * f.man + f.carry)

/-- What holds of the number a conversion works with, whatever its argument. -/
structure Machine.Valid (cfg : Config) (m : Machine) : Prop where
  fits : Fits cfg m.int m.up
  dec_le : m.dec ≤ 512
  scaled : m.frac = none → m.int ≠ 0
  fraction : ∀ f, m.frac = some f → m.dec = 0 ∧ f.Valid cfg m.int

/-! ## Where the loops start -/

theorem Config.binBits_bounds (cfg : Config) :
    cfg.realManBits + 1 ≤ cfg.binBits ∧ cfg.binBits ≤ 64 := by
  unfold Config.realManBits Config.realMantDig Config.binBits
  split_ifs with single
  · have wide := cfg.least_le_fast .w32
    have type := cfg.fast_standard .w32
    have lower : (32 : ℕ) ≤ cfg.fastBits .w32 := wide.1.trans wide.2
    refine ⟨by omega, ?_⟩
    simp only [List.mem_cons, List.not_mem_nil, or_false] at type
    have orders := cfg.char_le_short.trans (cfg.short_le_int.trans cfg.int_le_long)
    have orders' := cfg.short_le_int.trans cfg.int_le_long
    have long := cfg.longBits_le
    have int := cfg.int_le_long
    rcases type with type | type | type | type | type <;> omega
  · omega

theorem Config.shiftBits_spec (cfg : Config) :
    cfg.shiftBits ≤ cfg.realManBits ∧ cfg.shiftBits + 1 ≤ cfg.manBits ∧
      (cfg.shiftBits = cfg.realManBits ∨ cfg.shiftBits + 1 = cfg.manBits) := by
  have bits := cfg.manBits_ge
  have real : 24 ≤ cfg.realMantDig := by
    unfold Config.realMantDig
    split <;> omega
  unfold Config.shiftBits Config.realManBits
  split_ifs with less <;> omega

theorem npfBinShr_eq (cfg : Config) (v s : ℕ) : npfBinShr cfg v s = v / 2 ^ s := by
  rw [npfBinShr]
  split_ifs
  · induction s with
    | zero => rw [pow_zero, Nat.div_one, Function.iterate_zero_apply]
    | succ s ih =>
        rw [Function.iterate_succ_apply', ih, Nat.shiftRight_one, Nat.div_div_eq_div_mul,
          ← pow_succ]
  · exact Nat.shiftRight_eq_div_pow v s

theorem npfBinShl_eq {cfg : Config} {v : ℕ} (word : v < 2 ^ cfg.binBits) (s : ℕ) :
    npfBinShl cfg v s = v * 2 ^ s % 2 ^ cfg.binBits := by
  rw [npfBinShl]
  split_ifs
  · induction s with
    | zero => rw [pow_zero, mul_one, Nat.mod_eq_of_lt word, Function.iterate_zero_apply]
    | succ s ih =>
        rw [Function.iterate_succ_apply', ih, Nat.shiftLeft_eq, pow_one, Nat.mod_mul_mod, pow_succ,
          mul_assoc]
  · rw [Nat.shiftLeft_eq]

/-- How far the integer part starts from the full mantissa. -/
def intShift (cfg : Config) (exp : ℤ) : ℕ :=
  if exp > cfg.shiftBits then cfg.shiftBits else exp.toNat

theorem intShift_le (cfg : Config) (exp : ℤ) : intShift cfg exp ≤ cfg.shiftBits := by
  unfold intShift
  split_ifs <;> omega

theorem intStart_eq {cfg : Config} {bin : ℕ} (exp : ℤ)
    (small : bin < 2 ^ (cfg.realManBits + 1)) :
    intStart cfg bin exp =
      (bin / 2 ^ (cfg.realManBits - intShift cfg exp),
        if cfg.realManBits = intShift cfg exp then 0
        else bin / 2 ^ (cfg.realManBits - intShift cfg exp - 1) % 2,
        (exp - intShift cfg exp).toNat) ∧
      bin / 2 ^ (cfg.realManBits - intShift cfg exp) < 2 ^ cfg.manBits := by
  obtain ⟨real, wide, -⟩ := cfg.shiftBits_spec
  have shift := intShift_le cfg exp
  set back := cfg.realManBits - intShift cfg exp with back_eq
  have fits : bin / 2 ^ back < 2 ^ cfg.manBits := by
    rw [Nat.div_lt_iff_lt_mul (by positivity), ← pow_add]
    exact small.trans_le (Nat.pow_le_pow_right two_pos (by omega))
  refine ⟨?_, fits⟩
  have unfolded : intStart cfg bin exp =
      if back ≠ 0 then
        (npfBinShr cfg bin (back - 1) >>> 1 % 2 ^ cfg.manBits, npfBinShr cfg bin (back - 1) &&& 1,
          (exp - intShift cfg exp).toNat)
      else (bin % 2 ^ cfg.manBits, 0, (exp - intShift cfg exp).toNat) := rfl
  rw [unfolded]
  by_cases whole : back = 0
  · rw [if_neg (not_not.mpr whole), if_pos (by omega), whole, pow_zero, Nat.div_one]
    rw [whole, pow_zero, Nat.div_one] at fits
    rw [Nat.mod_eq_of_lt fits]
  · have halves : bin / 2 ^ (back - 1) / 2 = bin / 2 ^ back := by
      rw [Nat.div_div_eq_div_mul, ← pow_succ, Nat.sub_add_cancel (by omega)]
    rw [if_pos whole, if_neg (by omega), Nat.shiftRight_one, npfBinShr_eq, halves,
      Nat.mod_eq_of_lt fits, Nat.and_one_is_mod]

/-- The bits of the fraction, as far to the left as `npf_real_bin_t` allows. -/
def fracBits (cfg : Config) (bin : ℕ) (exp : ℤ) : ℕ :=
  if exp < 0 then bin * 2 ^ (cfg.binBits - cfg.realManBits - 1)
  else bin * 2 ^ exp.toNat % 2 ^ cfg.realManBits * 2 ^ (cfg.binBits - cfg.realManBits)

/-- The part of the fraction bits that the mantissa holds, and the next bit. -/
def fracMan (cfg : Config) (bits : ℕ) : ℕ × ℕ :=
  if cfg.manBits < cfg.binBits then
    (bits / 2 ^ (cfg.binBits - cfg.manBits), bits / 2 ^ (cfg.binBits - cfg.manBits - 1) % 2)
  else (bits * 2 ^ (cfg.manBits - cfg.binBits), 0)

theorem fracBits_lt {cfg : Config} {bin : ℕ} (exp : ℤ)
    (small : bin < 2 ^ (cfg.realManBits + 1)) : fracBits cfg bin exp < 2 ^ cfg.binBits := by
  obtain ⟨wide, -⟩ := cfg.binBits_bounds
  unfold fracBits
  split_ifs with negative
  · calc _ < 2 ^ (cfg.realManBits + 1) * 2 ^ (cfg.binBits - cfg.realManBits - 1) :=
          Nat.mul_lt_mul_of_pos_right small (by positivity)
      _ = 2 ^ cfg.binBits := by
          rw [← pow_add]
          congr 1
          omega
  · calc _ < 2 ^ cfg.realManBits * 2 ^ (cfg.binBits - cfg.realManBits) :=
          Nat.mul_lt_mul_of_pos_right (Nat.mod_lt _ (by positivity)) (by positivity)
      _ = 2 ^ cfg.binBits := by
          rw [← pow_add]
          congr 1
          omega

theorem fracStart_eq {cfg : Config} {bin : ℕ} (exp : ℤ)
    (small : bin < 2 ^ (cfg.realManBits + 1)) :
    fracStart cfg bin exp =
      ((fracMan cfg (fracBits cfg bin exp)).1, (fracMan cfg (fracBits cfg bin exp)).2,
        if exp < 0 then (3 - exp).toNat else 4) := by
  obtain ⟨wide, -⟩ := cfg.binBits_bounds
  have bits := cfg.manBits_ge
  have below := fracBits_lt exp small
  -- the fraction bits are what the shift leaves
  have word : bin < 2 ^ cfg.binBits :=
    small.trans_le (Nat.pow_le_pow_right two_pos (by omega))
  have shifted : npfBinShl cfg bin ((cfg.binBits : ℤ) - cfg.realManBits +
      (if exp < 0 then -1 else exp)).toNat = fracBits cfg bin exp := by
    rw [npfBinShl_eq word]
    by_cases negative : exp < 0
    · rw [if_pos negative, show ((cfg.binBits : ℤ) - cfg.realManBits + -1).toNat =
        cfg.binBits - cfg.realManBits - 1 by omega]
      have same : fracBits cfg bin exp = bin * 2 ^ (cfg.binBits - cfg.realManBits - 1) := by
        rw [fracBits, if_pos negative]
      rw [same] at below ⊢
      exact Nat.mod_eq_of_lt below
    · rw [if_neg negative, show ((cfg.binBits : ℤ) - cfg.realManBits + exp).toNat =
        exp.toNat + (cfg.binBits - cfg.realManBits) by omega, pow_add, ← mul_assoc]
      have split : 2 ^ cfg.binBits = 2 ^ cfg.realManBits * 2 ^ (cfg.binBits - cfg.realManBits) := by
        rw [← pow_add]
        congr 1
        omega
      rw [split, Nat.mul_mod_mul_right, fracBits, if_neg negative]
  have left : (4 - (exp - if exp < 0 then -1 else exp)).toNat =
      if exp < 0 then (3 - exp).toNat else 4 := by
    split_ifs <;> omega
  have unfolded : fracStart cfg bin exp =
      if cfg.manBits < cfg.binBits then
        (fracBits cfg bin exp >>> (cfg.binBits - cfg.manBits) % 2 ^ cfg.manBits,
          fracBits cfg bin exp >>> (cfg.binBits - cfg.manBits - 1) &&& 1,
          if exp < 0 then (3 - exp).toNat else 4)
      else (fracBits cfg bin exp <<< ((cfg.manBits - cfg.binBits) % cfg.manBits) % 2 ^ cfg.manBits,
        0, if exp < 0 then (3 - exp).toNat else 4) := by
    rw [← left, ← shifted]
    rfl
  rw [unfolded, fracMan]
  by_cases narrow : cfg.manBits < cfg.binBits
  · rw [if_pos narrow, if_pos narrow]
    have high : fracBits cfg bin exp / 2 ^ (cfg.binBits - cfg.manBits) < 2 ^ cfg.manBits := by
      rw [Nat.div_lt_iff_lt_mul (by positivity), ← pow_add]
      exact below.trans_le (Nat.pow_le_pow_right two_pos (by omega))
    rw [Nat.shiftRight_eq_div_pow, Nat.shiftRight_eq_div_pow, Nat.mod_eq_of_lt high,
      Nat.and_one_is_mod]
  · rw [if_neg narrow, if_neg narrow]
    have whole : fracBits cfg bin exp * 2 ^ (cfg.manBits - cfg.binBits) < 2 ^ cfg.manBits :=
      calc _ < 2 ^ cfg.binBits * 2 ^ (cfg.manBits - cfg.binBits) :=
            Nat.mul_lt_mul_of_pos_right below (by positivity)
        _ = 2 ^ cfg.manBits := by
            rw [← pow_add]
            congr 1
            omega
    rw [Nat.mod_eq_of_lt (show cfg.manBits - cfg.binBits < cfg.manBits by omega),
      Nat.shiftLeft_eq, Nat.mod_eq_of_lt whole]

theorem fracMan_fits {cfg : Config} {bits : ℕ} (small : bits < 2 ^ cfg.binBits) :
    Fits cfg (fracMan cfg bits).1 (fracMan cfg bits).2 := by
  unfold fracMan Fits
  rw [← cfg.two_pow_manBits]
  split_ifs with narrow
  · refine ⟨?_, by simp only; omega⟩
    simp only
    rw [Nat.div_lt_iff_lt_mul (by positivity), ← pow_add]
    exact small.trans_le (Nat.pow_le_pow_right two_pos (by omega))
  · refine ⟨?_, Nat.zero_le _⟩
    calc _ < 2 ^ cfg.binBits * 2 ^ (cfg.manBits - cfg.binBits) :=
          Nat.mul_lt_mul_of_pos_right small (by positivity)
      _ = 2 ^ cfg.manBits := by
          rw [← pow_add]
          congr 1
          omega

/-! ## The three cases of the exponent -/

/-- The fraction at an exponent. -/
def fractionAt (cfg : Config) (bin : ℕ) (exp : ℤ) : Fraction :=
  ⟨(fracMan cfg (fracBits cfg bin exp)).1, (fracMan cfg (fracBits cfg bin exp)).2,
    if exp < 0 then (3 - exp).toNat else 4⟩

/-- A value below one has no integer part. -/
theorem machine_of_neg {cfg : Config} {bin : ℕ} {exp : ℤ}
    (small : bin < 2 ^ (cfg.realManBits + 1)) (negative : exp < 0) :
    machine cfg bin exp = ⟨0, 0, 0, some (fractionAt cfg bin exp)⟩ := by
  have noInteger : etoaInteger cfg bin exp = (exp, 0, 0, 0) := if_neg (by omega)
  simp only [machine, noInteger, fracStart_eq exp small]
  rw [if_pos (by omega)]
  rfl

/-- An exponent the mantissa covers leaves nothing to scale. -/
theorem machine_of_le {cfg : Config} {bin : ℕ} {exp : ℤ}
    (small : bin < 2 ^ (cfg.realManBits + 1)) (nonneg : 0 ≤ exp) (covered : exp ≤ cfg.shiftBits) :
    machine cfg bin exp =
      ⟨bin / 2 ^ (cfg.realManBits - exp.toNat),
        if (cfg.realManBits : ℤ) = exp then 0
        else bin / 2 ^ (cfg.realManBits - exp.toNat - 1) % 2, 0,
        if exp < cfg.realManBits then some (fractionAt cfg bin exp) else none⟩ := by
  have shift : intShift cfg exp = exp.toNat := if_neg (by omega)
  have start := (intStart_eq exp small).1
  rw [shift, show (exp - exp.toNat).toNat = 0 by omega] at start
  simp only [machine, etoaInteger, if_pos nonneg, start, etoaIntScale, fracStart_eq exp small,
    ne_eq, not_true_eq_false, ↓reduceIte]
  congr 1
  by_cases top : (cfg.realManBits : ℤ) = exp
  · rw [if_pos top, if_pos (by omega)]
  · rw [if_neg top, if_neg (by omega)]

/-- The integer scaling of an exponent that the mantissa does not cover. -/
def scaledInt (cfg : Config) (bin : ℕ) (exp : ℤ) : ℕ × ℕ × ℕ :=
  etoaIntScale cfg (exp - cfg.shiftBits).toNat 0 (bin / 2 ^ (cfg.realManBits - cfg.shiftBits))
    (if cfg.realManBits = cfg.shiftBits then 0
      else bin / 2 ^ (cfg.realManBits - cfg.shiftBits - 1) % 2)

/-- A larger exponent is scaled, and what is below the integer is given up. -/
theorem machine_of_gt {cfg : Config} {bin : ℕ} {exp : ℤ}
    (small : bin < 2 ^ (cfg.realManBits + 1)) (above : (cfg.shiftBits : ℤ) < exp) :
    machine cfg bin exp = ⟨(scaledInt cfg bin exp).2.1, (scaledInt cfg bin exp).2.2,
      (scaledInt cfg bin exp).1, none⟩ := by
  have shift : intShift cfg exp = cfg.shiftBits := if_pos above
  have start := (intStart_eq exp small).1
  rw [shift] at start
  have more : (exp - cfg.shiftBits).toNat ≠ 0 := by omega
  simp only [machine, etoaInteger, if_pos (show 0 ≤ exp by omega), start, if_pos more,
    lt_self_iff_false, ↓reduceIte]
  rfl

theorem Normalized.full {cfg : Config} {bin : ℕ} {exp : ℤ} (norm : Normalized cfg bin exp)
    (nonneg : 0 ≤ exp) : 2 ^ cfg.realManBits ≤ bin := by
  refine norm.normal.resolve_left fun least => ?_
  have bias : 2 ≤ cfg.realExpBias := by
    unfold Config.realExpBias Config.realMaxExp
    split <;> norm_num
  omega

/-- The top bit of a fraction stays on top. -/
theorem fracMan_top {cfg : Config} {bits : ℕ} (half : 2 ^ (cfg.binBits - 1) ≤ bits) :
    8 * cfg.unit ≤ (fracMan cfg bits).1 := by
  have wide := cfg.binBits_bounds
  have narrow := cfg.manBits_ge
  rw [← cfg.two_pow_top]
  unfold fracMan
  split_ifs with less
  · rw [Nat.le_div_iff_mul_le (by positivity), ← pow_add]
    exact (Nat.pow_le_pow_right two_pos (by omega)).trans half
  · calc 2 ^ (cfg.manBits - 1) = 2 ^ (cfg.binBits - 1) * 2 ^ (cfg.manBits - cfg.binBits) := by
          rw [← pow_add]
          congr 1
          omega
      _ ≤ _ := Nat.mul_le_mul_right _ half

theorem fractionAt_valid {cfg : Config} {bin : ℕ} {exp : ℤ} (norm : Normalized cfg bin exp)
    (int : ℕ) (behind : int ≠ 0 ↔ 0 ≤ exp) : (fractionAt cfg bin exp).Valid cfg int := by
  obtain ⟨wide, narrow⟩ := cfg.binBits_bounds
  have fits := fracMan_fits (fracBits_lt exp norm.small)
  have bias : cfg.realExpBias ≤ 1023 ∧ cfg.realManBits + 2 ≤ cfg.realExpBias ∧
      127 ≤ cfg.realExpBias := by
    unfold Config.realExpBias Config.realMaxExp Config.realManBits Config.realMantDig
    split <;> norm_num
  have lower := norm.lower
  obtain ⟨limit, -⟩ := cfg.fiveLimit_spec
  have room := cfg.unit_ge
  refine ⟨fits, ?_, ?_, fun integer => ?_, fun noInt nonzero => ?_⟩
  · unfold fractionAt
    simp only
    split_ifs <;> omega
  · unfold fractionAt
    simp only
    split_ifs <;> omega
  · exact if_neg (not_lt.mpr (behind.mp integer))
  have negative : exp < 0 := by
    by_contra nonneg
    exact behind.mpr (by omega) noInt
  unfold fractionAt at nonzero ⊢
  simp only [if_pos negative]
  have bits : fracBits cfg bin exp = bin * 2 ^ (cfg.binBits - cfg.realManBits - 1) := by
    rw [fracBits, if_pos negative]
  have power : 1 ≤ 2 ^ ((3 - exp).toNat - 4) := Nat.one_le_two_pow
  by_cases normal : 2 ^ cfg.realManBits ≤ bin
  · -- the implicit bit is the top bit of the mantissa
    have half : 2 ^ (cfg.binBits - 1) ≤ fracBits cfg bin exp := by
      rw [bits]
      calc 2 ^ (cfg.binBits - 1)
          = 2 ^ cfg.realManBits * 2 ^ (cfg.binBits - cfg.realManBits - 1) := by
            rw [← pow_add]
            congr 1
            omega
        _ ≤ _ := Nat.mul_le_mul_right _ normal
    have top := fracMan_top half
    calc cfg.fiveLimit < 2 * (fracMan cfg (fracBits cfg bin exp)).1 +
          (fracMan cfg (fracBits cfg bin exp)).2 := by omega
      _ ≤ _ := Nat.le_mul_of_pos_left _ power
  · -- a subnormal has steps enough, whatever its leading zeros
    have least := norm.normal.resolve_right normal
    have whole : 16 * cfg.unit = 2 ^ cfg.manBits := cfg.two_pow_manBits.symm
    by_cases less : cfg.manBits < cfg.binBits
    · have bounded : 1 ≤ 2 * (fracMan cfg (fracBits cfg bin exp)).1 +
          (fracMan cfg (fracBits cfg bin exp)).2 := by
        unfold Fraction.IsZero at nonzero
        simp only at nonzero
        omega
      calc cfg.fiveLimit < 2 ^ cfg.manBits := by omega
        _ ≤ 2 ^ ((3 - exp).toNat - 4) := Nat.pow_le_pow_right two_pos (by omega)
        _ ≤ _ := Nat.le_mul_of_pos_right _ bounded
    · have shape : fracMan cfg (fracBits cfg bin exp) =
          (fracBits cfg bin exp * 2 ^ (cfg.manBits - cfg.binBits), 0) := if_neg less
      have positive : 1 ≤ bin := by
        rw [shape] at nonzero
        unfold Fraction.IsZero at nonzero
        rw [bits] at nonzero
        by_contra zero
        rw [show bin = 0 by omega] at nonzero
        simp at nonzero
      rw [shape, bits]
      simp only
      calc cfg.fiveLimit < 2 ^ cfg.manBits := by omega
        _ ≤ 2 ^ ((3 - exp).toNat - 4) * (2 * (2 ^ (cfg.binBits - cfg.realManBits - 1) *
              2 ^ (cfg.manBits - cfg.binBits))) := by
            rw [← pow_add, ← pow_succ', ← pow_add]
            exact Nat.pow_le_pow_right two_pos (by omega)
        _ ≤ _ := by
            refine Nat.mul_le_mul_left _ ?_
            rw [Nat.add_zero]
            refine Nat.mul_le_mul_left _ (Nat.mul_le_mul_right _ ?_)
            exact Nat.le_mul_of_pos_left _ positive

/-- **The number a conversion works with is in range for every argument.** -/
theorem machine_valid {cfg : Config} {bin : ℕ} {exp : ℤ} (norm : Normalized cfg bin exp) :
    (machine cfg bin exp).Valid cfg := by
  obtain ⟨real, wide, -⟩ := cfg.shiftBits_spec
  have whole := cfg.two_pow_manBits
  have room := cfg.unit_ge
  rcases lt_or_ge exp 0 with negative | nonneg
  · rw [machine_of_neg norm.small negative]
    refine ⟨⟨Nat.mul_pos (by norm_num) (by omega), Nat.zero_le _⟩, Nat.zero_le _, nofun, ?_⟩
    rintro f same
    obtain rfl := Option.some.inj same
    exact ⟨rfl, fractionAt_valid norm 0 ⟨fun not_zero => absurd rfl not_zero, by omega⟩⟩
  have full := norm.full nonneg
  by_cases covered : exp ≤ cfg.shiftBits
  · have start := (intStart_eq exp norm.small).2
    rw [intShift, if_neg (by omega), whole] at start
    have positive : bin / 2 ^ (cfg.realManBits - exp.toNat) ≠ 0 := by
      refine (Nat.div_pos ?_ (by positivity)).ne'
      exact (Nat.pow_le_pow_right two_pos (by omega)).trans full
    rw [machine_of_le norm.small nonneg covered]
    refine ⟨⟨start, ?_⟩, Nat.zero_le _, fun _ => positive, ?_⟩
    · simp only
      split_ifs <;> omega
    · rintro f same
      simp only at same
      split_ifs at same
      obtain rfl := Option.some.inj same
      exact ⟨rfl, fractionAt_valid norm _ ⟨fun _ => nonneg, fun _ => positive⟩⟩
  · have start := (intStart_eq exp norm.small).2
    rw [intShift, if_pos (by omega), whole] at start
    have positive : bin / 2 ^ (cfg.realManBits - cfg.shiftBits) ≠ 0 := by
      refine (Nat.div_pos ?_ (by positivity)).ne'
      exact (Nat.pow_le_pow_right two_pos (by omega)).trans full
    have bias : cfg.realExpBias ≤ 1023 := by
      unfold Config.realExpBias Config.realMaxExp
      split <;> norm_num
    have upper := norm.upper
    obtain ⟨d, a, c, run, fits, nonzero, bound⟩ := @etoaIntScale_spec cfg
      (exp - cfg.shiftBits).toNat 0 _
      (if cfg.realManBits = cfg.shiftBits then 0
        else bin / 2 ^ (cfg.realManBits - cfg.shiftBits - 1) % 2)
      ⟨start, by split_ifs <;> omega⟩ positive
    rw [machine_of_gt norm.small (by omega), scaledInt, run]
    refine ⟨fits, ?_, fun _ => nonzero, nofun⟩
    simp only
    split_ifs at bound <;> omega

/-! ## The scaling of a fraction -/

namespace Fraction.Valid

variable {cfg : Config} {int : ℕ} {f : Fraction}

/-- No zeros stand between an integer part and the first digit. -/
theorem zeros_behind (valid : f.Valid cfg int) (behind : int ≠ 0) : f.zeros cfg = 0 := by
  rw [Fraction.zeros, valid.behind behind]
  rfl

theorem settled_lt (valid : f.Valid cfg int) : f.settled cfg < 10 * cfg.unit :=
  (Nanoprintf.settled_lt (approach_fits _ valid.fits)).1

theorem unit_le_settled (valid : f.Valid cfg int) (zero : int = 0) (nonzero : ¬ f.IsZero) :
    cfg.unit ≤ f.settled cfg :=
  Nanoprintf.unit_le_settled (approach_fits _ valid.fits)
    (approach_large _ valid.fits.2 (valid.large zero nonzero))

theorem zeros_le (valid : f.Valid cfg int) (nonzero : ¬ f.IsZero) : f.zeros cfg ≤ 542 := by
  have balance := approach_zeros_le (f.left - 4) valid.fits
    (by rwa [Fraction.IsZero, not_and_or] at nonzero)
  have steps := valid.left_le
  have bits := cfg.manBits_le
  rw [← Fraction.zeros] at balance
  omega

/-- With zeros to spare the scaling gets to the first digit. -/
theorem fracScale_full (valid : f.Valid cfg int) {budget : ℕ} (enough : f.zeros cfg < budget) :
    ∃ man carry, fracScale cfg budget f.left 0 f.man f.carry = ⟨0, f.zeros cfg, man, carry⟩ ∧
      man + carry = f.settled cfg ∧ carry ≤ 1 := by
  have run := Nanoprintf.fracScale_full (f.left - 4) valid.fits enough
  rw [Nat.sub_add_cancel valid.left_ge] at run
  exact ⟨_, _, run, rfl, (Nanoprintf.settled_lt (approach_fits _ valid.fits)).2⟩

/-- Short of zeros it stops with the last of them, and something is left. -/
theorem fracScale_stops (valid : f.Valid cfg int) (nonzero : ¬ f.IsZero) {budget : ℕ}
    (positive : budget ≠ 0) (short : budget ≤ f.zeros cfg) :
    ∃ left man, fracScale cfg budget f.left 0 f.man f.carry = ⟨left, budget, man, 0⟩ ∧
      4 ≤ left ∧ man ≠ 0 ∧ man < 16 * cfg.unit := by
  have zero : int = 0 := by
    by_contra behind
    rw [valid.zeros_behind behind] at short
    omega
  obtain ⟨i, m, c, run, -, fits, -, last, rest⟩ :=
    Nanoprintf.fracScale_stops (f.left - 4) valid.fits short
  rw [Nat.sub_add_cancel valid.left_ge] at run
  obtain ⟨rfl, -⟩ := last positive
  refine ⟨i + 4, m, run, by omega, ?_, fits.1⟩
  rintro rfl
  -- a mantissa that is used up leaves no first digit
  have large := valid.unit_le_settled zero nonzero
  rw [Fraction.settled, rest, approach_nil] at large
  have positive := cfg.unit_ge
  simp only [Nanoprintf.settled, settle, Nat.zero_le, ↓reduceIte] at large
  omega

end Fraction.Valid

/-! ## The exact range -/

/-- On the grid the mantissa is a multiple with factors of two to spare. -/
theorem fractionAt_grid {cfg : Config} {bin : ℕ} {exp : ℤ} {n : ℕ}
    (grid : fracBits cfg bin exp * 2 ^ (cfg.manBits - 3) =
      n * 2 ^ (cfg.binBits + ((fractionAt cfg bin exp).left - 4))) :
    (fractionAt cfg bin exp).man = n * 2 ^ ((fractionAt cfg bin exp).left - 4 + 3) ∧
      (fractionAt cfg bin exp).carry = 0 := by
  have bits := cfg.manBits_ge
  generalize (fractionAt cfg bin exp).left - 4 = j at grid
  unfold fractionAt fracMan
  by_cases narrow : cfg.manBits < cfg.binBits
  · have whole : fracBits cfg bin exp = n * 2 ^ (j + 4) * 2 ^ (cfg.binBits - cfg.manBits - 1) := by
      refine Nat.eq_of_mul_eq_mul_right (show 0 < 2 ^ (cfg.manBits - 3) by positivity) ?_
      rw [grid, mul_assoc, mul_assoc, ← pow_add, ← pow_add]
      congr 2
      omega
    have split : 2 ^ (j + 4) * 2 ^ (cfg.binBits - cfg.manBits - 1) =
        2 ^ (j + 3) * 2 ^ (cfg.binBits - cfg.manBits) := by
      rw [← pow_add, ← pow_add]
      congr 1
      omega
    simp only [if_pos narrow]
    constructor
    · rw [whole, mul_assoc, split, ← mul_assoc, Nat.mul_div_cancel _ (by positivity)]
    · rw [whole, Nat.mul_div_cancel _ (by positivity), pow_succ, ← mul_assoc, Nat.mul_mod_left]
  · simp only [if_neg narrow, and_true]
    refine Nat.eq_of_mul_eq_mul_right (show 0 < 2 ^ (cfg.manBits - 3) by positivity) ?_
    rw [mul_right_comm, grid, mul_assoc, mul_assoc, ← pow_add, ← pow_add]
    congr 2
    omega

/-- A fraction on the grid of `2 ^ -(manBits - 3)` is scaled without loss. -/
theorem fractionAt_exact {cfg : Config} {bin : ℕ} {exp : ℤ} {n : ℕ}
    (small : bin < 2 ^ (cfg.realManBits + 1))
    (grid : fracBits cfg bin exp * 2 ^ (cfg.manBits - 3) =
      n * 2 ^ (cfg.binBits + ((fractionAt cfg bin exp).left - 4))) :
    (fractionAt cfg bin exp).value cfg = n / 2 ^ (cfg.manBits - 3) := by
  have bits := cfg.manBits_ge
  obtain ⟨man, carry⟩ := fractionAt_grid grid
  generalize steps : (fractionAt cfg bin exp).left - 4 = j at man
  have unit : (2 : ℚ) ^ (cfg.manBits - 3) = 2 * cfg.unit := by
    rw [Config.unit, Nat.cast_pow, Nat.cast_ofNat, ← pow_succ']
    congr 1
    omega
  have positive : (cfg.unit : ℚ) ≠ 0 := by
    have := cfg.unit_ge
    exact_mod_cast (by omega : cfg.unit ≠ 0)
  unfold Fraction.value
  by_cases zero : (fractionAt cfg bin exp).IsZero
  · have vanishes : n = 0 := by
      have empty := man ▸ zero.1
      exact (Nat.mul_eq_zero.mp empty).resolve_right (by positivity)
    rw [if_pos zero, vanishes]
    simp
  · have fits : Fits cfg (fractionAt cfg bin exp).man 0 :=
      ⟨(fracMan_fits (fracBits_lt exp small)).1, Nat.zero_le _⟩
    obtain ⟨eighth, clean, value⟩ := @approach_exact cfg.fiveLimit j
      (fractionAt cfg bin exp).man (man ▸ Dvd.intro_left n rfl)
    have final := approach_fits j fits
    have ends := settled_exact final.1 eighth
    have first : (approach cfg.fiveLimit j (fractionAt cfg bin exp).man 0).2.1 =
        8 * (n * 10 ^ (approach cfg.fiveLimit j (fractionAt cfg bin exp).man 0).1) := by
      refine Nat.eq_of_mul_eq_mul_right (show 0 < 2 ^ j by positivity) ?_
      rw [← value, man, pow_add]
      ring
    have digits : (fractionAt cfg bin exp).settled cfg =
        5 * (n * 10 ^ (fractionAt cfg bin exp).zeros cfg) := by
      unfold Fraction.settled Fraction.zeros
      rw [steps, carry, clean]
      omega
    rw [if_neg zero, digits, unit, pow_succ]
    push_cast
    field_simp
    ring

/-- The fraction of a value on the grid is on it. -/
theorem fracBits_grid {cfg : Config} {bin e n : ℕ} (inside : e < cfg.realManBits)
    (grid : (bin : ℚ) * 2 ^ ((e : ℤ) - cfg.realManBits) * 2 ^ (cfg.manBits - 3) = n) :
    ∃ k : ℕ, fracBits cfg bin e * 2 ^ (cfg.manBits - 3) = k * 2 ^ cfg.binBits ∧
      (bin : ℚ) * 2 ^ ((e : ℤ) - cfg.realManBits) =
        (bin / 2 ^ (cfg.realManBits - e) : ℕ) + k / 2 ^ (cfg.manBits - 3) := by
  obtain ⟨room, -⟩ := cfg.binBits_bounds
  obtain ⟨s, split⟩ : ∃ s, cfg.realManBits = e + s := ⟨cfg.realManBits - e, by omega⟩
  have value : (bin : ℚ) * 2 ^ ((e : ℤ) - cfg.realManBits) = bin / 2 ^ s := by
    rw [show (e : ℤ) - cfg.realManBits = -(s : ℤ) by omega, zpow_neg, zpow_natCast, div_eq_mul_inv]
  have parts := Nat.div_add_mod bin (2 ^ s)
  have rest : bin % 2 ^ s < 2 ^ s := Nat.mod_lt _ (by positivity)
  rw [show cfg.realManBits - e = s by omega]
  set int := bin / 2 ^ s
  set low := bin % 2 ^ s
  have scaled : bin * 2 ^ (cfg.manBits - 3) = n * 2 ^ s := by
    have : (bin : ℚ) * 2 ^ (cfg.manBits - 3) = n * 2 ^ s := by
      rw [← grid, value]
      field_simp
    exact_mod_cast this
  obtain ⟨k, lower⟩ : ∃ k, n = int * 2 ^ (cfg.manBits - 3) + k := by
    refine Nat.exists_eq_add_of_le ?_
    refine Nat.le_of_mul_le_mul_right ?_ (show 0 < 2 ^ s by positivity)
    calc int * 2 ^ (cfg.manBits - 3) * 2 ^ s = 2 ^ s * int * 2 ^ (cfg.manBits - 3) := by ring
      _ ≤ bin * 2 ^ (cfg.manBits - 3) := Nat.mul_le_mul_right _ (by omega)
      _ = n * 2 ^ s := scaled
  have fraction : low * 2 ^ (cfg.manBits - 3) = k * 2 ^ s := by
    have whole : (2 ^ s * int + low) * 2 ^ (cfg.manBits - 3) =
        (int * 2 ^ (cfg.manBits - 3) + k) * 2 ^ s := by rw [parts, ← lower, scaled]
    nlinarith [whole]
  have bits : fracBits cfg bin e = low * 2 ^ e * 2 ^ (cfg.binBits - cfg.realManBits) := by
    have shifted : bin * 2 ^ e = 2 ^ cfg.realManBits * int + low * 2 ^ e := by
      rw [split, ← parts, pow_add]
      ring
    have bound : low * 2 ^ e < 2 ^ cfg.realManBits := by
      rw [split, pow_add, mul_comm]
      exact Nat.mul_lt_mul_of_pos_left rest (by positivity)
    rw [fracBits, if_neg (by omega), Int.toNat_natCast, shifted, Nat.mul_add_mod,
      Nat.mod_eq_of_lt bound]
  refine ⟨k, ?_, ?_⟩
  · calc _ = low * 2 ^ (cfg.manBits - 3) * (2 ^ e * 2 ^ (cfg.binBits - cfg.realManBits)) := by
          rw [bits]
          ring
      _ = _ := by
          rw [fraction, mul_assoc, ← pow_add, ← pow_add]
          congr 2
          omega
  · have real : (bin : ℚ) = 2 ^ s * int + low := by exact_mod_cast parts.symm
    have fractionQ : (low : ℚ) * 2 ^ (cfg.manBits - 3) = k * 2 ^ s := by exact_mod_cast fraction
    have ratio : (k : ℚ) / 2 ^ (cfg.manBits - 3) = low / 2 ^ s := by
      rw [div_eq_div_iff (by positivity) (by positivity), fractionQ]
    rw [value, ratio, real]
    field_simp

theorem fractionAt_left {cfg : Config} (bin e : ℕ) : (fractionAt cfg bin e).left = 4 := by
  unfold fractionAt
  simp only [if_neg (show ¬ (e : ℤ) < 0 by omega)]

/-- What is above the range of the mantissa and below its limit only needs shifting. -/
theorem scaledInt_exact {cfg : Config} {bin e : ℕ} (full : 2 ^ cfg.realManBits ≤ bin)
    (above : cfg.shiftBits < e)
    (below : (bin : ℚ) * 2 ^ ((e : ℤ) - cfg.realManBits) < 2 ^ cfg.manBits) :
    ∃ k, e = cfg.realManBits + k ∧ cfg.shiftBits = cfg.realManBits ∧
      (bin : ℚ) * 2 ^ ((e : ℤ) - cfg.realManBits) = (bin * 2 ^ k : ℕ) ∧
      scaledInt cfg bin e = (0, bin * 2 ^ k, 0) := by
  obtain ⟨real, wide, either⟩ := cfg.shiftBits_spec
  have same : cfg.shiftBits = cfg.realManBits := by
    refine either.resolve_right fun narrow => ?_
    have large : (2 : ℚ) ^ cfg.manBits ≤ bin * 2 ^ ((e : ℤ) - cfg.realManBits) :=
      calc (2 : ℚ) ^ cfg.manBits ≤ 2 ^ e := pow_le_pow_right₀ one_le_two (by omega)
        _ = 2 ^ cfg.realManBits * 2 ^ ((e : ℤ) - cfg.realManBits) := by
            rw [← zpow_natCast, ← zpow_natCast, ← zpow_add₀ two_ne_zero]
            congr 1
            ring
        _ ≤ _ := mul_le_mul_of_nonneg_right (by exact_mod_cast full) (by positivity)
    exact absurd below (not_lt.mpr large)
  obtain ⟨k, rfl⟩ : ∃ k, e = cfg.realManBits + k := ⟨e - cfg.realManBits, by omega⟩
  have value : (bin : ℚ) * 2 ^ (((cfg.realManBits + k : ℕ) : ℤ) - cfg.realManBits) =
      (bin * 2 ^ k : ℕ) := by
    rw [show ((cfg.realManBits + k : ℕ) : ℤ) - cfg.realManBits = (k : ℤ) by push_cast; ring,
      zpow_natCast]
    push_cast
    rfl
  rw [value] at below ⊢
  refine ⟨k, rfl, same, rfl, ?_⟩
  have small : bin * 2 ^ k < 16 * cfg.unit := by
    rw [← cfg.two_pow_manBits]
    exact_mod_cast below
  rw [scaledInt, same, if_pos rfl, Nat.sub_self, pow_zero, Nat.div_one,
    show (((cfg.realManBits + k : ℕ) : ℤ) - cfg.realManBits).toNat = k by omega]
  exact etoaIntScale_exact k 0 small

/-- A value on the grid splits into its integer and a fraction on the grid. -/
theorem fractionAt_split {cfg : Config} {bin : ℕ} {exp : ℤ} (inside : exp < cfg.realManBits) {n : ℕ}
    (grid : (bin : ℚ) * 2 ^ (exp - cfg.realManBits) * 2 ^ (cfg.manBits - 3) = n) :
    ∃ k : ℕ, fracBits cfg bin exp * 2 ^ (cfg.manBits - 3) =
        k * 2 ^ (cfg.binBits + ((fractionAt cfg bin exp).left - 4)) ∧
      (bin : ℚ) * 2 ^ (exp - cfg.realManBits) =
        (if exp < 0 then 0 else bin / 2 ^ (cfg.realManBits - exp.toNat) : ℕ) +
          k / 2 ^ (cfg.manBits - 3) := by
  obtain ⟨room, -⟩ := cfg.binBits_bounds
  rcases lt_or_ge exp 0 with negative | nonneg
  · -- the value is the fraction
    obtain ⟨e, rfl⟩ : ∃ e : ℕ, exp = -1 - e := ⟨(-1 - exp).toNat, by omega⟩
    have power :
        (2 : ℚ) ^ (-1 - (e : ℤ) - cfg.realManBits) = (2 ^ (cfg.realManBits + e + 1))⁻¹ := by
      rw [← zpow_natCast, ← zpow_neg]
      congr 1
      push_cast
      ring
    rw [power] at grid ⊢
    have scaled : bin * 2 ^ (cfg.manBits - 3) = n * 2 ^ (cfg.realManBits + e + 1) := by
      have : (bin : ℚ) * 2 ^ (cfg.manBits - 3) = n * 2 ^ (cfg.realManBits + e + 1) := by
        rw [← grid]
        field_simp
      exact_mod_cast this
    have left : (fractionAt cfg bin (-1 - (e : ℤ))).left = e + 4 := by
      unfold fractionAt
      simp only [if_pos negative]
      omega
    refine ⟨n, ?_, ?_⟩
    · rw [left, fracBits, if_pos negative, mul_right_comm, scaled, mul_assoc, ← pow_add]
      congr 2
      omega
    · rw [← grid, if_pos negative]
      push_cast
      field_simp
      ring
  · obtain ⟨e, rfl⟩ := Int.eq_ofNat_of_zero_le nonneg
    obtain ⟨k, fraction, split⟩ := fracBits_grid (by omega) grid
    refine ⟨k, ?_, ?_⟩
    · rw [fraction, fractionAt_left, Nat.sub_self, Nat.add_zero]
    · rw [if_neg (by omega), Int.toNat_natCast, split]

/-- **Inside the documented range no bit is lost**: the number a conversion works
with is its argument. -/
theorem machine_value_exact {cfg : Config} {bin : ℕ} {exp : ℤ} (norm : Normalized cfg bin exp)
    {n : ℕ} (grid : (bin : ℚ) * 2 ^ (exp - cfg.realManBits) * 2 ^ (cfg.manBits - 3) = n)
    (below : (bin : ℚ) * 2 ^ (exp - cfg.realManBits) < 2 ^ cfg.manBits) :
    (machine cfg bin exp).value cfg = bin * 2 ^ (exp - cfg.realManBits) := by
  obtain ⟨real, -⟩ := cfg.shiftBits_spec
  rcases lt_or_ge exp 0 with negative | nonneg
  · obtain ⟨k, fraction, split⟩ := fractionAt_split (by omega) grid
    rw [machine_of_neg norm.small negative, split, if_pos negative]
    simp only [Machine.value]
    rw [fractionAt_exact norm.small fraction]
  have full := norm.full nonneg
  obtain ⟨e, rfl⟩ := Int.eq_ofNat_of_zero_le nonneg
  by_cases covered : (e : ℤ) ≤ cfg.shiftBits
  · rw [machine_of_le norm.small nonneg covered]
    by_cases top : e = cfg.realManBits
    · subst top
      simp [Machine.value]
    -- the value splits at the point
    have inside : (e : ℤ) < cfg.realManBits := by omega
    obtain ⟨k, fraction, split⟩ := fractionAt_split inside grid
    rw [if_pos inside, split, if_neg (show ¬ (e : ℤ) < 0 by omega)]
    simp only [Machine.value]
    rw [fractionAt_exact norm.small fraction]
  · obtain ⟨k, -, -, value, scaled⟩ := scaledInt_exact full (by omega) below
    rw [machine_of_gt norm.small (by omega), scaled, value]
    simp [Machine.value]

/-- A fraction that is not given up is the one at the exponent. -/
theorem machine_frac {cfg : Config} {bin : ℕ} {exp : ℤ} (norm : Normalized cfg bin exp)
    {f : Fraction} (frac : (machine cfg bin exp).frac = some f) :
    exp < cfg.realManBits ∧ fractionAt cfg bin exp = f := by
  obtain ⟨real, -⟩ := cfg.shiftBits_spec
  rcases lt_or_ge exp 0 with negative | nonneg
  · rw [machine_of_neg norm.small negative] at frac
    exact ⟨by omega, Option.some.inj frac⟩
  · by_cases covered : exp ≤ cfg.shiftBits
    · rw [machine_of_le norm.small nonneg covered] at frac
      simp only at frac
      split_ifs at frac with inside
      exact ⟨inside, Option.some.inj frac⟩
    · rw [machine_of_gt norm.small (by omega)] at frac
      exact absurd frac nofun

/-- On the grid the mantissa of the fraction has the factors of two that its scaling needs. -/
theorem machine_fraction_grid {cfg : Config} {bin : ℕ} {exp : ℤ} (norm : Normalized cfg bin exp)
    {n : ℕ} (grid : (bin : ℚ) * 2 ^ (exp - cfg.realManBits) * 2 ^ (cfg.manBits - 3) = n)
    {f : Fraction} (frac : (machine cfg bin exp).frac = some f) :
    2 ^ (f.left - 4 + 3) ∣ f.man ∧ f.carry = 0 := by
  obtain ⟨inside, rfl⟩ := machine_frac norm frac
  obtain ⟨k, fraction, -⟩ := fractionAt_split inside grid
  obtain ⟨man, carry⟩ := fractionAt_grid fraction
  exact ⟨man ▸ Dvd.intro_left k rfl, carry⟩

/-! ## The bits of a fraction -/

/-- From one half on the fraction bits are the fractional part. -/
theorem fracBits_eq_fract {cfg : Config} {bin : ℕ} {exp : ℤ}
    (small : bin < 2 ^ (cfg.realManBits + 1))
    (near : -1 ≤ exp) (inside : exp < cfg.realManBits) :
    (fracBits cfg bin exp : ℚ) =
        Int.fract ((bin : ℚ) * 2 ^ (exp - cfg.realManBits)) * 2 ^ cfg.binBits ∧
      ⌊(bin : ℚ) * 2 ^ (exp - cfg.realManBits)⌋₊ =
        if exp < 0 then 0 else bin / 2 ^ (cfg.realManBits - exp.toNat) := by
  obtain ⟨room, -⟩ := cfg.binBits_bounds
  obtain ⟨s, rfl⟩ : ∃ s : ℕ, exp = cfg.realManBits - s := ⟨(cfg.realManBits - exp).toNat, by omega⟩
  have value : (bin : ℚ) * 2 ^ ((cfg.realManBits : ℤ) - s - cfg.realManBits) =
      (bin : ℚ) / (2 ^ s : ℕ) := by
    rw [show (cfg.realManBits : ℤ) - s - cfg.realManBits = -(s : ℤ) by ring, zpow_neg, zpow_natCast,
      div_eq_mul_inv]
    push_cast
    rfl
  rw [value, Int.fract_div_natCast_eq_div_natCast_mod, Nat.floor_div_eq_div]
  have power : (0 : ℚ) < (2 ^ s : ℕ) := by positivity
  by_cases negative : (cfg.realManBits : ℤ) - s < 0
  · obtain rfl : s = cfg.realManBits + 1 := by omega
    rw [if_pos negative, fracBits, if_pos negative, Nat.mod_eq_of_lt small, Nat.div_eq_of_lt small,
      div_mul_eq_mul_div, eq_div_iff power.ne']
    refine ⟨?_, rfl⟩
    have split : 2 ^ (cfg.binBits - cfg.realManBits - 1) * 2 ^ (cfg.realManBits + 1) =
        2 ^ cfg.binBits := by
      rw [← pow_add]
      congr 1
      omega
    rw [← Nat.cast_mul, Nat.mul_assoc, split]
    push_cast
    rfl
  · obtain ⟨e, split⟩ : ∃ e, cfg.realManBits = e + s := ⟨cfg.realManBits - s, by omega⟩
    rw [if_neg negative, fracBits, if_neg negative,
      show ((cfg.realManBits : ℤ) - s).toNat = e by omega, show cfg.realManBits - e = s by omega]
    refine ⟨?_, rfl⟩
    have low : bin * 2 ^ e % 2 ^ cfg.realManBits = bin % 2 ^ s * 2 ^ e := by
      rw [split, pow_add, mul_comm (2 ^ e), Nat.mul_mod_mul_right]
    have rest : 2 ^ e * 2 ^ (cfg.binBits - cfg.realManBits) * 2 ^ s = 2 ^ cfg.binBits := by
      rw [← pow_add, ← pow_add]
      congr 1
      omega
    rw [low, div_mul_eq_mul_div, eq_div_iff power.ne', ← Nat.cast_mul, Nat.mul_assoc, Nat.mul_assoc,
      ← Nat.mul_assoc (2 ^ e), rest]
    push_cast
    rfl

/-- A 32-bit intermediate and the bit below it hold the first 33 bits after the point. -/
theorem floor_fract {cfg : Config} {bin : ℕ} {exp : ℤ} (small : bin < 2 ^ (cfg.realManBits + 1))
    (double : cfg.singlePrecision = false) (narrow : cfg.manBits = 32) (near : -1 ≤ exp)
    (inside : exp < cfg.realManBits) :
    ⌊Int.fract ((bin : ℚ) * 2 ^ (exp - cfg.realManBits)) * 2 ^ 33⌋₊ =
      2 * (fracMan cfg (fracBits cfg bin exp)).1 + (fracMan cfg (fracBits cfg bin exp)).2 := by
  have wide : cfg.binBits = 64 := by rw [Config.binBits, double]; rfl
  have scaled : Int.fract ((bin : ℚ) * 2 ^ (exp - cfg.realManBits)) * 2 ^ 33 =
      (fracBits cfg bin exp : ℚ) / (2 ^ 31 : ℕ) := by
    rw [(fracBits_eq_fract small near inside).1, wide]
    push_cast
    ring
  rw [scaled, Nat.floor_div_eq_div, fracMan, if_pos (by omega), wide, narrow]
  omega

end Nanoprintf
