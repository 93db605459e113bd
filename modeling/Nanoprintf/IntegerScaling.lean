import Nanoprintf.Foundations.Truncation
import Nanoprintf.Ftoa
import Nanoprintf.Machine

/-!
# What the integer scaling loses

The integer part of a value whose exponent is too large for the mantissa is scaled
from base two to base ten by a loop that doubles while there is room and divides by
five otherwise. `IntScale` is the state of that loop and `IntScale.next` one
iteration; both conversions run it. A doubling loses nothing. A division keeps the
half below the mantissa and loses less than that half, and the mantissa it divides
has its top bit set, so that the loss is a small part of the value.
-/

set_option autoImplicit false

namespace Nanoprintf

open Foundations

variable {cfg : Config}

/-! ## The loop -/

/-- The variables of the loop: how often it has divided, `man_i` and `carry`. -/
structure IntScale where
  dec : ℕ
  man : ℕ
  carry : ℕ
  deriving DecidableEq, Repr

namespace IntScale

/-- What an iteration computes before it is stored in an `npf_ftoa_man_t`. -/
def unwrapped (cfg : Config) (s : IntScale) : ℕ :=
  if !isFull cfg s.man then s.man <<< 1 ||| s.carry else (div5 cfg s.man).1

/-- One iteration. -/
def next (cfg : Config) (s : IntScale) : IntScale :=
  if !isFull cfg s.man then ⟨s.dec, doubleUp cfg s.man s.carry, 0⟩
  else ⟨s.dec + 1, (fifth cfg s.man s.carry).1, (fifth cfg s.man s.carry).2⟩

/-- One unit of the mantissa, with `left` iterations to go. -/
def ulp (s : IntScale) (left : ℕ) : ℚ := 10 ^ s.dec * 2 ^ left

/-- The number that mantissa, carry and decimal exponent stand for. -/
def scaled (s : IntScale) : ℚ := (s.man + s.carry / 2) * 10 ^ s.dec

/-- The number the loop is working on, with `left` iterations to go. -/
def value (s : IntScale) (left : ℕ) : ℚ := s.scaled * 2 ^ left

@[simp] theorem value_zero (s : IntScale) : s.value 0 = s.scaled := by
  rw [value, pow_zero, mul_one]

/-- The iteration stays in the type, and loses nothing or, in a division, less than
half a unit. -/
structure Steps (cfg : Config) (s : IntScale) (left : ℕ) : Prop where
  inside : s.unwrapped cfg < 2 ^ cfg.manBits
  loss : (s.next cfg).dec = s.dec ∧ (s.next cfg).value left = s.value (left + 1) ∨
    (s.next cfg).dec = s.dec + 1 ∧ (s.next cfg).value left ≤ s.value (left + 1) ∧
      s.value (left + 1) - (s.next cfg).value left < (s.next cfg).ulp left / 2

end IntScale

theorem etoaIntScale_iterate (n : ℕ) (s : IntScale) :
    etoaIntScale cfg n s.dec s.man s.carry =
      (((IntScale.next cfg)^[n] s).dec, ((IntScale.next cfg)^[n] s).man,
        ((IntScale.next cfg)^[n] s).carry) := by
  induction n generalizing s with
  | zero => rfl
  | succ n ih =>
      rw [Function.iterate_succ_apply, ← ih, etoaIntScale, IntScale.next]
      split_ifs
      · rfl
      · rfl

/-- The fused conversion counts from where its digits start, and leaves through
its exit when a zero finds no room. -/
theorem ftoaIntScale_iterate (n start : ℕ) (s : IntScale) (buf : ConvBuffer cfg) :
    ftoaIntScale cfg n (start + s.dec) s.man s.carry buf = gotoExit ∨
      ∃ b, ftoaIntScale cfg n (start + s.dec) s.man s.carry buf =
        .ok (start + ((IntScale.next cfg)^[n] s).dec, ((IntScale.next cfg)^[n] s).man,
          ((IntScale.next cfg)^[n] s).carry, b) := by
  induction n generalizing s buf with
  | zero => exact .inr ⟨buf, rfl⟩
  | succ n ih =>
      rw [Function.iterate_succ_apply, ftoaIntScale, IntScale.next]
      split_ifs with free full
      · exact ih ⟨s.dec, doubleUp cfg s.man s.carry, 0⟩ buf
      · exact .inl rfl
      · rw [buf.write_eq '0' (Nat.lt_of_not_le full)]
        exact ih ⟨s.dec + 1, (fifth cfg s.man s.carry).1, (fifth cfg s.man s.carry).2⟩ _

/-! ## One iteration -/

namespace IntScale

/-- What an iteration does to a mantissa that fits. -/
theorem next_cases {s : IntScale} (fits : Fits cfg s.man s.carry) :
    (s.man < 8 * cfg.unit ∧ s.unwrapped cfg = 2 * s.man + s.carry ∧
        s.next cfg = ⟨s.dec, 2 * s.man + s.carry, 0⟩) ∨
      (8 * cfg.unit ≤ s.man ∧ s.unwrapped cfg = s.man / 5 ∧
        s.next cfg = ⟨s.dec + 1, s.man / 5, (s.man % 5 + s.carry + 1) / 4⟩) := by
  by_cases full : isFull cfg s.man = true
  · refine .inr ⟨isFull_iff.mp full, ?_, ?_⟩
    · simp [unwrapped, full, div5_eq (cfg.two_pow_manBits ▸ fits.1)]
    · simp [next, full, fifth_eq fits]
  · have room : s.man < 8 * cfg.unit := Nat.lt_of_not_le fun large => full (isFull_iff.mpr large)
    have carried : s.man <<< 1 ||| s.carry = 2 * s.man + s.carry := by
      have bit := fits.2
      rw [← Nat.shiftLeft_add_eq_or_of_lt (show s.carry < 2 ^ 1 by omega), Nat.shiftLeft_eq,
        pow_one, Nat.mul_comm]
    refine .inl ⟨room, ?_, ?_⟩
    · simp [unwrapped, full, carried]
    · simp [next, full, doubleUp_eq room fits.2]

theorem next_fits {s : IntScale} (fits : Fits cfg s.man s.carry) :
    Fits cfg (s.next cfg).man (s.next cfg).carry := by
  have positive := cfg.unit_ge
  obtain ⟨small, bit⟩ := fits
  rcases next_cases ⟨small, bit⟩ with ⟨room, -, same⟩ | ⟨full, -, same⟩
  · rw [same]
    exact ⟨by simp only; omega, Nat.zero_le 1⟩
  · rw [same]
    exact ⟨by simp only; omega, by simp only; omega⟩

/-- Twice the number, as an integer: what a division by five leaves of it. -/
theorem fifth_bounds {man carry : ℕ} (bit : carry ≤ 1) :
    5 * (2 * (man / 5) + (man % 5 + carry + 1) / 4) ≤ 2 * man + carry ∧
      2 * man + carry ≤ 5 * (2 * (man / 5) + (man % 5 + carry + 1) / 4) + 4 := by
  constructor <;> omega

/-- The value before a division and after it, as multiples of a tenth of a unit. -/
theorem value_fifth (s : IntScale) (left q c : ℕ) :
    s.value (left + 1) = (2 * s.man + s.carry : ℕ) * ((10 ^ (s.dec + 1) * 2 ^ left) / 10) ∧
      IntScale.value ⟨s.dec + 1, q, c⟩ left =
        (5 * (2 * q + c) : ℕ) * ((10 ^ (s.dec + 1) * 2 ^ left) / 10) := by
  constructor
  · rw [value, scaled, pow_succ 10, pow_succ 2]
    push_cast
    ring
  · rw [value, scaled]
    push_cast
    ring

theorem steps {s : IntScale} (fits : Fits cfg s.man s.carry) (left : ℕ) : s.Steps cfg left := by
  have positive := cfg.unit_ge
  have whole := cfg.two_pow_manBits
  obtain ⟨small, bit⟩ := fits
  rcases next_cases ⟨small, bit⟩ with ⟨room, stored, same⟩ | ⟨full, stored, same⟩
  · refine ⟨by omega, .inl ⟨by rw [same], ?_⟩⟩
    rw [same, value, value, scaled, scaled, pow_succ 2]
    push_cast
    ring
  · refine ⟨by omega, .inr ⟨by rw [same], ?_⟩⟩
    obtain ⟨before, after⟩ := value_fifth s left (s.man / 5) ((s.man % 5 + s.carry + 1) / 4)
    obtain ⟨lower, upper⟩ := @fifth_bounds s.man s.carry bit
    have tenth : (0 : ℚ) < (10 ^ (s.dec + 1) * 2 ^ left) / 10 := by positivity
    have lowerQ : ((5 * (2 * (s.man / 5) + (s.man % 5 + s.carry + 1) / 4) : ℕ) : ℚ) ≤
        (2 * s.man + s.carry : ℕ) := Nat.cast_le.mpr lower
    have upperQ : ((2 * s.man + s.carry : ℕ) : ℚ) ≤
        (5 * (2 * (s.man / 5) + (s.man % 5 + s.carry + 1) / 4) : ℕ) + 4 := by
      exact_mod_cast upper
    rw [same, before, after, ulp]
    constructor
    · exact mul_le_mul_of_nonneg_right lowerQ tenth.le
    · have spread := mul_le_mul_of_nonneg_right upperQ tenth.le
      linarith

/-- An iteration truncates by at most `5 / 2^N` of the number for each division: the
mantissa that is divided has its top bit set. -/
theorem next_truncated {s : IntScale} (fits : Fits cfg s.man s.carry) (left : ℕ) :
    ∃ k, (s.next cfg).dec = s.dec + k ∧
      Truncated (5 / 2 ^ cfg.manBits) k (s.value (left + 1)) ((s.next cfg).value left) := by
  obtain ⟨-, unchanged | ⟨counted, lower, near⟩⟩ := steps fits left
  · exact ⟨0, unchanged.1, unchanged.2 ▸ Truncated.refl _ _⟩
  · refine ⟨1, counted, lower, ?_⟩
    have full : 8 * cfg.unit ≤ s.man := by
      rcases next_cases fits with ⟨-, -, same⟩ | ⟨full, -, -⟩
      · rw [same] at counted
        simp at counted
      · exact full
    have large : (2 : ℚ) ^ cfg.manBits ≤ 2 * (s.man + s.carry / 2) := by
      have bits : 2 ^ cfg.manBits ≤ 2 * s.man + s.carry := by
        rw [cfg.two_pow_manBits]
        omega
      calc (2 : ℚ) ^ cfg.manBits ≤ (2 * s.man + s.carry : ℕ) := by exact_mod_cast bits
        _ = 2 * (s.man + s.carry / 2) := by
            push_cast
            ring
    have unit : (s.next cfg).ulp left / 2 = 5 * (10 ^ s.dec * 2 ^ left) := by
      rw [ulp, counted, pow_succ]
      ring
    have positive : (0 : ℚ) < 2 ^ cfg.manBits := by positivity
    calc s.value (left + 1) - (s.next cfg).value left
        ≤ 5 / 2 ^ cfg.manBits * (2 ^ cfg.manBits * (10 ^ s.dec * 2 ^ left)) := by
          rw [← mul_assoc, div_mul_cancel₀ _ positive.ne', ← unit]
          exact near.le
      _ ≤ 5 / 2 ^ cfg.manBits * (2 * (s.man + s.carry / 2) * (10 ^ s.dec * 2 ^ left)) := by
          gcongr
      _ = (1 : ℕ) * (5 / 2 ^ cfg.manBits) * s.value (left + 1) := by
          rw [value, scaled, pow_succ 2, Nat.cast_one]
          ring

theorem iterate_fits (n : ℕ) {s : IntScale} (fits : Fits cfg s.man s.carry) :
    Fits cfg ((next cfg)^[n] s).man ((next cfg)^[n] s).carry := by
  induction n with
  | zero => exact fits
  | succ n ih =>
      rw [Function.iterate_succ_apply']
      exact next_fits ih

/-- The truncations of a run. -/
theorem iterate_truncated (n : ℕ) {s : IntScale} (fits : Fits cfg s.man s.carry) :
    ∃ k, ((next cfg)^[n] s).dec = s.dec + k ∧
      Truncated (5 / 2 ^ cfg.manBits) k (s.value n) ((next cfg)^[n] s).scaled := by
  rw [← value_zero]
  exact @Truncated.iterate ℚ _ _ _ (5 / 2 ^ cfg.manBits) IntScale (next cfg) dec value
    (fun s => Fits cfg s.man s.carry) (by positivity) (fun _ => next_fits)
    (fun _ left inv => next_truncated inv left) n s fits

end IntScale

/-! ## Where it starts -/

/-- The variables before the first iteration. -/
def intScaleStart (cfg : Config) (bin : ℕ) (exp : ℤ) : IntScale where
  dec := 0
  man := (intStart cfg bin exp).1
  carry := (intStart cfg bin exp).2.1

/-- The variables after `i` iterations. -/
def intScaleAt (cfg : Config) (bin : ℕ) (exp : ℤ) (i : ℕ) : IntScale :=
  (IntScale.next cfg)^[i] (intScaleStart cfg bin exp)

/-- The mantissa is cut down to the intermediate, which keeps the half below it. What
is cut off is none of it if the intermediate is as wide as the mantissa of the real,
and less than that half otherwise. -/
theorem intStart_truncates {bin : ℕ} {exp : ℤ} (norm : Normalized cfg bin exp)
    (large : cfg.shiftBits < exp) :
    ∃ man carry, intStart cfg bin exp = (man, carry, (exp - cfg.shiftBits).toNat) ∧
      Fits cfg man carry ∧ bin >>> (cfg.realManBits - cfg.shiftBits) < 2 ^ cfg.manBits ∧
      ∃ low, 2 * bin = (2 * man + carry) * 2 ^ (cfg.realManBits - cfg.shiftBits) + low ∧
        low * 2 ^ cfg.manBits < 2 * bin := by
  obtain ⟨real, -, either⟩ := cfg.shiftBits_spec
  have full := norm.full (by omega : 0 ≤ exp)
  have shift : intShift cfg exp = cfg.shiftBits := if_pos large
  obtain ⟨start, small⟩ := @intStart_eq cfg bin exp norm.small
  rw [shift] at start small
  refine ⟨_, _, start, ⟨cfg.two_pow_manBits ▸ small, by split_ifs <;> omega⟩,
    by rwa [Nat.shiftRight_eq_div_pow], ?_⟩
  have positive : 0 < 2 ^ cfg.realManBits := by positivity
  rcases Nat.eq_zero_or_pos (cfg.realManBits - cfg.shiftBits) with noShift | shifts
  · refine ⟨0, ?_, by omega⟩
    rw [noShift, if_pos (by omega)]
    simp
  · obtain ⟨back, same⟩ : ∃ back, cfg.realManBits - cfg.shiftBits = back + 1 :=
      ⟨_, (Nat.sub_add_cancel shifts).symm⟩
    have halves : 2 ^ (back + cfg.manBits) ≤ bin := by
      refine le_trans (Nat.pow_le_pow_right two_pos ?_) full
      omega
    rw [same, if_neg (by omega), Nat.add_sub_cancel]
    refine ⟨2 * (bin % 2 ^ back), ?_, ?_⟩
    · have split : bin / 2 ^ (back + 1) = bin / 2 ^ back / 2 := by
        rw [pow_succ, Nat.div_div_eq_div_mul]
      have joined : 2 * (bin / 2 ^ (back + 1)) + bin / 2 ^ back % 2 = bin / 2 ^ back := by
        rw [split]
        omega
      rw [joined, pow_succ, ← mul_assoc, mul_comm _ 2, ← mul_add, Nat.div_add_mod']
    · have below : bin % 2 ^ back < 2 ^ back := Nat.mod_lt _ (by positivity)
      calc 2 * (bin % 2 ^ back) * 2 ^ cfg.manBits
          < 2 * 2 ^ back * 2 ^ cfg.manBits := by gcongr
        _ = 2 * 2 ^ (back + cfg.manBits) := by rw [pow_add, mul_assoc]
        _ ≤ 2 * bin := Nat.mul_le_mul_left 2 halves

/-- The loop starts from a little less than the value. -/
theorem intScaleStart_near {bin : ℕ} {exp : ℤ} (norm : Normalized cfg bin exp)
    (large : cfg.shiftBits < exp) :
    (intScaleStart cfg bin exp).value (intStart cfg bin exp).2.2 ≤
        bin * 2 ^ (exp - cfg.realManBits) ∧
      bin * 2 ^ (exp - cfg.realManBits) -
          (intScaleStart cfg bin exp).value (intStart cfg bin exp).2.2 <
        1 / 2 ^ cfg.manBits * (bin * 2 ^ (exp - cfg.realManBits)) := by
  obtain ⟨real, -⟩ := cfg.shiftBits_spec
  obtain ⟨man, carry, start, -, -, low, cut, little⟩ := intStart_truncates norm large
  have power : (2 : ℚ) ^ (exp - cfg.shiftBits).toNat =
      2 ^ (cfg.realManBits - cfg.shiftBits) * 2 ^ (exp - cfg.realManBits) := by
    rw [← zpow_natCast, ← zpow_natCast, ← zpow_add₀ two_ne_zero]
    congr 1
    omega
  have value : (intScaleStart cfg bin exp).value (intStart cfg bin exp).2.2 =
      (2 * man + carry) * 2 ^ (cfg.realManBits - cfg.shiftBits) *
        (2 ^ (exp - cfg.realManBits) / 2) := by
    rw [IntScale.value, IntScale.scaled, intScaleStart, start, power, pow_zero]
    ring
  have whole : (bin : ℚ) * 2 ^ (exp - cfg.realManBits) =
      ((2 * man + carry) * 2 ^ (cfg.realManBits - cfg.shiftBits) + low) *
        (2 ^ (exp - cfg.realManBits) / 2) := by
    have cutQ : (2 * bin : ℚ) =
        (2 * man + carry) * 2 ^ (cfg.realManBits - cfg.shiftBits) + low := by
      exact_mod_cast cut
    rw [← cutQ]
    ring
  have half : (0 : ℚ) < 2 ^ (exp - cfg.realManBits) / 2 := by positivity
  constructor
  · rw [value, whole]
    exact mul_le_mul_of_nonneg_right (le_add_of_nonneg_right low.cast_nonneg) half.le
  · have littleQ : (low * 2 ^ cfg.manBits : ℚ) < 2 * bin := by exact_mod_cast little
    have lost : (bin : ℚ) * 2 ^ (exp - cfg.realManBits) -
        (intScaleStart cfg bin exp).value (intStart cfg bin exp).2.2 =
          low * (2 ^ (exp - cfg.realManBits) / 2) := by
      rw [value, whole]
      ring
    have fraction : (low : ℚ) < 2 * bin / 2 ^ cfg.manBits := by
      rwa [lt_div_iff₀ (by positivity)]
    calc _ = (low : ℚ) * (2 ^ (exp - cfg.realManBits) / 2) := lost
      _ < 2 * bin / 2 ^ cfg.manBits * (2 ^ (exp - cfg.realManBits) / 2) :=
          mul_lt_mul_of_pos_right fraction half
      _ = _ := by ring

/-! ## The result -/

/-- **The integer scaling truncates, by less than half a unit for each division.** The
mantissa stays in its type from the start to the end, both conversions end with
the same variables (the fused one unless it runs out of room for the zeros), and
what they stand for falls short of the value by less than `5 * k + 1` parts in
`2^N` after `k` divisions. -/
theorem intScale_error [cfg.RepExact] {f : RealBits cfg} {bin : ℕ} {exp : ℤ}
    (finite : IsFinite cfg f)
    (read : normalize cfg (expField cfg (npfRealToIntRep cfg f))
      (manField cfg (npfRealToIntRep cfg f)) = (bin, exp)) (large : cfg.shiftBits < exp) :
    let n := (intStart cfg bin exp).2.2
    let last := intScaleAt cfg bin exp n
    0 < n ∧ bin >>> (cfg.realManBits - cfg.shiftBits) < 2 ^ cfg.manBits ∧
      (∀ i, i < n → (intScaleAt cfg bin exp i).Steps cfg (n - 1 - i)) ∧
      etoaInteger cfg bin exp = ((cfg.realManBits : ℤ), last.dec, last.man, last.carry) ∧
      (∀ dec buf, ftoaIntScale cfg n dec (intStart cfg bin exp).1 (intStart cfg bin exp).2.1 buf =
          gotoExit ∨
        ∃ b, ftoaIntScale cfg n dec (intStart cfg bin exp).1 (intStart cfg bin exp).2.1 buf =
          .ok (dec + last.dec, last.man, last.carry, b)) ∧
      last.scaled ≤ magnitude cfg f ∧
      magnitude cfg f - last.scaled < magnitude cfg f * (5 * last.dec + 1) / 2 ^ cfg.manBits := by
  intro n last
  rw [npfRealToIntRep_eq, expField_eq, manField_eq] at read
  obtain ⟨bin', exp', normalized, norm, value⟩ := normalize_spec finite
  obtain ⟨rfl, rfl⟩ : bin' = bin ∧ exp' = exp := by simpa [normalized] using read
  obtain ⟨man, carry, start, fits, room, -⟩ := intStart_truncates norm large
  have steps : n = (exp' - cfg.shiftBits).toNat := congrArg (fun p => p.2.2) start
  have begins : Fits cfg (intScaleStart cfg bin' exp').man (intScaleStart cfg bin' exp').carry := by
    rwa [intScaleStart, start]
  obtain ⟨below, near⟩ := intScaleStart_near norm large
  obtain ⟨k, counted, truncated⟩ := IntScale.iterate_truncated n begins
  have divided : last.dec = k := counted.trans (Nat.zero_add k)
  refine ⟨by omega, room, fun i _ => ?_, ?_, fun dec buf => ?_, ?_, ?_⟩
  · exact IntScale.steps (IntScale.iterate_fits i begins) _
  · have ran := @etoaIntScale_iterate cfg n (intScaleStart cfg bin' exp')
    have more : n ≠ 0 := by omega
    rw [etoaInteger, if_pos (by omega)]
    exact Prod.ext (if_pos more) ran
  · exact ftoaIntScale_iterate n dec (intScaleStart cfg bin' exp') buf
  · rw [value]
    exact truncated.le.trans below
  · have lost := truncated.loss_lt (by positivity) below near
    rw [value, divided]
    refine lost.trans_eq ?_
    ring

theorem intScale_error_power :
    intScaleAt .standard (2 ^ 52) 100 69 = ⟨21, 1267650592, 0⟩ ∧
      (intScaleAt .standard (2 ^ 52) 100 69).scaled ≤
        magnitude .standard (pattern .standard 0x4630000000000000) ∧
      magnitude .standard (pattern .standard 0x4630000000000000) -
          (intScaleAt .standard (2 ^ 52) 100 69).scaled <
        magnitude .standard (pattern .standard 0x4630000000000000) *
          (5 * (intScaleAt .standard (2 ^ 52) 100 69).dec + 1) / 2 ^ 32 := by
  obtain ⟨-, -, -, -, -, below, near⟩ := @intScale_error .standard _
    (pattern .standard 0x4630000000000000) (2 ^ 52) 100 (by decide) (by decide) (by decide)
  exact ⟨by decide +kernel, below, near⟩

end Nanoprintf
