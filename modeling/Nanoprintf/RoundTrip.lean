import Nanoprintf.EtoaExact
import Nanoprintf.EtoaStyles
import Nanoprintf.Foundations.FloatFormat

/-!
# Reading a number back

In the range in which no bit is lost, a text with enough digits determines the number
it was made from: the argument is nearer to what the text denotes than any other number
of its type, so that a reader that rounds to the nearest number returns the argument.
Enough are 17 digits for a `double` and 9 for a `float`.
-/

set_option autoImplicit false

namespace Nanoprintf

open Foundations

variable {cfg : Config}

/-! ## The numbers of the type -/

/-- The mantissas and exponents that the conversions read are those of a format. -/
theorem Reads.encodes {f : RealBits cfg} {bin : ℕ} {exp : ℤ} (reads : Reads cfg f bin exp) :
    Encodes 2 (cfg.realManBits + 1) (1 - cfg.realExpBias - cfg.realManBits) bin
      (exp - cfg.realManBits) (magnitude cfg f) where
  lower := by
    have lower := reads.norm.lower
    omega
  small := reads.norm.small
  normal := by
    rcases reads.norm.normal with least | full
    · exact .inl (by rw [least])
    · right
      rw [pow_succ']
      omega
  value := by
    rw [reads.value]
    push_cast
    rfl

theorem representable {f : RealBits cfg} (finite : IsFinite cfg f) :
    Representable 2 (cfg.realManBits + 1) (1 - cfg.realExpBias - cfg.realManBits)
      (magnitude cfg f) := by
  obtain ⟨bin, exp, reads⟩ := exists_reads finite
  exact ⟨bin, _, reads.encodes⟩

/-! ## Digits that are enough -/

/-- Significant digits are off by half a unit of the last one, a part of the number. -/
theorem sciRound_relative (p : ℕ) {v : ℚ} (nonneg : 0 ≤ v) :
    |((sciRound p v).1 : ℚ) / 10 ^ p * 10 ^ (sciRound p v).2 - v| ≤ v / (2 * 10 ^ p) := by
  unfold sciRound
  by_cases zero : v = 0
  · rw [if_pos zero, zero]
    simp
  have positive : 0 < v := lt_of_le_of_ne nonneg (Ne.symm zero)
  have lower : (10 : ℚ) ^ Int.log 10 v ≤ v := by
    exact_mod_cast Int.zpow_log_le_self (by norm_num : 1 < 10) positive
  rw [if_neg zero]
  set x := Int.log 10 v
  have cast :
      ((roundHalfEven (v * 10 ^ (p - x))).toNat : ℚ) = roundHalfEven (v * 10 ^ (p - x)) := by
    exact_mod_cast Int.toNat_of_nonneg (roundHalfEven_nonneg (by positivity))
  have near := (roundHalfEven_spec (v * 10 ^ (p - x))).1
  rw [← cast, abs_sub_comm] at near
  set n := (roundHalfEven (v * 10 ^ (p - x))).toNat
  have unit : (0 : ℚ) < 10 ^ x / 10 ^ p := by positivity
  have scaled : (n : ℚ) / 10 ^ p * 10 ^ x - v = (n - v * 10 ^ (p - x)) * (10 ^ x / 10 ^ p) := by
    rw [zpow_sub₀ (by norm_num), zpow_natCast]
    field_simp
  have digits : |(n : ℚ) / 10 ^ p * 10 ^ x - v| ≤ v / (2 * 10 ^ p) := by
    rw [scaled, abs_mul, abs_of_pos unit]
    calc _ ≤ 1 / 2 * (10 ^ x / 10 ^ p) := mul_le_mul_of_nonneg_right near unit.le
      _ = 10 ^ x / (2 * 10 ^ p) := by
          field_simp
      _ ≤ _ := div_le_div_of_nonneg_right lower (by positivity)
  simp only
  split_ifs with carry
  · have ten : (n : ℚ) = 10 ^ (p + 1) := by exact_mod_cast carry
    have same : ((10 ^ p : ℕ) : ℚ) / 10 ^ p * 10 ^ (x + 1) = n / 10 ^ p * 10 ^ x := by
      rw [ten, zpow_add_one₀ (by norm_num), pow_succ]
      push_cast
      field_simp
    rw [same]
    exact digits
  · exact digits

/-- Digits of an integer that go are off by half a unit of the last one that stays. -/
theorem droppedRound_relative {m : Machine} (whole : m.dec = 0) {p k : ℕ} (nonzero : k ≠ 0)
    (many : numeralLength 10 m.int = p + 1 + k) (tail : Bool) :
    |((droppedRound m tail p k).1 : ℚ) / 10 ^ p * 10 ^ ((droppedRound m tail p k).2 + p) - m.int| ≤
      m.int / (2 * 10 ^ p) := by
  have below : m.int / 10 ^ k < 10 ^ (p + 1) := by
    rw [Nat.div_lt_iff_lt_mul (by positivity), ← pow_add, ← many]
    exact lt_pow_numeralLength (by norm_num) m.int
  set U := m.int / 10 ^ k + if roundsUp m.int k (tail = false) then 1 else 0 with rounded
  have small : U ≤ 10 ^ (p + 1) := by
    rw [rounded]
    split_ifs <;> omega
  obtain ⟨above, under⟩ := roundsUp_near m.int k (tail = false)
  rw [← rounded] at above under
  have value : ((droppedRound m tail p k).1 : ℚ) / 10 ^ p * 10 ^ ((droppedRound m tail p k).2 + p) =
      10 ^ k * U := by
    rw [zpow_add₀ (by norm_num), zpow_natCast, ← mul_assoc, mul_right_comm, div_mul_cancel₀ _
      (by positivity), droppedRound, whole, carried_value (by omega) small, Nat.cast_zero, zero_add,
      zpow_natCast, mul_comm]
  have first : 10 ^ (p + k) ≤ m.int := by
    have full := pow_numeralLength_le (by norm_num : 1 < 10) (show m.int ≠ 0 by
      rintro zero
      rw [zero, numeralLength, numeral_of_lt (by norm_num)] at many
      simp at many
      omega)
    rwa [many, show p + 1 + k - 1 = p + k by omega] at full
  have firstQ : (10 : ℚ) ^ p * 10 ^ k ≤ m.int := by
    rw [← pow_add]
    exact_mod_cast first
  have aboveQ : 2 * ((10 : ℚ) ^ k * U) ≤ 2 * m.int + 10 ^ k := by exact_mod_cast above
  have underQ : 2 * (m.int : ℚ) ≤ 2 * (10 ^ k * U) + 10 ^ k := by exact_mod_cast under
  have half : (10 : ℚ) ^ k / 2 ≤ m.int / (2 * 10 ^ p) := by
    rw [div_le_div_iff₀ (by norm_num) (by positivity)]
    linarith
  rw [value]
  exact (abs_le.mpr ⟨by linarith, by linarith⟩).trans half

/-- In the exact range the number that is printed is off by half a unit of its last digit. -/
theorem scientificNumber_relative {f : RealBits cfg} (finite : IsFinite cfg f)
    (inRange : InRange cfg f) {p : ℕ} (enough : 2 ^ cfg.realMantDig ≤ 10 ^ p) :
    |scientificNumber (machineOf cfg f) (approximation cfg f) (integerTail cfg f) p -
      magnitude cfg f| ≤ magnitude cfg f / (2 * 10 ^ p) := by
  rw [scientificNumber]
  split_ifs with many
  · -- an integer of more digits than the type has
    obtain ⟨nonzero, long⟩ := many
    obtain ⟨whole, lower, -, -, large⟩ := integerTail_spec finite inRange nonzero
    have first := pow_numeralLength_le (by norm_num : 1 < 10) nonzero
    have wide : (2 : ℚ) ^ cfg.realMantDig ≤ (machineOf cfg f).int := by
      have power : 10 ^ p ≤ 10 ^ (numeralLength 10 (machineOf cfg f).int - 1) :=
        Nat.pow_le_pow_right (by norm_num) (by omega)
      exact_mod_cast enough.trans (power.trans first)
    rw [(large (wide.trans lower)).2]
    exact droppedRound_relative whole (by omega) (by omega) _
  · have nonneg : 0 ≤ approximation cfg f := Machine.Valid.value_nonneg _
    have near := sciRound_relative p nonneg
    rw [inRange.approximation_eq finite] at near ⊢
    exact near

/-! ## The round trip -/

/-- **Enough digits determine the number**: of all finite numbers of the type the argument is the
nearest one to the number that `%e` or `%g` has printed. -/
theorem npfEtoaRev_round_trip [cfg.RepExact] {f : RealBits cfg} (finite : IsFinite cfg f)
    (inRange : InRange cfg f) {spec : NpfFormatSpec} {p : ℕ} (counts : Counts cfg spec p)
    (enough : 2 ^ cfg.realMantDig < 10 ^ p) (buf : ConvBuffer cfg) {s : List Char}
    (leaves : Leaves (npfEtoaRev cfg buf spec f) s) {other : RealBits cfg}
    (finite' : IsFinite cfg other) (differ : magnitude cfg f ≠ magnitude cfg other) :
    |denotes s - magnitude cfg f| < |denotes s - magnitude cfg other| := by
  obtain ⟨text, word⟩ := counts.leaves finite buf
  rcases lt_or_ge cfg.cbuf (p + 8) with long | fits
  · exact absurd (word long) (leaves.not_word (by simp [errWord, inCase]))
  obtain rfl := leaves.unique (text fits)
  have near := scientificNumber_relative finite inRange enough.le
  rw [denotes_countedText]
  refine (representable finite).nearest one_lt_two (representable finite') differ ?_
  have nonneg : 0 ≤ magnitude cfg f := by
    obtain ⟨bin, exp, reads⟩ := exists_reads finite
    rw [reads.value]
    positivity
  rcases nonneg.eq_or_lt with zero | positive
  · right
    rw [← zero] at near ⊢
    rw [zero_div] at near
    exact sub_eq_zero.mp (abs_nonpos_iff.mp near)
  · left
    have precise : cfg.realManBits + 1 = cfg.realMantDig := by
      rw [Config.realManBits, Config.realMantDig]
      split_ifs <;> rfl
    have more : ((2 : ℕ) : ℚ) ^ (cfg.realManBits + 1) < 10 ^ p := by
      rw [precise]
      exact_mod_cast enough
    calc _ ≤ magnitude cfg f / 10 ^ p := by
          rw [mul_comm 2, ← div_div] at near
          linarith
      _ < _ := div_lt_div_of_pos_left positive (by positivity) more

/-- `1.5` with 17 digits. -/
theorem npfEtoaRev_round_trip_half :
    |denotes "1.5000000000000000e+00".toList -
        magnitude .standard (pattern _ 0x3ff8000000000000)| <
      |denotes "1.5000000000000000e+00".toList -
        magnitude .standard (pattern _ 0x3ff8000000000001)| := by
  refine @npfEtoaRev_round_trip .standard _ _ (by decide) inRange_three_halves
    (.lower .floatSci 16) 16 (.scientific rfl rfl rfl) (by decide) .blank _ (by decide) _
    (by decide) ?_
  rw [magnitude_three_halves, @magnitude_of_fields .standard (pattern _ 0x3ff8000000000001) 1023
    (2 ^ 51 + 1) (by decide) (by decide) (by decide),
    show Config.standard.realManBits = 52 from rfl,
    show Config.standard.realExpBias = 1023 from rfl]
  norm_num

end Nanoprintf
