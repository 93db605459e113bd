import Mathlib.Data.Int.Log
import Nanoprintf.RealText

/-!
# From numbers to patterns

`realOf` is what a reader makes of a number: the nearest pattern of the type. It gives a
finite pattern back from its sign and its value, so that the two determine it. The
hexadecimal conversion of a single-precision build converts its argument to `double` and
prints that; the value stays the same.
-/

set_option autoImplicit false

namespace Nanoprintf

open Foundations

variable {cfg : Config}

/-! ## The pattern of a number -/

/-- The exponent and fraction fields of the value nearest to `x`, a carry out of the fraction
going into the exponent. -/
def fieldsOf (cfg : Config) (x : ℚ) : ℕ :=
  let exp := max (Int.log 2 x) (1 - cfg.realExpBias)
  let bin := (round (x / 2 ^ (exp - cfg.realManBits))).toNat
  if bin < 2 ^ cfg.realManBits then bin
  else (exp + cfg.realExpBias).toNat * 2 ^ cfg.realManBits + (bin - 2 ^ cfg.realManBits)

/-- The pattern of a sign and a value. -/
def realOf (cfg : Config) (negative : Bool) (x : ℚ) : RealBits cfg :=
  BitVec.ofNat _ ((if negative then 2 ^ (cfg.realBits - 1) else 0) + fieldsOf cfg x)

theorem toNat_eq_fields (f : RealBits cfg) :
    f.toNat = (if f.msb then 2 ^ (cfg.realBits - 1) else 0) +
      (biasedExp cfg f.toNat * 2 ^ cfg.realManBits + fracField cfg f.toNat) := by
  have small := f.isLt
  rw [BitVec.msb_eq_decide, biasedExp, fracField]
  generalize f.toNat = n at small ⊢
  simp only [decide_eq_true_eq]
  unfold Config.realManBits Config.realMantDig Config.expBits
  unfold Config.realBits at small ⊢
  split_ifs at small ⊢ <;> omega

/-- The exponent that a value is read with is the one that it was read from. -/
theorem Normalized.max_log {bin : ℕ} {exp : ℤ} (norm : Normalized cfg bin exp) {x : ℚ}
    (value : x = bin * 2 ^ (exp - cfg.realManBits)) (positive : 0 < x) :
    max (Int.log 2 x) (1 - cfg.realExpBias) = exp := by
  have below : Int.log 2 x ≤ exp := by
    refine Int.lt_add_one_iff.mp ((Int.lt_zpow_iff_log_lt (by norm_num) positive).mp ?_)
    exact_mod_cast value ▸ norm.value_lt
  rcases norm.normal with least | full
  · rw [← least]
    exact max_eq_right below
  · have above : exp ≤ Int.log 2 x := by
      refine (Int.zpow_le_iff_le_log (by norm_num) positive).mp ?_
      exact_mod_cast value ▸ two_zpow_le_value exp full
    rw [le_antisymm below above]
    exact max_eq_left norm.lower

theorem fieldsOf_zero (cfg : Config) : fieldsOf cfg 0 = 0 := by
  simp [fieldsOf]

theorem fieldsOf_magnitude {f : RealBits cfg} (finite : IsFinite cfg f) :
    fieldsOf cfg (magnitude cfg f) =
      biasedExp cfg f.toNat * 2 ^ cfg.realManBits + fracField cfg f.toNat := by
  obtain ⟨bin, exp, reads⟩ := exists_reads finite
  have small : fracField cfg f.toNat < 2 ^ cfg.realManBits := Nat.mod_lt _ (by positivity)
  have unit : (0 : ℚ) < 2 ^ (exp - cfg.realManBits) := zpow_pos two_pos _
  -- the mantissa carries the implicit bit unless the exponent field is zero
  have fields : (bin = fracField cfg f.toNat ∧ biasedExp cfg f.toNat = 0) ∨
      (bin = 2 ^ cfg.realManBits + fracField cfg f.toNat ∧
        exp = biasedExp cfg f.toNat - cfg.realExpBias) := by
    have normalized := reads.normalized
    unfold normalize at normalized
    split_ifs at normalized with normal
    · obtain ⟨rfl, rfl⟩ := Prod.mk.inj normalized
      rw [Nat.or_comm, ← Nat.shiftLeft_add_eq_or_of_lt small, Nat.one_shiftLeft]
      exact .inr ⟨rfl, rfl⟩
    · exact .inl ⟨(Prod.mk.inj normalized).1.symm, not_not.mp normal⟩
  rcases Nat.eq_zero_or_pos bin with zero | nonzero
  · have vanishes : magnitude cfg f = 0 := by rw [reads.value, zero, Nat.cast_zero, zero_mul]
    rw [vanishes, fieldsOf_zero]
    rcases fields with ⟨frac, exp_⟩ | ⟨frac, -⟩
    · rw [exp_, ← frac, zero]
      omega
    · have positive : 0 < 2 ^ cfg.realManBits := by positivity
      omega
  · have positive : 0 < magnitude cfg f := by
      rw [reads.value]
      exact mul_pos (by exact_mod_cast nonzero) unit
    have mantissa : magnitude cfg f / 2 ^ (exp - cfg.realManBits) = bin := by
      rw [reads.value, mul_div_cancel_right₀ _ unit.ne']
    simp only [fieldsOf, reads.norm.max_log reads.value positive, mantissa, round_natCast,
      Int.toNat_natCast]
    rcases fields with ⟨rfl, exp_⟩ | ⟨rfl, rfl⟩
    · rw [if_pos small, exp_]
      omega
    · rw [if_neg (by omega), sub_add_cancel, Int.toNat_natCast, Nat.add_sub_cancel_left]

/-- **A finite pattern is read back** from its sign and its value. -/
theorem realOf_magnitude {f : RealBits cfg} (finite : IsFinite cfg f) :
    realOf cfg f.msb (magnitude cfg f) = f := by
  rw [realOf, fieldsOf_magnitude finite, ← toNat_eq_fields, BitVec.ofNat_toNat,
    BitVec.setWidth_eq]

/-! ## The argument of the hexadecimal conversion -/

/-- A `double` from its fields. -/
theorem doubleFields {sign exp man : ℕ} (bit : sign < 2) (low : exp < 2 ^ 11)
    (small : man < 2 ^ 52) {f : BitVec 64}
    (fields : f = BitVec.ofNat 64 (sign <<< 63 ||| exp <<< 52 ||| man)) :
    doubleExp f = exp ∧ doubleFrac f = man ∧ f.msb = decide (sign = 1) := by
  have below : exp <<< 52 < 2 ^ 63 := by
    rw [Nat.shiftLeft_eq]
    omega
  have toNat : f.toNat = sign * 2 ^ 63 + (exp * 2 ^ 52 + man) := by
    rw [fields, BitVec.toNat_ofNat, Nat.or_assoc, ← Nat.shiftLeft_add_eq_or_of_lt small,
      Nat.shiftLeft_eq exp,
      ← Nat.shiftLeft_add_eq_or_of_lt (b := exp * 2 ^ 52 + man) (i := 63) (by omega),
      Nat.shiftLeft_eq]
    omega
  have top : f.msb = decide (sign = 1) := by
    rw [BitVec.msb_eq_decide, toNat, decide_eq_decide]
    omega
  refine ⟨?_, ?_, top⟩
  · rw [doubleExp, toNat]
    omega
  · rw [doubleFrac, toNat]
    omega

/-- **The conversion to `double` is exact.** -/
theorem doubleMagnitude_widen {f : BitVec 32} (finite : f.toNat / 2 ^ 23 % 2 ^ 8 ≠ 255) :
    doubleMagnitude (widen f) =
      if f.toNat / 2 ^ 23 % 2 ^ 8 = 0 then ((f.toNat % 2 ^ 23 : ℕ) : ℚ) * 2 ^ (-149 : ℤ)
      else (2 ^ 23 + (f.toNat % 2 ^ 23 : ℕ)) * 2 ^ ((f.toNat / 2 ^ 23 % 2 ^ 8 : ℕ) - 150 : ℤ) := by
  have word := f.isLt
  have bit : f.toNat >>> 31 < 2 := by
    rw [Nat.shiftRight_eq_div_pow]
    omega
  have exp_lt : f.toNat / 2 ^ 23 % 2 ^ 8 < 2 ^ 8 := Nat.mod_lt _ (by norm_num)
  have man_lt : f.toNat % 2 ^ 23 < 2 ^ 23 := Nat.mod_lt _ (by norm_num)
  obtain ⟨r, converted⟩ : ∃ r, r = widen f := ⟨_, rfl⟩
  rw [← converted]
  unfold widen at converted
  rw [Nat.shiftRight_eq_div_pow f.toNat 23, show (256 : ℕ) = 2 ^ 8 from rfl] at converted
  generalize f.toNat / 2 ^ 23 % 2 ^ 8 = e at *
  generalize f.toNat % 2 ^ 23 = m at *
  by_cases normal : e = 0
  · simp only [normal, OfNat.zero_ne_ofNat, ne_eq, not_true_eq_false, if_false] at converted
    rw [if_pos normal]
    by_cases zero : m = 0
    · simp only [if_pos zero] at converted
      obtain ⟨exp, frac, -⟩ := doubleFields bit (by norm_num) (by norm_num) converted
      rw [doubleMagnitude, if_pos exp, frac, zero]
      norm_num
    · -- a subnormal number is normalized, its top bit becoming the implicit one
      have log : m.log2 < 23 := (Nat.log2_lt zero).mpr man_lt
      simp only [if_neg zero] at converted
      obtain ⟨exp, frac, -⟩ :=
        doubleFields bit (by omega) (Nat.mod_lt _ (by positivity)) converted
      have top : m * 2 ^ (52 - m.log2) = 2 ^ 52 + m <<< (52 - m.log2) % 2 ^ 52 := by
        have power : 2 ^ m.log2 * 2 ^ (52 - m.log2) = 2 ^ 52 := by
          rw [← pow_add, Nat.add_sub_cancel' (by omega)]
        have lower : 2 ^ 52 ≤ m * 2 ^ (52 - m.log2) :=
          power.symm.trans_le (Nat.mul_le_mul_right _ (Nat.log2_self_le zero))
        have upper : m * 2 ^ (52 - m.log2) < 2 * 2 ^ 52 := by
          rw [← power, ← Nat.mul_assoc, ← pow_succ']
          exact Nat.mul_lt_mul_of_pos_right Nat.lt_log2_self (by positivity)
        rw [Nat.shiftLeft_eq]
        omega
      rw [doubleMagnitude, if_neg (by omega), exp, frac]
      have topQ : (2 : ℚ) ^ 52 + (m <<< (52 - m.log2) % 2 ^ 52 : ℕ) = m * 2 ^ (52 - m.log2) := by
        exact_mod_cast top.symm
      rw [topQ, mul_assoc, ← zpow_natCast, ← zpow_add₀ two_ne_zero,
        show ((52 - m.log2 : ℕ) : ℤ) + ((m.log2 + 874 : ℕ) - 1075) = -149 by omega]
  · simp only [if_neg finite, if_pos normal] at converted
    rw [if_neg normal]
    obtain ⟨exp, frac, -⟩ := doubleFields bit (by omega) (by
      rw [Nat.shiftLeft_eq]
      omega) converted
    rw [doubleMagnitude, if_neg (by omega), exp, frac, Nat.shiftLeft_eq]
    have scale : (2 : ℚ) ^ ((e : ℤ) - 150) = 2 ^ 29 * 2 ^ (((e + 896 : ℕ) : ℤ) - 1075) := by
      rw [← zpow_natCast, ← zpow_add₀ two_ne_zero,
        show ((29 : ℕ) : ℤ) + ((e + 896 : ℕ) - 1075) = e - 150 by omega]
    rw [scale]
    push_cast
    ring

/-- **The hexadecimal conversion prints the value of its argument**, in either build. -/
theorem doubleMagnitude_atoaArg {val : RealBits cfg} (finite : IsFinite cfg val) :
    doubleMagnitude (atoaArg cfg val) = magnitude cfg val := by
  have kept : ∀ {n}, cfg.realBits ≤ n → (val.setWidth n).toNat = val.toNat := fun {n} fits =>
    BitVec.toNat_setWidth_of_le fits
  rcases single : cfg.singlePrecision
  · have same := @kept 64 (by simp [Config.realBits, single])
    rw [atoaArg, single, if_neg (by decide)]
    simp only [doubleMagnitude, magnitude, doubleExp, doubleFrac, same, biasedExp, fracField,
      Config.realManBits, Config.realMantDig, Config.expBits, Config.realExpBias,
      Config.realMaxExp, single, Bool.false_eq_true, if_false]
    norm_num [sub_sub]
  · have same := @kept 32 (by simp [Config.realBits, single])
    simp only [IsFinite, biasedExp, Config.realManBits, Config.realMantDig, Config.expBits, single,
      if_true] at finite
    rw [atoaArg, single, if_pos rfl, doubleMagnitude_widen (same ▸ finite), same]
    simp only [magnitude, biasedExp, fracField,
      Config.realManBits, Config.realMantDig, Config.expBits, Config.realExpBias,
      Config.realMaxExp, single, if_true]
    norm_num [sub_sub]

/-- The sign that the conversions look at. -/
theorem sign_ne_zero_iff (f : RealBits cfg) :
    f.toNat >>> (cfg.realBits - 1) ≠ 0 ↔ f.msb = true := by
  rw [BitVec.msb_eq_decide, decide_eq_true_eq, Nat.shiftRight_eq_div_pow, Nat.div_ne_zero_iff]
  exact ⟨fun more => more.2, fun more => ⟨by positivity, more⟩⟩

/-- A finite real in hexadecimal digits, in its field. -/
theorem realText_hex [cfg.RepExact] {r : Request} (on : cfg.floatHex = true)
    (hex : r.convSpec = .floatHex) (alt : r.alt = true → cfg.altForm = true)
    (prec : r.precision ≠ none → cfg.precision = true) {val : RealBits cfg}
    (finite : DoubleFinite (atoaArg cfg val)) :
    realText cfg r val = .ok (padField r.width r.left r.zero
      (signText (if val.msb then '-' else r.prepend) ++
        prefixText (Char.ofNat ('X'.toNat + r.caseAdjust)))
      (atoaText (min r.realPrecision 13) (atoaArg cfg val) r.alt r.caseAdjust)) := by
  have room := cfg.cbuf_ge
  obtain ⟨P, precision, digits⟩ := npfHexPrec_request prec hex
  have leaves := npfAtoaRev_text finite precision .blank
  have flag : alternate cfg r.realSpec = r.alt := by
    rcases asked : r.alt
    · exact (congrArg (cfg.altForm && ·) asked).trans (Bool.and_false _)
    · exact (congrArg (cfg.altForm && ·) asked).trans (by rw [alt asked]; rfl)
  rw [digits, flag] at leaves
  obtain ⟨b, run, holds⟩ :=
    floatRun_hex on hex rfl leaves (by simp [atoaText, hexText])
  have short := length_atoaText (Nat.min_le_right r.realPrecision 13) (atoaArg cfg val) r.alt
    r.caseAdjust
  simp only [realText, run, bind, Except.bind, Int.natAbs_natCast,
    readDown_eq holds (short.trans (by omega)), npfRealToIntRep_eq, sign_ne_zero_iff,
    Int.natCast_nonneg, decide_true, Bool.and_true]
  rfl

end Nanoprintf
