import Nanoprintf.Real

/-!
# The value of a bit pattern

`magnitude` is the absolute value an IEEE bit pattern stands for, read off its
fields over the rationals. `normalize_spec` connects it to the pair the
conversions start from: an integer mantissa and a binary exponent.
-/

set_option autoImplicit false

namespace Nanoprintf

open Foundations

/-! ## Reading the pattern -/

theorem ofDigits_lowDigits (b n V : ℕ) : Nat.ofDigits b (lowDigits b n V) = V % b ^ n := by
  induction n generalizing V with
  | zero => simp [Nat.mod_one]
  | succ n ih => rw [lowDigits_succ, Nat.ofDigits_cons, ih, pow_succ', Nat.mod_mul]

theorem ofDigits_append_zeros (b n : ℕ) (ds : List ℕ) :
    Nat.ofDigits b (ds ++ List.replicate n 0) = Nat.ofDigits b ds := by
  rw [Nat.ofDigits_append, Nat.ofDigits_replicate_zero, Nat.mul_zero, Nat.add_zero]

/-- The copy reads the pattern if the low-order bytes come first or there are no
others. -/
theorem copyRep_eq {order : ByteOrder} {radix n m rep : ℕ} (exact : order = .little ∨ n = m)
    (small : rep < radix ^ n) : copyRep order radix n m rep = rep := by
  unfold copyRep objectBytes objectValue
  cases order with
  | little =>
      simp only [length_lowDigits, lowDigits_of_zero, List.drop_replicate]
      rw [ofDigits_append_zeros, ofDigits_lowDigits, Nat.mod_eq_of_lt small]
  | big =>
      obtain rfl : n = m := exact.resolve_left nofun
      simp only [List.length_reverse, length_lowDigits]
      rw [List.drop_eq_nil_of_le (by simp), List.append_nil, List.reverse_reverse,
        ofDigits_lowDigits, Nat.mod_eq_of_lt small]

theorem npfRealToIntRep_eq (cfg : Config) [cfg.RepExact] (f : RealBits cfg) :
    npfRealToIntRep cfg f = f.toNat := by
  have bits : (2 ^ cfg.charBits) ^ (cfg.realBits / cfg.charBits) = 2 ^ cfg.realBits := by
    rw [← pow_mul, Nat.mul_div_cancel']
    rw [cfg.charBits_eq, Config.realBits]
    split <;> decide
  refine copyRep_eq ?_ (bits ▸ f.isLt)
  exact Config.RepExact.exact.imp_right fun same => by rw [same]

/-! ## Fields -/

/-- The number of bits of the exponent field. -/
def Config.expBits (cfg : Config) : ℕ := if cfg.singlePrecision then 8 else 11

theorem Config.realExpMask_eq (cfg : Config) : cfg.realExpMask = 2 ^ cfg.expBits - 1 := by
  unfold Config.realExpMask Config.realMaxExp Config.expBits
  split <;> rfl

/-- The biased exponent of a pattern. -/
def biasedExp (cfg : Config) (rep : ℕ) : ℕ := rep / 2 ^ cfg.realManBits % 2 ^ cfg.expBits

/-- The fraction field of a pattern. -/
def fracField (cfg : Config) (rep : ℕ) : ℕ := rep % 2 ^ cfg.realManBits

theorem expField_eq (cfg : Config) (rep : ℕ) : expField cfg rep = biasedExp cfg rep := by
  rw [expField, cfg.realExpMask_eq, Nat.and_two_pow_sub_one_eq_mod, Nat.shiftRight_eq_div_pow,
    biasedExp]

theorem manField_eq (cfg : Config) (rep : ℕ) : manField cfg rep = fracField cfg rep := by
  rw [manField, Nat.one_shiftLeft, Nat.and_two_pow_sub_one_eq_mod, fracField]

/-- The pattern is neither an infinity nor a NaN. -/
def IsFinite (cfg : Config) (f : RealBits cfg) : Prop :=
  biasedExp cfg f.toNat ≠ 2 ^ cfg.expBits - 1

instance (cfg : Config) (f : RealBits cfg) : Decidable (IsFinite cfg f) :=
  inferInstanceAs (Decidable (_ ≠ _))

theorem isSpecial_eq (cfg : Config) (rep : ℕ) :
    isSpecial cfg (biasedExp cfg rep) = true ↔ biasedExp cfg rep = 2 ^ cfg.expBits - 1 := by
  have below : biasedExp cfg rep < 2 ^ cfg.expBits := Nat.mod_lt _ (by positivity)
  have positive : 0 < 2 ^ cfg.expBits := by positivity
  rw [isSpecial, cfg.realExpMask_eq, Nat.and_two_pow_sub_one_eq_mod, beq_iff_eq]
  by_cases top : biasedExp cfg rep = 2 ^ cfg.expBits - 1
  · rw [top, Nat.sub_add_cancel positive, Nat.mod_self]
    simp
  · rw [Nat.mod_eq_of_lt (by omega)]
    omega

/-! ## What is read -/

/-- The fields that the conversions take of the integer for `f` are those of the pattern `g`. -/
class ReadAs (cfg : Config) (f : RealBits cfg) (g : outParam (RealBits cfg)) : Prop where
  exp : biasedExp cfg (npfRealToIntRep cfg f) = biasedExp cfg g.toNat
  man : fracField cfg (npfRealToIntRep cfg f) = fracField cfg g.toNat

/-- The pattern in the low-order bits of the integer. -/
def asRead (cfg : Config) (f : RealBits cfg) : RealBits cfg :=
  BitVec.ofNat cfg.realBits (npfRealToIntRep cfg f)

theorem realBits_eq (cfg : Config) : cfg.realBits = cfg.realManBits + (cfg.expBits + 1) := by
  unfold Config.realBits Config.realManBits Config.realMantDig Config.expBits
  split_ifs <;> rfl

/-- The fields are in the low-order bits. -/
instance (priority := low) readAs_asRead (cfg : Config) (f : RealBits cfg) :
    ReadAs cfg f (asRead cfg f) where
  exp := by
    rw [asRead, BitVec.toNat_ofNat, biasedExp, biasedExp, realBits_eq, pow_add,
      Nat.mod_mul_right_div_self]
    exact (Nat.mod_mod_of_dvd _ (pow_dvd_pow 2 (Nat.le_succ _))).symm
  man := by
    rw [asRead, BitVec.toNat_ofNat, fracField, fracField, realBits_eq]
    exact (Nat.mod_mod_of_dvd _ (pow_dvd_pow 2 (Nat.le_add_right _ _))).symm

instance readAs_self (cfg : Config) [cfg.RepExact] (f : RealBits cfg) : ReadAs cfg f f where
  exp := by rw [npfRealToIntRep_eq]
  man := by rw [npfRealToIntRep_eq]

/-! ## The value -/

/-- The absolute value of a finite pattern. -/
def magnitude (cfg : Config) (f : RealBits cfg) : ℚ :=
  let exp := biasedExp cfg f.toNat
  let man := fracField cfg f.toNat
  if exp = 0 then man * 2 ^ (1 - cfg.realExpBias - cfg.realManBits)
  else (2 ^ cfg.realManBits + man) * 2 ^ (exp - cfg.realExpBias - cfg.realManBits)

theorem magnitude_of_fields {cfg : Config} {f : RealBits cfg} {exp man : ℕ}
    (expField : biasedExp cfg f.toNat = exp) (manField : fracField cfg f.toNat = man)
    (normal : exp ≠ 0) : magnitude cfg f =
      (2 ^ cfg.realManBits + man) * 2 ^ (exp - cfg.realExpBias - cfg.realManBits) := by
  simp only [magnitude, expField, manField, if_neg normal]

/-- An integer mantissa and a binary exponent as the conversions take them: the
implicit bit is set, or the exponent is the least one. -/
structure Normalized (cfg : Config) (bin : ℕ) (exp : ℤ) : Prop where
  small : bin < 2 ^ (cfg.realManBits + 1)
  lower : 1 - cfg.realExpBias ≤ exp
  upper : exp ≤ cfg.realExpBias
  normal : exp = 1 - cfg.realExpBias ∨ 2 ^ cfg.realManBits ≤ bin

theorem Normalized.value_lt {cfg : Config} {bin : ℕ} {exp : ℤ} (norm : Normalized cfg bin exp) :
    (bin : ℚ) * 2 ^ (exp - cfg.realManBits) < 2 ^ (exp + 1) := by
  have room : (bin : ℚ) < 2 ^ (cfg.realManBits + 1) := by exact_mod_cast norm.small
  calc _ < (2 : ℚ) ^ (cfg.realManBits + 1) * 2 ^ (exp - cfg.realManBits) :=
        mul_lt_mul_of_pos_right room (by positivity)
    _ = 2 ^ (exp + 1) := by
        rw [← zpow_natCast, ← zpow_add₀ two_ne_zero]
        congr 1
        push_cast
        ring

theorem two_zpow_le_value {cfg : Config} {bin : ℕ} (exp : ℤ) (full : 2 ^ cfg.realManBits ≤ bin) :
    2 ^ exp ≤ (bin : ℚ) * 2 ^ (exp - cfg.realManBits) := by
  have fullQ : (2 : ℚ) ^ cfg.realManBits ≤ bin := by exact_mod_cast full
  calc (2 : ℚ) ^ exp = 2 ^ cfg.realManBits * 2 ^ (exp - cfg.realManBits) := by
        rw [← zpow_natCast, ← zpow_add₀ two_ne_zero]
        congr 1
        ring
    _ ≤ _ := mul_le_mul_of_nonneg_right fullQ (by positivity)

theorem normalize_spec {cfg : Config} {f : RealBits cfg} (finite : IsFinite cfg f) :
    ∃ bin exp, normalize cfg (biasedExp cfg f.toNat) (fracField cfg f.toNat) = (bin, exp) ∧
      Normalized cfg bin exp ∧ magnitude cfg f = bin * 2 ^ (exp - cfg.realManBits) := by
  have manLt : fracField cfg f.toNat < 2 ^ cfg.realManBits := Nat.mod_lt _ (by positivity)
  have expLt : biasedExp cfg f.toNat < 2 ^ cfg.expBits := Nat.mod_lt _ (by positivity)
  have notTop : biasedExp cfg f.toNat ≠ 2 ^ cfg.expBits - 1 := finite
  have double : 2 ^ (cfg.realManBits + 1) = 2 * 2 ^ cfg.realManBits := by rw [pow_succ']
  have bias : (2 : ℤ) ^ cfg.expBits = 2 * cfg.realExpBias + 2 ∧ 1 ≤ cfg.realExpBias := by
    unfold Config.expBits Config.realExpBias Config.realMaxExp
    split <;> norm_num
  have expLtZ : (biasedExp cfg f.toNat : ℤ) < 2 ^ cfg.expBits := by exact_mod_cast expLt
  have positive : 0 < 2 ^ cfg.expBits := by positivity
  have notTopZ : (biasedExp cfg f.toNat : ℤ) ≠ 2 ^ cfg.expBits - 1 := by
    intro top
    have : biasedExp cfg f.toNat + 1 = 2 ^ cfg.expBits := by
      have : (biasedExp cfg f.toNat : ℤ) + 1 = 2 ^ cfg.expBits := by omega
      exact_mod_cast this
    omega
  unfold normalize magnitude
  by_cases subnormal : biasedExp cfg f.toNat = 0
  · refine ⟨_, _, if_neg (not_not.mpr subnormal), ⟨by omega, le_rfl, by omega, .inl rfl⟩, ?_⟩
    simp only [if_pos subnormal]
  · have implicit : fracField cfg f.toNat ||| 1 <<< cfg.realManBits =
        2 ^ cfg.realManBits + fracField cfg f.toNat := by
      rw [Nat.or_comm, ← Nat.shiftLeft_add_eq_or_of_lt manLt, Nat.one_shiftLeft]
    refine ⟨_, _, if_pos subnormal, ⟨?_, by omega, by omega, .inr ?_⟩, ?_⟩
    · rw [implicit]
      omega
    · rw [implicit]
      omega
    · simp only [if_neg subnormal, implicit]
      push_cast
      rfl

/-- What the conversions read from a finite pattern. -/
structure Reads (cfg : Config) (f : RealBits cfg) (bin : ℕ) (exp : ℤ) : Prop where
  normalized : normalize cfg (biasedExp cfg f.toNat) (fracField cfg f.toNat) = (bin, exp)
  norm : Normalized cfg bin exp
  value : magnitude cfg f = bin * 2 ^ (exp - cfg.realManBits)

theorem exists_reads {cfg : Config} {f : RealBits cfg} (finite : IsFinite cfg f) :
    ∃ bin exp, Reads cfg f bin exp := by
  obtain ⟨bin, exp, normalized, norm, value⟩ := normalize_spec finite
  exact ⟨bin, exp, normalized, norm, value⟩

end Nanoprintf
