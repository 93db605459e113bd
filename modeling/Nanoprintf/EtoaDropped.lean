import Nanoprintf.EtoaExact

/-!
# Integer digits that the scientific conversion drops

Where the precision is less than the digits of the integer no digit of the
fraction is generated, and the fraction counts only through `tail`: whether the
bits of its mantissa, with the bit below them added, are zero. The addition wraps
for a mantissa of ones, and then a fraction close to one counts as none.
`npfEtoaRev_scientific_drop_exact` says that with a 32-bit intermediate this is
the only way the rounding goes wrong, and that it takes an even tie.
-/

set_option autoImplicit false

namespace Nanoprintf

open Foundations

variable {cfg : Config}

/-- What the conversion reads of a value from one up to the limit of a 32-bit intermediate. -/
structure IntegerPart (cfg : Config) (f : RealBits cfg) (man carry : ℕ) : Prop where
  int : (machineOf cfg f).int = ⌊magnitude cfg f⌋₊
  dec : (machineOf cfg f).dec = 0
  tail : integerTail cfg f = true ↔ (man + carry) % 2 ^ 32 = 0
  small : man < 2 ^ 32
  bit : carry ≤ 1
  bits : ⌊Int.fract (magnitude cfg f) * 2 ^ 33⌋₊ = 2 * man + carry

theorem exists_integerPart {f : RealBits cfg} (finite : IsFinite cfg f)
    (double : cfg.singlePrecision = false) (narrow : cfg.manBits = 32)
    (one : 1 ≤ magnitude cfg f) (below : magnitude cfg f < 2 ^ 32) :
    ∃ man carry, IntegerPart cfg f man carry := by
  have real : cfg.realManBits = 52 := by rw [Config.realManBits, Config.realMantDig, double]; rfl
  have shift : cfg.shiftBits = 31 := by
    rw [Config.shiftBits, Config.realMantDig, double, narrow]; rfl
  obtain ⟨bin, exp, reads⟩ := exists_reads finite
  have norm := reads.norm
  have less := norm.value_lt
  rw [← reads.value] at less
  have nonneg : 0 ≤ exp := by
    by_contra negative
    have : (2 : ℚ) ^ (exp + 1) ≤ 1 := zpow_le_one_of_nonpos₀ one_le_two (by omega)
    linarith
  have covered : exp ≤ cfg.shiftBits := by
    by_contra more
    have large := two_zpow_le_value exp (norm.full nonneg)
    rw [← reads.value] at large
    have : (2 : ℚ) ^ (32 : ℤ) ≤ 2 ^ exp := zpow_le_zpow_right₀ one_le_two (by omega)
    norm_num at this below
    linarith
  have inside : exp < cfg.realManBits := by omega
  have shape := machine_of_le norm.small nonneg covered
  have whole := (fracBits_eq_fract norm.small (by omega) inside).2
  have fits := fracMan_fits (fracBits_lt exp norm.small)
  have floor := floor_fract norm.small double narrow (by omega) inside
  rw [if_neg (not_lt.mpr nonneg)] at whole
  rw [if_pos inside] at shape
  rw [← reads.value] at whole floor
  refine ⟨_, _, ?_, ?_, ?_, ?_, fits.2, floor⟩
  · rw [reads.machineOf_eq, shape, whole]
  · rw [reads.machineOf_eq, shape]
  · rw [reads.integerTail_eq, intTail, shape, narrow]
    exact decide_eq_true_iff
  · rw [← narrow, cfg.two_pow_manBits]
    exact fits.1

/-- **Where `%e` drops digits of the integer it rounds its argument half to even**, unless the
first 33 bits of the fraction are ones over an even tie of the integer. -/
theorem npfEtoaRev_scientific_drop_exact {f : RealBits cfg} (finite : IsFinite cfg f)
    (double : cfg.singlePrecision = false) (narrow : cfg.manBits = 32)
    (one : 1 ≤ magnitude cfg f) (below : magnitude cfg f < 2 ^ 32)
    (seen : Int.fract (magnitude cfg f) = 0 ∨ 1 / 2 ^ 32 ≤ Int.fract (magnitude cfg f))
    {spec : NpfFormatSpec} (conversion : spec.convSpec = .floatSci)
    (compiled : cfg.floatSci = true) {p : ℕ} (precision : npfDecPrec cfg spec = p)
    (drops : p + 2 ≤ numeralLength 10 ⌊magnitude cfg f⌋₊) (buf : ConvBuffer cfg) :
    Leaves (npfEtoaRev cfg buf spec f)
        (sciText (sciRound p (magnitude cfg f)).1 p (sciRound p (magnitude cfg f)).2
          (0 < p ∨ alternate cfg spec) spec.caseAdjust) ↔
      ¬ (⌊Int.fract (magnitude cfg f) * 2 ^ 33⌋₊ = 2 ^ 33 - 1 ∧
        EvenTie p ⌊magnitude cfg f⌋₊) := by
  obtain ⟨man, carry, int, dec, tail, small, bit, bits⟩ :=
    exists_integerPart finite double narrow one below
  have room := cfg.cbuf_ge
  have reads : cfg.RepExact := .of_double cfg double
  have nonneg : 0 ≤ magnitude cfg f := by linarith
  have lower := Nat.floor_le nonneg
  have upper := Nat.lt_floor_add_one (magnitude cfg f)
  have split := Int.floor_add_fract (magnitude cfg f)
  rw [← Int.natCast_floor_eq_floor nonneg, Int.cast_natCast] at split
  have short : numeralLength 10 ⌊magnitude cfg f⌋₊ ≤ 10 := by
    refine numeralLength_le (by norm_num) (by norm_num) ?_
    have less : (⌊magnitude cfg f⌋₊ : ℚ) < (10 ^ 10 : ℕ) :=
      lower.trans_lt (below.trans (by norm_num))
    exact_mod_cast less
  obtain ⟨k, many⟩ := Nat.exists_eq_add_of_le drops
  rw [show p + 2 + k = p + 1 + (k + 1) by omega] at many
  have leaves := npfEtoaRev_scientific_drop finite conversion compiled precision
    (Nat.succ_ne_zero k) (int.symm ▸ many) (by omega) buf
  rw [droppedRound, dec, int, Nat.cast_zero, zero_add] at leaves
  have pointed : decide (0 < p ∨ alternate cfg spec = true) = false → p = 0 := fun plain => by
    have := of_decide_eq_false plain
    omega
  -- the text of the argument, as the digits of its integer show it
  have correct : ∀ {sticky : Prop} [Decidable (roundsUp ⌊magnitude cfg f⌋₊ (k + 1) sticky)],
      (sticky ↔ (⌊magnitude cfg f⌋₊ : ℚ) ≠ magnitude cfg f) →
      sciText (sciRound p (magnitude cfg f)).1 p (sciRound p (magnitude cfg f)).2
          (0 < p ∨ alternate cfg spec) spec.caseAdjust =
        sciText (carried (p + 1) (⌊magnitude cfg f⌋₊ / 10 ^ (k + 1) +
            if roundsUp ⌊magnitude cfg f⌋₊ (k + 1) sticky then 1 else 0) (k + 1 : ℕ)).1 p
          ((carried (p + 1) (⌊magnitude cfg f⌋₊ / 10 ^ (k + 1) +
            if roundsUp ⌊magnitude cfg f⌋₊ (k + 1) sticky then 1 else 0) (k + 1 : ℕ)).2 + p)
          (0 < p ∨ alternate cfg spec) spec.caseAdjust := by
    intro sticky _ lost
    rw [sciRound_of_int many (Nat.succ_ne_zero k) lower upper lost, sub_add_cancel]
  by_cases wraps : 2 * man + carry = 2 ^ 33 - 1
  · -- the carry wraps, and what follows the integer counts as nothing
    have fraction : 0 < Int.fract (magnitude cfg f) := by
      rcases seen with vanishes | nonzero
      · rw [vanishes, zero_mul, Nat.floor_zero] at bits
        omega
      · exact lt_of_lt_of_le (by positivity) nonzero
    have clean : integerTail cfg f = true := tail.mpr (by
      obtain ⟨rfl, rfl⟩ : man = 2 ^ 32 - 1 ∧ carry = 1 := by omega
      norm_num)
    rw [clean] at leaves
    rw [@correct True _ (iff_of_true trivial fun same => by linarith), bits,
      and_iff_right wraps, leaves.iff_eq, eq_comm,
      sticky_matters many (Nat.succ_ne_zero k) trivial (by simp) pointed]
  · have lost : integerTail cfg f = false ↔ (⌊magnitude cfg f⌋₊ : ℚ) ≠ magnitude cfg f := by
      rw [← Bool.not_eq_true, tail, not_iff_not]
      rcases seen with vanishes | nonzero
      · have empty : 2 * man + carry = 0 := by rw [← bits, vanishes, zero_mul, Nat.floor_zero]
        obtain ⟨rfl, rfl⟩ : man = 0 ∧ carry = 0 := by omega
        exact iff_of_true rfl (by linarith)
      · have two : 2 ≤ 2 * man + carry := by
          rw [← bits, Nat.le_floor_iff (by positivity)]
          push_cast
          rw [div_le_iff₀ (by positivity)] at nonzero
          linarith
        have positive : (0 : ℚ) < 1 / 2 ^ 32 := by positivity
        exact iff_of_false (by omega) fun same => by linarith
    rw [correct lost]
    exact iff_of_true leaves fun both => wraps (bits ▸ both.1)

/-- `%.0e` of `25`. -/
theorem npfEtoaRev_scientific_drop_exact_tie :
    Leaves (npfEtoaRev .standard .blank (.lower .floatSci 0) (pattern _ 0x4039000000000000))
      (sciText (sciRound 0 (magnitude .standard (pattern _ 0x4039000000000000))).1 0
        (sciRound 0 (magnitude .standard (pattern _ 0x4039000000000000))).2 false 32) := by
  have value : magnitude .standard (pattern _ 0x4039000000000000) = 25 := by
    rw [@magnitude_of_fields .standard (pattern _ 0x4039000000000000) 1027 (9 * 2 ^ 48) (by decide)
      (by decide) (by decide), show Config.standard.realManBits = 52 from rfl,
      show Config.standard.realExpBias = 1023 from rfl]
    norm_num
  have fraction : Int.fract (25 : ℚ) = 0 := by exact_mod_cast Int.fract_natCast 25
  have whole : ⌊(25 : ℚ)⌋₊ = 25 := by exact_mod_cast Nat.floor_natCast 25
  refine (npfEtoaRev_scientific_drop_exact
    (by decide) rfl rfl ?_ ?_ ?_ rfl rfl rfl ?_ .blank).mpr ?_
  · rw [value]
    norm_num
  · rw [value]
    norm_num
  · rw [value]
    exact .inl fraction
  · rw [value, whole]
    decide
  · rw [value, fraction]
    norm_num

/-- `%.0e` of `26 - 2^-33` is `2e+01`: the ones of its fraction wrap. -/
theorem npfEtoaRev_scientific_drop_wraps :
    IsFinite .standard (pattern _ 0x4039ffffffff8000) ∧
      1 ≤ magnitude .standard (pattern _ 0x4039ffffffff8000) ∧
      magnitude .standard (pattern _ 0x4039ffffffff8000) < 2 ^ 32 ∧
      1 / 2 ^ 32 ≤ Int.fract (magnitude .standard (pattern _ 0x4039ffffffff8000)) ∧
      0 + 2 ≤ numeralLength 10 ⌊magnitude .standard (pattern _ 0x4039ffffffff8000)⌋₊ ∧
      Leaves (npfEtoaRev .standard .blank (.lower .floatSci 0) (pattern _ 0x4039ffffffff8000))
        "2e+01".toList ∧
      ¬ Leaves (npfEtoaRev .standard .blank (.lower .floatSci 0) (pattern _ 0x4039ffffffff8000))
        (sciText (sciRound 0 (magnitude .standard (pattern _ 0x4039ffffffff8000))).1 0
          (sciRound 0 (magnitude .standard (pattern _ 0x4039ffffffff8000))).2 false 32) := by
  have value : magnitude .standard (pattern _ 0x4039ffffffff8000) = 26 - 1 / 2 ^ 33 := by
    rw [@magnitude_of_fields .standard (pattern _ 0x4039ffffffff8000) 1027 2814749767073792
      (by decide) (by decide) (by decide), show Config.standard.realManBits = 52 from rfl,
      show Config.standard.realExpBias = 1023 from rfl]
    norm_num
  have whole : ⌊(26 - 1 / 2 ^ 33 : ℚ)⌋₊ = 25 := by
    rw [Nat.floor_eq_iff (by norm_num)]
    norm_num
  have fraction : Int.fract (26 - 1 / 2 ^ 33 : ℚ) = 1 - 1 / 2 ^ 33 := by
    rw [Int.fract_eq_iff]
    exact ⟨by norm_num, by norm_num, 25, by norm_num⟩
  have round : sciRound 0 (26 - 1 / 2 ^ 33 : ℚ) = (3, 1) := by
    rw [@sciRound_eq 0 3 (26 - 1 / 2 ^ 33) 1 (by norm_num) (by norm_num) ?_]
    · rfl
    · rw [roundHalfEven_eq_iff]
      norm_num [abs_of_neg]
  rw [value, whole, fraction, round]
  exact ⟨by decide, by norm_num, by norm_num, by norm_num, by decide, by decide, by decide⟩

end Nanoprintf
