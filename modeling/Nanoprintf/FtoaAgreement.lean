import Nanoprintf.Builds
import Nanoprintf.EtoaExact
import Nanoprintf.FtoaRounding

/-!
# The two fixed-point conversions

`%f` is `npf_ftoa_rev` in a build without `%e` and `%g` and `npf_etoa_rev` in the
others. Inside the documented range both print the argument rounded half to even.
Over all arguments they print the same text, unless the fused conversion
misjudges a mantissa, which takes a 32-bit intermediate and precision 0.
-/

set_option autoImplicit false

namespace Nanoprintf

open Foundations

variable {cfg cfg' : Config}

/-! ## The fused conversion of a pattern -/

/-- **The fused conversion prints `fusedRound`** exactly if it has room, and otherwise reports
an error. -/
theorem npfFtoaRev_finite {f g : RealBits cfg} [ReadAs cfg f g] (finite : IsFinite cfg g)
    (spec : NpfFormatSpec) (q : ℕ) (buf : ConvBuffer cfg) :
    LeavesWord (npfFtoaRev cfg buf spec q f) (errWord spec.caseAdjust) ∧
        ¬ FusedRoom cfg q (0 < q ∨ alternate cfg spec) (machineOf cfg g) ∨
      FusedRoom cfg q (0 < q ∨ alternate cfg spec) (machineOf cfg g) ∧
        Leaves (npfFtoaRev cfg buf spec q f)
          (fixedText (fusedRound cfg q (machineOf cfg g)) q (0 < q ∨ alternate cfg spec)) := by
  obtain ⟨bin, exp, reads⟩ := exists_reads finite
  have number : ¬ isSpecial cfg (biasedExp cfg g.toNat) = true :=
    (isSpecial_eq cfg _).not.mpr finite
  have run : npfFtoaRev cfg buf spec q f = orErr buf spec.caseAdjust (
      if (q : ℤ) > cfg.cbuf - 2 then gotoExit else ftoaFinite cfg buf spec q bin exp) := by
    simp only [npfFtoaRev, expField_eq, manField_eq, ReadAs.exp, ReadAs.man, if_neg number,
      reads.normalized, Int.toNat_natCast]
  rw [run, reads.machineOf_eq]
  by_cases long : (q : ℤ) > cfg.cbuf - 2
  · rw [if_pos long]
    exact .inl ⟨orErr_exit buf _, fun room => absurd room.point_fits (by omega)⟩
  · rw [if_neg long]
    rcases ftoaFinite_eq (machine_valid reads.norm) (show q + 2 ≤ cfg.cbuf by omega) spec buf with
      ⟨exits, why⟩ | ⟨room, leaves⟩
    · exact .inl ⟨exits ▸ orErr_exit buf _, why⟩
    · exact .inr ⟨room, leaves.orErr buf _⟩

theorem npfFtoaRev_special {f g : RealBits cfg} [ReadAs cfg f g] (special : ¬ IsFinite cfg g)
    (spec : NpfFormatSpec) (prec : ℤ) (buf : ConvBuffer cfg) :
    npfFtoaRev cfg buf spec prec f = npfFtoaSpecial buf spec.caseAdjust
      (if fracField cfg g.toNat ≠ 0 then npfFtoaNan else npfFtoaInf) := by
  have top := (isSpecial_eq cfg g.toNat).mpr (not_not.mp special)
  simp only [npfFtoaRev, expField_eq, manField_eq, ReadAs.exp, ReadAs.man, if_pos top]

/-! ## The documented range -/

/-- A mantissa that keeps its factors of two is not misjudged. -/
theorem not_misjudged_of_grid {int : ℕ} {f : Fraction} (valid : f.Valid cfg int)
    (factors : 2 ^ (f.left - 4 + 3) ∣ f.man) (clean : f.carry = 0) (q T : ℕ) :
    ¬ Misjudged cfg T (fracScale cfg q f.left 0 f.man f.carry) := by
  have positive := cfg.unit_ge
  rcases lt_or_ge (f.zeros cfg) q with enough | short
  · obtain ⟨man, carry, run, -⟩ := valid.fracScale_full enough
    rintro ⟨left, -⟩
    rw [run] at left
    exact absurd left (by norm_num)
  · obtain ⟨i, man, carry, run, -, -, -, -, rest⟩ :=
      Nanoprintf.fracScale_stops (f.left - 4) valid.fits short
    rw [Nat.sub_add_cancel valid.left_ge] at run
    rintro ⟨left, within⟩
    rw [run] at left within
    simp only at left within
    obtain rfl : i = 0 := by omega
    obtain ⟨eighth, noCarry, -⟩ := @approach_exact cfg.fiveLimit (f.left - 4) f.man factors
    rw [← clean, rest] at eighth noCarry
    simp only [approach] at eighth noCarry
    omega

/-- **Inside the documented range the fused conversion rounds its argument.** -/
theorem fusedRound_exact {f : RealBits cfg} (finite : IsFinite cfg f) (inRange : InRange cfg f)
    (q : ℕ) : fusedRound cfg q (machineOf cfg f) = fixedRound q (magnitude cfg f) := by
  obtain ⟨bin, exp, reads⟩ := exists_reads finite
  obtain ⟨n, grid⟩ := inRange.grid
  have valid := machine_valid reads.norm
  rw [← inRange.approximation_eq finite, approximation, reads.machineOf_eq]
  refine (fusedRound_eq_iff valid q).mpr fun part frac => ?_
  rw [reads.value] at grid
  obtain ⟨factors, clean⟩ := machine_fraction_grid reads.norm grid frac
  exact not_misjudged_of_grid (valid.fraction part frac).2 factors clean q _

/-- **`%f` is exact inside the documented range of the intermediate type**, on either path: what
it prints unless it reports an error is the argument rounded half to even to its places. -/
theorem fixed_exact [cfg.RepExact] {f : RealBits cfg} (finite : IsFinite cfg f)
    (inRange : InRange cfg f) {spec : NpfFormatSpec} (conversion : spec.convSpec = .floatDec)
    {q : ℕ} (precision : npfDecPrec cfg spec = q) (buf : ConvBuffer cfg) :
    (¬ LeavesWord (npfFtoaRev cfg buf spec q f) (errWord spec.caseAdjust) →
      Leaves (npfFtoaRev cfg buf spec q f)
        (fixedText (fixedRound q (magnitude cfg f)) q (0 < q ∨ alternate cfg spec))) ∧
    (¬ LeavesWord (npfEtoaRev cfg buf spec f) (errWord spec.caseAdjust) →
      Leaves (npfEtoaRev cfg buf spec f)
        (fixedText (fixedRound q (magnitude cfg f)) q (0 < q ∨ alternate cfg spec))) := by
  constructor
  · intro number
    rcases npfFtoaRev_finite finite spec q buf with ⟨word, -⟩ | ⟨-, leaves⟩
    · exact absurd word number
    · rwa [fusedRound_exact finite inRange] at leaves
  · intro number
    rcases npfEtoaRev_fixed finite conversion precision buf with ⟨-, leaves⟩ | ⟨-, word⟩
    · rwa [inRange.approximation_eq finite] at leaves
    · exact absurd word number

/-- `1.5` is a tie on its last digit. -/
theorem fixed_exact_three_halves :
    Leaves (npfFtoaRev .standard .blank (.lower .floatDec 0) 0 (pattern _ 0x3ff8000000000000))
      (fixedText (fixedRound 0 (magnitude .standard (pattern _ 0x3ff8000000000000))) 0 false) ∧
    Leaves (npfEtoaRev .standard .blank (.lower .floatDec 0) (pattern _ 0x3ff8000000000000))
      (fixedText (fixedRound 0 (magnitude .standard (pattern _ 0x3ff8000000000000))) 0 false) := by
  obtain ⟨fused, shared⟩ := @fixed_exact .standard _ (pattern _ 0x3ff8000000000000) (by decide)
    inRange_three_halves (.lower .floatDec 0) rfl 0 rfl .blank
  exact ⟨fused (by decide), shared (by decide)⟩

/-! ## Misjudged values -/

/-- The 33 bits after the point of a value put it within one of a half, on the side where an
integer rounds the other way. -/
def MisjudgedValue (v : ℚ) : Prop :=
  ⌊v⌋₊ % 2 = 1 ∧ ⌊Int.fract v * 2 ^ 33⌋₊ = 2 ^ 32 - 1 ∨
    ⌊v⌋₊ % 2 = 0 ∧ 2 ^ 32 < ⌊Int.fract v * 2 ^ 33⌋₊ ∧ ⌊Int.fract v * 2 ^ 33⌋₊ < 2 ^ 32 + 4

/-- A value below a half is not misjudged. -/
theorem not_misjudgedValue_of_lt_half {v : ℚ} (nonneg : 0 ≤ v) (less : v < 1 / 2) :
    ¬ MisjudgedValue v := by
  have zero : ⌊v⌋₊ = 0 := Nat.floor_eq_zero.mpr (by linarith)
  have few : ⌊Int.fract v * 2 ^ 33⌋₊ < 2 ^ 32 := by
    rw [Nat.floor_lt (by positivity), Int.fract_eq_self.mpr ⟨nonneg, by linarith⟩]
    push_cast
    linarith
  rw [MisjudgedValue, zero]
  omega

/-- There is one fraction to misjudge. -/
theorem misjudged_frac {m : Machine} {f : Fraction} (frac : m.frac = some f) {T : ℕ} :
    (∃ g, m.frac = some g ∧ Misjudged cfg T (fracScale cfg 0 g.left 0 g.man g.carry)) ↔
      Misjudged cfg T (fracScale cfg 0 f.left 0 f.man f.carry) := by
  constructor
  · rintro ⟨g, same, misjudged⟩
    rwa [Option.some.inj (frac.symm.trans same)]
  · exact fun misjudged => ⟨f, frac, misjudged⟩

/-- A precision leaves a mantissa that has just been multiplied by five, and with an
intermediate of a multiple of four bits none of these is next to the top bit. -/
theorem not_misjudged_of_pos {int : ℕ} {f : Fraction} (valid : f.Valid cfg int)
    (four : 4 ∣ cfg.manBits) {q : ℕ} (nonzero : q ≠ 0) (I : ℕ) :
    ¬ Misjudged cfg (I * 10 ^ q) (fracScale cfg q f.left 0 f.man f.carry) := by
  have even : I * 10 ^ q % 2 = 0 :=
    Nat.mod_eq_zero_of_dvd ((dvd_pow (by norm_num) nonzero).mul_left I)
  rcases lt_or_ge (f.zeros cfg) q with enough | short
  · obtain ⟨man, carry, run, -⟩ := valid.fracScale_full enough
    rintro ⟨left, -⟩
    rw [run] at left
    exact absurd left (by norm_num)
  · obtain ⟨i, man, carry, run, -, -, -, last, -⟩ :=
      Nanoprintf.fracScale_stops (f.left - 4) valid.fits short
    rw [Nat.sub_add_cancel valid.left_ge] at run
    obtain ⟨rfl, a, b, bit, rfl⟩ := last nonzero
    rintro ⟨-, within⟩
    rw [run] at within
    -- powers of sixteen leave 1 modulo 5
    have residue : 8 * cfg.unit % 5 = 3 := by
      obtain ⟨k, bits⟩ := four
      have bound := cfg.manBits_ge
      obtain ⟨n, rfl⟩ : ∃ n, k = n + 1 := ⟨k - 1, by omega⟩
      rw [Config.unit, bits, show 4 * (n + 1) - 4 = 4 * n by omega, pow_mul, Nat.mul_mod,
        Nat.pow_mod]
      norm_num
    simp only at within
    omega

/-- The fraction of a value in the range of a 32-bit intermediate that is misjudged. -/
theorem misjudged_iff {bin : ℕ} {exp : ℤ} (norm : Normalized cfg bin exp)
    (double : cfg.singlePrecision = false) (narrow : cfg.manBits = 32) :
    (∃ f, (machine cfg bin exp).frac = some f ∧
      Misjudged cfg ((machine cfg bin exp).int * 10 ^ 0) (fracScale cfg 0 f.left 0 f.man f.carry)) ↔
      (bin : ℚ) * 2 ^ (exp - cfg.realManBits) < 2 ^ 32 ∧
        MisjudgedValue ((bin : ℚ) * 2 ^ (exp - cfg.realManBits)) := by
  have real : cfg.realManBits = 52 := by rw [Config.realManBits, Config.realMantDig, double]; rfl
  have wide : cfg.binBits = 64 := by rw [Config.binBits, double]; rfl
  have shift : cfg.shiftBits = 31 := by
    rw [Config.shiftBits, Config.realMantDig, double, narrow]; rfl
  have unit : cfg.unit = 2 ^ 28 := by rw [Config.unit, narrow]
  have small := norm.small
  have stop : ∀ left man carry : ℕ, 4 ≤ left →
      fracScale cfg 0 left 0 man carry = ⟨left, 0, man, carry⟩ := by
    intro left man carry counted
    obtain ⟨l, rfl⟩ := Nat.exists_eq_succ_of_ne_zero (show left ≠ 0 by omega)
    rfl
  -- from one half on the bits of the fraction decide
  have bitsOf : ∀ int left : ℕ, -1 ≤ exp → exp < cfg.realManBits → left = 4 →
      int = (if exp < 0 then 0 else bin / 2 ^ (cfg.realManBits - exp.toNat)) →
      (Misjudged cfg (int * 10 ^ 0) ⟨left, 0, (fracMan cfg (fracBits cfg bin exp)).1,
          (fracMan cfg (fracBits cfg bin exp)).2⟩ ↔
        MisjudgedValue ((bin : ℚ) * 2 ^ (exp - cfg.realManBits))) := by
    rintro int left near inside rfl integer
    obtain ⟨fraction, whole⟩ := fracBits_eq_fract small near inside
    have floor := floor_fract norm.small double narrow near inside
    have bit := (fracMan_fits (fracBits_lt exp norm.small)).2
    rw [MisjudgedValue, whole, ← integer, floor, Misjudged, unit]
    simp only [pow_zero, mul_one, true_and]
    omega
  rcases lt_or_ge exp 0 with negative | nonneg
  · have below := norm.value_lt
    have one : (2 : ℚ) ^ (exp + 1) ≤ 1 := zpow_le_one_of_nonpos₀ one_le_two (by omega)
    rw [machine_of_neg small negative, misjudged_frac rfl]
    simp only [fractionAt, if_pos negative]
    rw [stop _ _ _ (by omega), and_iff_right (by linarith)]
    by_cases half : exp = -1
    · exact bitsOf 0 _ (by omega) (by omega) (by omega) (if_pos negative).symm
    · -- a smaller value is below a half
      have nonneg : 0 ≤ (bin : ℚ) * 2 ^ (exp - cfg.realManBits) := by positivity
      have less : (bin : ℚ) * 2 ^ (exp - cfg.realManBits) < 1 / 2 := by
        calc _ < (2 : ℚ) ^ (exp + 1) := below
          _ ≤ 2 ^ (-1 : ℤ) := zpow_le_zpow_right₀ one_le_two (by omega)
          _ = 1 / 2 := by norm_num
      refine iff_of_false (fun misjudged => ?_) (not_misjudgedValue_of_lt_half nonneg less)
      have left := misjudged.1
      simp only at left
      omega
  · by_cases covered : exp ≤ cfg.shiftBits
    · have inside : exp < cfg.realManBits := by omega
      have below : (bin : ℚ) * 2 ^ (exp - cfg.realManBits) < 2 ^ 32 := by
        calc _ < (2 : ℚ) ^ (exp + 1) := norm.value_lt
          _ ≤ 2 ^ (32 : ℤ) := zpow_le_zpow_right₀ one_le_two (by omega)
          _ = 2 ^ 32 := by norm_num
      rw [machine_of_le small nonneg covered, if_pos inside, misjudged_frac rfl]
      simp only [fractionAt, if_neg (not_lt.mpr nonneg)]
      rw [stop _ _ _ (by omega), and_iff_right below]
      exact bitsOf _ _ (by omega) inside rfl (if_neg (not_lt.mpr nonneg)).symm
    · have above : (2 : ℚ) ^ 32 ≤ bin * 2 ^ (exp - cfg.realManBits) := by
        calc (2 : ℚ) ^ 32 = 2 ^ (32 : ℤ) := by norm_num
          _ ≤ 2 ^ exp := zpow_le_zpow_right₀ one_le_two (by omega)
          _ ≤ _ := two_zpow_le_value exp (norm.full nonneg)
      rw [machine_of_gt small (by omega)]
      refine iff_of_false ?_ fun both => absurd both.1 (not_lt.mpr above)
      rintro ⟨f, frac, -⟩
      cases frac

/-- A 64-bit intermediate holds every bit of a fraction. -/
theorem not_misjudged_wide {bin : ℕ} {exp : ℤ} (norm : Normalized cfg bin exp)
    (double : cfg.singlePrecision = false) (wide : cfg.manBits = 64) {f : Fraction}
    (frac : (machine cfg bin exp).frac = some f) (T : ℕ) :
    ¬ Misjudged cfg T (fracScale cfg 0 f.left 0 f.man f.carry) := by
  have real : cfg.realManBits = 52 := by rw [Config.realManBits, Config.realMantDig, double]; rfl
  have bin_ : cfg.binBits = 64 := by rw [Config.binBits, double]; rfl
  obtain ⟨-, rfl⟩ := machine_frac norm frac
  have even : (fractionAt cfg bin exp).man % 2 = 0 ∧ (fractionAt cfg bin exp).carry = 0 := by
    simp only [fractionAt, fracMan, fracBits, wide, bin_, real]
    split_ifs <;> omega
  obtain ⟨l, left⟩ := Nat.exists_eq_succ_of_ne_zero
    (show (fractionAt cfg bin exp).left ≠ 0 by unfold fractionAt; simp only; split_ifs <;> omega)
  rintro ⟨-, within⟩
  rw [left, fracScale, if_pos rfl] at within
  have positive := cfg.unit_ge
  simp only at within
  omega

/-! ## Agreement -/

theorem fixedText_inj {T T' q : ℕ} {point : Bool} (pointed : point = false → q = 0)
    (same : fixedText T q point = fixedText T' q point) : T = T' := by
  have values := congrArg denotes same
  rw [denotes_fixedText pointed, denotes_fixedText pointed,
    div_left_inj' (by positivity : (10 : ℚ) ^ q ≠ 0)] at values
  exact_mod_cast values

/-- The fused conversion at precision 0 has room for every number with a fraction. -/
theorem fusedRoom_zero {m : Machine} (valid : m.Valid cfg) {f : Fraction}
    (frac : m.frac = some f) (point : Bool) : FusedRoom cfg 0 point m := by
  have room := cfg.cbuf_ge
  have digits : (fusedDigits cfg 0 f).1 = 0 := by
    simp only [fusedDigits, Nat.zero_sub, ↓reduceIte]
  have least : fusedRound cfg 0 m ≤ m.int + 1 := by
    simp only [fusedRound, frac, digits, pow_zero, mul_one, Nat.add_zero]
    split_ifs <;> omega
  have short := numeralLength_int valid.fits.1
  have below := (lt_pow_numeralLength (by norm_num : 1 < 10) m.int).trans_le
    (Nat.pow_le_pow_right (by norm_num) short)
  have upper : fusedRound cfg 0 m < 10 ^ 21 := by omega
  have length := numeralLength_le (by norm_num : 1 < 10) (by norm_num) upper
  refine ⟨by omega, ?_, ?_⟩
  · rw [IntRoom, (valid.fraction f frac).1, length_pointText]
    split_ifs <;> omega
  · rw [length_fixedText, pow_zero, Nat.div_one]
    split_ifs <;> omega

/-- The value of a pattern that only a 32-bit intermediate misjudges, when there are no places. -/
theorem misjudged_pattern {f : RealBits cfg} (finite : IsFinite cfg f)
    (double : cfg.singlePrecision = false) (width : cfg.manBits = 32 ∨ cfg.manBits = 64) (q : ℕ) :
    fusedRound cfg q (machineOf cfg f) ≠ fixedRound q (approximation cfg f) ↔
      q = 0 ∧ cfg.manBits = 32 ∧ magnitude cfg f < 2 ^ 32 ∧ MisjudgedValue (magnitude cfg f) := by
  obtain ⟨bin, exp, reads⟩ := exists_reads finite
  have valid := machine_valid reads.norm
  rw [approximation, reads.machineOf_eq, Ne, fusedRound_eq_iff valid, reads.value]
  simp only [not_forall, not_not]
  have four : 4 ∣ cfg.manBits := by rcases width with bits | bits <;> rw [bits] <;> norm_num
  cases q with
  | succ q =>
      refine iff_of_false ?_ fun both => absurd both.1 (Nat.succ_ne_zero q)
      rintro ⟨part, frac, misjudged⟩
      exact not_misjudged_of_pos (valid.fraction part frac).2 four (Nat.succ_ne_zero q) _ misjudged
  | zero =>
      rcases width with narrow | wide
      · have reasons := misjudged_iff reads.norm double narrow
        simp only [exists_prop, reasons, narrow, true_and]
      · refine iff_of_false ?_ fun both => absurd (wide.symm.trans both.2.1) (by norm_num)
        rintro ⟨part, frac, misjudged⟩
        exact not_misjudged_wide reads.norm double wide frac _ misjudged

/-- **The two `%f` conversions agree** whenever the fused one does not report an error, except
with a 32-bit intermediate at precision 0, on the values it misjudges. -/
theorem fixed_paths_agree_iff (same : SameReal cfg cfg') (buffers : cfg.cbuf = cfg'.cbuf)
    (forms : cfg.altForm = cfg'.altForm)
    (double : cfg.singlePrecision = false) (width : cfg.manBits = 32 ∨ cfg.manBits = 64)
    {f : RealBits cfg} {f' : RealBits cfg'} (bits : f.toNat = f'.toNat) {spec : NpfFormatSpec}
    (conversion : spec.convSpec = .floatDec) {q : ℕ} (precision : npfDecPrec cfg' spec = q)
    (buf : ConvBuffer cfg) (buf' : ConvBuffer cfg') :
    (¬ LeavesWord (npfFtoaRev cfg buf spec q f) (errWord spec.caseAdjust) →
      SameResult (npfFtoaRev cfg buf spec q f) (npfEtoaRev cfg' buf' spec f')) ↔
      ¬ (q = 0 ∧ cfg.manBits = 32 ∧ IsFinite cfg f ∧ magnitude cfg f < 2 ^ 32 ∧
        MisjudgedValue (magnitude cfg f)) := by
  have point : alternate cfg spec = alternate cfg' spec := by rw [alternate, alternate, forms]
  have reads : cfg.RepExact := .of_double cfg double
  have reads' : cfg'.RepExact := .of_double cfg' (same.single ▸ double)
  by_cases finite : IsFinite cfg f
  · have finite' := (same.isFinite_iff bits).mp finite
    have judged := misjudged_pattern finite double width q
    have shared := npfEtoaRev_fixed finite' conversion precision buf'
    rw [← same.approximation_eq bits finite, ← point, Prints, ← buffers] at shared
    have pointed : decide (0 < q ∨ alternate cfg spec = true) = false → q = 0 := fun pointless => by
      have := of_decide_eq_false pointless
      omega
    rcases npfFtoaRev_finite finite spec q buf with ⟨word, why⟩ | ⟨room, leaves⟩
    · refine iff_of_true (fun number => absurd word number) ?_
      rintro ⟨rfl, narrow, -, less, misjudged⟩
      -- a misjudged value has a fraction, and the fused conversion has room for it
      obtain ⟨bin, exp, reads⟩ := exists_reads finite
      have valid := machine_valid reads.norm
      rw [reads.value] at less misjudged
      obtain ⟨part, frac, -⟩ := (misjudged_iff reads.norm double narrow).mpr ⟨less, misjudged⟩
      rw [reads.machineOf_eq] at why
      exact why (fusedRoom_zero valid frac _)
    · have number : ¬ LeavesWord (npfFtoaRev cfg buf spec q f) (errWord spec.caseAdjust) :=
        leaves.not_word (by simp [errWord, inCase])
      rw [forall_prop_of_true number]
      have texts : SameResult (npfFtoaRev cfg buf spec q f) (npfEtoaRev cfg' buf' spec f') ↔
          fusedRound cfg q (machineOf cfg f) = fixedRound q (approximation cfg f) := by
        constructor
        · intro agree
          rcases shared with ⟨-, leaves'⟩ | ⟨-, word⟩
          · exact fixedText_inj pointed (agree.text_eq leaves leaves')
          · exact absurd word ((agree.leaves leaves).not_word (by simp [errWord, inCase]))
        · intro round
          rcases shared with ⟨-, leaves'⟩ | ⟨long, -⟩
          · rw [← round] at leaves'
            exact leaves.same leaves'
          · rw [← round] at long
            exact absurd room.text_fits (by omega)
      rw [texts, ← not_iff_not, not_not, ← Ne, judged]
      simp only [finite, true_and]
  · have finite' := (same.isFinite_iff bits).not.mp finite
    refine iff_of_true (fun _ => ?_) fun both => absurd both.2.2.1 finite
    rw [npfFtoaRev_special finite, npfEtoaRev_special finite', bits, same.fracField_eq]
    exact npfFtoaSpecial_same ..

/-- `%.1f` of `1.5` does not depend on the path. -/
theorem fixed_paths_agree_three_halves :
    SameResult
      (npfFtoaRev .standardFixed .blank (.lower .floatDec 1) (1 : ℕ) (pattern _ 0x3ff8000000000000))
      (npfEtoaRev .standard .blank (.lower .floatDec 1) (pattern _ 0x3ff8000000000000)) :=
  (@fixed_paths_agree_iff .standardFixed .standard ⟨rfl, rfl, rfl⟩ rfl rfl rfl (.inl rfl)
    (pattern _ 0x3ff8000000000000) (pattern _ 0x3ff8000000000000) rfl (.lower .floatDec 1) rfl 1 rfl
    .blank .blank).mpr (fun both => absurd both.1 (by decide)) (by decide)

/-- `%.0f` of `1.5 - 2^-33` is `2` on the fused path, where the bit below the mantissa has been
added to it, and `1` on the shared one. -/
theorem fixed_paths_disagree :
    ¬ (¬ LeavesWord (npfFtoaRev .standardFixed .blank (.lower .floatDec 0) (0 : ℕ)
          (pattern _ 0x3ff7fffffff80000)) (errWord 32) →
        SameResult (npfFtoaRev .standardFixed .blank (.lower .floatDec 0) (0 : ℕ)
            (pattern _ 0x3ff7fffffff80000))
          (npfEtoaRev .standard .blank (.lower .floatDec 0) (pattern _ 0x3ff7fffffff80000))) := by
  have fused : Leaves (npfFtoaRev .standardFixed .blank (.lower .floatDec 0) (0 : ℕ)
      (pattern _ 0x3ff7fffffff80000)) ['2'] := by decide
  have shared : Leaves (npfEtoaRev .standard .blank (.lower .floatDec 0)
      (pattern _ 0x3ff7fffffff80000)) ['1'] := by decide
  intro agree
  exact absurd ((agree (fused.not_word (by decide))).text_eq fused shared) (by decide)

end Nanoprintf
