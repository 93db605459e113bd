import Nanoprintf.EtoaSpec
import Nanoprintf.DecimalReading

/-!
# The exact range of the scientific conversion

Inside the range of the intermediate type no bit of a value is lost, so `%e` can
only go wrong where it forgets that nothing was lost. It does so for an integer
that takes more bits than a mantissa has: such an integer is shifted into place
exactly, and yet treated as if its scaling had dropped something.
`npfEtoaRev_scientific_exact` says that this is the only case in which the text
is not the argument rounded half to even, and that it matters at a tie.
-/

set_option autoImplicit false

namespace Nanoprintf

open Foundations

variable {cfg : Config}

/-! ## Rounding an integer to its leading digits -/

/-- The number is halfway between two numbers of `p + 1` digits, of which the even one is
the lower. -/
def EvenTie (p : ℕ) (v : ℚ) : Prop :=
  v * 10 ^ (p - Int.log 10 v) - ⌊v * 10 ^ (p - Int.log 10 v)⌋ = 1 / 2 ∧
    ⌊v * 10 ^ (p - Int.log 10 v)⌋ % 2 = 0

/-- An integer of `n + 1` digits and what follows it. -/
theorem log_of_digits {v : ℚ} {D n : ℕ} (length : numeralLength 10 D = n + 1) (nonzero : D ≠ 0)
    (lower : D ≤ v) (upper : v < D + 1) : (10 : ℚ) ^ (n : ℤ) ≤ v ∧ v < 10 ^ (n + 1 : ℤ) ∧
      Int.log 10 v = n := by
  have least := pow_numeralLength_le (by norm_num : 1 < 10) nonzero
  rw [length, Nat.add_sub_cancel] at least
  have most := length ▸ lt_pow_numeralLength (by norm_num : 1 < 10) D
  have leastQ : (10 : ℚ) ^ n ≤ D := by exact_mod_cast least
  have mostQ : (D : ℚ) + 1 ≤ 10 ^ (n + 1) := by exact_mod_cast most
  have low : (10 : ℚ) ^ (n : ℤ) ≤ v := by
    rw [zpow_natCast]
    linarith
  have high : v < 10 ^ (n + 1 : ℤ) := by
    rw [show (n + 1 : ℤ) = ((n + 1 : ℕ) : ℤ) by push_cast; ring, zpow_natCast]
    linarith
  exact ⟨low, high, log_ten_eq low high⟩

/-- The leading digits of a number come from those of its integer part, and from whether
there is anything else. -/
theorem sciRound_of_int {v : ℚ} {D p k : ℕ} {sticky : Prop} [Decidable (roundsUp D k sticky)]
    (length : numeralLength 10 D = p + 1 + k) (positive : k ≠ 0) (lower : D ≤ v) (upper : v < D + 1)
    (lost : sticky ↔ (D : ℚ) ≠ v) :
    carried (p + 1) (D / 10 ^ k + if roundsUp D k sticky then 1 else 0) k =
      ((sciRound p v).1, (sciRound p v).2 - p) := by
  have nonzero : D ≠ 0 := by
    rintro rfl
    rw [numeralLength, numeral_of_lt (by norm_num), List.length_singleton] at length
    omega
  obtain ⟨least, most, -⟩ := @log_of_digits v D (p + k) (by omega) nonzero lower upper
  have few : D / 10 ^ k + 1 ≤ 10 ^ (p + 1) := by
    have below := length ▸ lt_pow_numeralLength (by norm_num : 1 < 10) D
    rw [Nat.succ_le_iff, Nat.div_lt_iff_lt_mul (by positivity), ← pow_add]
    exact below
  have scale : v * 10 ^ (-(k : ℤ)) * 10 ^ k = v := by
    rw [mul_assoc, zpow_neg, zpow_natCast, inv_mul_cancel₀ (by positivity), mul_one]
  have rounded := @roundHalfEven_of_digits (v * 10 ^ (-(k : ℤ))) D k sticky _
    (by omega) (by rwa [scale]) (by rwa [scale]) (by rwa [scale])
  have spec := @sciRound_carried p (p + 1) _ v k (by omega) le_rfl
    (show D / 10 ^ k + (if roundsUp D k sticky then 1 else 0) ≤ 10 ^ (p + 1) by
      split_ifs <;> omega)
    (by rw [show (k : ℤ) + (p + 1 : ℕ) - 1 = ((p + k : ℕ) : ℤ) by push_cast; ring]; exact least)
    (by rw [show (k : ℤ) + (p + 1 : ℕ) = ((p + k : ℕ) + 1 : ℤ) by push_cast; ring]; exact most)
    (by
      rw [show (p : ℤ) - (k + (p + 1 : ℕ) - 1) = -(k : ℤ) by push_cast; ring, rounded,
        Nat.sub_self, pow_zero, mul_one])
  rw [Nat.sub_self, pow_zero, mul_one] at spec
  refine Prod.ext spec.1 ?_
  simp only
  omega

/-- The digits that are dropped from an integer make an even tie. -/
theorem evenTie_iff {D p k : ℕ} (length : numeralLength 10 D = p + 1 + k) (positive : k ≠ 0) :
    EvenTie p D ↔ 2 * (D % 10 ^ k) = 10 ^ k ∧ D / 10 ^ k % 2 = 0 := by
  have nonzero : D ≠ 0 := by
    rintro rfl
    rw [numeralLength, numeral_of_lt (by norm_num), List.length_singleton] at length
    omega
  obtain ⟨-, -, decade⟩ := @log_of_digits D D (p + k) (by omega) nonzero le_rfl (by linarith)
  have power : (0 : ℚ) < 10 ^ k := by positivity
  have scaled : (D : ℚ) * 10 ^ ((p : ℤ) - (p + k : ℕ)) = (D : ℚ) / (10 ^ k : ℕ) := by
    rw [show (p : ℤ) - (p + k : ℕ) = -(k : ℤ) by push_cast; ring, zpow_neg, zpow_natCast,
      div_eq_mul_inv]
    push_cast
    rfl
  have whole : ⌊(D : ℚ) / (10 ^ k : ℕ)⌋ = (D / 10 ^ k : ℕ) := by
    rw [Rat.floor_natCast_div_natCast]
    rfl
  have split : (D : ℚ) = (D / 10 ^ k : ℕ) * 10 ^ k + (D % 10 ^ k : ℕ) := by
    exact_mod_cast (Nat.div_add_mod' D (10 ^ k)).symm
  have rest : (D : ℚ) / (10 ^ k : ℕ) - ((D / 10 ^ k : ℕ) : ℤ) = (D % 10 ^ k : ℕ) / 10 ^ k := by
    rw [eq_div_iff power.ne', sub_mul, Int.cast_natCast, Nat.cast_pow, Nat.cast_ofNat,
      div_mul_cancel₀ _ power.ne']
    linarith
  rw [EvenTie, decade, scaled, whole, rest]
  have half : ((D % 10 ^ k : ℕ) : ℚ) / 10 ^ k = 1 / 2 ↔ 2 * (D % 10 ^ k) = 10 ^ k := by
    rw [div_eq_div_iff power.ne' two_ne_zero, one_mul]
    constructor
    · intro same
      have : D % 10 ^ k * 2 = 10 ^ k := by exact_mod_cast same
      omega
    · intro same
      have : D % 10 ^ k * 2 = 10 ^ k := by omega
      exact_mod_cast this
  rw [half]
  omega

/-- An integer with no more digits than asked for is no tie. -/
theorem not_evenTie {D p : ℕ} (nonzero : D ≠ 0) (few : numeralLength 10 D ≤ p + 1) :
    ¬ EvenTie p D := by
  obtain ⟨n, length⟩ : ∃ n, numeralLength 10 D = n + 1 :=
    ⟨_, (Nat.sub_add_cancel (numeralLength_pos 10 D)).symm⟩
  obtain ⟨m, rfl⟩ := Nat.exists_eq_add_of_le (show n ≤ p by omega)
  obtain ⟨-, -, decade⟩ := @log_of_digits D D n length nonzero le_rfl (by linarith)
  have integer : (D : ℚ) * 10 ^ (((n + m : ℕ) : ℤ) - n) = ((D * 10 ^ m : ℕ) : ℤ) := by
    rw [show ((n + m : ℕ) : ℤ) - n = (m : ℤ) by push_cast; ring, zpow_natCast]
    push_cast
    rfl
  rintro ⟨half, -⟩
  rw [decade, integer, Int.floor_intCast, sub_self] at half
  norm_num at half

/-! ## The range -/

/-- A value the intermediate type holds exactly. -/
structure InRange (cfg : Config) (f : RealBits cfg) : Prop where
  below : magnitude cfg f < 2 ^ cfg.manBits
  grid : ∃ n : ℕ, magnitude cfg f * 2 ^ (cfg.manBits - 3) = n

theorem InRange.approximation_eq {f : RealBits cfg} (inRange : InRange cfg f)
    (finite : IsFinite cfg f) : approximation cfg f = magnitude cfg f := by
  obtain ⟨n, grid⟩ := inRange.grid
  exact approximation_exact finite grid inRange.below

theorem Reads.magnitude_lt {f : RealBits cfg} {bin e : ℕ} (reads : Reads cfg f bin e) :
    magnitude cfg f < 2 ^ cfg.realMantDig ↔ e ≤ cfg.realManBits := by
  have dig : cfg.realMantDig = cfg.realManBits + 1 := by
    unfold Config.realManBits Config.realMantDig
    split <;> rfl
  have full := reads.norm.full (Int.natCast_nonneg e)
  have small := reads.norm.small
  have fullQ : (2 : ℚ) ^ cfg.realManBits ≤ bin := by exact_mod_cast full
  have smallQ : (bin : ℚ) < 2 ^ (cfg.realManBits + 1) := by exact_mod_cast small
  rw [reads.value, dig]
  constructor
  · intro less
    by_contra more
    have steps : (2 : ℚ) ≤ 2 ^ ((e : ℤ) - cfg.realManBits) := by
      calc (2 : ℚ) = 2 ^ (1 : ℤ) := (zpow_one 2).symm
        _ ≤ _ := zpow_le_zpow_right₀ one_le_two (by omega)
    have : (2 : ℚ) ^ (cfg.realManBits + 1) ≤ bin * 2 ^ ((e : ℤ) - cfg.realManBits) := by
      rw [pow_succ]
      exact mul_le_mul fullQ steps (by norm_num) (by positivity)
    linarith
  · intro fewer
    have steps : (2 : ℚ) ^ ((e : ℤ) - cfg.realManBits) ≤ 1 := by
      calc _ ≤ (2 : ℚ) ^ (0 : ℤ) := zpow_le_zpow_right₀ one_le_two (by omega)
        _ = 1 := zpow_zero 2
    calc (bin : ℚ) * 2 ^ ((e : ℤ) - cfg.realManBits) ≤ bin * 1 :=
          mul_le_mul_of_nonneg_left steps (by positivity)
      _ < _ := by rwa [mul_one]

/-- **What `%e` knows of the digits it has not generated**: up to the precision of the real
type it is the truth, above it the tail is never empty. -/
theorem integerTail_spec {f : RealBits cfg} (finite : IsFinite cfg f) (inRange : InRange cfg f)
    (nonzero : (machineOf cfg f).int ≠ 0) :
    (machineOf cfg f).dec = 0 ∧ ((machineOf cfg f).int : ℚ) ≤ magnitude cfg f ∧
      magnitude cfg f < (machineOf cfg f).int + 1 ∧
      (magnitude cfg f < 2 ^ cfg.realMantDig →
        (integerTail cfg f = true ↔ magnitude cfg f = (machineOf cfg f).int)) ∧
      (2 ^ cfg.realMantDig ≤ magnitude cfg f →
        integerTail cfg f = false ∧ magnitude cfg f = (machineOf cfg f).int) := by
  obtain ⟨bin, exp, reads⟩ := exists_reads finite
  obtain ⟨n, grid⟩ := inRange.grid
  have below := inRange.below
  have norm := reads.norm
  obtain ⟨real, wide, either⟩ := cfg.shiftBits_spec
  rw [reads.machineOf_eq] at nonzero ⊢
  rw [reads.integerTail_eq]
  have nonneg : 0 ≤ exp := by
    by_contra negative
    rw [machine_of_neg norm.small (by omega)] at nonzero
    exact nonzero rfl
  obtain ⟨e, rfl⟩ := Int.eq_ofNat_of_zero_le nonneg
  have precise := reads.magnitude_lt
  rw [reads.value] at grid below precise ⊢
  by_cases covered : (e : ℤ) ≤ cfg.shiftBits
  · have fits := precise.mpr (by omega)
    have shape := machine_of_le norm.small nonneg covered
    rw [intTail, shape]
    by_cases top : e = cfg.realManBits
    · subst top
      simp [covered] at fits ⊢
      exact fits
    · have inside : e < cfg.realManBits := by omega
      obtain ⟨k, fraction, split⟩ := fracBits_grid inside grid
      obtain ⟨man, carry⟩ := @fractionAt_grid cfg bin e k (by
        rw [fraction, fractionAt_left, Nat.sub_self, Nat.add_zero])
      rw [fractionAt_left] at man
      have range := (fracMan_fits (fracBits_lt e norm.small)).1
      have quarter : (0 : ℚ) < 2 ^ (cfg.manBits - 3) := by positivity
      have part : (k : ℚ) / 2 ^ (cfg.manBits - 3) < 1 := by
        rw [div_lt_one quarter]
        have bits := cfg.manBits_ge
        have whole : 2 ^ (cfg.manBits - 3) * 2 ^ 3 = 16 * cfg.unit := by
          rw [← pow_add, ← cfg.two_pow_manBits]
          congr 1
          omega
        rw [show fracMan cfg (fracBits cfg bin e) = ((fractionAt cfg bin e).man,
          (fractionAt cfg bin e).carry) from rfl, man] at range
        exact_mod_cast (show k < 2 ^ (cfg.manBits - 3) by simp only at range; omega)
      have empty : ((fractionAt cfg bin e).man + (fractionAt cfg bin e).carry) %
          2 ^ cfg.manBits = 0 ↔ k = 0 := by
        rw [carry, Nat.add_zero, Nat.mod_eq_of_lt (cfg.two_pow_manBits ▸ range), man]
        omega
      rw [if_pos (Int.ofNat_lt.mpr inside), split, Int.toNat_natCast]
      refine ⟨rfl, ?_, ?_, fun _ => ?_, ?_⟩
      · simp only
        linarith [show (0 : ℚ) ≤ k / 2 ^ (cfg.manBits - 3) by positivity]
      · simp only
        linarith
      · simp only [decide_eq_true_iff]
        rw [empty, add_eq_left, div_eq_zero_iff, or_iff_left quarter.ne', Nat.cast_eq_zero]
      · intro large
        exact absurd (split ▸ fits) (not_lt.mpr large)
  · obtain ⟨k, steps, same, value, scaled⟩ := scaledInt_exact (norm.full nonneg) (by omega) below
    have large : ¬ (bin : ℚ) * 2 ^ ((e : ℤ) - cfg.realManBits) < 2 ^ cfg.realMantDig := by
      rw [precise]
      omega
    rw [intTail, machine_of_gt norm.small (by omega), scaled]
    refine ⟨rfl, by rw [value], by rw [value]; linarith, fun less => absurd less large,
      fun _ => ⟨?_, by rw [value]⟩⟩
    simpa using covered

/-! ## Telling two roundings apart -/

/-- A carry out of the digits does not change the number. -/
theorem carried_value {n U : ℕ} {dec : ℤ} (nonzero : n ≠ 0) (small : U ≤ 10 ^ n) :
    ((carried n U dec).1 : ℚ) * 10 ^ (carried n U dec).2 = U * 10 ^ dec := by
  unfold carried
  by_cases fits : U < 10 ^ n
  · rw [if_pos fits]
  · obtain rfl : U = 10 ^ n := by omega
    obtain ⟨m, rfl⟩ : ∃ m, n = m + 1 := ⟨n - 1, by omega⟩
    rw [if_neg fits, Nat.add_sub_cancel, zpow_add_one₀ (by norm_num), pow_succ]
    push_cast
    ring

/-- The text of a run of digits determines the run. -/
theorem carried_inj {p U W k : ℕ} (small : U ≤ 10 ^ (p + 1)) (small' : W ≤ 10 ^ (p + 1))
    {point : Bool} {caseAdj : ℕ} (pointed : point = false → p = 0)
    (same : sciText (carried (p + 1) U k).1 p ((carried (p + 1) U k).2 + p) point caseAdj =
      sciText (carried (p + 1) W k).1 p ((carried (p + 1) W k).2 + p) point caseAdj) : U = W := by
  have number : ∀ {V : ℕ}, V ≤ 10 ^ (p + 1) →
      denotes (sciText (carried (p + 1) V k).1 p ((carried (p + 1) V k).2 + p) point caseAdj) =
        V * 10 ^ (k : ℤ) := by
    intro V bound
    rw [denotes_sciText _ _ (carried_lt (by omega) _ _) pointed, zpow_add₀ (by norm_num),
      zpow_natCast, ← carried_value (by omega) bound]
    field_simp
  have values := congrArg denotes same
  rw [number small, number small'] at values
  exact_mod_cast mul_right_cancel₀ (by positivity) values

/-- Whether anything is known to follow the dropped digits matters at an even tie, and only
there. -/
theorem sticky_matters {D p k : ℕ} {sticky clean : Prop} [Decidable (roundsUp D k sticky)]
    [Decidable (roundsUp D k clean)] (many : numeralLength 10 D = p + 1 + k) (nonzero : k ≠ 0)
    (more : sticky) (unclean : ¬ clean) {point : Bool} {caseAdj : ℕ}
    (pointed : point = false → p = 0) :
    sciText (carried (p + 1) (D / 10 ^ k + if roundsUp D k sticky then 1 else 0) k).1 p
          ((carried (p + 1) (D / 10 ^ k + if roundsUp D k sticky then 1 else 0) k).2 + p) point
          caseAdj =
        sciText (carried (p + 1) (D / 10 ^ k + if roundsUp D k clean then 1 else 0) k).1 p
          ((carried (p + 1) (D / 10 ^ k + if roundsUp D k clean then 1 else 0) k).2 + p) point
          caseAdj ↔
      ¬ EvenTie p D := by
  have top : D / 10 ^ k + 1 ≤ 10 ^ (p + 1) := by
    rw [Nat.succ_le_iff, Nat.div_lt_iff_lt_mul (by positivity), ← pow_add, ← many]
    exact lt_pow_numeralLength (by norm_num) _
  rw [evenTie_iff many nonzero]
  by_cases tie : 2 * (D % 10 ^ k) = 10 ^ k ∧ D / 10 ^ k % 2 = 0
  · refine iff_of_false (fun same => ?_) (not_not.mpr tie)
    have up : roundsUp D k sticky := .inr ⟨tie.1, .inl more⟩
    have down : ¬ roundsUp D k clean := by
      rintro (above | ⟨-, known | odd⟩)
      · exact absurd tie.1 above.ne'
      · exact unclean known
      · exact absurd tie.2 (by rw [odd]; exact one_ne_zero)
    rw [if_pos up, if_neg down] at same
    have equal := carried_inj top (by omega) pointed same
    omega
  · have agree : roundsUp D k sticky ↔ roundsUp D k clean := by
      simp only [roundsUp, more, unclean, true_or, and_true, false_or]
      refine or_congr_right (iff_self_and.mpr fun half => ?_)
      exact (Nat.mod_two_eq_zero_or_one _).resolve_left fun even => tie ⟨half, even⟩
    exact iff_of_true (by rw [if_congr agree rfl rfl]) tie

/-- A value that needs more bits than a mantissa of the real type has an integer part. -/
theorem int_ne_zero {f : RealBits cfg} (finite : IsFinite cfg f) (inRange : InRange cfg f)
    (large : 2 ^ cfg.realMantDig ≤ magnitude cfg f) : (machineOf cfg f).int ≠ 0 := by
  have valid := machineOf_valid finite
  have value := inRange.approximation_eq finite
  intro zero
  match frac : (machineOf cfg f).frac with
  | none => exact valid.scaled frac zero
  | some part =>
      have less := ((valid.fraction part frac).2).value_lt_one
      have one : (1 : ℚ) ≤ 2 ^ cfg.realMantDig := one_le_pow₀ one_le_two
      rw [approximation, Machine.value, frac] at value
      simp only [zero, Nat.cast_zero, zero_add] at value
      linarith

/-! ## The text -/

/-- **In the range of the intermediate type `%e` leaves the argument rounded half to even**,
except for an integer that takes more bits than a mantissa of the real type has and lies
halfway between two candidates with the even one below: it is rounded up. -/
theorem npfEtoaRev_scientific_exact [cfg.RepExact] {f : RealBits cfg} (finite : IsFinite cfg f)
    (inRange : InRange cfg f) {spec : NpfFormatSpec} (conversion : spec.convSpec = .floatSci)
    (compiled : cfg.floatSci = true) {p : ℕ} (precision : npfDecPrec cfg spec = p)
    (fits : p + 8 ≤ cfg.cbuf) (buf : ConvBuffer cfg) :
    Leaves (npfEtoaRev cfg buf spec f)
        (sciText (sciRound p (magnitude cfg f)).1 p (sciRound p (magnitude cfg f)).2
          (0 < p ∨ alternate cfg spec) spec.caseAdjust) ↔
      ¬ (2 ^ cfg.realMantDig ≤ magnitude cfg f ∧ EvenTie p (magnitude cfg f)) := by
  by_cases few : IntegerFits (machineOf cfg f) p
  · -- every digit is generated, and an integer among them is no tie
    have leaves := npfEtoaRev_scientific_fits finite conversion compiled precision few fits buf
    rw [inRange.approximation_eq finite] at leaves
    refine iff_of_true leaves ?_
    rintro ⟨large, tie⟩
    have nonzero := int_ne_zero finite inRange large
    obtain ⟨-, -, -, -, wide⟩ := integerTail_spec finite inRange nonzero
    rw [(wide large).2] at tie
    exact not_evenTie nonzero (few nonzero) tie
  · obtain ⟨nonzero, long⟩ : (machineOf cfg f).int ≠ 0 ∧
        p + 1 < numeralLength 10 (machineOf cfg f).int := by
      rw [IntegerFits] at few
      push Not at few
      exact few
    obtain ⟨k, many⟩ := Nat.exists_eq_add_of_lt long
    rw [Nat.add_assoc] at many
    have leaves := npfEtoaRev_scientific_drop finite conversion compiled precision
      (Nat.succ_ne_zero k) many fits buf
    obtain ⟨dec, lower, upper, narrow, wide⟩ := integerTail_spec finite inRange nonzero
    rw [droppedRound, dec, Nat.cast_zero, zero_add] at leaves
    rcases lt_or_ge (magnitude cfg f) (2 ^ cfg.realMantDig) with small | large
    · -- the tail tells the truth
      have round := @sciRound_of_int _ _ p (k + 1) (integerTail cfg f = false) _ many
        (Nat.succ_ne_zero k) lower upper (by
          rw [← Bool.not_eq_true, narrow small]
          exact not_congr eq_comm)
      rw [round, sub_add_cancel] at leaves
      exact iff_of_true leaves fun both => absurd small (not_lt.mpr both.1)
    · obtain ⟨tail, integer⟩ := wide large
      rw [tail] at leaves
      have round := @sciRound_of_int _ _ p (k + 1) False _ many (Nat.succ_ne_zero k) lower upper
        (iff_of_false id (not_not.mpr integer.symm))
      have first := congrArg Prod.fst round
      have second := congrArg Prod.snd round
      simp only at first second
      rw [show (sciRound p (magnitude cfg f)).2 = (carried (p + 1) _ _).2 + p by
        rw [second, sub_add_cancel], ← first, integer]
      have pointed : decide (0 < p ∨ alternate cfg spec = true) = false → p = 0 := fun plain => by
        have := of_decide_eq_false plain
        omega
      rw [leaves.iff_eq, sticky_matters many (Nat.succ_ne_zero k) rfl not_false pointed,
        ← integer, and_iff_right large]

theorem magnitude_three_halves : magnitude .standard (pattern _ 0x3ff8000000000000) = 3 / 2 := by
  rw [@magnitude_of_fields .standard (pattern _ 0x3ff8000000000000) 1023 (2 ^ 51) (by decide)
    (by decide) (by decide), show Config.standard.realManBits = 52 from rfl,
    show Config.standard.realExpBias = 1023 from rfl]
  norm_num

theorem inRange_three_halves : InRange .standard (pattern _ 0x3ff8000000000000) := by
  refine ⟨?_, 3 * 2 ^ 28, ?_⟩ <;>
    rw [magnitude_three_halves, show Config.standard.manBits = 32 from rfl] <;> norm_num

/-- `1.5` in the default build. -/
theorem npfEtoaRev_scientific_exact_half :
    Leaves (npfEtoaRev .standard .blank (.lower .floatSci 0) (pattern _ 0x3ff8000000000000))
      (sciText (sciRound 0 (magnitude .standard (pattern _ 0x3ff8000000000000))).1 0
        (sciRound 0 (magnitude .standard (pattern _ 0x3ff8000000000000))).2 false 32) := by
  refine (npfEtoaRev_scientific_exact (by decide) inRange_three_halves rfl rfl rfl (by decide)
    .blank).mpr ?_
  rw [magnitude_three_halves, show Config.standard.realMantDig = 53 from rfl]
  norm_num

/-- `4.5e16` takes 56 bits, and `%.0e` prints it as `5e+16`. -/
theorem npfEtoaRev_scientific_tie_up :
    IsFinite .standard64 (pattern _ 0x4363fbe85edc9000) ∧
      InRange .standard64 (pattern _ 0x4363fbe85edc9000) ∧
      Leaves (npfEtoaRev .standard64 .blank (.lower .floatSci 0) (pattern _ 0x4363fbe85edc9000))
        "5e+16".toList ∧
      ¬ Leaves (npfEtoaRev .standard64 .blank (.lower .floatSci 0) (pattern _ 0x4363fbe85edc9000))
        (sciText (sciRound 0 (magnitude .standard64 (pattern _ 0x4363fbe85edc9000))).1 0
          (sciRound 0 (magnitude .standard64 (pattern _ 0x4363fbe85edc9000))).2 false 32) := by
  have value : magnitude .standard64 (pattern _ 0x4363fbe85edc9000) = 45000000000000000 := by
    rw [@magnitude_of_fields .standard64 (pattern _ 0x4363fbe85edc9000) 1078 1121400372629504
      (by decide) (by decide) (by decide),
      show Config.standard64.realManBits = 52 from rfl,
      show Config.standard64.realExpBias = 1023 from rfl]
    norm_num
  have round : sciRound 0 (45000000000000000 : ℚ) = (4, 16) := by
    rw [@sciRound_eq 0 4 45000000000000000 16 (by norm_num) (by norm_num) ?_]
    · rfl
    · rw [roundHalfEven_eq_iff]
      norm_num
  refine ⟨by decide, ⟨?_, 45000000000000000 * 2 ^ 61, ?_⟩, by decide, ?_⟩
  · rw [value, show Config.standard64.manBits = 64 from rfl]
    norm_num
  · rw [value, show Config.standard64.manBits = 64 from rfl]
    norm_num
  · rw [value, round]
    decide

end Nanoprintf
