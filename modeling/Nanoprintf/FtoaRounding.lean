import Nanoprintf.FtoaSpec

/-!
# How the fused conversion rounds

`fusedRound` against half to even on the number that the shared conversion
prints. The two agree whenever the scaling comes to the first digit within the
precision, since the carry is then added before the digits are taken. Where the
precision ends on the zeros, the fused conversion rounds on a mantissa that the
last four steps have not been applied to, with the carry added to it: `Misjudged`
says when that is not the same.
-/

set_option autoImplicit false

namespace Nanoprintf

open Foundations

variable {cfg : Config}

/-! ## Half of the last place -/

/-- The four last steps take a mantissa to one side of a half as its top bit and the rest under
it say, up to its lowest bit. -/
theorem settled_half {man carry : ℕ} (fits : Fits cfg man carry) :
    (man < 8 * cfg.unit → settled cfg.fiveLimit man carry < 5 * cfg.unit) ∧
      (man = 8 * cfg.unit ∨ man = 8 * cfg.unit + 1 →
        settled cfg.fiveLimit man carry = 5 * cfg.unit) ∧
      (8 * cfg.unit + 2 ≤ man → 5 * cfg.unit < settled cfg.fiveLimit man carry) := by
  obtain ⟨limit, limit'⟩ := cfg.fiveLimit_spec
  have room := cfg.unit_ge
  obtain ⟨small, bit⟩ := fits
  unfold settled settle
  refine ⟨fun less => ?_, fun half => ?_, fun more => ?_⟩
  · split_ifs <;> simp only <;> omega
  · split_ifs <;> simp only <;> omega
  · have quarter : 2 * cfg.unit + 1 ≤ man / 4 ∨ man / 4 = 2 * cfg.unit ∧ man / 2 % 2 = 1 := by omega
    split_ifs <;> simp only <;> omega

/-- An approach without zeros only halves. -/
theorem approach_le (limit j : ℕ) {man carry : ℕ} (vanishes : (approach limit j man carry).1 = 0) :
    (approach limit j man carry).2.1 ≤ man := by
  induction j generalizing man carry with
  | zero => exact le_rfl
  | succ j ih =>
      rw [approach] at vanishes ⊢
      split_ifs at vanishes ⊢ with large
      exact (ih vanishes).trans (Nat.div_le_self man 2)

theorem approach_lt_half (j : ℕ) {man carry : ℕ} (fits : Fits cfg man carry)
    (vanishes : (approach cfg.fiveLimit (j + 1) man carry).1 = 0) :
    (approach cfg.fiveLimit (j + 1) man carry).2.1 < 8 * cfg.unit := by
  rw [approach] at vanishes ⊢
  split_ifs at vanishes ⊢ with large
  exact (approach_le _ j vanishes).trans_lt (by have := fits.1; omega)

/-! ## The comparison -/

/-- The fused conversion takes a mantissa that ends at the last zero for something else than
the rest of the scaling would show. -/
def Misjudged (cfg : Config) (T : ℕ) (r : Scaled) : Prop :=
  r.left = 4 ∧ (r.man + 1 = 8 * cfg.unit ∧ r.carry = 1 ∧ T % 2 = 1 ∨
    r.man = 8 * cfg.unit ∧ r.carry = 1 ∧ T % 2 = 0 ∨ r.man = 8 * cfg.unit + 1 ∧ T % 2 = 0)

theorem Fraction.value_eq (f : Fraction) :
    f.value cfg = f.settled cfg / (cfg.unit * 10 ^ (f.zeros cfg + 1)) := by
  rw [Fraction.value]
  split_ifs with zero
  · have vanishes : f.settled cfg = 0 := by
      rw [Fraction.settled, zero.1, zero.2, approach_nil]
      simp [Nanoprintf.settled, settle]
    rw [vanishes, Nat.cast_zero, zero_div]
  · rfl

/-- With precision to spare the fused conversion rounds on the digits. -/
theorem fusedRound_of_zeros_lt {m : Machine} {f : Fraction} (frac : m.frac = some f)
    (valid : f.Valid cfg m.int) {q : ℕ} (enough : f.zeros cfg < q) :
    fusedRound cfg q m = fixedRound q (m.value cfg) ∧
      (fracScale cfg q f.left 0 f.man f.carry).left = 0 := by
  obtain ⟨man, carry, run, sum, bit⟩ := valid.fracScale_full enough
  obtain ⟨k, rfl⟩ : ∃ k, q = f.zeros cfg + 1 + k := ⟨q - (f.zeros cfg + 1), by omega⟩
  have positive := cfg.unit_ge
  have whole := cfg.two_pow_manBits
  have digit := valid.settled_lt
  have nudge : (if man ≠ 2 ^ cfg.manBits - 1 then man + carry else man) = f.settled cfg := by
    rw [if_pos (by omega), sum]
  obtain ⟨D, quotient⟩ : ∃ D, 10 ^ k * f.settled cfg / cfg.unit = D := ⟨_, rfl⟩
  obtain ⟨R, remainder⟩ : ∃ R, 10 ^ k * f.settled cfg % cfg.unit = R := ⟨_, rfl⟩
  have split : 10 ^ k * f.settled cfg = D * cfg.unit + R := by
    rw [← quotient, ← remainder, Nat.div_add_mod']
  have less : R < cfg.unit := remainder ▸ Nat.mod_lt _ (by omega)
  have digits : fusedDigits cfg (f.zeros cfg + 1 + k) f = (D, 16 * R) := by
    simp only [fusedDigits, run, nudge, show f.zeros cfg + 1 + k - f.zeros cfg = k + 1 by omega,
      Nat.succ_ne_zero, ↓reduceIte, Nat.add_sub_cancel, quotient, remainder]
  have unitQ : (0 : ℚ) < cfg.unit := by exact_mod_cast (by omega : 0 < cfg.unit)
  have splitQ : (10 : ℚ) ^ k * f.settled cfg = D * cfg.unit + R := by exact_mod_cast split
  have parts : m.value cfg * 10 ^ (f.zeros cfg + 1 + k) =
      (m.int * 10 ^ (f.zeros cfg + 1 + k) + D : ℕ) + (R : ℚ) / cfg.unit := by
    have scaled : (f.settled cfg : ℚ) / (cfg.unit * 10 ^ (f.zeros cfg + 1)) *
        10 ^ (f.zeros cfg + 1 + k) = D + R / cfg.unit := by
      rw [pow_add _ _ k, div_mul_eq_mul_div, mul_comm (cfg.unit : ℚ), mul_left_comm,
        mul_div_mul_left _ _ (by positivity), mul_comm, splitQ, add_div,
        mul_div_cancel_right₀ _ unitQ.ne']
    rw [Machine.value, frac]
    simp only
    rw [f.value_eq, add_mul, scaled]
    push_cast
    ring
  refine ⟨?_, by rw [run]⟩
  rw [fixedRound_of_quotient parts less]
  simp only [fusedRound, frac, digits, run]
  congr 1
  refine if_congr ?_ rfl rfl
  omega

/-- Where the precision ends on the zeros of the fraction, what is left of the mantissa after
all its steps against half a place. -/
theorem fixedRound_of_zeros_ge {m : Machine} {f : Fraction} (frac : m.frac = some f)
    (valid : f.Valid cfg m.int) {q : ℕ} (short : q ≤ f.zeros cfg) :
    fixedRound q (m.value cfg) = m.int * 10 ^ q +
      if f.zeros cfg = q ∧ (5 * cfg.unit < f.settled cfg ∨
        f.settled cfg = 5 * cfg.unit ∧ m.int * 10 ^ q % 2 = 1) then 1 else 0 := by
  obtain ⟨k, zeros⟩ := Nat.exists_eq_add_of_le short
  have positive := cfg.unit_ge
  have digit := valid.settled_lt
  have unitQ : (0 : ℚ) < cfg.unit := by exact_mod_cast (by omega : 0 < cfg.unit)
  have wide : cfg.unit * 10 ≤ cfg.unit * 10 ^ (k + 1) :=
    Nat.mul_le_mul_left _ (Nat.le_self_pow (Nat.succ_ne_zero k) 10)
  have parts : m.value cfg * 10 ^ q =
      (m.int * 10 ^ q : ℕ) + (f.settled cfg : ℚ) / (cfg.unit * 10 ^ (k + 1) : ℕ) := by
    have scaled : (f.settled cfg : ℚ) / (cfg.unit * 10 ^ (q + k + 1)) * 10 ^ q =
        f.settled cfg / (cfg.unit * 10 ^ (k + 1) : ℕ) := by
      push_cast
      rw [Nat.add_assoc, pow_add _ q, div_mul_eq_mul_div, mul_comm (f.settled cfg : ℚ),
        mul_left_comm, mul_div_mul_left _ _ (by positivity)]
    rw [Machine.value, frac]
    simp only
    rw [f.value_eq, add_mul, zeros, scaled]
    push_cast
    rfl
  rw [fixedRound_of_quotient parts (by omega)]
  congr 1
  refine if_congr ?_ rfl rfl
  cases k with
  | zero => omega
  | succ k =>
      have wider : cfg.unit * 100 ≤ cfg.unit * 10 ^ (k + 1 + 1) := by
        refine Nat.mul_le_mul_left _ ?_
        calc 100 = 10 ^ 2 := rfl
          _ ≤ 10 ^ (k + 1 + 1) := Nat.pow_le_pow_right (by norm_num) (by omega)
      omega

/-- The fused conversion there looks at the mantissa it has come to. -/
theorem fusedRound_of_zeros_ge {m : Machine} {f : Fraction} (frac : m.frac = some f)
    {q i man carry : ℕ} (run : fracScale cfg q f.left 0 f.man f.carry = ⟨i + 4, q, man, carry⟩) :
    fusedRound cfg q m = m.int * 10 ^ q +
      if i = 0 ∧ (8 * cfg.unit < (if man ≠ 2 ^ cfg.manBits - 1 then man + carry else man) ∨
        (if man ≠ 2 ^ cfg.manBits - 1 then man + carry else man) = 8 * cfg.unit ∧
          m.int * 10 ^ q % 2 = 1) then 1 else 0 := by
  simp only [fusedRound, frac, fusedDigits, run, Nat.sub_self, ↓reduceIte, Nat.add_zero]
  congr 1
  refine if_congr ?_ rfl rfl
  omega

/-- Two conditions add one alike exactly if they are equivalent. -/
theorem add_ite_eq_iff {n : ℕ} {A B : Prop} [Decidable A] [Decidable B] :
    (n + if A then 1 else 0) = (n + if B then 1 else 0) ↔ (A ↔ B) := by
  by_cases a : A <;> by_cases b : B <;> simp [a, b]

theorem fusedRound_of_frac_none {m : Machine} (frac : m.frac = none) (q : ℕ) :
    fusedRound cfg q m = fixedRound q (m.value cfg) := by
  rw [fusedRound, frac]
  refine (fixedRound_of_exact ?_).symm
  rw [Machine.value, frac]
  push_cast
  rfl

/-- Where the precision ends with the last zero, the mantissa rounds as what is left of it after
its last four steps does, unless it is misjudged. -/
theorem lastZero_agrees_iff {man carry T : ℕ} (fits : Fits cfg man carry) :
    ((8 * cfg.unit < (if man ≠ 2 ^ cfg.manBits - 1 then man + carry else man) ∨
        (if man ≠ 2 ^ cfg.manBits - 1 then man + carry else man) = 8 * cfg.unit ∧ T % 2 = 1) ↔
      (5 * cfg.unit < settled cfg.fiveLimit man carry ∨
        settled cfg.fiveLimit man carry = 5 * cfg.unit ∧ T % 2 = 1)) ↔
      ¬ (man + 1 = 8 * cfg.unit ∧ carry = 1 ∧ T % 2 = 1 ∨
        man = 8 * cfg.unit ∧ carry = 1 ∧ T % 2 = 0 ∨ man = 8 * cfg.unit + 1 ∧ T % 2 = 0) := by
  have whole := cfg.two_pow_manBits
  have positive := cfg.unit_ge
  obtain ⟨below, half, above⟩ := settled_half fits
  obtain ⟨small, bit⟩ := fits
  generalize settled cfg.fiveLimit man carry = S at below half above
  by_cases full : man ≠ 2 ^ cfg.manBits - 1
  · simp only [if_pos full]
    omega
  · simp only [if_neg full]
    omega

/-- With zeros to come after the precision, what is left is under half a place. -/
theorem settled_approach_lt_half {j man carry : ℕ} (fits : Fits cfg man carry)
    (vanishes : (approach cfg.fiveLimit (j + 1) man carry).1 = 0) :
    settled cfg.fiveLimit (approach cfg.fiveLimit (j + 1) man carry).2.1
      (approach cfg.fiveLimit (j + 1) man carry).2.2 < 5 * cfg.unit :=
  (settled_half (approach_fits (j + 1) fits)).1 (approach_lt_half j fits vanishes)

/-- **The fused conversion rounds the number that the shared one prints half to even**, unless
it misjudges a mantissa within one of its top bit. -/
theorem fusedRound_eq_iff {m : Machine} (valid : m.Valid cfg) (q : ℕ) :
    fusedRound cfg q m = fixedRound q (m.value cfg) ↔
      ∀ f, m.frac = some f →
        ¬ Misjudged cfg (m.int * 10 ^ q) (fracScale cfg q f.left 0 f.man f.carry) := by
  cases frac : m.frac with
  | none =>
      refine iff_of_true (fusedRound_of_frac_none frac q) fun f absent => ?_
      cases absent
  | some f =>
      have part := (valid.fraction f frac).2
      refine Iff.trans ?_ ⟨fun fine g same => Option.some.inj same ▸ fine, fun all => all f rfl⟩
      rcases lt_or_ge (f.zeros cfg) q with enough | short
      · obtain ⟨same, left⟩ := fusedRound_of_zeros_lt frac part enough
        refine iff_of_true same fun misjudged => ?_
        exact absurd (left.symm.trans misjudged.1) (by norm_num)
      · obtain ⟨i, man, carry, run, -, fits, -, -, rest⟩ :=
          Nanoprintf.fracScale_stops (f.left - 4) part.fits short
        rw [Nat.sub_add_cancel part.left_ge] at run
        rw [fixedRound_of_zeros_ge frac part short, fusedRound_of_zeros_ge frac run, run, Misjudged]
        simp only
        cases i with
        | zero =>
            have last : f.zeros cfg = q ∧ f.settled cfg = settled cfg.fiveLimit man carry := by
              rw [Fraction.zeros, Fraction.settled, rest]
              exact ⟨Nat.zero_add q, rfl⟩
            rw [last.1, last.2, add_ite_eq_iff]
            simp only [true_and]
            -- both add one, and the question is when
            exact lastZero_agrees_iff fits
        | succ j =>
            have low : ¬ (f.zeros cfg = q ∧ (5 * cfg.unit < f.settled cfg ∨
                f.settled cfg = 5 * cfg.unit ∧ m.int * 10 ^ q % 2 = 1)) := by
              rintro ⟨last, up⟩
              rw [Fraction.zeros, rest] at last
              have under := settled_approach_lt_half (j := j) fits (by omega)
              rw [Fraction.settled, rest] at up
              simp only at up
              omega
            rw [if_neg low, if_neg (by omega)]
            exact iff_of_true rfl (by omega)

end Nanoprintf
