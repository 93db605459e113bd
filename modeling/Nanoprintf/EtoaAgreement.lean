import Nanoprintf.EtoaSpec
import Nanoprintf.DecimalReading

/-!
# The two styles describe the same number

`%e` and `%f` round the same number, whether or not it is the argument. Where the
last digit of both has the same place, the texts denote the same decimal number;
the exponent that says so is the one `%e` prints, which rounding may have raised.
-/

set_option autoImplicit false

namespace Nanoprintf

open Foundations

variable {cfg : Config}

/-! ## Rounding at one place -/

/-- Rounding to fewer places where the digits in between are zeros. -/
theorem fixedRound_of_zeros {q k T : ℕ} {v : ℚ} (nonneg : 0 ≤ v)
    (rounded : fixedRound (q + k) v = T * 10 ^ k) : fixedRound q v = T := by
  rcases k.eq_zero_or_pos with rfl | positive
  · rwa [pow_zero, mul_one] at rounded
  · refine fixedRound_eq (roundHalfEven_of_trailing_zeros positive ?_)
    have cast := fixedRound_nonneg (q := q + k) nonneg
    rw [rounded, pow_add, ← mul_assoc] at cast
    rw [← cast]
    push_cast
    rfl

/-- Rounding to digits is rounding to the place of the last of them. -/
theorem fixedRound_of_sciRound {p q : ℕ} {v : ℚ} (nonneg : 0 ≤ v)
    (place : (q : ℤ) = p - (sciRound p v).2) : fixedRound q v = (sciRound p v).1 := by
  unfold sciRound at place ⊢
  by_cases zero : v = 0
  · rw [if_pos zero, zero]
    exact fixedRound_of_exact (by simp)
  · rw [if_neg zero] at place ⊢
    simp only at place ⊢
    by_cases carry : (roundHalfEven (v * 10 ^ ((p : ℤ) - Int.log 10 v))).toNat = 10 ^ (p + 1)
    · -- the exponent has been raised, and the digit in between is a zero
      rw [if_pos carry] at place ⊢
      refine fixedRound_of_zeros (k := 1) nonneg ?_
      rw [fixedRound, ← zpow_natCast, show ((q + 1 : ℕ) : ℤ) = p - Int.log 10 v by
        push_cast; omega, carry, pow_succ, pow_one]
    · rw [if_neg carry] at place ⊢
      rw [fixedRound, ← zpow_natCast, place]

/-! ## What `%e` leaves -/

/-- The outcomes of `%e`: an error, the number rounded to its digits, or an integer rounded on
those of its digits that go. -/
inductive Scientific (cfg : Config) (f : RealBits cfg) (p : ℕ) (point : Bool) (caseAdj : ℕ)
    (run : Run (ℤ × ConvBuffer cfg)) : Prop
  | err (word : LeavesWord run (errWord caseAdj))
  | rounded (fits : p + 8 ≤ cfg.cbuf) (few : IntegerFits (machineOf cfg f) p)
    (leaves : Leaves run (sciText (sciRound p (approximation cfg f)).1 p
      (sciRound p (approximation cfg f)).2 point caseAdj))
  | dropped (fits : p + 8 ≤ cfg.cbuf) (k : ℕ) (nonzero : k ≠ 0)
    (many : numeralLength 10 (machineOf cfg f).int = p + 1 + k)
    (leaves : Leaves run (sciText (droppedRound (machineOf cfg f) (integerTail cfg f) p k).1 p
      ((droppedRound (machineOf cfg f) (integerTail cfg f) p k).2 + p) point caseAdj))

theorem integerFits_or (m : Machine) (p : ℕ) :
    IntegerFits m p ∨ ∃ k ≠ 0, numeralLength 10 m.int = p + 1 + k := by
  by_cases few : IntegerFits m p
  · exact .inl few
  · rw [IntegerFits, Classical.not_imp] at few
    exact .inr ⟨numeralLength 10 m.int - (p + 1), by omega, by omega⟩

theorem npfEtoaRev_scientific_cases [cfg.RepExact] {f : RealBits cfg} (finite : IsFinite cfg f)
    {spec : NpfFormatSpec} (conversion : spec.convSpec = .floatSci)
    (compiled : cfg.floatSci = true) {p : ℕ} (precision : npfDecPrec cfg spec = p)
    (buf : ConvBuffer cfg) : Scientific cfg f p (0 < p ∨ alternate cfg spec) spec.caseAdjust
      (npfEtoaRev cfg buf spec f) := by
  by_cases fits : p + 8 ≤ cfg.cbuf
  · rcases integerFits_or (machineOf cfg f) p with few | ⟨k, nonzero, many⟩
    · exact .rounded fits few
        (npfEtoaRev_scientific_fits finite conversion compiled precision few fits buf)
    · exact .dropped fits k nonzero many
        (npfEtoaRev_scientific_drop finite conversion compiled precision nonzero many fits buf)
  · exact .err (npfEtoaRev_scientific_long finite conversion compiled precision (by omega) buf)

/-- Where digits of an integer go, the last place of `%e` is above the units. -/
theorem droppedRound_exponent {m : Machine} {tail : Bool} {p k : ℕ} (nonzero : k ≠ 0) :
    0 < (droppedRound m tail p k).2 := by
  have least := le_carried (p + 1)
    (m.int / 10 ^ k + if roundsUp m.int k (tail = false) then 1 else 0) (m.dec + k)
  rw [droppedRound]
  omega

theorem droppedRound_lt (m : Machine) (tail : Bool) (p k : ℕ) :
    (droppedRound m tail p k).1 < 10 ^ (p + 1) :=
  carried_lt (by omega) _ _

/-! ## Agreement -/

theorem pointed {p : ℕ} {alt : Bool} (plain : decide (0 < p ∨ alt = true) = false) : p = 0 := by
  have := of_decide_eq_false plain
  omega

/-- **`%e` and `%f` describe the same number**: at the precision that gives their last digits
the same place, which the exponent that `%e` prints determines, the texts denote the same
decimal number, unless one of them is an error. -/
theorem npfEtoaRev_scientific_denotes [cfg.RepExact] {f : RealBits cfg} (finite : IsFinite cfg f)
    {sci : NpfFormatSpec} (scientific : sci.convSpec = .floatSci) (compiled : cfg.floatSci = true)
    {p : ℕ} (precision : npfDecPrec cfg sci = p) (buf : ConvBuffer cfg)
    (number : ¬ LeavesWord (npfEtoaRev cfg buf sci f) (errWord sci.caseAdjust)) :
    ∃ s, Leaves (npfEtoaRev cfg buf sci f) s ∧
      ∀ {fix : NpfFormatSpec} {q : ℕ} (buf' : ConvBuffer cfg), fix.convSpec = .floatDec →
        npfDecPrec cfg fix = q → (q : ℤ) = p - printedExponent s →
        ¬ LeavesWord (npfEtoaRev cfg buf' fix f) (errWord fix.caseAdjust) →
        ∃ t, Leaves (npfEtoaRev cfg buf' fix f) t ∧ denotes s = denotes t := by
  have nonneg : 0 ≤ approximation cfg f := Machine.Valid.value_nonneg _
  rcases npfEtoaRev_scientific_cases finite scientific compiled precision buf with
    word | ⟨fits, few, leaves⟩ | ⟨fits, k, nonzero, many, leaves⟩
  · exact absurd word number
  · refine ⟨_, leaves, fun buf' fixed precision' place number' => ?_⟩
    have small := (sciRound_bounds p nonneg).1
    rw [printedExponent_sciText _ _ _ small] at place
    rcases npfEtoaRev_fixed finite fixed precision' buf' with ⟨-, leaves'⟩ | ⟨-, word⟩
    · refine ⟨_, leaves', ?_⟩
      rw [denotes_sciText _ _ small pointed, denotes_fixedText pointed,
        fixedRound_of_sciRound nonneg place, ← zpow_natCast, ← zpow_natCast, place,
        zpow_sub₀ (by norm_num)]
      field_simp
    · exact absurd word number'
  · -- no precision has the place of that last digit
    refine ⟨_, leaves, fun buf' _ _ place _ => ?_⟩
    have above := @droppedRound_exponent (machineOf cfg f) (integerTail cfg f) p k nonzero
    rw [printedExponent_sciText _ _ _ (droppedRound_lt _ _ p k)] at place
    omega

/-- `1.5e+00` and `1.5`. -/
theorem npfEtoaRev_scientific_denotes_half :
    Leaves (npfEtoaRev .standard .blank (.lower .floatSci 1) (pattern _ 0x3ff8000000000000))
        "1.5e+00".toList ∧
      Leaves (npfEtoaRev .standard .blank (.lower .floatDec 1) (pattern _ 0x3ff8000000000000))
        "1.5".toList ∧
      denotes "1.5e+00".toList = denotes "1.5".toList := by
  obtain ⟨s, leaves, agree⟩ := @npfEtoaRev_scientific_denotes .standard _
    (pattern _ 0x3ff8000000000000) (by decide) (.lower .floatSci 1) rfl rfl 1 rfl .blank (by decide)
  have text : Leaves (npfEtoaRev .standard .blank (.lower .floatSci 1)
      (pattern _ 0x3ff8000000000000)) "1.5e+00".toList := by decide
  obtain rfl := leaves.unique text
  obtain ⟨t, leaves', same⟩ := @agree (.lower .floatDec 1) 1 .blank rfl rfl (by decide) (by decide)
  have text' : Leaves (npfEtoaRev .standard .blank (.lower .floatDec 1)
      (pattern _ 0x3ff8000000000000)) "1.5".toList := by decide
  obtain rfl := leaves'.unique text'
  exact ⟨leaves, leaves', same⟩

end Nanoprintf
