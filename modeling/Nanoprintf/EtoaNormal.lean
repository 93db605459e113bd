import Nanoprintf.EtoaResult

/-!
# The normal form of scientific notation

Whatever the number a conversion works with, the text of `%e` has the shape that
C gives it: one digit in front of the point, as many behind it as the precision
says, and an exponent of at least two digits. The leading digit is zero for no
number but zero, whose exponent is zero.
-/

set_option autoImplicit false

namespace Nanoprintf

open Foundations

variable {cfg : Config}

/-! ## The grammar -/

/-- A decimal numeral of at least two digits, with no leading zero that it could do without. -/
structure ExponentDigits (ds : List Char) : Prop where
  digits : ∀ c ∈ ds, c.isDigit = true
  two : 2 ≤ ds.length
  minimal : 2 < ds.length → ds.head? ≠ some '0'

/-- `digit ['.' digits] ('e'|'E') sign exponent`, with `p` digits behind the point. -/
inductive NormalForm (p : ℕ) (point : Bool) : List Char → Prop
  | mk {lead letter sign : Char} {fraction exponent : List Char}
      (digit : lead.isDigit = true)
      (digits : ∀ c ∈ fraction, c.isDigit = true)
      (length : fraction.length = p)
      (letter_e : letter = 'e' ∨ letter = 'E')
      (plus_minus : sign = '+' ∨ sign = '-')
      (power : ExponentDigits exponent)
      (normal : lead ≠ '0' ∨
        (∀ c ∈ lead :: fraction, c = '0') ∧ sign = '+' ∧ exponent = ['0', '0']) :
      NormalForm p point (lead :: pointText point ++ fraction ++ letter :: sign :: exponent)

/-! ## The texts -/

/-- The digits of a printed exponent. -/
def exponentDigits (x : ℤ) : List Char :=
  (if x.natAbs < 10 then ['0'] else []) ++ (numeralText 10 0 x.natAbs).reverse

theorem exponentText_eq (caseAdj : ℕ) (x : ℤ) :
    exponentText caseAdj x = Char.ofNat ('E'.toNat + caseAdj) :: (if x < 0 then '-' else '+') ::
      exponentDigits x := by
  rw [exponentText, exponentDigits, List.append_assoc]
  rfl

theorem exponentDigits_spec (x : ℤ) : ExponentDigits (exponentDigits x) := by
  rw [exponentDigits]
  by_cases one : x.natAbs < 10
  · have length : (numeralText 10 0 x.natAbs).length = 1 := by
      rw [length_numeralText, numeralLength, numeral_of_lt one, List.length_singleton]
    rw [if_pos one]
    refine ⟨fun c member => ?_, ?_, fun long => ?_⟩
    · rcases List.mem_cons.mp member with rfl | later
      · rfl
      · exact isDigit_numeralText later
    · rw [List.length_append, List.length_reverse, length, List.length_singleton]
    · rw [List.length_append, List.length_reverse, length, List.length_singleton] at long
      omega
  · have two : ¬ numeralLength 10 x.natAbs < 2 := numeralLength_lt_two.not.mpr one
    rw [if_neg one, List.nil_append]
    refine ⟨fun c => isDigit_numeralText, ?_,
      fun _ => head?_numeralText (by norm_num) le_rfl (by omega) 0⟩
    rw [List.length_reverse, length_numeralText]
    omega

/-- A number of `p + 1` digits, or a zero with the exponent zero, is printed in normal form. -/
theorem normalForm_sciText {n p caseAdj : ℕ} {x : ℤ} (point : Bool) (below : n < 10 ^ (p + 1))
    (lead : 10 ^ p ≤ n ∨ n = 0 ∧ x = 0) (letterCase : caseAdj = 0 ∨ caseAdj = 32) :
    NormalForm p point (sciText n p x point caseAdj) := by
  have digit : n / 10 ^ p < 10 := by
    rw [Nat.div_lt_iff_lt_mul (by positivity), ← pow_succ']
    exact below
  rw [sciText, exponentText_eq]
  refine .mk (isDigit_digitChar digit) (fun c => isDigit_fraction) ?_ ?_ ?_
    (exponentDigits_spec x) ?_
  · rw [List.length_reverse, length_digitText]
  · rcases letterCase with rfl | rfl
    · exact .inr rfl
    · exact .inl rfl
  · rcases lt_or_ge x 0 with negative | nonneg
    · exact .inr (if_pos negative)
    · exact .inl (if_neg (by omega))
  · rcases lead with normal | ⟨rfl, rfl⟩
    · refine .inl fun zero => ?_
      have nonzero := Nat.div_pos normal (show 0 < 10 ^ p by positivity)
      exact nonzero.ne' (digitChar_inj digit (by norm_num) zero)
    · refine .inr ⟨fun c member => ?_, rfl, rfl⟩
      rcases List.mem_cons.mp member with rfl | later
      · rw [Nat.zero_div, digitChar_zero]
      · rw [digitText, lowDigits_of_zero, List.map_replicate, List.reverse_replicate] at later
        exact List.eq_of_mem_replicate later

/-! ## The numbers -/

theorem le_carried_fst {n U : ℕ} (large : 10 ^ (n - 1) ≤ U) (dec : ℤ) :
    10 ^ (n - 1) ≤ (carried n U dec).1 := by
  unfold carried
  split_ifs
  · exact large
  · exact le_rfl

/-- The digits that are left of an integer are all there. -/
theorem le_droppedRound {m : Machine} {p k : ℕ} (many : numeralLength 10 m.int = p + 1 + k)
    (nonzero : k ≠ 0) (tail : Bool) : 10 ^ p ≤ (droppedRound m tail p k).1 := by
  rw [droppedRound]
  refine le_carried_fst (n := p + 1) (Nat.le_add_right_of_le ?_) _
  rw [Nat.add_sub_cancel, Nat.le_div_iff_mul_le (by positivity), ← pow_add]
  by_contra less
  have short := numeralLength_le (n := p + k) (by norm_num : 1 < 10) (by omega)
    (not_le.mp less)
  omega

/-- The text of `%e` is in normal form. -/
theorem normalForm_scientificText {m : Machine} (v : ℚ) (nonneg : 0 ≤ v) (tail : Bool) (p : ℕ)
    (point : Bool) {caseAdj : ℕ} (letterCase : caseAdj = 0 ∨ caseAdj = 32) :
    NormalForm p point (scientificText m v tail p point caseAdj) := by
  rw [scientificText]
  split_ifs with drops
  · exact normalForm_sciText point (droppedRound_lt _ _ _ _)
      (.inl (le_droppedRound (by omega) (by omega) _)) letterCase
  · obtain ⟨below, normal⟩ := sciRound_bounds p nonneg
    refine normalForm_sciText point below ?_ letterCase
    by_cases zero : v = 0
    · rw [sciRound, if_pos zero]
      exact .inr ⟨rfl, rfl⟩
    · exact .inl (normal zero)

/-! ## The conversion -/

/-- **`%e` leaves a text in normal form** for every finite value, unless it is an error. -/
theorem npfEtoaRev_scientific_normal [cfg.RepExact] {f : RealBits cfg} (finite : IsFinite cfg f)
    {spec : NpfFormatSpec} (conversion : spec.convSpec = .floatSci)
    (compiled : cfg.floatSci = true) (letterCase : spec.caseAdjust = 0 ∨ spec.caseAdjust = 32)
    {p : ℕ} (precision : npfDecPrec cfg spec = p) (buf : ConvBuffer cfg)
    (number : ¬ LeavesWord (npfEtoaRev cfg buf spec f) (errWord spec.caseAdjust)) :
    ∃ t, Leaves (npfEtoaRev cfg buf spec f) t ∧
      NormalForm p (0 < p ∨ alternate cfg spec) t := by
  by_cases fits : p + 8 ≤ cfg.cbuf
  · exact ⟨_, npfEtoaRev_scientific_text finite conversion compiled precision fits buf,
      normalForm_scientificText _ (Machine.Valid.value_nonneg _) _ p _ letterCase⟩
  · exact absurd (npfEtoaRev_scientific_long finite conversion compiled precision (by omega) buf)
      number

/-- The least subnormal. -/
theorem npfEtoaRev_scientific_normal_least : ∃ t,
    Leaves (npfEtoaRev .standard .blank (.lower .floatSci 2) (pattern _ 1)) t ∧
      NormalForm 2 true t :=
  npfEtoaRev_scientific_normal (by decide) rfl rfl (.inr rfl) rfl .blank (by decide)

end Nanoprintf
