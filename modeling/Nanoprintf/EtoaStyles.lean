import Nanoprintf.EtoaResult

/-!
# One number in every style

The styles of a number differ in their layout, not in the number: `%g` removes zeros and
chooses between two layouts, and denotes what `%e` with as many digits denotes. Nor does
the conversion buffer matter: for `%e` and `%g` its size only says how many digits may
be asked for, so that `%g` is an error exactly where `%e` is.
-/

set_option autoImplicit false

namespace Nanoprintf

open Foundations

variable {cfg : Config}

/-! ## Zeros -/

/-- Every number of digits splits into the zeros at its end and the rest. -/
theorem exists_zeros (q T : ℕ) :
    ∃ k q' U, q = k + q' ∧ T = U * 10 ^ k ∧ (q' = 0 ∨ U % 10 ≠ 0) := by
  induction q generalizing T with
  | zero => exact ⟨0, 0, T, rfl, by rw [pow_zero, mul_one], .inl rfl⟩
  | succ q ih =>
      by_cases zero : T % 10 = 0
      · obtain ⟨k, q', U, rfl, value, last⟩ := ih (T / 10)
        refine ⟨k + 1, q', U, by omega, ?_, last⟩
        rw [pow_succ, ← mul_assoc, ← value]
        omega
      · exact ⟨0, q + 1, T, by omega, by rw [pow_zero, mul_one], .inr zero⟩

/-- A shorter fixed text denotes the same number. -/
theorem denotes_shorten_fixed (T q : ℕ) (alt : Bool) :
    denotes (shorten alt (fixedText T q (0 < q ∨ alt))) = T / 10 ^ q := by
  cases alt with
  | true => exact denotes_fixedText pointed
  | false =>
      obtain ⟨k, q', U, rfl, rfl, last⟩ := exists_zeros q T
      simp only [shorten, Bool.false_eq_true, ↓reduceIte, or_false]
      rw [stripZeros_fixedText last, denotes_fixedText (by simp), pow_add]
      push_cast
      field_simp

/-- A shorter scientific text denotes the same number. -/
theorem denotes_shorten_sci {n p : ℕ} (x : ℤ) (alt : Bool) (caseAdj : ℕ)
    (small : n < 10 ^ (p + 1)) :
    denotes (shorten alt (sciText n p x (0 < p ∨ alt) caseAdj)) = n / 10 ^ p * 10 ^ x := by
  cases alt with
  | true => exact denotes_sciText x caseAdj small pointed
  | false =>
      obtain ⟨k, q, V, rfl, rfl, last⟩ := exists_zeros p n
      have short : V < 10 ^ (q + 1) := by
        rw [Nat.add_assoc, pow_add, mul_comm] at small
        exact Nat.lt_of_mul_lt_mul_left small
      simp only [shorten, Bool.false_eq_true, ↓reduceIte, or_false]
      rw [stripZeros_sciText x caseAdj short last, denotes_sciText x caseAdj short (by simp),
        pow_add]
      push_cast
      field_simp

/-! ## The number of a text -/

section

variable (m : Machine) {v : ℚ} (tail : Bool) (p : ℕ) (caseAdj : ℕ)

/-- The number that `%e` prints. -/
def scientificNumber (m : Machine) (v : ℚ) (tail : Bool) (p : ℕ) : ℚ :=
  if m.int ≠ 0 ∧ p + 1 < numeralLength 10 m.int then
    (droppedRound m tail p (numeralLength 10 m.int - (p + 1))).1 / 10 ^ p *
      10 ^ ((droppedRound m tail p (numeralLength 10 m.int - (p + 1))).2 + p)
  else (sciRound p v).1 / 10 ^ p * 10 ^ (sciRound p v).2

theorem denotes_shorten_scientific (nonneg : 0 ≤ v) (alt : Bool) :
    denotes (shorten alt (scientificText m v tail p (0 < p ∨ alt) caseAdj)) =
      scientificNumber m v tail p := by
  rw [scientificText, scientificNumber]
  split_ifs with many
  · exact denotes_shorten_sci _ alt caseAdj (droppedRound_lt _ _ _ _)
  · exact denotes_shorten_sci _ alt caseAdj (sciRound_bounds p nonneg).1

theorem denotes_scientificText (nonneg : 0 ≤ v) (alt : Bool) :
    denotes (scientificText m v tail p (0 < p ∨ alt) caseAdj) = scientificNumber m v tail p := by
  rw [scientificText, scientificNumber]
  split_ifs with many
  · exact denotes_sciText _ caseAdj (droppedRound_lt _ _ _ _) pointed
  · exact denotes_sciText _ caseAdj (sciRound_bounds p nonneg).1 pointed

/-- The style of `%g` is chosen by the exponent, and either gives the number of `%e`. -/
theorem denotes_shortestText (nonneg : 0 ≤ v) (alt : Bool) :
    denotes (shortestText m v tail p alt caseAdj) = scientificNumber m v tail p := by
  rw [shortestText]
  split_ifs with style
  · obtain ⟨few, -, most⟩ := style
    obtain ⟨q, place⟩ : ∃ q : ℕ, (q : ℤ) = p - (sciRound p v).2 :=
      ⟨(p - (sciRound p v).2).toNat, by omega⟩
    rw [← place, Int.toNat_natCast, denotes_shorten_fixed, fixedRound_of_sciRound nonneg place,
      scientificNumber, if_neg few, ← zpow_natCast, ← zpow_natCast, place, zpow_sub₀ (by norm_num)]
    field_simp
  · exact denotes_shorten_scientific m tail p caseAdj nonneg alt

end

/-! ## Room -/

/-- In its fixed style a number is a few characters longer than its digits at most. -/
theorem length_shortestText {m : Machine} (valid : m.Valid cfg) (tail : Bool) (p : ℕ) (alt : Bool)
    (caseAdj : ℕ) : (shortestText m (m.value cfg) tail p alt caseAdj).length ≤ p + 7 := by
  rw [shortestText]
  split_ifs with style
  · refine (length_shorten _ _).trans ?_
    obtain ⟨-, least, most⟩ := style
    have nonneg : 0 ≤ m.value cfg := Machine.Valid.value_nonneg m
    have small := (sciRound_bounds p nonneg).1
    obtain ⟨q, place⟩ : ∃ q : ℕ, (q : ℤ) = p - (sciRound p (m.value cfg)).2 :=
      ⟨(p - (sciRound p (m.value cfg)).2).toNat, by omega⟩
    rw [← place, Int.toNat_natCast, fixedRound_of_sciRound nonneg place, length_fixedText]
    have mark : (if decide (0 < q ∨ alt = true) = true then 1 else 0) ≤ 1 := by
      split_ifs <;> omega
    have integer : numeralLength 10 ((sciRound p (m.value cfg)).1 / 10 ^ q) ≤ p + 1 - q + 1 := by
      refine numeralLength_le (by norm_num) (by omega) ?_
      rw [Nat.div_lt_iff_lt_mul (by positivity), ← pow_add]
      exact small.trans_le (Nat.pow_le_pow_right (by norm_num) (by omega))
    omega
  · exact (length_shorten _ _).trans (length_scientificText valid _ _ _ _)

/-- The conversions that ask for a number of digits, `p` after the first. -/
inductive Counts (cfg : Config) (spec : NpfFormatSpec) (p : ℕ) : Prop
  | scientific (conversion : spec.convSpec = .floatSci) (compiled : cfg.floatSci = true)
    (precision : npfDecPrec cfg spec = p)
  | shortest (conversion : spec.convSpec = .floatShortest) (compiled : cfg.floatShortest = true)
    {P : ℕ} (precision : npfDecPrec cfg spec = P) (digits : p + 1 = max P 1)

/-- The text of a number of digits. -/
def countedText (cfg : Config) (f : RealBits cfg) (conv : ConvSpec) (p : ℕ) (alt : Bool)
    (caseAdj : ℕ) : List Char :=
  if conv = .floatSci then
    scientificText (machineOf cfg f) (approximation cfg f) (integerTail cfg f) p (0 < p ∨ alt)
      caseAdj
  else shortestText (machineOf cfg f) (approximation cfg f) (integerTail cfg f) p alt caseAdj

theorem denotes_countedText (f : RealBits cfg) (conv : ConvSpec) (p : ℕ) (alt : Bool)
    (caseAdj : ℕ) : denotes (countedText cfg f conv p alt caseAdj) =
      scientificNumber (machineOf cfg f) (approximation cfg f) (integerTail cfg f) p := by
  have nonneg : 0 ≤ approximation cfg f := Machine.Valid.value_nonneg _
  rw [countedText]
  split_ifs
  · exact denotes_scientificText _ _ p caseAdj nonneg alt
  · exact denotes_shortestText _ _ p caseAdj nonneg alt

/-- There is room for a number of digits, or the conversion says that there is none. -/
theorem Counts.leaves [cfg.RepExact] {f : RealBits cfg} (finite : IsFinite cfg f)
    {spec : NpfFormatSpec} {p : ℕ} (counts : Counts cfg spec p) (buf : ConvBuffer cfg) :
    (p + 8 ≤ cfg.cbuf → Leaves (npfEtoaRev cfg buf spec f)
      (countedText cfg f spec.convSpec p (alternate cfg spec) spec.caseAdjust)) ∧
    (cfg.cbuf < p + 8 → LeavesWord (npfEtoaRev cfg buf spec f) (errWord spec.caseAdjust)) := by
  rcases counts with ⟨conversion, compiled, precision⟩ | ⟨conversion, compiled, precision, digits⟩
  · refine ⟨fun fits => ?_, fun long =>
      npfEtoaRev_scientific_long finite conversion compiled precision long buf⟩
    rw [countedText, if_pos conversion]
    exact npfEtoaRev_scientific_text finite conversion compiled precision fits buf
  · refine ⟨fun fits => ?_, fun long =>
      npfEtoaRev_shortest_long finite conversion compiled precision digits long buf⟩
    rw [countedText, conversion, if_neg (by decide)]
    rcases npfEtoaRev_shortest_text finite conversion compiled precision digits fits buf with
      ⟨-, leaves⟩ | ⟨long, -⟩
    · exact leaves
    · have room := length_shortestText (machineOf_valid finite) (integerTail cfg f) p
        (alternate cfg spec) spec.caseAdjust
      rw [approximation] at long
      omega

/-! ## Agreement -/

/-- **`%e` and `%g` agree**: asked for as many digits, with whatever other flags, they print texts
of one number, or both have no room for the digits. -/
theorem npfEtoaRev_digits_agree [cfg.RepExact] {f : RealBits cfg} (finite : IsFinite cfg f)
    {spec spec' : NpfFormatSpec} {p : ℕ} (counts : Counts cfg spec p)
    (counts' : Counts cfg spec' p) (buf buf' : ConvBuffer cfg) :
    (∃ s t, Leaves (npfEtoaRev cfg buf spec f) s ∧ Leaves (npfEtoaRev cfg buf' spec' f) t ∧
      denotes s = denotes t) ∨
    LeavesWord (npfEtoaRev cfg buf spec f) (errWord spec.caseAdjust) ∧
      LeavesWord (npfEtoaRev cfg buf' spec' f) (errWord spec'.caseAdjust) := by
  obtain ⟨text, word⟩ := counts.leaves finite buf
  obtain ⟨text', word'⟩ := counts'.leaves finite buf'
  rcases le_or_gt (p + 8) cfg.cbuf with fits | long
  · exact .inl ⟨_, _, text fits, text' fits, by rw [denotes_countedText, denotes_countedText]⟩
  · exact .inr ⟨word long, word' long⟩

/-- `100` and `1.00e+02`. -/
theorem npfEtoaRev_digits_agree_hundred :
    Leaves (npfEtoaRev .standard .blank (.lower .floatShortest 3) (pattern _ 0x4059000000000000))
      "100".toList ∧
    Leaves (npfEtoaRev .standard .blank (.lower .floatSci 2) (pattern _ 0x4059000000000000))
      "1.00e+02".toList ∧
    denotes "100".toList = denotes "1.00e+02".toList := by
  have text : Leaves (npfEtoaRev .standard .blank (.lower .floatShortest 3)
      (pattern _ 0x4059000000000000)) "100".toList := by decide
  have text' : Leaves (npfEtoaRev .standard .blank (.lower .floatSci 2)
      (pattern _ 0x4059000000000000)) "1.00e+02".toList := by decide
  rcases @npfEtoaRev_digits_agree .standard _ (pattern _ 0x4059000000000000) (by decide)
    (.lower .floatShortest 3) (.lower .floatSci 2) 2 (.shortest rfl rfl rfl rfl)
    (.scientific rfl rfl rfl) .blank .blank with ⟨s, t, leaves, leaves', same⟩ | ⟨word, -⟩
  · obtain rfl := leaves.unique text
    obtain rfl := leaves'.unique text'
    exact ⟨leaves, leaves', same⟩
  · exact absurd word (text.not_word (by decide))

/-- **The size of the buffer only decides how many digits there are**: `%e` and `%g` have one text
for all sizes with room for the digits that are asked for, and for the others it is an error. -/
theorem npfEtoaRev_digits_resized [cfg.RepExact] {f : RealBits cfg} (finite : IsFinite cfg f)
    {spec : NpfFormatSpec} {p : ℕ} (counts : Counts cfg spec p) :
    ∃ t, ∀ {n : ℕ} (lower : 23 ≤ n) (upper : (n : ℤ) ≤ cfg.intMax)
      (buf : ConvBuffer (cfg.resized n lower upper)),
      (p + 8 ≤ n → Leaves (npfEtoaRev (cfg.resized n lower upper) buf spec f) t) ∧
      (n < p + 8 → LeavesWord (npfEtoaRev (cfg.resized n lower upper) buf spec f)
        (errWord spec.caseAdjust)) := by
  refine ⟨countedText cfg f spec.convSpec p (alternate cfg spec) spec.caseAdjust, ?_⟩
  intro n lower upper buf
  have same := cfg.resized_same lower upper
  have finite' : IsFinite (cfg.resized n lower upper) f := finite
  have counts' : Counts (cfg.resized n lower upper) spec p := by
    rcases counts with ⟨conversion, compiled, precision⟩ | ⟨conversion, compiled, precision, digits⟩
    · exact .scientific conversion compiled precision
    · exact .shortest conversion compiled precision digits
  obtain ⟨text, word⟩ := counts'.leaves finite' buf
  refine ⟨fun fits => ?_, word⟩
  have leaves := text fits
  simp only [countedText, same.machineOf_eq rfl finite', same.approximation_eq rfl finite',
    same.integerTail_eq rfl finite'] at leaves
  exact leaves

/-- `%.2e` of `1.5` in the least buffer, from its text in the default one. -/
theorem npfEtoaRev_digits_resized_half :
    Leaves (npfEtoaRev (Config.standard.resized 23 (by decide) (by decide)) .blank
      (.lower .floatSci 2) (pattern .standard 0x3ff8000000000000)) "1.50e+00".toList := by
  obtain ⟨t, sizes⟩ := @npfEtoaRev_digits_resized .standard _
    (pattern .standard 0x3ff8000000000000) (by decide) (.lower .floatSci 2) 2
    (.scientific rfl rfl rfl)
  have text : Leaves (npfEtoaRev (Config.standard.resized 64 (by decide) (by decide)) .blank
      (.lower .floatSci 2) (pattern .standard 0x3ff8000000000000)) "1.50e+00".toList := by decide
  obtain rfl := ((@sizes 64 (by decide) (by decide) .blank).1 (by decide)).unique text
  exact (@sizes 23 (by decide) (by decide) .blank).1 (by decide)

end Nanoprintf
