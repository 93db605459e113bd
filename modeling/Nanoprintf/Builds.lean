import Nanoprintf.EtoaSpec

/-!
# Builds that compute alike

Most flags of a build say nothing about how its float conversions compute. Two
builds with the same real type and the same intermediate type read the same
fields from a pattern and take the same steps, whatever else tells them apart:
`SameReal` is that relation, and the lemmas carry what the conversions work with
from one build to the other.
-/

set_option autoImplicit false

namespace Nanoprintf

open Foundations

variable {cfg cfg' : Config}

/-! ## Results -/

/-- Two conversions return the same length and leave the same characters. -/
def SameResult (run : Run (ℤ × ConvBuffer cfg)) (run' : Run (ℤ × ConvBuffer cfg')) : Prop :=
  ∃ n b b', run = .ok (n, b) ∧ run' = .ok (n, b') ∧ ∀ i < n.natAbs, b.cell i = b'.cell i

theorem holds_cells {b : ConvBuffer cfg} {b' : ConvBuffer cfg'} {text : List Char}
    (holds : b.Holds 0 text) (holds' : b'.Holds 0 text) {i : ℕ} (inside : i < text.length) :
    b.cell i = b'.cell i := by
  have first := (Buffer.holds_iff b 0 text).mp holds i inside
  have second := (Buffer.holds_iff b' 0 text).mp holds' i inside
  rw [Nat.zero_add] at first second
  rw [first, second]

section

variable {run : Run (ℤ × ConvBuffer cfg)} {run' : Run (ℤ × ConvBuffer cfg')} {text : List Char}

theorem Leaves.same (leaves : Leaves run text) (leaves' : Leaves run' text) :
    SameResult run run' := by
  obtain ⟨b, rfl, holds⟩ := leaves
  obtain ⟨b', rfl, holds'⟩ := leaves'
  exact ⟨_, b, b', rfl, rfl, fun i inside => holds_cells holds holds' (by simpa using inside)⟩

theorem LeavesWord.same (leaves : LeavesWord run text) (leaves' : LeavesWord run' text) :
    SameResult run run' := by
  obtain ⟨b, rfl, holds⟩ := leaves
  obtain ⟨b', rfl, holds'⟩ := leaves'
  exact ⟨_, b, b', rfl, rfl, fun i inside => holds_cells holds holds' (by simpa using inside)⟩

theorem SameResult.leaves (agree : SameResult run run') (leaves : Leaves run text) :
    Leaves run' text := by
  obtain ⟨n, b, b', rfl, rfl, cells⟩ := agree
  obtain ⟨c, same, holds⟩ := leaves
  obtain ⟨rfl, rfl⟩ := Prod.mk.inj (Except.ok.inj same)
  refine ⟨b', rfl, (Buffer.holds_iff b' 0 _).mpr fun k inside => ?_⟩
  rw [Nat.zero_add, ← cells k (by simpa using inside)]
  simpa using (Buffer.holds_iff b 0 _).mp holds k inside

theorem SameResult.text_eq (agree : SameResult run run') {text' : List Char}
    (leaves : Leaves run text) (leaves' : Leaves run' text') : text = text' :=
  (agree.leaves leaves).unique leaves'

/-- A text is not a word. -/
theorem Leaves.not_word (leaves : Leaves run text) {word : List Char} (nonempty : word ≠ []) :
    ¬ LeavesWord run word := by
  obtain ⟨b, rfl, -⟩ := leaves
  rintro ⟨c, same, -⟩
  have lengths := congrArg Prod.fst (Except.ok.inj same)
  have positive := List.length_pos_of_ne_nil nonempty
  simp only at lengths
  omega

end

/-- The word of a value that is no number. -/
theorem npfFtoaSpecial_word (buf : ConvBuffer cfg) (caseAdj : ℕ) (nan : Prop) [Decidable nan] :
    LeavesWord (npfFtoaSpecial buf caseAdj (if nan then npfFtoaNan else npfFtoaInf))
      (inCase caseAdj (if nan then ['N', 'A', 'N'] else ['I', 'N', 'F'])) := by
  have room := cfg.cbuf_ge
  split_ifs
  · exact @npfFtoaSpecial_eq cfg caseAdj npfFtoaNan ['N', 'A', 'N'] _ buf rfl (by simp)
      (by decide) (by simp only [List.length_cons, List.length_nil]; omega)
  · exact @npfFtoaSpecial_eq cfg caseAdj npfFtoaInf ['I', 'N', 'F'] _ buf rfl (by simp)
      (by decide) (by simp only [List.length_cons, List.length_nil]; omega)

/-- Where two builds leave a conversion for the same word they leave the same. -/
theorem npfFtoaSpecial_same (caseAdj : ℕ) (buf : ConvBuffer cfg) (buf' : ConvBuffer cfg')
    (nan : Prop) [Decidable nan] :
    SameResult (npfFtoaSpecial buf caseAdj (if nan then npfFtoaNan else npfFtoaInf))
      (npfFtoaSpecial buf' caseAdj (if nan then npfFtoaNan else npfFtoaInf)) :=
  (npfFtoaSpecial_word buf caseAdj nan).same (npfFtoaSpecial_word buf' caseAdj nan)

/-! ## Intermediates -/

section

variable (man : cfg.manBits = cfg'.manBits)
include man

theorem unit_of_manBits : cfg.unit = cfg'.unit := by
  rw [Config.unit, Config.unit, man]

theorem fiveLimit_of_manBits : cfg.fiveLimit = cfg'.fiveLimit := by
  rw [Config.fiveLimit, Config.fiveLimit, man]

theorem Machine.value_of_manBits (m : Machine) : m.value cfg = m.value cfg' := by
  have fraction : ∀ f : Fraction, f.value cfg = f.value cfg' := fun f => by
    rw [Fraction.value, Fraction.value, Fraction.settled, Fraction.settled, Fraction.zeros,
      Fraction.zeros, fiveLimit_of_manBits man, unit_of_manBits man]
  rw [Machine.value, Machine.value]
  cases m.frac with
  | none => rfl
  | some f => exact congrArg (_ + ·) (fraction f)

end

/-! ## Builds -/

/-- The builds agree on the real type and the intermediate type. -/
structure SameReal (cfg cfg' : Config) : Prop where
  single : cfg.singlePrecision = cfg'.singlePrecision
  bin : cfg.binBits = cfg'.binBits
  man : cfg.manBits = cfg'.manBits

namespace SameReal

variable (same : SameReal cfg cfg')
include same

/-! ## Constants -/

theorem realManBits_eq : cfg.realManBits = cfg'.realManBits := by
  rw [Config.realManBits, Config.realManBits, Config.realMantDig, Config.realMantDig, same.single]

theorem realExpBias_eq : cfg.realExpBias = cfg'.realExpBias := by
  rw [Config.realExpBias, Config.realExpBias, Config.realMaxExp, Config.realMaxExp, same.single]

theorem expBits_eq : cfg.expBits = cfg'.expBits := by
  rw [Config.expBits, Config.expBits, same.single]

theorem shiftBits_eq : cfg.shiftBits = cfg'.shiftBits := by
  rw [Config.shiftBits, Config.shiftBits, Config.realMantDig, Config.realMantDig, same.single,
    same.man]

theorem unit_eq : cfg.unit = cfg'.unit := unit_of_manBits same.man

theorem fits_iff {man carry : ℕ} : Fits cfg man carry ↔ Fits cfg' man carry := by
  rw [Fits, Fits, same.unit_eq]

/-! ## The pattern -/

theorem biasedExp_eq (rep : ℕ) : biasedExp cfg rep = biasedExp cfg' rep := by
  rw [biasedExp, biasedExp, same.realManBits_eq, same.expBits_eq]

theorem fracField_eq (rep : ℕ) : fracField cfg rep = fracField cfg' rep := by
  rw [fracField, fracField, same.realManBits_eq]

theorem normalize_eq (exp man : ℕ) : normalize cfg exp man = normalize cfg' exp man := by
  rw [normalize, normalize, same.realManBits_eq, same.realExpBias_eq]

theorem normalized_iff {bin : ℕ} {exp : ℤ} :
    Normalized cfg bin exp ↔ Normalized cfg' bin exp := by
  constructor
  · rintro ⟨small, lower, upper, normal⟩
    rw [same.realManBits_eq, same.realExpBias_eq] at *
    exact ⟨small, lower, upper, normal⟩
  · rintro ⟨small, lower, upper, normal⟩
    rw [← same.realManBits_eq, ← same.realExpBias_eq] at *
    exact ⟨small, lower, upper, normal⟩

variable {f : RealBits cfg} {f' : RealBits cfg'} (bits : f.toNat = f'.toNat)
include bits

theorem isFinite_iff : IsFinite cfg f ↔ IsFinite cfg' f' := by
  rw [IsFinite, IsFinite, bits, same.biasedExp_eq, same.expBits_eq]

omit bits

/-! ## The scaling -/

theorem etoaIntScale_eq (expI dec : ℕ) {man carry : ℕ} (fits : Fits cfg man carry) :
    etoaIntScale cfg expI dec man carry = etoaIntScale cfg' expI dec man carry := by
  induction expI generalizing dec man carry with
  | zero => rfl
  | succ expI ih =>
      have fits' := same.fits_iff.mp fits
      have unit := same.unit_eq
      obtain ⟨small, bit⟩ := fits
      by_cases full : 8 * cfg.unit ≤ man
      · rw [etoaIntScale_fifth expI dec full ⟨small, bit⟩,
          etoaIntScale_fifth expI dec (unit ▸ full) fits']
        exact ih (dec + 1) ⟨by omega, by omega⟩
      · rw [etoaIntScale_double expI dec (by omega) bit,
          etoaIntScale_double expI dec (by omega) bit]
        exact ih dec ⟨by omega, by omega⟩

theorem fractionAt_eq (bin : ℕ) (exp : ℤ) : fractionAt cfg bin exp = fractionAt cfg' bin exp := by
  have fracBits : fracBits cfg bin exp = fracBits cfg' bin exp := by
    rw [Nanoprintf.fracBits, Nanoprintf.fracBits, same.realManBits_eq, same.bin]
  rw [fractionAt, fractionAt, fracMan, fracMan, fracBits, same.man, same.bin]

theorem scaledInt_eq {bin : ℕ} (exp : ℤ) (small : bin < 2 ^ (cfg.realManBits + 1)) :
    scaledInt cfg bin exp = scaledInt cfg' bin exp := by
  obtain ⟨real, wide, -⟩ := cfg.shiftBits_spec
  have fits : bin / 2 ^ (cfg.realManBits - cfg.shiftBits) < 16 * cfg.unit := by
    rw [← cfg.two_pow_manBits, Nat.div_lt_iff_lt_mul (by positivity), ← pow_add]
    exact small.trans_le (Nat.pow_le_pow_right two_pos (by omega))
  rw [scaledInt, same.etoaIntScale_eq _ _ ⟨fits, by split_ifs <;> omega⟩, scaledInt,
    same.shiftBits_eq, same.realManBits_eq]

/-- What the conversions work with is the same. -/
theorem machine_eq {bin : ℕ} {exp : ℤ} (norm : Normalized cfg bin exp) :
    machine cfg bin exp = machine cfg' bin exp := by
  have norm' := same.normalized_iff.mp norm
  rcases lt_or_ge exp 0 with negative | nonneg
  · rw [machine_of_neg norm.small negative, machine_of_neg norm'.small negative, same.fractionAt_eq]
  · by_cases covered : exp ≤ cfg.shiftBits
    · rw [machine_of_le norm.small nonneg covered,
        machine_of_le norm'.small nonneg (same.shiftBits_eq ▸ covered), same.fractionAt_eq,
        same.realManBits_eq]
    · rw [machine_of_gt norm.small (by omega),
        machine_of_gt norm'.small (by rw [← same.shiftBits_eq]; omega),
        same.scaledInt_eq exp norm.small]

include bits

theorem machineOf_eq (finite : IsFinite cfg f) : machineOf cfg f = machineOf cfg' f' := by
  obtain ⟨bin, exp, reads⟩ := exists_reads finite
  have normalized := reads.normalized
  rw [bits, same.biasedExp_eq, same.fracField_eq, same.normalize_eq] at normalized
  rw [reads.machineOf_eq, machineOf, normalized, same.machine_eq reads.norm]

omit bits

theorem value_eq (m : Machine) : m.value cfg = m.value cfg' := m.value_of_manBits same.man

include bits

theorem approximation_eq (finite : IsFinite cfg f) :
    approximation cfg f = approximation cfg' f' := by
  rw [approximation, approximation, same.machineOf_eq bits finite, same.value_eq]

theorem integerTail_eq (finite : IsFinite cfg f) : integerTail cfg f = integerTail cfg' f' := by
  obtain ⟨bin, exp, reads⟩ := exists_reads finite
  have normalized := reads.normalized
  rw [bits, same.biasedExp_eq, same.fracField_eq, same.normalize_eq] at normalized
  rw [reads.integerTail_eq, integerTail, normalized, intTail, intTail, same.machine_eq reads.norm,
    same.shiftBits_eq, same.man]

end SameReal

end Nanoprintf
