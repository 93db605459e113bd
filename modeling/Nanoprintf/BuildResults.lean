import Nanoprintf.EtoaResult
import Nanoprintf.FtoaAgreement

/-!
# Builds that print alike

Two builds that compute alike leave the same results, from conversion buffers of
the same size: what a conversion leaves is determined by what the builds share.
The division-free build is the case in which only the way of dividing and
shifting differs.
-/

set_option autoImplicit false

namespace Nanoprintf

open Foundations

variable {cfg cfg' : Config}

/-! ## The conversion by digits and exponent -/

theorem LeavesText.same {run : Run (ℤ × ConvBuffer cfg)} {run' : Run (ℤ × ConvBuffer cfg')}
    {caseAdj : ℕ} {text : Option (List Char)} (room : cfg.cbuf = cfg'.cbuf)
    (leaves : LeavesText run caseAdj text) (leaves' : LeavesText run' caseAdj text) :
    SameResult run run' := by
  match text with
  | none => exact LeavesWord.same leaves leaves'
  | some t =>
      rcases leaves with ⟨fits, text⟩ | ⟨long, word⟩
      · rcases leaves' with ⟨-, text'⟩ | ⟨long, -⟩
        · exact text.same text'
        · omega
      · rcases leaves' with ⟨fits, -⟩ | ⟨-, word'⟩
        · omega
        · exact word.same word'

section

variable (same : SameReal cfg cfg') (room : cfg.cbuf = cfg'.cbuf) {f g : RealBits cfg}
  {f' g' : RealBits cfg'} (bits : g.toNat = g'.toNat)
include same room bits

theorem etoaText_eq (finite : IsFinite cfg g) (conv : ConvSpec) (P : ℕ) (alt : Bool) (caseAdj : ℕ) :
    etoaText cfg g conv P alt caseAdj = etoaText cfg' g' conv P alt caseAdj := by
  cases conv <;> simp only [etoaText, same.machineOf_eq bits finite,
    same.approximation_eq bits finite, same.integerTail_eq bits finite, room]

/-- **Builds that compute alike leave the same result of the conversion by digits and exponent.** -/
theorem npfEtoaRev_same [ReadAs cfg f g] [ReadAs cfg' f' g'] {spec spec' : NpfFormatSpec}
    (conversion : spec.convSpec = spec'.convSpec) (letters : spec.caseAdjust = spec'.caseAdjust)
    (compiled : Decimal cfg spec.convSpec) (compiled' : Decimal cfg' spec'.convSpec) {P : ℕ}
    (precision : npfDecPrec cfg spec = P) (precision' : npfDecPrec cfg' spec' = P)
    (alt : alternate cfg spec = alternate cfg' spec') (buf : ConvBuffer cfg)
    (buf' : ConvBuffer cfg') :
    SameResult (npfEtoaRev cfg buf spec f) (npfEtoaRev cfg' buf' spec' f') := by
  by_cases finite : IsFinite cfg g
  · have left := npfEtoaRev_text (f := f) finite compiled precision buf
    have finite' := (same.isFinite_iff bits).mp finite
    have right := npfEtoaRev_text (f := f') finite' compiled' precision' buf'
    rw [etoaText_eq same room bits finite, conversion, letters, alt] at left
    exact left.same room right
  · rw [npfEtoaRev_special finite, npfEtoaRev_special ((same.isFinite_iff bits).not.mp finite),
      letters, bits, same.fracField_eq]
    exact npfFtoaSpecial_same _ _ _ _

end

/-! ## The fused conversion -/

section

variable (man : cfg.manBits = cfg'.manBits)
include man

theorem fracScale_of_manBits (budget left digit v carry : ℕ) :
    fracScale cfg budget left digit v carry = fracScale cfg' budget left digit v carry := by
  have large : isLarge cfg = isLarge cfg' := by
    funext v
    rw [isLarge, isLarge, fiveLimit_of_manBits man]
  have five : timesFive cfg = timesFive cfg' := by
    funext v carry
    rw [timesFive, timesFive, man]
  induction left generalizing budget digit v carry with
  | zero => rw [fracScale, fracScale]
  | succ left ih => simp only [fracScale, large, five, ih]

theorem fusedRound_of_manBits (q : ℕ) (m : Machine) : fusedRound cfg q m = fusedRound cfg' q m := by
  have unit := unit_of_manBits man
  have digits : ∀ f, fusedDigits cfg q f = fusedDigits cfg' q f := by
    intro f
    rw [fusedDigits, fusedDigits, fracScale_of_manBits man, man, unit]
  rw [fusedRound, fusedRound]
  cases m.frac with
  | none => rfl
  | some f => simp only [digits, fracScale_of_manBits man, unit]

theorem fusedRoom_iff (room : cfg.cbuf = cfg'.cbuf) (q : ℕ) (point : Bool) (m : Machine) :
    FusedRoom cfg q point m ↔ FusedRoom cfg' q point m := by
  have int : ∀ i v, IntRoom cfg i v ↔ IntRoom cfg' i v := by
    intro i v
    rw [IntRoom, IntRoom, man, room]
  constructor
  · rintro ⟨dot, whole, all⟩
    exact ⟨room ▸ dot, (int _ _).mp whole, fusedRound_of_manBits man q m ▸ room ▸ all⟩
  · rintro ⟨dot, whole, all⟩
    exact ⟨room ▸ dot, (int _ _).mpr whole, fusedRound_of_manBits man q m ▸ room ▸ all⟩

end

section

variable (same : SameReal cfg cfg') (room : cfg.cbuf = cfg'.cbuf) {f g : RealBits cfg}
  {f' g' : RealBits cfg'} (bits : g.toNat = g'.toNat)
include same room bits

/-- **Builds that compute alike leave the same result of the fused conversion.** -/
theorem npfFtoaRev_same [ReadAs cfg f g] [ReadAs cfg' f' g'] {spec spec' : NpfFormatSpec}
    (letters : spec.caseAdjust = spec'.caseAdjust) (alt : alternate cfg spec = alternate cfg' spec')
    (q : ℕ) (buf : ConvBuffer cfg) (buf' : ConvBuffer cfg') :
    SameResult (npfFtoaRev cfg buf spec q f) (npfFtoaRev cfg' buf' spec' q f') := by
  by_cases finite : IsFinite cfg g
  · have left := npfFtoaRev_finite (f := f) finite spec q buf
    have right := npfFtoaRev_finite (f := f') ((same.isFinite_iff bits).mp finite) spec' q buf'
    rw [same.machineOf_eq bits finite, fusedRoom_iff same.man room, fusedRound_of_manBits same.man,
      letters, alt] at left
    rcases left with ⟨word, tooLong⟩ | ⟨short, leaves⟩
    · rcases right with ⟨word', -⟩ | ⟨short, -⟩
      · exact word.same word'
      · exact absurd short tooLong
    · rcases right with ⟨-, tooLong⟩ | ⟨-, leaves'⟩
      · exact absurd short tooLong
      · exact leaves.same leaves'
  · rw [npfFtoaRev_special finite, npfFtoaRev_special ((same.isFinite_iff bits).not.mp finite),
      letters, bits, same.fracField_eq]
    exact npfFtoaSpecial_same _ _ _ _

end

/-! ## The division-free build -/

/-- The build that divides and shifts as `free` says. -/
def Config.dividing (cfg : Config) (free : Bool) : Config := { cfg with divisionFree := free }

theorem Config.dividing_same (cfg : Config) :
    SameReal (cfg.dividing true) (cfg.dividing false) :=
  ⟨rfl, rfl, rfl⟩

theorem Config.uintBits_le (cfg : Config) : cfg.uintBits ≤ 64 := by
  have long := cfg.longBits_le
  have ptr := cfg.ptrBits_le
  unfold uintBits
  split_ifs <;> omega

/-- The numerals of the integer type fit any conversion buffer, and leave a place. -/
theorem numeralLength_uint {base v : ℕ} (radix : base = 8 ∨ base = 10 ∨ base = 16)
    (word : v < 2 ^ cfg.uintBits) : numeralLength base v < cfg.cbuf := by
  have wide : v < 2 ^ 64 := word.trans_le (Nat.pow_le_pow_right two_pos cfg.uintBits_le)
  refine lt_of_le_of_lt (b := 22) ?_ (by have := cfg.cbuf_ge; omega)
  rcases radix with rfl | rfl | rfl
  · exact numeralLength_le (by norm_num) (by norm_num) (wide.trans (by norm_num))
  · exact numeralLength_le (by norm_num) (by norm_num) (wide.trans (by norm_num))
  · exact numeralLength_le (by norm_num) (by norm_num) (wide.trans (by norm_num))

/-- **The division-free build is the ordinary build**: both write the numeral of every value, and
their float conversions leave the same results for every pattern. -/
theorem divisionFree_same (cfg : Config) :
    (∀ {base : ℕ} (caseAdj : ℕ) {v : ℕ}, base = 8 ∨ base = 10 ∨ base = 16 → v < 2 ^ cfg.uintBits →
      numeralLength base v ≤ cfg.cbuf ∧ ∀ {i : ℕ} (buf : ConvBuffer (cfg.dividing true))
        (buf' : ConvBuffer (cfg.dividing false)), i + numeralLength base v ≤ cfg.cbuf → ∃ c c',
          npfUtoaRevEnd (cfg.dividing true) v buf i base caseAdj =
            .ok (i + numeralLength base v, c) ∧
          npfUtoaRevEnd (cfg.dividing false) v buf' i base caseAdj =
            .ok (i + numeralLength base v, c') ∧
          c.Holds i (numeralText base caseAdj v) ∧ c'.Holds i (numeralText base caseAdj v)) ∧
    (∀ (f : RealBits cfg) (spec : NpfFormatSpec) (prec : ℕ) (buf : ConvBuffer (cfg.dividing true))
      (buf' : ConvBuffer (cfg.dividing false)),
      SameResult (npfFtoaRev (cfg.dividing true) buf spec prec f)
        (npfFtoaRev (cfg.dividing false) buf' spec prec f)) ∧
    (∀ (f : RealBits cfg) (spec : NpfFormatSpec) (prec : ℕ) (buf : ConvBuffer (cfg.dividing true))
      (buf' : ConvBuffer (cfg.dividing false)), Decimal cfg spec.convSpec →
      npfDecPrec cfg spec = prec →
      SameResult (npfEtoaRev (cfg.dividing true) buf spec f)
        (npfEtoaRev (cfg.dividing false) buf' spec f)) := by
  refine ⟨fun {base} caseAdj v radix word => ⟨(numeralLength_uint radix word).le,
      fun {i} buf buf' fits => ?_⟩,
    fun f spec prec buf buf' => ?_, fun f spec prec buf buf' compiled precision => ?_⟩
  · obtain ⟨c, run, holds, -⟩ := @npfUtoaRevEnd_eq (cfg.dividing true) base caseAdj radix i v word
      fits buf
    obtain ⟨c', run', holds', -⟩ := @npfUtoaRevEnd_eq (cfg.dividing false) base caseAdj radix i v
      word fits buf'
    exact ⟨c, c', run, run', holds, holds'⟩
  · have left := readAs_asRead (cfg.dividing true) f
    have right := readAs_asRead (cfg.dividing false) f
    exact npfFtoaRev_same cfg.dividing_same rfl rfl rfl rfl prec buf buf'
  · have left := readAs_asRead (cfg.dividing true) f
    have right := readAs_asRead (cfg.dividing false) f
    exact npfEtoaRev_same cfg.dividing_same rfl rfl rfl rfl compiled compiled precision precision
      rfl buf buf'

/-- `12345678901` in hexadecimal, and `%.1e` of `1.5`. -/
theorem divisionFree_same_samples :
    (∃ c c', npfUtoaRevEnd (Config.standard.dividing true) 12345678901 .blank 0 16 32 =
        .ok (0 + numeralLength 16 12345678901, c) ∧
      npfUtoaRevEnd (Config.standard.dividing false) 12345678901 .blank 0 16 32 =
        .ok (0 + numeralLength 16 12345678901, c') ∧
      c.Holds 0 (numeralText 16 32 12345678901) ∧ c'.Holds 0 (numeralText 16 32 12345678901)) ∧
    SameResult
      (npfEtoaRev (Config.standard.dividing true) .blank (.lower .floatSci 1)
        (pattern .standard 0x3ff8000000000000))
      (npfEtoaRev (Config.standard.dividing false) .blank (.lower .floatSci 1)
        (pattern .standard 0x3ff8000000000000)) := by
  obtain ⟨integers, -, floats⟩ := divisionFree_same .standard
  obtain ⟨fits, run⟩ := integers 32 (v := 12345678901) (.inr (.inr rfl)) (by decide)
  exact ⟨run .blank .blank (by rwa [Nat.zero_add]),
    floats _ (.lower .floatSci 1) 1 .blank .blank (.inr (.inl ⟨rfl, rfl⟩)) rfl⟩

end Nanoprintf
