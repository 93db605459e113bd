import Nanoprintf.Atoa
import Nanoprintf.EtoaSpec
import Nanoprintf.HexText

/-!
# What the hexadecimal conversion leaves

`npf_atoa_rev` drops low nibbles one at a time and adds the last bit it has
dropped. That bit alone rounds the dropped nibbles, halves going up; it may carry
into the leading digit, which is then at most two. The text denotes the rounded
number, and at full precision the argument.
-/

set_option autoImplicit false

namespace Nanoprintf

open Foundations

variable {cfg : Config}

/-! ## The pattern of a double -/

/-- The biased exponent of a `double`. -/
def doubleExp (f : BitVec 64) : ℕ := f.toNat / 2 ^ 52 % 2 ^ 11

/-- The fraction field of a `double`. -/
def doubleFrac (f : BitVec 64) : ℕ := f.toNat % 2 ^ 52

/-- The pattern is neither an infinity nor a NaN. -/
def DoubleFinite (f : BitVec 64) : Prop := doubleExp f ≠ 2047

instance (f : BitVec 64) : Decidable (DoubleFinite f) := inferInstanceAs (Decidable (_ ≠ _))

/-- The absolute value of a finite `double`. -/
def doubleMagnitude (f : BitVec 64) : ℚ :=
  if doubleExp f = 0 then doubleFrac f * 2 ^ (-1074 : ℤ)
  else (2 ^ 52 + doubleFrac f) * 2 ^ ((doubleExp f : ℤ) - 1075)

/-- The exponent field of a `double` put together from its fields. -/
theorem doubleExp_fields {sign exp man : ℕ} (low : exp < 2 ^ 11) (small : man < 2 ^ 52) :
    doubleExp (BitVec.ofNat 64 (sign <<< 63 ||| exp <<< 52 ||| man)) = exp := by
  have fields : sign <<< 63 ||| exp <<< 52 ||| man = sign * 2 ^ 63 + (exp * 2 ^ 52 + man) := by
    have below : exp <<< 52 < 2 ^ 63 := by
      rw [Nat.shiftLeft_eq]
      omega
    rw [Nat.or_assoc, ← Nat.shiftLeft_add_eq_or_of_lt small, Nat.shiftLeft_eq exp,
      ← Nat.shiftLeft_add_eq_or_of_lt (b := exp * 2 ^ 52 + man) (i := 63) (by omega),
      Nat.shiftLeft_eq]
  rw [doubleExp, BitVec.toNat_ofNat, fields]
  omega

/-- Only an infinity or a NaN is converted to one. -/
theorem doubleFinite_widen {f : BitVec 32} (finite : f.toNat / 2 ^ 23 % 2 ^ 8 ≠ 255) :
    DoubleFinite (widen f) := by
  have exp : f.toNat >>> 23 % 256 ≠ 255 := by
    rwa [Nat.shiftRight_eq_div_pow]
  have man : f.toNat % 2 ^ 23 < 2 ^ 23 := Nat.mod_lt _ (by positivity)
  have small : f.toNat >>> 23 % 256 < 256 := Nat.mod_lt _ (by norm_num)
  unfold DoubleFinite widen
  simp only [if_neg exp]
  generalize f.toNat >>> 23 % 256 = e at exp small ⊢
  generalize f.toNat % 2 ^ 23 = m at man ⊢
  have shifted : m <<< 29 < 2 ^ 52 := by
    rw [Nat.shiftLeft_eq]
    omega
  by_cases normal : e ≠ 0
  · simp only [if_pos normal]
    rw [doubleExp_fields (by omega) shifted]
    omega
  · by_cases zero : m = 0
    · simp only [if_neg normal, if_pos zero]
      rw [doubleExp_fields (by norm_num) (by norm_num)]
      norm_num
    · have log : m.log2 < 23 := (Nat.log2_lt zero).mpr man
      simp only [if_neg normal, if_neg zero]
      rw [doubleExp_fields (by omega) (Nat.mod_lt _ (by positivity))]
      omega
/-- The integer of 53 bits and the exponent of its top bit that the conversion takes. -/
def atoaParts (f : BitVec 64) : ℕ × ℤ :=
  if doubleExp f ≠ 0 then (2 ^ 52 + doubleFrac f, doubleExp f - 1023)
  else if doubleFrac f ≠ 0 then (doubleFrac f, -1022) else (0, 0)

theorem doubleFrac_lt (f : BitVec 64) : doubleFrac f < 2 ^ 52 := Nat.mod_lt _ (by positivity)

/-- Zero, subnormal and normal numbers are all decoded alike. -/
theorem doubleMagnitude_eq (f : BitVec 64) :
    doubleMagnitude f = (atoaParts f).1 / 2 ^ 52 * 2 ^ (atoaParts f).2 := by
  have scale : ∀ (n : ℕ) (x : ℤ), (n : ℚ) / 2 ^ 52 * 2 ^ x = n * 2 ^ (x - 52) := fun n x => by
    rw [zpow_sub₀ two_ne_zero, div_mul_eq_mul_div, mul_div_assoc]
    norm_num
  rw [doubleMagnitude, atoaParts, scale]
  by_cases normal : doubleExp f = 0
  · rw [if_pos normal, if_neg (not_not.mpr normal)]
    by_cases zero : doubleFrac f = 0
    · rw [if_neg (not_not.mpr zero), zero, Nat.cast_zero, zero_mul, zero_mul]
    · rw [if_pos zero]
      norm_num
  · rw [if_neg normal, if_pos normal]
    simp only [Nat.cast_add, Nat.cast_pow, Nat.cast_ofNat]
    congr 2
    omega

theorem atoaParts_bounds (f : BitVec 64) :
    (atoaParts f).1 < 2 ^ 53 ∧ (atoaParts f).2.natAbs < 10 ^ 4 := by
  have frac := doubleFrac_lt f
  have exp : doubleExp f < 2 ^ 11 := Nat.mod_lt _ (by positivity)
  unfold atoaParts
  split_ifs <;> simp only <;> omega

/-! ## The nibbles -/

/-- What the discarded nibbles leave, and the top bit of the last of them. -/
theorem atoaDiscard_eq (n bin carry : ℕ) :
    atoaDiscard (n + 1) bin carry = (bin / 16 ^ (n + 1), bin / (8 * 16 ^ n) % 2) := by
  induction n generalizing bin carry with
  | zero =>
      rw [atoaDiscard, atoaDiscard, Nat.shiftRight_eq_div_pow, Nat.shiftRight_eq_div_pow,
        Nat.and_one_is_mod]
      norm_num
  | succ n ih =>
      rw [atoaDiscard, ih, Nat.shiftRight_eq_div_pow, Nat.div_div_eq_div_mul,
        Nat.div_div_eq_div_mul]
      congr 2
      · ring_nf
      · ring_nf

/-- The bit that is added back rounds all that is discarded, halves going up. -/
theorem atoaDiscard_add (k bin : ℕ) :
    (atoaDiscard k bin 0).1 + (atoaDiscard k bin 0).2 = (2 * bin + 16 ^ k) / (2 * 16 ^ k) := by
  cases k with
  | zero =>
      rw [atoaDiscard]
      omega
  | succ k =>
      -- with the bit as the units of a quotient, rounding is halving that
      have half : 16 ^ (k + 1) = 8 * 16 ^ k * 2 := by ring
      have above : (2 * bin + 16 ^ (k + 1)) / (2 * 16 ^ (k + 1)) =
          (bin / (8 * 16 ^ k) + 1) / 2 := by
        rw [half, mul_comm _ 2, ← Nat.mul_add, Nat.mul_div_mul_left _ _ two_pos, mul_comm 2,
          ← Nat.div_div_eq_div_mul, Nat.add_div_right _ (by positivity)]
      rw [above, atoaDiscard_eq, half, ← Nat.div_div_eq_div_mul]
      simp only
      omega

theorem atoaNibbles_eq (caseAdj n : ℕ) {front : List Char} {i bin : ℕ} {buf : ConvBuffer cfg}
    (holds : buf.Holds 0 front) (length : front.length = i) (room : i + n ≤ cfg.cbuf) :
    ∃ c, atoaNibbles caseAdj n i bin buf = .ok (i + n, bin / 16 ^ n, c) ∧
      c.Holds 0 (front ++ hexDigitText caseAdj n bin) := by
  induction n generalizing front i bin buf with
  | zero =>
      refine ⟨buf, ?_, by rwa [hexDigitText, lowDigits_zero, List.map_nil, List.append_nil]⟩
      rw [atoaNibbles, pow_zero, Nat.div_one, Nat.add_zero]
  | succ n ih =>
      have low : bin &&& 0xF = bin % 16 := Nat.and_two_pow_sub_one_eq_mod bin 4
      obtain ⟨c, run, holds'⟩ := @ih (front ++ [digitChar caseAdj (bin % 16)]) (i + 1) (bin / 16) _
        (holds.update_concat (k := i) _ (by omega)) (by simp [length]) (by omega)
      refine ⟨c, ?_, ?_⟩
      · rw [pow_succ', ← Nat.div_div_eq_div_mul, show i + (n + 1) = i + 1 + n by omega, ← run,
          atoaNibbles, low, Nat.shiftRight_eq_div_pow]
        simp only [bind, Except.bind, buf.write_eq _ (show i < cfg.cbuf by omega), Nat.reducePow]
      · rwa [hexDigitText_succ, List.append_cons]

/-! ## The conversion -/

/-- The hexadecimal conversion leaves a text. -/
def LeavesHex (run : Run (ℕ × ConvBuffer cfg)) (text : List Char) : Prop :=
  ∃ c, run = .ok (text.length, c) ∧ c.Holds 0 text.reverse

theorem LeavesHex.unique {run : Run (ℕ × ConvBuffer cfg)} {s t : List Char}
    (first : LeavesHex run s) (second : LeavesHex run t) : s = t := by
  obtain ⟨c, rfl, holds⟩ := first
  obtain ⟨d, same, holds'⟩ := second
  obtain ⟨length, rfl⟩ := Prod.mk.inj (Except.ok.inj same)
  exact List.reverse_injective (holds.unique holds' (by simp [length]))

/-- The point and the leading digit, behind the pieces that come before them. -/
theorem atoaLead_eq {front : List Char} {i lead : ℕ} {c : ConvBuffer cfg} (holds : c.Holds 0 front)
    (length : i = front.length) (room : i + 2 ≤ cfg.cbuf) (low : lead ≤ 2) (point : Prop)
    [Decidable point] :
    LeavesHex (do
      let (end_, buf) ← if point then pure (i + 1, ← c.write i '.') else pure (i, c)
      let buf ← buf.write end_ (Char.ofNat ('0'.toNat + (lead &&& 0xF)))
      pure (end_ + 1, buf)) (front ++ pointText point ++ [digitChar 0 lead]).reverse := by
  have digit : Char.ofNat ('0'.toNat + (lead &&& 0xF)) = digitChar 0 lead := by
    interval_cases lead <;> rfl
  rw [digit, LeavesHex, List.reverse_reverse]
  subst length
  by_cases dotted : point
  · have dot := holds.update_concat '.' rfl
    have first := dot.update_concat (k := front.length + 1) (digitChar 0 lead) (by simp)
    refine ⟨_, ?_, by simpa [dotted, pointText] using first⟩
    simp only [if_pos dotted, bind, Except.bind, pure, Except.pure,
      Buffer.write_eq _ _ (show front.length < cfg.cbuf by omega),
      Buffer.write_eq _ _ (show front.length + 1 < cfg.cbuf by omega)]
    simp [dotted, Nat.add_comm]
  · have first := holds.update_concat (digitChar 0 lead) rfl
    refine ⟨_, ?_, by simpa [dotted, pointText] using first⟩
    simp only [if_neg dotted, bind, Except.bind, pure, Except.pure,
      Buffer.write_eq _ _ (show front.length < cfg.cbuf by omega)]
    simp [dotted]

/-- The digits that a precision of `n` leaves of a `double`. -/
def atoaRound (n : ℕ) (f : BitVec 64) : ℕ :=
  (atoaDiscard (13 - n) (atoaParts f).1 0).1 + (atoaDiscard (13 - n) (atoaParts f).1 0).2

theorem atoaRound_eq (n : ℕ) (f : BitVec 64) :
    (atoaRound n f : ℤ) = round (((atoaParts f).1 : ℚ) / 16 ^ (13 - n)) := by
  have quotient := round_natCast_div (atoaParts f).1 (show 0 < 16 ^ (13 - n) by positivity)
  rw [Nat.cast_pow, Nat.cast_ofNat] at quotient
  rw [quotient, atoaRound, atoaDiscard_add]

/-- A carry goes into the leading digit and no further. -/
theorem atoaRound_le {n : ℕ} (places : n ≤ 13) (f : BitVec 64) : atoaRound n f ≤ 2 * 16 ^ n := by
  have small := (atoaParts_bounds f).1
  have whole : 16 ^ n * 16 ^ (13 - n) = 2 ^ 52 := by
    rw [← pow_add, Nat.add_sub_cancel' places]
    norm_num
  rw [atoaRound, atoaDiscard_add]
  refine Nat.lt_succ_iff.mp ((Nat.div_lt_iff_lt_mul (by positivity)).mpr ?_)
  have positive : 0 < 16 ^ (13 - n) := by positivity
  nlinarith

theorem atoaRound_lead {n : ℕ} (places : n ≤ 13) (f : BitVec 64) : atoaRound n f / 16 ^ n ≤ 2 :=
  Nat.div_le_of_le_mul ((atoaRound_le places f).trans_eq (mul_comm ..))

/-- The text of `%a`. -/
def atoaText (n : ℕ) (f : BitVec 64) (alt : Bool) (caseAdj : ℕ) : List Char :=
  hexText (atoaRound n f) n (atoaParts f).2 (0 < n ∨ alt) caseAdj

/-- What the conversion takes from the fields. -/
theorem atoaParts_eq (f : BitVec 64) :
    (if doubleExp f ≠ 0 then (doubleFrac f ||| 1 <<< 52, (doubleExp f : ℤ) - 1023)
      else if doubleFrac f ≠ 0 then (doubleFrac f, 1 - 1023)
      else (doubleFrac f, (doubleExp f : ℤ))) = atoaParts f := by
  have implicit : doubleFrac f ||| 1 <<< 52 = 2 ^ 52 + doubleFrac f := by
    rw [Nat.or_comm, ← Nat.shiftLeft_add_eq_or_of_lt (doubleFrac_lt f), Nat.one_shiftLeft]
  rw [atoaParts, implicit]
  split_ifs with normal subnormal
  · rfl
  · rfl
  · rw [not_not.mp normal, not_not.mp subnormal, Nat.cast_zero]

/-- The least buffer has room for the text. -/
theorem length_atoaText {n : ℕ} (places : n ≤ 13) (f : BitVec 64) (alt : Bool) (caseAdj : ℕ) :
    (atoaText n f alt caseAdj).length ≤ 21 := by
  have four := numeralLength_le (n := 4) (by norm_num : 1 < 10) (by norm_num) (atoaParts_bounds f).2
  rw [← List.length_reverse, atoaText, hexText_reverse]
  simp only [List.length_append, length_numeralText, length_hexDigitText, length_pointText,
    List.length_singleton]
  split_ifs <;> omega

theorem npfDoubleToIntRep_eq (cfg : Config) (f : BitVec 64) :
    npfDoubleToIntRep cfg f = f.toNat := by
  refine copyRep_eq (.inr rfl) ?_
  rw [cfg.charBits_eq]
  exact f.isLt

/-- **What the hexadecimal conversion leaves for a finite value.** -/
theorem npfAtoaRev_text {f : BitVec 64} (finite : DoubleFinite f) {spec : NpfFormatSpec} {P : ℕ}
    (precision : npfHexPrec cfg spec = P) (buf : ConvBuffer cfg) :
    LeavesHex (npfAtoaRev cfg buf spec f)
      (atoaText (min P 13) f (alternate cfg spec) spec.caseAdjust) := by
  have room := cfg.cbuf_ge
  obtain ⟨bin, exp, parts⟩ : ∃ bin exp, atoaParts f = (bin, exp) := ⟨_, _, rfl⟩
  obtain ⟨-, short⟩ := atoaParts_bounds f
  simp only [parts] at short
  have digits : (13 - min (P : ℤ) 13).toNat = 13 - min P 13 := by omega
  have count : (min (P : ℤ) 13).toNat = min P 13 := by omega
  have asked : 0 < min (P : ℤ) 13 ↔ 0 < min P 13 := by omega
  obtain ⟨n, n_eq⟩ : ∃ n, min P 13 = n := ⟨_, rfl⟩
  -- the exponent, its sign and its letter
  have four := numeralLength_le (n := 4) (by norm_num : 1 < 10) (by norm_num) short
  obtain ⟨b, exponent, holds, -⟩ := @npfUtoaRevEnd_eq cfg 10 0 (.inr (.inl rfl)) 0 exp.natAbs
    (short.trans ((by norm_num : 10 ^ 4 < 2 ^ 32).trans_le
      (Nat.pow_le_pow_right two_pos cfg.uintBits_ge))) (by omega) buf
  rw [Nat.zero_add] at exponent
  have sign := holds.update_concat (k := numeralLength 10 exp.natAbs)
    (if exp < 0 then '-' else '+') (by simp)
  have letter := sign.update_concat (k := numeralLength 10 exp.natAbs + 1)
    (Char.ofNat ('P'.toNat + spec.caseAdjust)) (by simp)
  -- the digits behind the point
  obtain ⟨c, nibbles, holds'⟩ := @atoaNibbles_eq cfg spec.caseAdjust n _
    (numeralLength 10 exp.natAbs + 2) (atoaRound n f) _ letter (by simp) (by omega)
  have unfolded : npfAtoaRev cfg buf spec f = (do
      let (end_, buf) ← if 0 < n ∨ alternate cfg spec = true then
          pure (numeralLength 10 exp.natAbs + 2 + n + 1,
            ← Buffer.write c (numeralLength 10 exp.natAbs + 2 + n) '.')
        else pure (numeralLength 10 exp.natAbs + 2 + n, c)
      let buf ← buf.write end_ (Char.ofNat ('0'.toNat + (atoaRound n f / 16 ^ n &&& 0xF)))
      pure (end_ + 1, buf)) := by
    have exp_eq : f.toNat >>> 52 &&& 2047 = doubleExp f := by
      rw [Nat.shiftRight_eq_div_pow, show 2047 = 2 ^ 11 - 1 from rfl,
        Nat.and_two_pow_sub_one_eq_mod,
        doubleExp]
    have frac_eq : f.toNat &&& (1 <<< 52 - 1) = doubleFrac f := by
      rw [Nat.one_shiftLeft, Nat.and_two_pow_sub_one_eq_mod, doubleFrac]
    have rounded : (atoaDiscard (13 - n) bin 0).1 + (atoaDiscard (13 - n) bin 0).2 =
        atoaRound n f := by rw [atoaRound, parts]
    simp only [npfAtoaRev, npfDoubleToIntRep_eq, exp_eq, frac_eq, if_neg finite, atoaParts_eq,
      parts, precision, show (52 + 3) / 4 = (13 : ℤ) from rfl, digits, count, asked, n_eq, rounded,
      npfUtoaRev, exponent]
    simp only [bind, Except.bind,
      Buffer.write_eq _ _ (show numeralLength 10 exp.natAbs < cfg.cbuf by omega),
      Buffer.write_eq _ _ (show numeralLength 10 exp.natAbs + 1 < cfg.cbuf by omega), nibbles]
    rfl
  have leaves := atoaLead_eq holds'
    (show numeralLength 10 exp.natAbs + 2 + n = _ by simp; omega) (by omega)
    (atoaRound_lead (show n ≤ 13 by omega) f) (0 < n ∨ alternate cfg spec = true)
  rwa [← unfolded, ← hexText_reverse, List.reverse_reverse,
    ← show (atoaParts f).2 = exp by rw [parts],
    ← atoaText, ← n_eq] at leaves

theorem npfAtoaRev_special {f : BitVec 64} (special : ¬ DoubleFinite f) (spec : NpfFormatSpec)
    (buf : ConvBuffer cfg) : npfAtoaRev cfg buf spec f = .ok (0, buf) := by
  have exp_eq : f.toNat >>> 52 &&& 2047 = 2047 := by
    rw [Nat.shiftRight_eq_div_pow, show 2047 = 2 ^ 11 - 1 from rfl, Nat.and_two_pow_sub_one_eq_mod]
    exact not_not.mp special
  simp only [npfAtoaRev, npfDoubleToIntRep_eq, exp_eq, ↓reduceIte]
  rfl

/-! ## The number -/

/-- What the text denotes is the argument rounded to its digits, halves going up. -/
theorem denotesHex_atoaText {n : ℕ} (places : n ≤ 13) (f : BitVec 64) (alt : Bool) {caseAdj : ℕ}
    (letterCase : caseAdj = 0 ∨ caseAdj = 32) :
    denotesHex (atoaText n f alt caseAdj) =
      round (doubleMagnitude f / (2 ^ hexExponent (atoaText n f alt caseAdj) / 16 ^ n)) *
        (2 ^ hexExponent (atoaText n f alt caseAdj) / 16 ^ n) := by
  have lead := atoaRound_lead places f
  obtain ⟨exponent, value⟩ := @denotesHex_hexText caseAdj letterCase (atoaRound n f) n
    (atoaParts f).2 (0 < n ∨ alt) (by omega) fun plain => by
      have := of_decide_eq_false plain
      omega
  have scaled : doubleMagnitude f / (2 ^ (atoaParts f).2 / 16 ^ n) =
      (atoaParts f).1 / 16 ^ (13 - n) := by
    have whole : (16 : ℚ) ^ n * 16 ^ (13 - n) = 2 ^ 52 := by
      rw [← pow_add, Nat.add_sub_cancel' places]
      norm_num
    have power : (2 : ℚ) ^ (atoaParts f).2 ≠ 0 := (zpow_pos two_pos _).ne'
    rw [doubleMagnitude_eq, ← whole]
    field_simp
  have rounded : (atoaRound n f : ℚ) = (round (((atoaParts f).1 : ℚ) / 16 ^ (13 - n)) : ℤ) := by
    exact_mod_cast congrArg (Int.cast : ℤ → ℚ) (atoaRound_eq n f)
  rw [atoaText, exponent, value, scaled, ← rounded]
  ring

/-- **`%a` is exact and rounds to nearest**: the text has the shape of a hexadecimal number; with
13 digits or more it denotes the argument, and with fewer the multiple of its last place that is
nearest, halves going to the larger one. -/
theorem npfAtoaRev_exact {f : BitVec 64} (finite : DoubleFinite f) {spec : NpfFormatSpec}
    (letterCase : spec.caseAdjust = 0 ∨ spec.caseAdjust = 32) {P : ℕ}
    (precision : npfHexPrec cfg spec = P) (buf : ConvBuffer cfg) :
    ∃ t, LeavesHex (npfAtoaRev cfg buf spec f) t ∧
      HexForm (min P 13) (0 < min P 13 ∨ alternate cfg spec) t ∧
      (13 ≤ P → denotesHex t = doubleMagnitude f ∧
        ∀ {g : BitVec 64} (buf' : ConvBuffer cfg), DoubleFinite g →
          LeavesHex (npfAtoaRev cfg buf' spec g) t → doubleMagnitude g = doubleMagnitude f) ∧
      (P < 13 → denotesHex t =
        round (doubleMagnitude f / (2 ^ hexExponent t / 16 ^ P)) *
          (2 ^ hexExponent t / 16 ^ P)) := by
  have full : ∀ g : BitVec 64,
      denotesHex (atoaText 13 g (alternate cfg spec) spec.caseAdjust) = doubleMagnitude g := by
    intro g
    have lead := atoaRound_lead le_rfl g
    obtain ⟨-, value⟩ := @denotesHex_hexText _ letterCase (atoaRound 13 g) 13 (atoaParts g).2 true
      (by omega) nofun
    have whole : atoaRound 13 g = (atoaParts g).1 := by rw [atoaRound, atoaDiscard, Nat.add_zero]
    rw [atoaText, show decide (0 < 13 ∨ alternate cfg spec = true) = true by simp, value, whole,
      doubleMagnitude_eq]
    norm_num
  refine ⟨_, npfAtoaRev_text finite precision buf,
    hexForm_hexText _ _ (atoaRound_lead (Nat.min_le_right P 13) f) letterCase,
    fun more => ?_, fun less => ?_⟩
  · rw [min_eq_right more]
    refine ⟨full f, fun buf' finite' leaves => ?_⟩
    have text := npfAtoaRev_text finite' precision buf'
    rw [min_eq_right more] at text
    rw [← full f, leaves.unique text, full]
  · have value := denotesHex_atoaText (Nat.min_le_right P 13) f (alternate cfg spec) letterCase
    rwa [min_eq_left less.le] at value ⊢

/-- `%.0a` of `1.5`, which is half way between `0x1p+0` and `0x2p+0`. -/
theorem npfAtoaRev_exact_three_halves : ∃ t,
    LeavesHex (npfAtoaRev .standard .blank (.lower .floatHex 0) 0x3ff8000000000000#64) t ∧
      HexForm 0 false t ∧
      denotesHex t = round (doubleMagnitude 0x3ff8000000000000#64 / (2 ^ hexExponent t / 16 ^ 0)) *
        (2 ^ hexExponent t / 16 ^ 0) := by
  obtain ⟨t, leaves, form, -, value⟩ := @npfAtoaRev_exact .standard 0x3ff8000000000000#64
    (by decide) (.lower .floatHex 0) (.inr rfl) 0 rfl .blank
  exact ⟨t, leaves, form, value (by decide)⟩

end Nanoprintf
