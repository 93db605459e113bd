import Nanoprintf.Machine
import Nanoprintf.DecimalText

/-!
# The generation of digits

What each loop of `etoaDigits` leaves in the buffer. The digits generated so far
are the run of a number `V` at the top of the buffer; a loop that pushes digits
below it appends them to `V`. No access leaves the buffer or reads a cell that
has not been written, for every configuration and mode.
-/

set_option autoImplicit false

namespace Nanoprintf

open Foundations

variable {cfg : Config}

/-! ## The integer -/

theorem digitChar_of_lt {d : ℕ} (digit : d < 10) (caseAdj : ℕ) :
    digitChar caseAdj d = Char.ofNat ('0'.toNat + d) := by
  rw [digitChar, if_pos digit]

theorem emitWide_eq (room : ℕ) {i man : ℕ} (inside : i + room = cfg.cbuf)
    (fits : numeralLength 10 man ≤ room) (buf : ConvBuffer cfg) :
    ∃ c, emitWide cfg room i man buf = .ok (i + numeralLength 10 man, c) ∧
      c.Holds i (numeralText 10 0 man) ∧
      ∀ j, j < i ∨ i + numeralLength 10 man ≤ j → c.cell j = buf.cell j := by
  induction room generalizing i man buf with
  | zero =>
      have := numeralLength_pos 10 man
      omega
  | succ room ih =>
      rw [emitWide, ← digitChar_of_lt (Nat.mod_lt man (by norm_num)) 0]
      simp only [bind, Except.bind, buf.write_eq (digitChar 0 (man % 10))
        (show i < cfg.cbuf by omega)]
      by_cases last : man / 10 = 0
      · have small : man < 10 := by omega
        rw [if_neg (not_not.mpr last), numeralText_of_lt small, numeralLength,
          numeral_of_lt small, Nat.mod_eq_of_lt small]
        refine ⟨_, rfl, ⟨Function.update_self .., trivial⟩, fun j outside => ?_⟩
        exact Function.update_of_ne (by simp only [List.length_singleton] at outside; omega) _ _
      · have more : 10 ≤ man := by omega
        have length : numeralLength 10 man = numeralLength 10 (man / 10) + 1 := by
          rw [numeralLength, numeral_of_le (by norm_num) more, List.length_cons, numeralLength]
        obtain ⟨c, run, holds, frame⟩ := @ih (i + 1) (man / 10) (by omega) (by omega)
          ⟨Function.update buf.cell i (some (digitChar 0 (man % 10)))⟩
        refine ⟨c, ?_, ?_, fun j outside => ?_⟩
        · rw [if_pos last, run, length]
          congr 2
          omega
        · rw [numeralText_of_le (by norm_num) more]
          refine ⟨?_, holds⟩
          rw [frame i (.inl (by omega))]
          exact Function.update_self ..
        · rw [frame j (by omega)]
          exact Function.update_of_ne (by omega) _ _

theorem usesUtoa_iff : usesUtoa cfg = true ↔ cfg.manBits ≤ 32 ∧ 32 ≤ cfg.uintBits := by
  simp [usesUtoa]

/-- A mantissa in decimal leaves room in the buffer. -/
theorem numeralLength_int {man : ℕ} (small : man < 16 * cfg.unit) :
    numeralLength 10 man ≤ 20 := by
  rw [← cfg.two_pow_manBits] at small
  refine numeralLength_le (by norm_num) (by norm_num) (small.trans_le ?_)
  exact (Nat.pow_le_pow_right two_pos cfg.manBits_le).trans (by norm_num)

theorem int_lt_word (uses : usesUtoa cfg = true) {man : ℕ} (small : man < 16 * cfg.unit) :
    man < 2 ^ cfg.uintBits := by
  obtain ⟨narrow, wide⟩ := usesUtoa_iff.mp uses
  rw [← cfg.two_pow_manBits] at small
  exact small.trans_le (Nat.pow_le_pow_right two_pos (narrow.trans wide))

/-- The integer at the top of the buffer. -/
theorem etoaPrintInt_eq {man : ℕ} (small : man < 16 * cfg.unit) (buf : ConvBuffer cfg) :
    ∃ c, etoaPrintInt cfg man buf = .ok (cfg.cbuf - numeralLength 10 man, c) ∧
      c.Holds (cfg.cbuf - numeralLength 10 man) (digitText (numeralLength 10 man) man) := by
  have room := cfg.cbuf_ge
  have length := numeralLength_int small
  obtain ⟨b, run, holds⟩ : ∃ b, (if usesUtoa cfg then npfUtoaRev cfg man buf 10 0
      else emitWide cfg cfg.cbuf 0 man buf) = .ok (numeralLength 10 man, b) ∧
      b.Holds 0 (numeralText 10 0 man) := by
    by_cases uses : usesUtoa cfg = true
    · obtain ⟨b, run, holds, -⟩ := npfUtoaRevEnd_eq 0 (.inr (.inl rfl)) (int_lt_word uses small)
        (i := 0) (by omega) buf
      exact ⟨b, by rw [if_pos uses, npfUtoaRev, run, Nat.zero_add], holds⟩
    · obtain ⟨b, run, holds, -⟩ := @emitWide_eq cfg cfg.cbuf 0 man (Nat.zero_add _)
        (by omega) buf
      exact ⟨b, by rw [if_neg uses, run, Nat.zero_add], holds⟩
  obtain ⟨c, moved, top, -⟩ := @Buffer.copyDown_eq _ Leave _ b _ (cfg.cbuf - numeralLength 10 man) _
    holds (by rw [length_numeralText]; omega) (Nat.zero_le _)
  rw [length_numeralText] at moved
  refine ⟨c, ?_, numeralText_eq man ▸ top⟩
  unfold etoaPrintInt
  by_cases uses : usesUtoa cfg = true
  · rw [if_pos uses] at run ⊢
    simp only [run, moved, bind, Except.bind, pure, Except.pure]
  · rw [if_neg uses] at run ⊢
    simp only [run, moved, bind, Except.bind, pure, Except.pure]

/-! ## The fraction -/

theorem pushDown_eq {buf : ConvBuffer cfg} {e n V d : ℕ} (inside : e < cfg.cbuf) (digit : d < 10)
    (holds : buf.Holds (e + 1) (digitText n V)) :
    ∃ c, pushDown buf (e + 1) (digitChar 0 d) = .ok (e, c) ∧
      c.Holds e (digitText (n + 1) (10 * V + d)) := by
  refine ⟨⟨Function.update buf.cell e (some (digitChar 0 d))⟩, ?_, ?_⟩
  · simp only [pushDown, bind, Except.bind, buf.write_eq _ inside, pure, Except.pure]
  · rw [digitText_cons digit]
    exact holds.update_cons _

/-- How many zeros the bounds of a pass still allow. -/
def zerosAllowed (lo dstop : ℤ) (lead : Bool) (end_ : ℕ) (dec : ℤ) : ℕ :=
  if lead then (if lo < end_ then (dec - dstop).toNat else 0)
  else (min (end_ - lo) (dec - dstop)).toNat

theorem zerosAllowed_ne_zero {lo dstop : ℤ} {lead : Bool} {end_ : ℕ} {dec : ℤ} :
    zerosAllowed lo dstop lead end_ dec ≠ 0 ↔ lo < end_ ∧ dstop < dec := by
  unfold zerosAllowed
  split_ifs <;> omega

theorem zerosAllowed_sub (lo dstop : ℤ) (lead : Bool) (end_ z : ℕ) (dec : ℤ) :
    zerosAllowed lo dstop lead end_ (dec - z) =
      zerosAllowed lo dstop lead (end_ + if lead then 0 else z) dec - z := by
  cases lead with
  | true =>
      simp only [zerosAllowed, ↓reduceIte, Nat.add_zero]
      split_ifs <;> omega
  | false =>
      simp only [zerosAllowed, Bool.false_eq_true, ↓reduceIte]
      omega

/-- The scaling loop pushes the zeros that `fracScale` produces within the bounds. -/
theorem etoaFracScale_eq {lo dstop : ℤ} (inside : 0 ≤ lo) (lead : Bool) (left digit man carry : ℕ)
    {end_ n V : ℕ} {dec : ℤ} {buf : ConvBuffer cfg} (top : end_ ≤ cfg.cbuf)
    (holds : buf.Holds end_ (digitText n V)) (empty : lead = true → n = 0) {r : Scaled}
    (scaled : fracScale cfg (zerosAllowed lo dstop lead end_ dec) left digit man carry = r) :
    ∃ c e, etoaFracScale cfg lo dstop lead left digit man carry end_ dec buf =
        .ok (r.left, r.man, r.carry, e, dec - r.zeros, c) ∧
      e + (if lead then 0 else r.zeros) = end_ ∧
      c.Holds e (digitText (n + if lead then 0 else r.zeros) (V * 10 ^ r.zeros)) := by
  induction left generalizing digit man carry end_ n V dec buf r with
  | zero =>
      rw [fracScale_done] at scaled
      subst scaled
      exact ⟨buf, end_, by simp [etoaFracScale], by simp, by simpa using holds⟩
  | succ left ih =>
      rw [fracScale] at scaled
      by_cases stop : zerosAllowed lo dstop lead end_ dec = 0
      · rw [if_pos stop] at scaled
        subst scaled
        refine ⟨buf, end_, ?_, by simp, by simpa using holds⟩
        rw [etoaFracScale, if_pos (fun go => zerosAllowed_ne_zero.mpr go stop)]
        simp
      have go := zerosAllowed_ne_zero.mp stop
      rw [if_neg stop] at scaled
      rw [etoaFracScale, if_neg (not_not.mpr go)]
      by_cases halves : (isLarge cfg man || decide (digit ≠ 0)) = true
      · rw [if_pos halves] at scaled ⊢
        exact ih _ _ _ top holds empty scaled
      rw [if_neg halves] at scaled ⊢
      by_cases early : 4 < left + 1
      · rw [if_pos early] at scaled ⊢
        cases lead with
        | true =>
            have fewer := zerosAllowed_sub lo dstop true end_ 1 dec
            rw [if_pos rfl, Nat.add_zero, Nat.cast_one] at fewer
            obtain ⟨c, e, run, count, holds'⟩ := ih digit (timesFive cfg man carry) 0 top holds
              empty (congrArg (fracScale cfg · left digit (timesFive cfg man carry) 0) fewer)
            obtain rfl := empty rfl
            refine ⟨c, e, ?_, ?_, ?_⟩
            · simp only [↓reduceIte, pure, Except.pure, bind, Except.bind]
              rw [run, ← scaled]
              push_cast
              rw [sub_sub, add_comm (1 : ℤ)]
            · simpa using count
            · simp
        | false =>
            obtain ⟨end_, rfl⟩ : ∃ e, end_ = e + 1 := ⟨end_ - 1, by omega⟩
            have fewer := zerosAllowed_sub lo dstop false end_ 1 dec
            rw [if_neg Bool.false_ne_true, Nat.cast_one] at fewer
            obtain ⟨b, pushed, holds'⟩ := pushDown_eq (d := 0) (by omega) (by norm_num) holds
            rw [Nat.add_zero] at holds'
            obtain ⟨c, e, run, count, holds''⟩ := ih digit (timesFive cfg man carry) 0
              (by omega) holds' (absurd · Bool.false_ne_true)
              (congrArg (fracScale cfg · left digit (timesFive cfg man carry) 0) fewer)
            refine ⟨c, e, ?_, ?_, ?_⟩
            · rw [digitChar_zero] at pushed
              simp only [Bool.false_eq_true, ↓reduceIte, pushed, bind, Except.bind]
              rw [run, ← scaled]
              push_cast
              rw [sub_sub, add_comm (1 : ℤ)]
            · rw [← scaled]
              simp only [Bool.false_eq_true, ↓reduceIte] at count ⊢
              omega
            · rw [← scaled]
              simp only [Bool.false_eq_true, ↓reduceIte] at holds'' ⊢
              rw [← Nat.add_assoc, Nat.add_right_comm, pow_succ, mul_comm _ 10, ← mul_assoc,
                mul_comm V 10]
              exact holds''
      · rw [if_neg early] at scaled ⊢
        exact ih _ _ _ top holds empty scaled

theorem topDigit_eq {man : ℕ} (digit : man < 10 * cfg.unit) :
    topDigit cfg man = digitChar 0 (man / cfg.unit) := by
  have small : man / cfg.unit < 10 :=
    (Nat.div_lt_iff_lt_mul (by have := cfg.unit_ge; omega)).mpr digit
  rw [topDigit, digitChar_of_lt small, Nat.shiftRight_eq_div_pow, Config.unit]

theorem belowDigit_eq (man : ℕ) : belowDigit cfg man = man % cfg.unit := rfl

/-- The digits of a fraction: the mantissa is its value in units of the first digit,
and what is left of it is below the last. Printing ends when nothing is left or at
a bound, which it does not pass. -/
theorem etoaPrintFrac_eq {lo dstop : ℤ} (inside : 0 ≤ lo) {end_ n V man s : ℕ} {dec : ℤ}
    {buf : ConvBuffer cfg} (digit : man < 10 * cfg.unit) (bits : s + 4 ≤ cfg.manBits)
    (even : 2 ^ s ∣ man) (top : end_ ≤ cfg.cbuf)
    (room : lo < end_) (above : dstop < dec) (holds : buf.Holds end_ (digitText n V)) :
    ∃ (t e R U : ℕ) (c : ConvBuffer cfg),
      etoaPrintFrac cfg lo dstop end_ man dec buf = .ok (e, R, dec - t, c) ∧ e + t = end_ ∧
      0 < t ∧ c.Holds e (digitText (n + t) U) ∧
      U * cfg.unit + R = 10 ^ (t - 1) * (10 * V * cfg.unit + man) ∧ R < cfg.unit ∧
      lo ≤ e ∧ dstop ≤ dec - t ∧ (R = 0 ∨ e = lo ∨ dec - t = dstop) ∧
      t + s + 3 ≤ cfg.manBits := by
  have positive := cfg.unit_ge
  induction end_ generalizing n V man s dec buf with
  | zero => omega
  | succ e ih =>
      have small : man / cfg.unit < 10 := (Nat.div_lt_iff_lt_mul (by omega)).mpr digit
      have below : man % cfg.unit < cfg.unit := Nat.mod_lt _ (by omega)
      have split : (10 * V + man / cfg.unit) * cfg.unit + man % cfg.unit =
          10 * V * cfg.unit + man := by
        rw [add_mul, add_assoc, Nat.div_add_mod']
      have stored : (⟨Function.update buf.cell e (some (digitChar 0 (man / cfg.unit)))⟩ :
          ConvBuffer cfg).Holds e (digitText (n + 1) (10 * V + man / cfg.unit)) := by
        rw [digitText_cons small]
        exact holds.update_cons _
      rw [etoaPrintFrac, topDigit_eq digit, belowDigit_eq]
      simp only [bind, Except.bind, buf.write_eq _ (show e < cfg.cbuf by omega)]
      by_cases stop : man % cfg.unit = 0 ∨ (e : ℤ) ≤ lo ∨ dec - 1 ≤ dstop
      · rw [if_pos stop]
        refine ⟨1, e, _, _, _, rfl, rfl, one_pos, stored, ?_, below, by omega, by push_cast; omega,
          by push_cast; omega, by omega⟩
        rw [split, Nat.sub_self, pow_zero, one_mul]
      · rw [if_neg stop]
        have next : man % cfg.unit * 10 % 2 ^ cfg.manBits = man % cfg.unit * 10 :=
          Nat.mod_eq_of_lt (by rw [cfg.two_pow_manBits]; omega)
        -- a digit takes one factor of two from what is left
        have power : 2 ^ s ∣ cfg.unit := pow_dvd_pow 2 (by omega)
        have more : s + 4 ≠ cfg.manBits := by
          rintro last
          have whole : cfg.unit ∣ man := by rwa [Config.unit, ← last, Nat.add_sub_cancel]
          exact stop (.inl (Nat.mod_eq_zero_of_dvd whole))
        have even' : 2 ^ (s + 1) ∣ man % cfg.unit * 10 := by
          rw [pow_succ]
          exact Nat.mul_dvd_mul ((Nat.dvd_mod_iff power).mpr even) (by norm_num)
        obtain ⟨t, f, R, U, c, run, count, nonzero, holds', value, less, low, far, ends, few⟩ :=
          @ih (n + 1) (10 * V + man / cfg.unit) (man % cfg.unit * 10) (s + 1) (dec - 1) _ (by omega)
            (by omega) even' (by omega) (by omega) (by omega) stored
        refine ⟨t + 1, f, R, U, c, ?_, by omega, by omega, ?_, ?_, less, low, by push_cast; omega,
          by push_cast; omega, by omega⟩
        · rw [next, run]
          push_cast
          rw [sub_sub, add_comm (1 : ℤ)]
        · rw [Nat.add_comm t 1, ← Nat.add_assoc]
          exact holds'
        · obtain ⟨s, rfl⟩ : ∃ s, t = s + 1 := ⟨t - 1, by omega⟩
          rw [value, ← split, Nat.add_sub_cancel, Nat.add_sub_cancel, pow_succ]
          ring

/-! ## A value cut off at a digit -/

theorem Fraction.value_mul_pow {f : Fraction} (nonzero : ¬ f.IsZero) (k : ℕ) :
    f.value cfg * 10 ^ (f.zeros cfg + k) * cfg.unit * 10 = f.settled cfg * 10 ^ k := by
  have unit : (cfg.unit : ℚ) ≠ 0 := by
    have := cfg.unit_ge
    exact_mod_cast (by omega : cfg.unit ≠ 0)
  rw [Fraction.value, if_neg nonzero, pow_succ, pow_add]
  field_simp

theorem Fraction.value_nonneg (f : Fraction) : 0 ≤ f.value cfg := by
  unfold Fraction.value
  split_ifs
  · exact le_rfl
  · positivity

/-- Behind its zeros a fraction is below one. -/
theorem Fraction.Valid.value_lt {int : ℕ} {f : Fraction} (valid : f.Valid cfg int)
    (nonzero : ¬ f.IsZero) : f.value cfg * 10 ^ f.zeros cfg < 1 := by
  have unit : (0 : ℚ) < cfg.unit := by
    have := cfg.unit_ge
    exact_mod_cast (by omega : 0 < cfg.unit)
  have scaled := @Fraction.value_mul_pow cfg f nonzero 0
  have digit : (f.settled cfg : ℚ) < 10 * cfg.unit := by exact_mod_cast valid.settled_lt
  rw [Nat.add_zero, pow_zero, mul_one] at scaled
  nlinarith

theorem Fraction.Valid.value_lt_one {int : ℕ} {f : Fraction} (valid : f.Valid cfg int) :
    f.value cfg < 1 := by
  by_cases zero : f.IsZero
  · rw [Fraction.value, if_pos zero]
    exact one_pos
  · refine lt_of_le_of_lt ?_ (valid.value_lt zero)
    exact le_mul_of_one_le_right f.value_nonneg (one_le_pow₀ (by norm_num))

/-- A fraction without an integer in front has its first digit behind its zeros. -/
theorem Fraction.Valid.value_ge {int : ℕ} {f : Fraction} (valid : f.Valid cfg int)
    (zero : int = 0) (nonzero : ¬ f.IsZero) : 1 ≤ f.value cfg * 10 ^ (f.zeros cfg + 1) := by
  have unit : (0 : ℚ) < cfg.unit := by
    have := cfg.unit_ge
    exact_mod_cast (by omega : 0 < cfg.unit)
  have scaled := @Fraction.value_mul_pow cfg f nonzero 1
  have large : (cfg.unit : ℚ) ≤ f.settled cfg := by
    exact_mod_cast valid.unit_le_settled zero nonzero
  rw [pow_one] at scaled
  nlinarith

/-- With zeros to spare, the path of a nonzero fraction prints digits. -/
theorem etoaExpand_full {mode : EtoaMode} {int n : ℕ} {f : Fraction} (valid : f.Valid cfg int)
    (nonzero : ¬ f.IsZero) (few : mode.nsigMax < cfg.cbuf) {end_ : ℕ} {lead : Bool}
    {buf : ConvBuffer cfg} (count : end_ + n = cfg.cbuf) (empty : lead = true ↔ n = 0)
    (holds : buf.Holds end_ (digitText n int)) (small : int < 10 ^ n)
    (enough : f.zeros cfg < zerosAllowed (cfg.cbuf - mode.nsigMax - 1) mode.dstop lead end_ 0) :
    ∃ (R carry e m V k : ℕ) (c : ConvBuffer cfg),
      etoaExpand cfg mode lead f.left f.man f.carry end_ 0 buf =
        .ok (16 * R, carry, e, -k, c) ∧
      e + m = cfg.cbuf ∧ c.Holds e (digitText m V) ∧ R < cfg.unit ∧
      (int + f.value cfg) * 10 ^ k = V + R / cfg.unit ∧ 0 < k ∧
      (R = 0 ∨ (e : ℤ) = cfg.cbuf - mode.nsigMax - 1 ∨ -(k : ℤ) = mode.dstop) ∧
      (cfg.cbuf - mode.nsigMax - 1 : ℤ) ≤ e ∧ mode.dstop ≤ -k ∧
      (n ≠ 0 → m = n + k) ∧ (n = 0 → m ≠ 0 ∧ f.zeros cfg + m = k ∧ m ≤ 61) := by
  set lo : ℤ := cfg.cbuf - mode.nsigMax - 1 with lo_eq
  have positive := cfg.unit_ge
  obtain ⟨man, carry, scaled, sum, bit⟩ := valid.fracScale_full enough
  have digit := valid.settled_lt
  obtain ⟨c, e, run, pushed, holds'⟩ := etoaFracScale_eq (by omega) lead _ _ _ _ (by omega) holds
    empty.mp scaled
  have left := zerosAllowed_sub lo mode.dstop lead e (f.zeros cfg) 0
  simp only at run pushed holds'
  rw [pushed] at left
  obtain ⟨room, above⟩ := zerosAllowed_ne_zero.mp
    (show zerosAllowed lo mode.dstop lead e (0 - f.zeros cfg) ≠ 0 by omega)
  have bits := cfg.manBits_ge
  have bits' := cfg.manBits_le
  obtain ⟨t, e', R, V, c', printed, moved, printedSome, holds'', value, less, low, far, ends,
    few⟩ := etoaPrintFrac_eq (by omega) digit (show 0 + 4 ≤ _ by omega) (by simp) (by omega) room
      above holds'
  refine ⟨R, 1, e', n + (if lead then 0 else f.zeros cfg) + t, V, f.zeros cfg + t, c', ?_, by omega,
    holds'', less, ?_, by omega, ?_, low, by push_cast; omega, fun behind => ?_, fun noInt => ?_⟩
  · simp only [etoaExpand, ← lo_eq, run, bind, Except.bind, sum, pure, Except.pure, Nat.zero_le,
      ↓reduceIte, Nat.mod_eq_of_lt (show f.settled cfg < 2 ^ cfg.manBits by
        rw [cfg.two_pow_manBits]; omega), if_pos (And.intro room above), printed]
    rw [Nat.shiftLeft_eq, Nat.mod_eq_of_lt (by rw [cfg.two_pow_manBits]; omega)]
    push_cast
    congr 2
    · omega
    · congr 3
      omega
  · obtain ⟨t, rfl⟩ : ∃ s, t = s + 1 := ⟨t - 1, by omega⟩
    have unit : (cfg.unit : ℚ) ≠ 0 := by exact_mod_cast (by omega : cfg.unit ≠ 0)
    have fraction := @Fraction.value_mul_pow cfg f nonzero (t + 1)
    have whole : (V : ℚ) * cfg.unit + R =
        10 ^ t * (10 * (int * 10 ^ f.zeros cfg) * cfg.unit + f.settled cfg) := by
      exact_mod_cast value
    refine mul_right_cancel₀ unit ?_
    rw [add_mul (V : ℚ), div_mul_cancel₀ _ unit, whole]
    rw [pow_succ 10 t] at fraction
    rw [add_mul, add_mul, pow_add, pow_succ]
    rw [pow_add, pow_succ] at fraction
    linarith
  · push_cast
    omega
  · rw [if_neg (fun same => behind (empty.mp same)), Nat.add_assoc]
  · subst noInt
    rw [if_pos (empty.mpr rfl)]
    omega

/-- Short of zeros, the path of a nonzero fraction prints the zeros there is room for. -/
theorem etoaExpand_stops {mode : EtoaMode} {int n : ℕ} {f : Fraction} (valid : f.Valid cfg int)
    (nonzero : ¬ f.IsZero) (few : mode.nsigMax < cfg.cbuf) {end_ : ℕ} {buf : ConvBuffer cfg}
    (count : end_ + n = cfg.cbuf) (holds : buf.Holds end_ (digitText n int)) {k : ℕ}
    (budget : zerosAllowed (cfg.cbuf - mode.nsigMax - 1) mode.dstop false end_ 0 = k)
    (positive : k ≠ 0) (short : k ≤ f.zeros cfg) :
    ∃ (man carry e : ℕ) (c : ConvBuffer cfg),
      etoaExpand cfg mode false f.left f.man f.carry end_ 0 buf = .ok (man, carry, e, -k, c) ∧
      e + k = end_ ∧ c.Holds e (digitText (n + k) (int * 10 ^ k)) ∧ man ≠ 0 ∧
      ((e : ℤ) = cfg.cbuf - mode.nsigMax - 1 ∨ -(k : ℤ) = mode.dstop) ∧
      (cfg.cbuf - mode.nsigMax - 1 : ℤ) ≤ e ∧ mode.dstop ≤ -k := by
  set lo : ℤ := cfg.cbuf - mode.nsigMax - 1 with lo_eq
  obtain ⟨left, man, scaled, early, rest, small⟩ := valid.fracScale_stops nonzero positive short
  rw [← budget] at scaled
  obtain ⟨c, e, run, pushed, holds'⟩ := etoaFracScale_eq (by omega) false _ _ _ _ (by omega) holds
    (absurd · Bool.false_ne_true) scaled
  rw [budget] at run pushed holds'
  simp only [Bool.false_eq_true, ↓reduceIte] at run pushed holds'
  have full : ¬ (lo < e ∧ mode.dstop < 0 - (k : ℤ)) := by
    rw [← @zerosAllowed_ne_zero lo mode.dstop false e, zerosAllowed_sub, if_neg Bool.false_ne_true,
      pushed, budget, Nat.sub_self, not_not]
  have started := (@zerosAllowed_ne_zero lo mode.dstop false end_ 0).mp (budget ▸ positive)
  rw [zero_sub] at run full
  refine ⟨man, if left ≤ 4 then 1 else 0, e, c, ?_, pushed, holds', rest, ?_⟩
  · simp only [etoaExpand, ← lo_eq, run, bind, Except.bind, if_neg full, pure, Except.pure,
      Nat.add_zero, Nat.mod_eq_of_lt (show man < 2 ^ cfg.manBits by
        rw [cfg.two_pow_manBits]; omega)]
  · have bound : k = (min (end_ - lo) (0 - mode.dstop)).toNat := by
      rw [← budget, zerosAllowed, if_neg Bool.false_ne_true]
    omega

/-- Without room, the path of a nonzero fraction prints nothing. -/
theorem etoaExpand_stop {mode : EtoaMode} {end_ : ℕ} {dec : ℤ}
    (stop : ¬ ((cfg.cbuf - mode.nsigMax - 1 : ℤ) < end_ ∧ mode.dstop < dec)) (lead : Bool)
    (left man carry : ℕ) (buf : ConvBuffer cfg) :
    etoaExpand cfg mode lead left man carry end_ dec buf =
      .ok ((man + carry) % 2 ^ cfg.manBits, if left ≤ 4 then 1 else 0, end_, dec, buf) := by
  have scale : etoaFracScale cfg (cfg.cbuf - mode.nsigMax - 1) mode.dstop lead left 0 man carry
      end_ dec buf = .ok (left, man, carry, end_, dec, buf) := by
    cases left with
    | zero => rfl
    | succ left => rw [etoaFracScale, if_pos stop]
  simp only [etoaExpand, scale, bind, Except.bind, if_neg stop, pure, Except.pure]

/-- The run behind an integer has its digits and those of the fraction. -/
theorem lt_pow_of_front {int n V k : ℕ} {v r : ℚ} (small : int < 10 ^ n) (upper : v < 1)
    (split : (int + v) * 10 ^ k = V + r) (nonneg : 0 ≤ r) : V < 10 ^ (n + k) := by
  have whole : (int : ℚ) + 1 ≤ 10 ^ n := by exact_mod_cast small
  have power : (0 : ℚ) < 10 ^ k := by positivity
  have bound : (V : ℚ) < 10 ^ (n + k) :=
    calc (V : ℚ) ≤ (int + v) * 10 ^ k := by linarith
      _ < 10 ^ n * 10 ^ k := mul_lt_mul_of_pos_right (by linarith) power
      _ = 10 ^ (n + k) := (pow_add 10 n k).symm
  exact_mod_cast bound

/-- Without an integer the run starts with the first digit of the fraction. -/
theorem Fraction.Valid.run_bare {f : Fraction} (valid : f.Valid cfg 0) (nonzero : ¬ f.IsZero)
    {m V : ℕ} {r : ℚ} (positive : m ≠ 0) (split : f.value cfg * 10 ^ (f.zeros cfg + m) = V + r)
    (nonneg : 0 ≤ r) (less : r < 1) : 10 ^ (m - 1) ≤ V ∧ V < 10 ^ m := by
  obtain ⟨s, rfl⟩ : ∃ s, m = s + 1 := ⟨m - 1, by omega⟩
  have high : (V : ℚ) < 10 ^ (s + 1) :=
    calc (V : ℚ) ≤ f.value cfg * 10 ^ f.zeros cfg * 10 ^ (s + 1) := by
          rw [mul_assoc, ← pow_add, split]
          linarith
      _ < 1 * 10 ^ (s + 1) := mul_lt_mul_of_pos_right (valid.value_lt nonzero) (by positivity)
      _ = 10 ^ (s + 1) := one_mul _
  have low : ((10 ^ s : ℕ) : ℚ) < (V + 1 : ℕ) := by
    push_cast
    calc (10 : ℚ) ^ s = 1 * 10 ^ s := (one_mul _).symm
      _ ≤ f.value cfg * 10 ^ (f.zeros cfg + 1) * 10 ^ s :=
          mul_le_mul_of_nonneg_right (valid.value_ge rfl nonzero) (by positivity)
      _ = V + r := by rw [mul_assoc, ← pow_add, ← split, Nat.add_assoc, Nat.add_comm 1]
      _ < V + 1 := by linarith
  exact ⟨Nat.lt_succ_iff.mp (by exact_mod_cast low), by exact_mod_cast high⟩

/-- The path of a nonzero fraction extends the integer behind which it starts to a
run of digits of the sum. It stops where nothing is left or at a bound. -/
theorem etoaExpand_eq {mode : EtoaMode} {int n : ℕ} {f : Fraction} (valid : f.Valid cfg int)
    (nonzero : ¬ f.IsZero) (few : mode.nsigMax < cfg.cbuf) {end_ : ℕ} {lead : Bool}
    {buf : ConvBuffer cfg} (count : end_ + n = cfg.cbuf) (empty : lead = true ↔ n = 0)
    (holds : buf.Holds end_ (digitText n int)) (small : int < 10 ^ n)
    (room : cfg.cbuf - mode.nsigMax - 1 < (end_ : ℤ)) (above : mode.dstop < 0)
    (deep : n = 0 → mode.dstop < -542) :
    ∃ (man carry e m V k : ℕ) (r : ℚ) (c : ConvBuffer cfg),
      etoaExpand cfg mode lead f.left f.man f.carry end_ 0 buf = .ok (man, carry, e, -k, c) ∧
      e + m = cfg.cbuf ∧ c.Holds e (digitText m V) ∧ V < 10 ^ m ∧
      (int + f.value cfg) * 10 ^ k = V + r ∧ 0 ≤ r ∧ r < 1 ∧ (man = 0 ↔ r = 0) ∧
      (man = 0 ∨ (e : ℤ) = cfg.cbuf - mode.nsigMax - 1 ∨ -(k : ℤ) = mode.dstop) ∧
      (cfg.cbuf - mode.nsigMax - 1 : ℤ) ≤ e ∧ mode.dstop ≤ -k ∧
      (n ≠ 0 → m = n + k) ∧ (n = 0 → m ≠ 0 ∧ 10 ^ (m - 1) ≤ V ∧ k ≤ 603) := by
  have positive := cfg.unit_ge
  have unit : (0 : ℚ) < cfg.unit := by exact_mod_cast (by omega : 0 < cfg.unit)
  have allowed := (@zerosAllowed_ne_zero (cfg.cbuf - mode.nsigMax - 1) mode.dstop lead end_ 0).mpr
    ⟨room, above⟩
  have lower := @Fraction.value_nonneg cfg f
  have upper := valid.value_lt_one
  by_cases enough : f.zeros cfg < zerosAllowed (cfg.cbuf - mode.nsigMax - 1) mode.dstop lead end_ 0
  · obtain ⟨R, carry, e, m, V, k, c, run, count', holds', less, split, counted, ends, low, far,
      wide, alone⟩ := etoaExpand_full valid nonzero few count empty holds small enough
    have lessQ : (R : ℚ) < cfg.unit := by exact_mod_cast less
    have rest : (0 : ℚ) ≤ R / cfg.unit ∧ (R : ℚ) / cfg.unit < 1 :=
      ⟨by positivity, (div_lt_one unit).mpr lessQ⟩
    have bare : n = 0 → 10 ^ (m - 1) ≤ V ∧ V < 10 ^ m := by
      intro vanishes
      obtain ⟨counted, length, -⟩ := alone vanishes
      obtain rfl : int = 0 := by
        rw [vanishes] at small
        omega
      rw [← length, Nat.cast_zero, zero_add] at split
      exact valid.run_bare nonzero counted split rest.1 rest.2
    refine ⟨16 * R, carry, e, m, V, k, R / cfg.unit, c, run, count', holds', ?_, split,
      rest.1, rest.2, ?_, ?_, low, far, wide,
      fun vanishes => ⟨(alone vanishes).1, (bare vanishes).1, ?_⟩⟩
    · by_cases vanishes : n = 0
      · exact (bare vanishes).2
      · rw [wide vanishes]
        exact lt_pow_of_front small upper split rest.1
    · rw [div_eq_zero_iff, or_iff_left unit.ne', Nat.cast_eq_zero]
      omega
    · exact ends.imp_left fun zero => by rw [zero]
    · have short := valid.zeros_le nonzero
      have := alone vanishes
      omega
  · have printed : n ≠ 0 := by
      rintro rfl
      refine enough ?_
      have short := valid.zeros_le nonzero
      rw [empty.mpr rfl, zerosAllowed, if_pos rfl, if_pos room]
      have := deep rfl
      omega
    obtain rfl : lead = false := Bool.eq_false_iff.mpr fun same => printed (empty.mp same)
    have vanishes : int = 0 := by
      by_contra integer
      rw [valid.zeros_behind integer] at enough
      omega
    subst vanishes
    obtain ⟨k, budget⟩ : ∃ k,
        zerosAllowed (cfg.cbuf - mode.nsigMax - 1) mode.dstop false end_ 0 = k := ⟨_, rfl⟩
    rw [budget] at allowed enough
    obtain ⟨man, carry, e, c, run, pushed, holds', rest, ends, low, far⟩ :=
      etoaExpand_stops valid nonzero few count holds budget allowed (by omega)
    rw [Nat.zero_mul] at holds'
    have leading := valid.value_lt nonzero
    have first := valid.value_ge rfl nonzero
    refine ⟨man, carry, e, n + k, 0, k, f.value cfg * 10 ^ k, c, run, by omega, holds',
      by positivity, by push_cast; ring, by positivity, ?_, ?_, .inr ends, low, far, fun _ => rfl,
      fun vanishes => absurd vanishes printed⟩
    · refine lt_of_le_of_lt ?_ leading
      exact mul_le_mul_of_nonneg_left (pow_le_pow_right₀ (by norm_num) (by omega)) lower
    · have positive : 0 < f.value cfg := by
        by_contra zero
        have : f.value cfg = 0 := le_antisymm (by linarith) lower
        rw [this, zero_mul] at first
        linarith
      exact ⟨fun same => absurd same rest, fun same => absurd same (by positivity)⟩

/-! ## A pass -/

/-- The digits of the integer part that a pass prints. -/
def intDigits (mode : EtoaMode) (int : ℕ) : ℕ :=
  if int ≠ 0 ∨ mode.fmode then numeralLength 10 int else 0

theorem intDigits_le {mode : EtoaMode} {int : ℕ} (small : int < 16 * cfg.unit) :
    intDigits mode int ≤ 20 := by
  unfold intDigits
  split_ifs
  · exact numeralLength_int small
  · omega

theorem intDigits_eq_zero {mode : EtoaMode} {int : ℕ} :
    intDigits mode int = 0 ↔ int = 0 ∧ mode.fmode = false := by
  have positive := numeralLength_pos 10 int
  unfold intDigits
  split_ifs with printed
  · constructor
    · omega
    · rintro ⟨zero, plain⟩
      simp [zero, plain] at printed
  · simpa [not_or] using printed

theorem lt_pow_intDigits (mode : EtoaMode) (int : ℕ) : int < 10 ^ intDigits mode int := by
  unfold intDigits
  split_ifs with printed
  · exact lt_pow_numeralLength (by norm_num) int
  · have : int = 0 := by
      by_contra nonzero
      exact printed (.inl nonzero)
    rw [this]
    exact one_pos

/-- A pass, in terms of the machine. -/
theorem etoaDigits_eq (mode : EtoaMode) (bin : ℕ) (exp : ℤ) (buf : ConvBuffer cfg) :
    etoaDigits cfg mode bin exp buf = (do
      let (end_, buf) ←
        if (machine cfg bin exp).int ≠ 0 ∨ mode.fmode then
          etoaPrintInt cfg (machine cfg bin exp).int buf
        else pure (cfg.cbuf, buf)
      etoaFraction cfg mode bin (etoaInteger cfg bin exp).1
        ⟨end_, (machine cfg bin exp).dec, (machine cfg bin exp).up, exp ≤ cfg.shiftBits, buf⟩) :=
  rfl

/-- A pass prints the integer and goes on with the fraction part. -/
theorem etoaDigits_printed {bin : ℕ} {exp : ℤ} (valid : (machine cfg bin exp).Valid cfg)
    (mode : EtoaMode) (buf : ConvBuffer cfg) :
    ∃ (e : ℕ) (b : ConvBuffer cfg), e + intDigits mode (machine cfg bin exp).int = cfg.cbuf ∧
      b.Holds e (digitText (intDigits mode (machine cfg bin exp).int) (machine cfg bin exp).int) ∧
      etoaDigits cfg mode bin exp buf = etoaFraction cfg mode bin (etoaInteger cfg bin exp).1
        ⟨e, (machine cfg bin exp).dec, (machine cfg bin exp).up, exp ≤ cfg.shiftBits, b⟩ := by
  have room := cfg.cbuf_ge
  have short := @intDigits_le cfg mode _ valid.fits.1
  rw [etoaDigits_eq]
  by_cases printed : (machine cfg bin exp).int ≠ 0 ∨ mode.fmode
  · obtain ⟨b, run, holds⟩ := etoaPrintInt_eq valid.fits.1 buf
    rw [intDigits, if_pos printed] at short ⊢
    exact ⟨_, b, by omega, holds, by simp only [if_pos printed, run, bind, Except.bind]⟩
  · rw [intDigits, if_neg printed]
    exact ⟨cfg.cbuf, buf, by omega, trivial,
      by simp only [if_neg printed, bind, Except.bind, pure, Except.pure]⟩

section

variable {bin : ℕ} {exp : ℤ} {mode : EtoaMode} (d : Digits cfg)

theorem etoaFraction_none (whole : (machine cfg bin exp).frac = none) :
    etoaFraction cfg mode bin (etoaInteger cfg bin exp).1 d = .ok d := by
  simp only [machine] at whole
  split_ifs at whole with fraction
  rw [etoaFraction, if_neg fraction]
  rfl

theorem etoaFraction_zero {f : Fraction} (fraction : (machine cfg bin exp).frac = some f)
    (zero : f.IsZero) :
    etoaFraction cfg mode bin (etoaInteger cfg bin exp).1 d =
      .ok ⟨d.end_, d.dec, 0, true, d.buf⟩ := by
  simp only [machine] at fraction
  split_ifs at fraction with covered
  obtain rfl := Option.some.inj fraction
  obtain ⟨man, carry⟩ : (fracStart cfg bin (etoaInteger cfg bin exp).1).1 = 0 ∧
      (fracStart cfg bin (etoaInteger cfg bin exp).1).2.1 = 0 := zero
  rw [etoaFraction, if_pos covered]
  simp [man, carry, bind, Except.bind, pure, Except.pure]

theorem etoaFraction_some {f : Fraction} (fraction : (machine cfg bin exp).frac = some f)
    (nonzero : ¬ f.IsZero) {man carry e : ℕ} {dec : ℤ} {c : ConvBuffer cfg}
    (run : etoaExpand cfg mode (d.end_ = cfg.cbuf) f.left f.man f.carry d.end_ d.dec d.buf =
      .ok (man, carry, e, dec, c)) :
    etoaFraction cfg mode bin (etoaInteger cfg bin exp).1 d =
      .ok ⟨e, dec, carry &&& man >>> (cfg.manBits - 1), man = 0, c⟩ := by
  simp only [machine] at fraction
  split_ifs at fraction with covered
  obtain rfl := Option.some.inj fraction
  have taken : (fracStart cfg bin (etoaInteger cfg bin exp).1).1 ≠ 0 ∨
      (fracStart cfg bin (etoaInteger cfg bin exp).1).2.1 ≠ 0 := by
    rwa [Fraction.IsZero, not_and_or] at nonzero
  rw [etoaFraction, if_pos covered]
  simp only [if_pos taken, bind, Except.bind, pure, Except.pure]
  simp only at run
  rw [run]

end

/-- **The digits of a pass** over a value with a fraction are those of the number the
conversion works with, down to a bound or to the end of it. -/
theorem etoaDigits_some {bin : ℕ} {exp : ℤ} (valid : (machine cfg bin exp).Valid cfg)
    {mode : EtoaMode} {f : Fraction} (fraction : (machine cfg bin exp).frac = some f)
    (few : mode.nsigMax < cfg.cbuf)
    (room : (intDigits mode (machine cfg bin exp).int : ℤ) ≤ mode.nsigMax)
    (above : mode.dstop < 0)
    (deep : intDigits mode (machine cfg bin exp).int = 0 → mode.dstop < -542)
    (buf : ConvBuffer cfg) :
    ∃ (carry e m V k : ℕ) (r : ℚ) (c : ConvBuffer cfg),
      etoaDigits cfg mode bin exp buf = .ok ⟨e, -k, carry, r = 0, c⟩ ∧
      e + m = cfg.cbuf ∧ c.Holds e (digitText m V) ∧ V < 10 ^ m ∧
      (machine cfg bin exp).value cfg * 10 ^ k = V + r ∧ 0 ≤ r ∧ r < 1 ∧ (r = 0 → carry = 0) ∧
      (r = 0 ∨ (e : ℤ) = cfg.cbuf - mode.nsigMax - 1 ∨ -(k : ℤ) = mode.dstop) ∧
      (cfg.cbuf - mode.nsigMax - 1 : ℤ) ≤ e ∧ mode.dstop ≤ -k ∧
      (intDigits mode (machine cfg bin exp).int ≠ 0 →
        m = intDigits mode (machine cfg bin exp).int + k) ∧
      (intDigits mode (machine cfg bin exp).int = 0 →
        m = 0 ∧ (machine cfg bin exp).value cfg = 0 ∨ m ≠ 0 ∧ 10 ^ (m - 1) ≤ V ∧ k ≤ 603) := by
  obtain ⟨e, b, count, holds, run⟩ := etoaDigits_printed valid mode buf
  have small := lt_pow_intDigits mode (machine cfg bin exp).int
  obtain ⟨dec, valid'⟩ := valid.fraction f fraction
  have value : (machine cfg bin exp).value cfg = (machine cfg bin exp).int + f.value cfg := by
    rw [Machine.value, fraction]
  rw [value]
  by_cases zero : f.IsZero
  · have vanishes : f.value cfg = 0 := if_pos zero
    refine ⟨0, e, _, (machine cfg bin exp).int, 0, 0, b, ?_, count, holds, small, ?_, le_rfl,
      one_pos, fun _ => rfl, .inl rfl, by omega, by omega, fun _ => rfl, fun empty => ?_⟩
    · rw [run, etoaFraction_zero _ fraction zero, dec]
      simp
    · rw [vanishes]
      ring
    · refine .inl ⟨empty, ?_⟩
      rw [(intDigits_eq_zero.mp empty).1, vanishes]
      simp
  · obtain ⟨man, carry, e', m, V, k, r, c, expand, count', holds', below, split, nonneg, less, rest,
      ends, low, far, wide, alone⟩ := @etoaExpand_eq _ _ _ _ _ valid' zero few e (e = cfg.cbuf) b
        count (by rw [decide_eq_true_iff]; omega) holds small (by omega) above deep
    have expand' := expand
    rw [← Nat.cast_zero, ← dec] at expand'
    refine ⟨carry &&& man >>> (cfg.manBits - 1), e', m, V, k, r, c, ?_, count', holds', below,
      split,
      nonneg, less, fun exact => ?_, ends.imp_left rest.mp, low, far, wide, fun vanishes =>
      .inr (alone vanishes)⟩
    · rw [run, etoaFraction_some _ fraction zero expand']
      simp only [rest]
    · rw [rest.mpr exact, Nat.zero_shiftRight, Nat.and_zero]

/-- What a pass knows of the digits below the integer: there are none. -/
def intTail (cfg : Config) (bin : ℕ) (exp : ℤ) : Bool :=
  match (machine cfg bin exp).frac with
  | none => exp ≤ cfg.shiftBits
  | some f => (f.man + f.carry) % 2 ^ cfg.manBits = 0

/-- An integer with as many digits as the pass may generate ends it. -/
theorem etoaDigits_int {bin : ℕ} {exp : ℤ} (valid : (machine cfg bin exp).Valid cfg)
    {mode : EtoaMode} (full : (machine cfg bin exp).frac ≠ none →
      mode.nsigMax < intDigits mode (machine cfg bin exp).int) (buf : ConvBuffer cfg) :
    ∃ (carry e : ℕ) (c : ConvBuffer cfg),
      etoaDigits cfg mode bin exp buf =
        .ok ⟨e, (machine cfg bin exp).dec, carry, intTail cfg bin exp, c⟩ ∧
      e + intDigits mode (machine cfg bin exp).int = cfg.cbuf ∧
      c.Holds e (digitText (intDigits mode (machine cfg bin exp).int) (machine cfg bin exp).int) ∧
      ((machine cfg bin exp).frac = none → carry = (machine cfg bin exp).up) := by
  obtain ⟨e, b, count, holds, run⟩ := etoaDigits_printed valid mode buf
  match frac : (machine cfg bin exp).frac with
  | none =>
      refine ⟨(machine cfg bin exp).up, e, b, ?_, count, holds, fun _ => rfl⟩
      rw [run, etoaFraction_none _ frac, intTail, frac]
  | some f =>
      have many := full (by rw [frac]; nofun)
      by_cases zero : f.IsZero
      · refine ⟨0, e, b, ?_, count, holds, nofun⟩
        rw [run, etoaFraction_zero _ frac zero, intTail, frac]
        simp [zero.1, zero.2]
      · have stop : ¬ ((cfg.cbuf - mode.nsigMax - 1 : ℤ) < e ∧
            mode.dstop < (machine cfg bin exp).dec) := by omega
        have expand := etoaExpand_stop stop (e = cfg.cbuf) f.left f.man f.carry b
        have digits := run.trans (etoaFraction_some _ frac zero expand)
        refine ⟨(if f.left ≤ 4 then 1 else 0) &&&
          ((f.man + f.carry) % 2 ^ cfg.manBits) >>> (cfg.manBits - 1), e, b, ?_, count, holds,
          nofun⟩
        rw [digits, intTail, frac]

end Nanoprintf
