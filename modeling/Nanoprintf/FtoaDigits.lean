import Nanoprintf.Ftoa
import Nanoprintf.EtoaRounding
import Nanoprintf.DecimalReading

/-!
# The digits of the fused conversion

What each loop of `ftoaFinite` leaves in the buffer. The point is at a fixed
index, the integer above it and the fraction below it, each with its units first,
so that a carry runs upwards through both. A loop that finds no room leaves
through the exit, and the lemmas say exactly when.
-/

set_option autoImplicit false

namespace Nanoprintf

open Foundations

variable {cfg : Config}

/-! ## The integer -/

/-- The count of zeros is only added to. -/
theorem etoaIntScale_add (expI dec man carry : ℕ) :
    etoaIntScale cfg expI dec man carry =
      (dec + (etoaIntScale cfg expI 0 man carry).1, (etoaIntScale cfg expI 0 man carry).2) := by
  induction expI generalizing dec man carry with
  | zero => simp [etoaIntScale]
  | succ expI ih =>
      rw [etoaIntScale, etoaIntScale]
      split_ifs
      · exact ih ..
      · simp only
        rw [ih (dec + 1), ih (0 + 1)]
        simp only [Nat.zero_add, Nat.add_assoc]

/-- The integer scaling stores a zero for each that the shared one counts. -/
theorem ftoaIntScale_eq (expI : ℕ) {s s' man carry a c : ℕ} {buf : ConvBuffer cfg}
    (inside : s ≤ cfg.cbuf) (scaled : etoaIntScale cfg expI s man carry = (s', a, c)) :
    s ≤ s' ∧ (cfg.cbuf < s' ∧ ftoaIntScale cfg expI s man carry buf = gotoExit ∨
      s' ≤ cfg.cbuf ∧ ∃ b, ftoaIntScale cfg expI s man carry buf = .ok (s', a, c, b) ∧
        b.Holds s (List.replicate (s' - s) '0') ∧ ∀ j, j < s → b.cell j = buf.cell j) := by
  induction expI generalizing s man carry buf with
  | zero =>
      obtain ⟨rfl, rfl, rfl⟩ : s = s' ∧ man = a ∧ carry = c := by simpa [etoaIntScale] using scaled
      refine ⟨le_rfl, .inr ⟨inside, buf, rfl, ?_, fun _ _ => rfl⟩⟩
      rw [Nat.sub_self]
      trivial
  | succ expI ih =>
      rw [etoaIntScale] at scaled
      rw [ftoaIntScale]
      by_cases free : (!isFull cfg man) = true
      · rw [if_pos free] at scaled ⊢
        exact ih inside scaled
      · rw [if_neg free] at scaled ⊢
        by_cases full : cfg.cbuf ≤ s
        · have more : s + 1 ≤ s' := by
            simp only at scaled
            rw [etoaIntScale_add] at scaled
            have first := congrArg Prod.fst scaled
            simp only at first
            omega
          exact ⟨by omega, .inl ⟨by omega, if_pos full⟩⟩
        · rw [if_neg full]
          simp only [bind, Except.bind, buf.write_eq '0' (show s < cfg.cbuf by omega)]
          obtain ⟨more, result⟩ := @ih (s + 1) _ _ ⟨Function.update buf.cell s (some '0')⟩
            (by omega) scaled
          refine ⟨by omega, result.imp_right ?_⟩
          rintro ⟨fits, b, run, zeros, frame⟩
          refine ⟨fits, b, run, ?_, fun j below => ?_⟩
          · rw [show s' - s = (s' - (s + 1)) + 1 by omega, List.replicate_succ, Buffer.holds_cons,
              frame s (by omega)]
            exact ⟨Function.update_self .., zeros⟩
          · rw [frame j (by omega)]
            exact Function.update_of_ne (by omega) _ _

theorem emitWide_exit (room : ℕ) {i man : ℕ} (inside : i + room = cfg.cbuf)
    (long : room < numeralLength 10 man) (buf : ConvBuffer cfg) :
    emitWide cfg room i man buf = gotoExit := by
  induction room generalizing i man buf with
  | zero => rfl
  | succ room ih =>
      have more : ¬ man < 10 := fun small => by
        rw [numeralLength, numeral_of_lt small, List.length_singleton] at long
        omega
      have length : numeralLength 10 man = numeralLength 10 (man / 10) + 1 := by
        rw [numeralLength, numeral_of_le (by norm_num) (by omega), List.length_cons, numeralLength]
      rw [emitWide]
      simp only [bind, Except.bind, buf.write_eq _ (show i < cfg.cbuf by omega)]
      rw [if_pos (by omega)]
      exact ih (by omega) (by omega) _

/-- The integer has room at an index. Where the integer emitter prints it, room for the widest
is asked for. -/
def IntRoom (cfg : Config) (i man : ℕ) : Prop :=
  i + (if cfg.manBits ≤ 32 then 10 else numeralLength 10 man) ≤ cfg.cbuf

theorem numeralLength_narrow {man : ℕ} (narrow : cfg.manBits ≤ 32) (small : man < 16 * cfg.unit) :
    numeralLength 10 man ≤ 10 := by
  rw [← cfg.two_pow_manBits] at small
  exact numeralLength_le (by norm_num) (by norm_num)
    ((small.trans_le (Nat.pow_le_pow_right two_pos narrow)).trans (by norm_num))

theorem IntRoom.length_le {i man : ℕ} (room : IntRoom cfg i man) (small : man < 16 * cfg.unit) :
    i + numeralLength 10 man ≤ cfg.cbuf := by
  unfold IntRoom at room
  split_ifs at room with narrow
  · have short := numeralLength_narrow narrow small
    omega
  · exact room

/-- The integer is stored from its place up, if there is room. -/
theorem ftoaPrintInt_eq {i man : ℕ} (small : man < 16 * cfg.unit) (inside : i ≤ cfg.cbuf)
    (buf : ConvBuffer cfg) :
    ftoaPrintInt cfg i man buf = gotoExit ∧ ¬ IntRoom cfg i man ∨
      IntRoom cfg i man ∧ ∃ c, ftoaPrintInt cfg i man buf = .ok (i + numeralLength 10 man, c) ∧
        c.Holds i (numeralText 10 0 man) ∧ ∀ j, j < i → c.cell j = buf.cell j := by
  have wide := cfg.uintBits_ge
  unfold ftoaPrintInt IntRoom
  by_cases narrow : cfg.manBits ≤ 32
  · have uses := usesUtoa_iff.mpr ⟨narrow, wide⟩
    have short := numeralLength_narrow narrow small
    rw [if_pos uses, if_pos narrow]
    by_cases tight : cfg.cbuf < i + 10
    · exact .inl ⟨if_pos tight, by omega⟩
    · obtain ⟨c, run, holds, frame⟩ := npfUtoaRevEnd_eq 0 (.inr (.inl rfl)) (int_lt_word uses small)
        (i := i) (by omega) buf
      rw [if_neg tight]
      exact .inr ⟨by omega, c, run, holds, fun j below => frame j (.inl below)⟩
  · have uses : ¬ usesUtoa cfg = true := fun uses => narrow (usesUtoa_iff.mp uses).1
    rw [if_neg uses, if_neg narrow]
    by_cases fits : numeralLength 10 man ≤ cfg.cbuf - i
    · obtain ⟨c, run, holds, frame⟩ := emitWide_eq (cfg.cbuf - i) (i := i) (by omega) fits buf
      exact .inr ⟨by omega, c, run, holds, fun j below => frame j (.inl below)⟩
    · exact .inl ⟨emitWide_exit _ (by omega) (by omega) buf, by omega⟩

/-! ## The fraction -/

/-- The scaling loop stores the zeros that `fracScale` produces within the precision. -/
theorem ftoaFracScale_eq (left digit man carry : ℕ) {decF : ℕ} {buf : ConvBuffer cfg} {r : Scaled}
    (inside : decF ≤ cfg.cbuf) (scaled : fracScale cfg decF left digit man carry = r) :
    r.zeros ≤ decF ∧ ∃ b, ftoaFracScale cfg left digit man carry decF buf =
        .ok (r.left, r.man, r.carry, decF - r.zeros, b) ∧
      b.Holds (decF - r.zeros) (digitText r.zeros 0) ∧
      ∀ j, decF ≤ j → b.cell j = buf.cell j := by
  induction left generalizing digit man carry decF buf r with
  | zero =>
      rw [fracScale_done] at scaled
      subst scaled
      exact ⟨Nat.zero_le _, buf, rfl, trivial, fun _ _ => rfl⟩
  | succ left ih =>
      rw [fracScale] at scaled
      rw [ftoaFracScale]
      by_cases stop : decF = 0
      · rw [if_pos stop] at scaled ⊢
        subst scaled
        exact ⟨Nat.zero_le _, buf, rfl, trivial, fun _ _ => rfl⟩
      rw [if_neg stop] at scaled ⊢
      by_cases halves : (isLarge cfg man || decide (digit ≠ 0)) = true
      · rw [if_pos halves] at scaled ⊢
        exact ih _ _ _ inside scaled
      rw [if_neg halves] at scaled ⊢
      by_cases early : 4 < left + 1
      · rw [if_pos early] at scaled ⊢
        obtain ⟨d, rfl⟩ : ∃ d, decF = d + 1 := ⟨decF - 1, by omega⟩
        rw [Nat.add_sub_cancel] at scaled ⊢
        simp only [bind, Except.bind, buf.write_eq '0' (show d < cfg.cbuf by omega)]
        obtain ⟨few, b, run, zeros, frame⟩ := @ih digit (timesFive cfg man carry) 0 d
          ⟨Function.update buf.cell d (some '0')⟩ _ (by omega) rfl
        subst scaled
        refine ⟨by simpa using few, b, ?_, ?_, fun j above => ?_⟩
        · rw [run, Nat.add_sub_add_right]
        · rw [Nat.add_sub_add_right, digitText_add, Buffer.holds_append, length_digitText,
            Nat.zero_div, show d - _ + _ = d from Nat.sub_add_cancel few]
          refine ⟨zeros, ?_, trivial⟩
          rw [frame d le_rfl]
          exact Function.update_self ..
        · rw [frame j (by omega)]
          exact Function.update_of_ne (by omega) _ _
      · rw [if_neg early] at scaled ⊢
        exact ih _ _ _ inside scaled

/-- The digits of the fraction down to the last of its precision, and what is left. -/
theorem ftoaPrintFrac_eq (k : ℕ) {man : ℕ} (digit : man < 10 * cfg.unit) (inside : k < cfg.cbuf)
    (buf : ConvBuffer cfg) :
    ∃ (R D : ℕ) (c : ConvBuffer cfg), ftoaPrintFrac cfg (k + 1) man buf = .ok (R, c) ∧
      D * cfg.unit + R = 10 ^ k * man ∧ R < cfg.unit ∧ D < 10 ^ (k + 1) ∧
      c.Holds 0 (digitText (k + 1) D) ∧ ∀ j, k < j → c.cell j = buf.cell j := by
  have positive := cfg.unit_ge
  induction k generalizing man buf with
  | zero =>
      have small : man / cfg.unit < 10 := (Nat.div_lt_iff_lt_mul (by omega)).mpr digit
      refine ⟨man % cfg.unit, man / cfg.unit,
        ⟨Function.update buf.cell 0 (some (digitChar 0 (man / cfg.unit)))⟩, ?_, ?_,
        Nat.mod_lt _ (by omega), small, ?_, fun j above => Function.update_of_ne (by omega) _ _⟩
      · rw [ftoaPrintFrac, topDigit_eq digit, belowDigit_eq]
        simp only [bind, Except.bind, buf.write_eq _ inside, ↓reduceIte, pure, Except.pure]
      · rw [Nat.div_add_mod', pow_zero, one_mul]
      · rw [digitText_succ, Nat.mod_eq_of_lt small]
        exact ⟨Function.update_self 0 _ buf.cell, trivial⟩
  | succ k ih =>
      have small : man / cfg.unit < 10 := (Nat.div_lt_iff_lt_mul (by omega)).mpr digit
      have below : man % cfg.unit < cfg.unit := Nat.mod_lt _ (by omega)
      obtain ⟨R, D, c, run, value, less, bound, holds, frame⟩ := @ih (man % cfg.unit * 10)
        (by omega) (by omega)
        ⟨Function.update buf.cell (k + 1) (some (digitChar 0 (man / cfg.unit)))⟩
      have top : (D + man / cfg.unit * 10 ^ (k + 1)) / 10 ^ (k + 1) = man / cfg.unit := by
        rw [Nat.add_mul_div_right _ _ (by positivity), Nat.div_eq_of_lt bound, Nat.zero_add]
      refine ⟨R, D + man / cfg.unit * 10 ^ (k + 1), c, ?_, ?_, less, ?_, ?_, fun j above => ?_⟩
      · rw [ftoaPrintFrac, topDigit_eq digit, belowDigit_eq]
        simp only [bind, Except.bind, buf.write_eq _ inside]
        rw [if_neg (Nat.succ_ne_zero k), Nat.mod_eq_of_lt (by rw [cfg.two_pow_manBits]; omega)]
        exact run
      · have split := Nat.div_add_mod' man cfg.unit
        calc (D + man / cfg.unit * 10 ^ (k + 1)) * cfg.unit + R
            = D * cfg.unit + R + man / cfg.unit * cfg.unit * 10 ^ (k + 1) := by ring
          _ = 10 ^ (k + 1) * (man / cfg.unit * cfg.unit + man % cfg.unit) := by
              rw [value, pow_succ]
              ring
          _ = 10 ^ (k + 1) * man := by rw [split]
      · calc D + man / cfg.unit * 10 ^ (k + 1) < (man / cfg.unit + 1) * 10 ^ (k + 1) := by
              rw [add_mul, one_mul]
              omega
          _ ≤ 10 * 10 ^ (k + 1) := Nat.mul_le_mul_right _ small
          _ = 10 ^ (k + 1 + 1) := (pow_succ' ..).symm
      · rw [digitText_add, Buffer.holds_append, length_digitText, top, Nat.zero_add]
        constructor
        · rw [digitText_add_mul_pow]
          exact holds
        · rw [digitText_succ, Nat.mod_eq_of_lt small]
          refine ⟨?_, trivial⟩
          rw [frame (k + 1) (by omega)]
          exact Function.update_self ..
      · rw [frame j (by omega)]
        exact Function.update_of_ne (by omega) _ _

/-! ## Rounding -/

/-- A carry into a digit. -/
theorem ftoaRound_digit {i end_ d : ℕ} {buf : ConvBuffer cfg} (inside : i < end_)
    (room : end_ ≤ cfg.cbuf) (digit : d < 10) (stored : buf.cell i = some (digitChar 0 d)) :
    ftoaRound cfg (cfg.cbuf - i) end_ buf =
      if d = 9 then
        ftoaRound cfg (cfg.cbuf - (i + 1)) end_ ⟨Function.update buf.cell i (some '0')⟩
      else .ok (end_, ⟨Function.update buf.cell i (some (digitChar 0 (d + 1)))⟩) := by
  have read : buf.read i = (.ok (digitChar 0 d) : Run Char) :=
    Buffer.read_eq (by omega) stored
  have point : ¬ (digitChar 0 d == '.') = true := by
    rw [beq_iff_eq]
    intro same
    have digital := isDigit_digitChar digit
    rw [same] at digital
    exact absurd digital (by decide)
  obtain ⟨r, rest⟩ : ∃ r, cfg.cbuf - i = r + 1 := ⟨cfg.cbuf - i - 1, by omega⟩
  rw [rest, ftoaRound, show cfg.cbuf - (r + 1) = i by omega, if_neg (by omega),
    show cfg.cbuf - (i + 1) = r by omega]
  simp only [pure, Except.pure, bind, Except.bind, read]
  rw [if_neg point, ← show digitChar 0 9 = '9' from rfl, digitChar_beq digit (by norm_num)]
  by_cases nine : d = 9
  · rw [if_pos (decide_eq_true nine), if_pos nine]
    simp only [buf.write_eq '0' (show i < cfg.cbuf by omega)]
  · rw [if_neg (by rwa [decide_eq_true_iff]), if_neg nine, digitChar_succ (by omega)]
    simp only [buf.write_eq _ (show i < cfg.cbuf by omega)]

/-- A carry into a run of digits that can take it. -/
theorem ftoaRound_fits {n i end_ V : ℕ} {buf : ConvBuffer cfg} (inside : i + n ≤ end_)
    (room : end_ ≤ cfg.cbuf) (fits : V + 1 < 10 ^ n) (holds : buf.Holds i (digitText n V)) :
    ∃ c, ftoaRound cfg (cfg.cbuf - i) end_ buf = .ok (end_, c) ∧
      c.Holds i (digitText n (V + 1)) ∧ ∀ j, j < i ∨ i + n ≤ j → c.cell j = buf.cell j := by
  induction n generalizing i buf V with
  | zero => simp at fits
  | succ n ih =>
      rw [digitText_succ, Buffer.holds_cons] at holds
      have digit := Nat.mod_lt V (show 10 > 0 by norm_num)
      rw [ftoaRound_digit (by omega) room digit holds.1]
      by_cases nine : V % 10 = 9
      · obtain ⟨c, run, holds', frame⟩ := @ih (i + 1) (V / 10)
          ⟨Function.update buf.cell i (some '0')⟩ (by omega) (by rw [pow_succ] at fits; omega)
          (holds.2.update _ (.inl (by omega)))
        rw [if_pos nine]
        refine ⟨c, run, ?_, fun j outside => ?_⟩
        · rw [show V + 1 = 10 * (V / 10 + 1) + 0 by omega, digitText_cons (by norm_num),
            digitChar_zero, Buffer.holds_cons, frame i (by omega)]
          exact ⟨Function.update_self .., holds'⟩
        · rw [frame j (by omega)]
          exact Function.update_of_ne (by omega) _ _
      · rw [if_neg nine]
        refine ⟨_, rfl, ?_, fun j outside => Function.update_of_ne (by omega) _ _⟩
        rw [show V + 1 = 10 * (V / 10) + (V % 10 + 1) by omega, digitText_cons (by omega)]
        exact holds.2.update_cons _

/-- A carry through a run of nines. -/
theorem ftoaRound_nines {n i end_ V : ℕ} {buf : ConvBuffer cfg} (inside : i + n ≤ end_)
    (room : end_ ≤ cfg.cbuf) (nines : V + 1 = 10 ^ n) (holds : buf.Holds i (digitText n V)) :
    ∃ c, ftoaRound cfg (cfg.cbuf - i) end_ buf = ftoaRound cfg (cfg.cbuf - (i + n)) end_ c ∧
      c.Holds i (digitText n 0) ∧ ∀ j, j < i ∨ i + n ≤ j → c.cell j = buf.cell j := by
  induction n generalizing i buf V with
  | zero => exact ⟨buf, rfl, trivial, fun _ _ => rfl⟩
  | succ n ih =>
      rw [digitText_succ, Buffer.holds_cons] at holds
      have nine : V % 10 = 9 := by
        rw [pow_succ] at nines
        omega
      obtain ⟨c, run, holds', frame⟩ := @ih (i + 1) (V / 10)
        ⟨Function.update buf.cell i (some '0')⟩ (by omega) (by rw [pow_succ] at nines; omega)
        (holds.2.update _ (.inl (by omega)))
      rw [ftoaRound_digit (by omega) room (Nat.mod_lt V (by norm_num)) holds.1, if_pos nine, run,
        Nat.add_right_comm, Nat.add_assoc]
      refine ⟨c, rfl, ?_, fun j outside => ?_⟩
      · rw [digitText_succ, Nat.zero_mod, Nat.zero_div, digitChar_zero, Buffer.holds_cons,
          frame i (by omega)]
        exact ⟨Function.update_self .., holds'⟩
      · rw [frame j (by omega)]
        exact Function.update_of_ne (by omega) _ _

/-- A carry passes over the point. -/
theorem ftoaRound_point {i end_ : ℕ} {buf : ConvBuffer cfg} (inside : i < end_)
    (room : end_ ≤ cfg.cbuf) (stored : buf.cell i = some '.') :
    ftoaRound cfg (cfg.cbuf - i) end_ buf = ftoaRound cfg (cfg.cbuf - (i + 1)) end_ buf := by
  obtain ⟨r, rest⟩ : ∃ r, cfg.cbuf - i = r + 1 := ⟨cfg.cbuf - i - 1, by omega⟩
  rw [rest, ftoaRound, show cfg.cbuf - (r + 1) = i by omega, if_neg (by omega),
    show cfg.cbuf - (i + 1) = r by omega]
  simp only [pure, Except.pure, bind, Except.bind,
    Buffer.read_eq (show i < cfg.cbuf by omega) stored]
  rw [if_pos (by rfl)]

/-- A carry past the text makes it longer, if there is room. -/
theorem ftoaRound_end {i : ℕ} {buf : ConvBuffer cfg} (room : i < cfg.cbuf) :
    ftoaRound cfg (cfg.cbuf - i) i buf =
      .ok (i + 1, ⟨Function.update (Function.update buf.cell i (some '0')) i (some '1')⟩) := by
  obtain ⟨r, rest⟩ : ∃ r, cfg.cbuf - i = r + 1 := ⟨cfg.cbuf - i - 1, by omega⟩
  rw [rest, ftoaRound, show cfg.cbuf - (r + 1) = i by omega, if_pos le_rfl]
  simp only [buf.write_eq '0' room, pure, Except.pure, bind, Except.bind]
  rw [Buffer.read_eq room (Function.update_self i (some '0') buf.cell)]
  simp only [show ¬ ('0' == '.') = true by decide, show ¬ ('0' == '9') = true by decide,
    Bool.false_eq_true, ↓reduceIte, Buffer.write_eq _ _ room]
  rfl

/-- A carry into the integer. -/
theorem ftoaRound_numeral {i end_ I : ℕ} {buf : ConvBuffer cfg}
    (count : i + numeralLength 10 I = end_) (room : end_ ≤ cfg.cbuf)
    (holds : buf.Holds i (numeralText 10 0 I)) :
    ftoaRound cfg (cfg.cbuf - i) end_ buf = gotoExit ∧
        cfg.cbuf < i + numeralLength 10 (I + 1) ∨
      ∃ c, ftoaRound cfg (cfg.cbuf - i) end_ buf = .ok (i + numeralLength 10 (I + 1), c) ∧
        i + numeralLength 10 (I + 1) ≤ cfg.cbuf ∧ c.Holds i (numeralText 10 0 (I + 1)) ∧
        ∀ j, j < i → c.cell j = buf.cell j := by
  have below := lt_pow_numeralLength (by norm_num : 1 < 10) I
  have positive := numeralLength_pos 10 I
  rw [numeralText_eq] at holds
  by_cases fits : I + 1 < 10 ^ numeralLength 10 I
  · obtain ⟨c, run, holds', frame⟩ := ftoaRound_fits count.le room fits holds
    have length : numeralLength 10 (I + 1) = numeralLength 10 I :=
      le_antisymm (numeralLength_le (by norm_num) positive fits)
        (numeralLength_mono (by norm_num) (Nat.le_succ I))
    refine .inr ⟨c, by rw [run, length, count], by omega, ?_,
      fun j outside => frame j (.inl outside)⟩
    rwa [numeralText_eq, length]
  · -- all nines
    have nines : I + 1 = 10 ^ numeralLength 10 I := by omega
    obtain ⟨c, run, holds', frame⟩ := ftoaRound_nines count.le room nines holds
    have length : numeralLength 10 (I + 1) = numeralLength 10 I + 1 := by
      refine numeralLength_eq (by norm_num) nines.ge ?_
      rw [nines]
      exact Nat.pow_lt_pow_right (by norm_num) (by omega)
    rw [run, count]
    by_cases more : end_ < cfg.cbuf
    · rw [ftoaRound_end more]
      refine .inr ⟨_, by rw [length, ← Nat.add_assoc, count], by omega, ?_, fun j below => ?_⟩
      · rw [numeralText_eq, length, digitText_add, Buffer.holds_append, length_digitText, count,
          nines, Nat.div_self (by positivity), ← Nat.one_mul (10 ^ _), ← Nat.zero_add (1 * _),
          digitText_add_mul_pow]
        exact ⟨(holds'.update _ (.inr (by rw [length_digitText]; omega))).update _
          (.inr (by rw [length_digitText]; omega)), Function.update_self .., trivial⟩
      · rw [← frame j (.inl below)]
        exact (Function.update_of_ne (by omega) _ _).trans (Function.update_of_ne (by omega) _ _)
    · refine .inl ⟨?_, by omega⟩
      rw [show cfg.cbuf - end_ = 0 by omega]
      rfl

/-- The text of a number with `q` fraction digits as it is in the buffer. -/
theorem reverse_fixedText {F I q : ℕ} (small : F < 10 ^ q) (point : Bool) :
    (fixedText (I * 10 ^ q + F) q point).reverse =
      digitText q F ++ pointText point ++ numeralText 10 0 I := by
  have integer : (I * 10 ^ q + F) / 10 ^ q = I := by
    rw [add_comm, Nat.add_mul_div_right _ _ (by positivity), Nat.div_eq_of_lt small, Nat.zero_add]
  rw [fixedText, integer, add_comm, digitText_add_mul_pow]
  simp

theorem length_fixedText_add {F I q : ℕ} (small : F < 10 ^ q) (point : Bool) :
    (fixedText (I * 10 ^ q + F) q point).length =
      q + (pointText point).length + numeralLength 10 I := by
  rw [← List.length_reverse, reverse_fixedText small, List.length_append, List.length_append,
    length_digitText, length_numeralText]

/-- Fraction, point and integer of a text in the buffer. -/
theorem holds_fixedText {F I q : ℕ} (small : F < 10 ^ q) (point : Bool) (buf : ConvBuffer cfg) :
    buf.Holds 0 (fixedText (I * 10 ^ q + F) q point).reverse ↔
      (buf.Holds 0 (digitText q F) ∧ buf.Holds q (pointText point)) ∧
        buf.Holds (q + (pointText point).length) (numeralText 10 0 I) := by
  rw [reverse_fixedText small, Buffer.holds_append, Buffer.holds_append, List.length_append,
    length_digitText, Nat.zero_add, Nat.zero_add]

/-- A carry into a text from its last digit on. -/
theorem ftoaRound_text {T q end_ : ℕ} {point : Bool} {buf : ConvBuffer cfg}
    (count : (fixedText T q point).length = end_) (room : end_ ≤ cfg.cbuf)
    (holds : buf.Holds 0 (fixedText T q point).reverse) :
    ftoaRound cfg cfg.cbuf end_ buf = gotoExit ∧
        cfg.cbuf < (fixedText (T + 1) q point).length ∨
      (fixedText (T + 1) q point).length ≤ cfg.cbuf ∧
        ∃ c, ftoaRound cfg cfg.cbuf end_ buf = .ok ((fixedText (T + 1) q point).length, c) ∧
          c.Holds 0 (fixedText (T + 1) q point).reverse := by
  obtain ⟨I, F, small, rfl⟩ : ∃ I F, F < 10 ^ q ∧ T = I * 10 ^ q + F :=
    ⟨T / 10 ^ q, T % 10 ^ q, Nat.mod_lt _ (by positivity), (Nat.div_add_mod' ..).symm⟩
  rw [length_fixedText_add small] at count
  obtain ⟨⟨fraction, mark⟩, integer⟩ := (holds_fixedText small point buf).mp holds
  by_cases fits : F + 1 < 10 ^ q
  · obtain ⟨c, run, holds', frame⟩ := @ftoaRound_fits cfg q 0 end_ F buf (by omega) room fits
      fraction
    rw [Nat.add_assoc, length_fixedText_add fits, count]
    refine .inr ⟨room, c, run, (holds_fixedText fits point c).mpr ⟨⟨holds', ?_⟩, ?_⟩⟩
    · exact mark.congr fun j above _ => frame j (by omega)
    · exact integer.congr fun j above _ => frame j (by omega)
  · -- the carry goes on into the integer
    obtain ⟨c, run, zeros, frame⟩ := @ftoaRound_nines cfg q 0 end_ F buf (by omega) room (by omega)
      fraction
    have mark' : c.Holds q (pointText point) := mark.congr fun j above _ => frame j (by omega)
    have integer' : c.Holds (q + (pointText point).length) (numeralText 10 0 I) :=
      integer.congr fun j above _ => frame j (by omega)
    have positive := numeralLength_pos 10 I
    have pass : ftoaRound cfg (cfg.cbuf - q) end_ c =
        ftoaRound cfg (cfg.cbuf - (q + (pointText point).length)) end_ c := by
      cases point with
      | false => rfl
      | true => exact ftoaRound_point (by simp [pointText] at count; omega) room mark'.1
    have whole : I * 10 ^ q + F + 1 = (I + 1) * 10 ^ q + 0 := by
      rw [add_mul]
      omega
    have tenPos : 0 < 10 ^ q := by positivity
    rw [Nat.zero_add, Nat.sub_zero] at run
    rw [whole, length_fixedText_add tenPos, run, pass]
    refine (ftoaRound_numeral (by omega) room integer').imp_right ?_
    rintro ⟨d, run', fits', holds', frame'⟩
    refine ⟨fits', d, run', (holds_fixedText tenPos point d).mpr ⟨⟨?_, ?_⟩, holds'⟩⟩
    · exact zeros.congr fun j _ below => frame' j (by rw [length_digitText] at below; omega)
    · exact mark'.congr fun j _ below => frame' j below

end Nanoprintf
