import Nanoprintf.EtoaRounding

/-!
# Laying out the text

The digits of a pass are at the top of the buffer and the text is composed from
its bottom, reversed. The two ranges may overlap: a piece is safe because every
digit is read before the composition reaches its cell, for which the length of
the text is at most the capacity. `composeFixed_eq` and `composeScientific_eq`
say which text results, in the terms of decimal notation.
-/

set_option autoImplicit false

namespace Nanoprintf

open Foundations

variable {cfg : Config}

/-- A conversion leaves a text: its length is the result, and its characters are in the
buffer in reverse. -/
def Leaves (run : Run (ℤ × ConvBuffer cfg)) (text : List Char) : Prop :=
  ∃ c, run = .ok ((text.length : ℤ), c) ∧ c.Holds 0 text.reverse

instance (run : Run (ℤ × ConvBuffer cfg)) (text : List Char) : Decidable (Leaves run text) :=
  match run with
  | .ok (n, c) =>
    decidable_of_iff (n = text.length ∧ c.Holds 0 text.reverse)
      ⟨fun both => ⟨c, by rw [both.1], both.2⟩,
        fun ⟨_, same, holds⟩ => by cases same; exact ⟨rfl, holds⟩⟩
  | .error _ => isFalse nofun

/-! ## The scientific layout -/

/-- A digit of the fraction, zeros being in front of the generated ones. -/
theorem drop_digitText_cons {V pad p i : ℕ} (inside : i < p) :
    (digitText p (V * 10 ^ pad)).drop i =
      (if i < pad then '0' else digitChar 0 (V / 10 ^ (i - pad) % 10)) ::
        (digitText p (V * 10 ^ pad)).drop (i + 1) := by
  obtain ⟨m, rfl⟩ := Nat.exists_eq_add_of_lt inside
  rw [drop_digitText _ (by omega), drop_digitText _ (by omega),
    show i + m + 1 - i = m + 1 by omega, show i + m + 1 - (i + 1) = m by omega, digitText_succ,
    Nat.div_div_eq_div_mul, ← pow_succ]
  congr 1
  by_cases zero : i < pad
  · obtain ⟨j, rfl⟩ := Nat.exists_eq_add_of_lt zero
    rw [if_pos zero, show i + j + 1 = (j + 1) + i by omega, pow_add, ← mul_assoc,
      Nat.mul_div_cancel _ (by positivity), pow_succ, ← mul_assoc, Nat.mul_mod_left, digitChar_zero]
  · obtain ⟨j, rfl⟩ := Nat.exists_eq_add_of_le (not_lt.mp zero)
    rw [if_neg zero, Nat.add_sub_cancel_left, pow_add, mul_comm V,
      Nat.mul_div_mul_left _ _ (by positivity)]

/-- The fraction is copied down from the digits, which it reaches after they are read. -/
theorem composeFraction_eq {n V pad p : ℕ} (length : pad + n = p + 1) (inside : n ≤ cfg.cbuf)
    (m : ℕ) {i o : ℕ} {buf : ConvBuffer cfg} (rest : i + m = p)
    (room : o + p + 1 ≤ cfg.cbuf + i)
    (digits : ∀ j, i ≤ j + pad → j < n →
      buf.cell (cfg.cbuf - n + j) = some (digitChar 0 (V / 10 ^ j % 10))) :
    ∃ c, composeFraction cfg n pad m i o buf = .ok (o + m, c) ∧
      c.Holds o ((digitText p (V * 10 ^ pad)).drop i) ∧
      ∀ j, j < o ∨ o + m ≤ j → c.cell j = buf.cell j := by
  induction m generalizing i o buf with
  | zero =>
      rw [List.drop_eq_nil_of_le (by rw [length_digitText]; omega)]
      exact ⟨buf, rfl, trivial, fun _ _ => rfl⟩
  | succ m ih =>
      rw [drop_digitText_cons (by omega)]
      set char := if i < pad then '0' else digitChar 0 (V / 10 ^ (i - pad) % 10) with char_eq
      have chosen : (if (i : ℤ) < pad then pure '0'
          else buf.read ((cfg.cbuf : ℤ) - n + (i - pad)).toNat) = (.ok char : Run Char) := by
        by_cases zero : i < pad
        · rw [if_pos (by omega), char_eq, if_pos zero]
          rfl
        · rw [if_neg (by omega), char_eq, if_neg zero,
            show ((cfg.cbuf : ℤ) - n + (i - pad)).toNat = cfg.cbuf - n + (i - pad) by omega]
          exact Buffer.read_eq (by omega) (digits (i - pad) (by omega) (by omega))
      obtain ⟨c, run, holds, frame⟩ := @ih (i + 1) (o + 1) ⟨Function.update buf.cell o (some char)⟩
        (by omega) (by omega) (fun j later bound => by
          rw [← digits j (by omega) bound]
          exact Function.update_of_ne (by omega) _ _)
      refine ⟨c, ?_, ⟨?_, holds⟩, fun j outside => ?_⟩
      · rw [composeFraction]
        by_cases zero : (i : ℤ) < pad
        · rw [if_pos zero] at chosen ⊢
          simp only [chosen, bind, Except.bind, buf.write_eq char (show o < cfg.cbuf by omega), run]
          congr 2
          omega
        · rw [if_neg zero] at chosen ⊢
          simp only [chosen, bind, Except.bind, buf.write_eq char (show o < cfg.cbuf by omega), run]
          congr 2
          omega
      · rw [frame o (.inl (by omega))]
        exact Function.update_self ..
      · rw [frame j (by omega)]
        exact Function.update_of_ne (by omega) _ _

theorem numeralLength_lt_two {v : ℕ} : numeralLength 10 v < 2 ↔ v < 10 := by
  constructor
  · intro short
    have upper := lt_pow_numeralLength (by norm_num : 1 < 10) v
    exact upper.trans_le (Nat.pow_le_pow_right (n := 10) (by norm_num) (by omega : _ ≤ 1))
  · intro small
    rw [numeralLength, numeral_of_lt small]
    exact Nat.lt_succ_self 1

theorem twoDigits_eq {v : ℕ} {buf : ConvBuffer cfg} (holds : buf.Holds 0 (numeralText 10 0 v)) :
    ∃ c, twoDigits (numeralLength 10 v) buf =
        .ok (numeralLength 10 v + if v < 10 then 1 else 0, c) ∧
      c.Holds 0 (numeralText 10 0 v ++ if v < 10 then ['0'] else []) ∧
      ∀ j, numeralLength 10 v + (if v < 10 then 1 else 0) ≤ j → c.cell j = buf.cell j := by
  have room := cfg.cbuf_ge
  by_cases single : v < 10
  · have short := numeralLength_lt_two.mpr single
    simp only [twoDigits, if_pos short, if_pos single, bind, Except.bind,
      buf.write_eq '0' (show numeralLength 10 v < cfg.cbuf by omega), pure, Except.pure]
    refine ⟨_, rfl, holds.update_concat _ (by rw [length_numeralText, Nat.zero_add]),
      fun j above => Function.update_of_ne (by omega) _ _⟩
  · rw [twoDigits, if_neg (numeralLength_lt_two.not.mpr single), if_neg single, if_neg single,
      List.append_nil]
    exact ⟨buf, rfl, holds, fun _ _ => rfl⟩

/-- The exponent at the bottom of the buffer. -/
theorem composeExponent_eq (caseAdj : ℕ) {x : ℤ} (small : x.natAbs < 1000) (buf : ConvBuffer cfg) :
    ∃ c, composeExponent cfg caseAdj x buf = .ok ((exponentText caseAdj x).length, c) ∧
      c.Holds 0 (exponentText caseAdj x).reverse ∧ (exponentText caseAdj x).length ≤ 5 ∧
      ∀ j, (exponentText caseAdj x).length ≤ j → c.cell j = buf.cell j := by
  have room := cfg.cbuf_ge
  have word : x.natAbs < 2 ^ cfg.uintBits :=
    (small.trans (by norm_num)).trans_le (Nat.pow_le_pow_right two_pos cfg.uintBits_ge)
  have length := numeralLength_le (by norm_num : 1 < 10) (by norm_num : 0 < 3) small
  have short := numeralLength_lt_two (v := x.natAbs)
  obtain ⟨b, run, holds, frame⟩ := npfUtoaRevEnd_eq 0 (.inr (.inl rfl)) word
    (i := 0) (by omega) buf
  obtain ⟨c, padded, holds', frame'⟩ := twoDigits_eq holds
  set o := numeralLength 10 x.natAbs + if x.natAbs < 10 then 1 else 0 with o_eq
  have text : (exponentText caseAdj x).reverse = (numeralText 10 0 x.natAbs ++
      if x.natAbs < 10 then ['0'] else []) ++ [if x < 0 then '-' else '+'] ++
        [Char.ofNat ('E'.toNat + caseAdj)] := by
    rw [exponentText]
    split_ifs <;> simp
  have size : (numeralText 10 0 x.natAbs ++ if x.natAbs < 10 then ['0'] else []).length = o := by
    rw [List.length_append, length_numeralText, o_eq]
    split_ifs <;> rfl
  have total : (exponentText caseAdj x).length = o + 2 := by
    rw [← List.length_reverse, text, List.length_append, List.length_append, size]
    rfl
  have bound : o ≤ 3 := by
    rw [o_eq]
    split_ifs <;> omega
  rw [text, total]
  refine ⟨⟨Function.update (Function.update c.cell o (some (if x < 0 then '-' else '+'))) (o + 1)
    (some (Char.ofNat ('E'.toNat + caseAdj)))⟩, ?_, ?_, by omega, fun j above => ?_⟩
  · rw [Nat.zero_add] at run
    simp only [composeExponent, npfUtoaRev, run, padded, bind, Except.bind,
      c.write_eq _ (show o < cfg.cbuf by omega),
      Buffer.write_eq _ _ (show o + 1 < cfg.cbuf by omega),
      pure, Except.pure]
  · exact (holds'.update_concat _ (by omega)).update_concat _ (by
      rw [List.length_append, size]
      simp)
  · simp only
    rw [Function.update_of_ne (by omega), Function.update_of_ne (by omega), frame' j (by omega),
      frame j (.inr (by omega))]

/-- The point is stored in any case; where the text has none, the next character overwrites it. -/
theorem holds_pointText {low : List Char} {buf : ConvBuffer cfg} (holds : buf.Holds 0 low)
    (point : Bool) {k : ℕ} (behind : k = low.length) :
    (⟨Function.update buf.cell k (some '.')⟩ : ConvBuffer cfg).Holds 0
      (low ++ pointText point) := by
  cases point with
  | false =>
      rw [pointText, if_neg Bool.false_ne_true, List.append_nil]
      exact holds.update _ (.inr (by omega))
  | true =>
      rw [pointText, if_pos rfl]
      exact holds.update_concat _ (by omega)

/-- The first of `n` digits is the digit in front of the point of the padded ones. -/
theorem firstDigit_eq {n V pad p : ℕ} (length : pad + n = p + 1) (nonzero : n ≠ 0)
    (below : V < 10 ^ n) : V / 10 ^ (n - 1) % 10 = V * 10 ^ pad / 10 ^ p := by
  obtain ⟨m, rfl⟩ : ∃ m, n = m + 1 := ⟨n - 1, by omega⟩
  rw [Nat.add_sub_cancel, show p = m + pad by omega, pow_add,
    Nat.mul_div_mul_right _ _ (by positivity), Nat.mod_eq_of_lt]
  rw [Nat.div_lt_iff_lt_mul (by positivity), ← pow_succ']
  exact below

/-- The scientific text. -/
theorem composeScientific_eq {n V p end_ : ℕ} {x : ℤ} (alt : Bool) (caseAdj : ℕ)
    {buf : ConvBuffer cfg} (count : end_ + n = cfg.cbuf) (nonzero : n ≠ 0) (few : n ≤ p + 1)
    (fits : p + 8 ≤ cfg.cbuf) (small : x.natAbs < 1000) (below : V < 10 ^ n)
    (holds : buf.Holds end_ (digitText n V)) :
    Leaves (composeScientific cfg alt caseAdj p x end_ buf)
      (sciText (V * 10 ^ (p + 1 - n)) p x (0 < p ∨ alt) caseAdj) := by
  obtain ⟨pad, length⟩ : ∃ pad, pad + n = p + 1 := ⟨p + 1 - n, by omega⟩
  have size : p + 1 - n = pad := by omega
  rw [size]
  have digits : ∀ j, j < n →
      buf.cell (cfg.cbuf - n + j) = some (digitChar 0 (V / 10 ^ j % 10)) := by
    intro j bound
    rw [show cfg.cbuf - n + j = end_ + j by omega]
    exact cell_digit holds bound
  obtain ⟨b, exponent, low, five, frame⟩ := composeExponent_eq caseAdj small buf
  set o := (exponentText caseAdj x).length with o_eq
  obtain ⟨c, fraction, middle, frame'⟩ :=
    @composeFraction_eq cfg n V pad p length (by omega) p 0 o b
    (by omega) (by omega) (fun j _ bound => by rw [frame _ (by omega)]; exact digits j bound)
  rw [List.drop_zero] at middle
  -- the first digit is still in the last cell
  have first := firstDigit_eq length nonzero below
  have top : c.cell (cfg.cbuf - 1) = some (digitChar 0 (V * 10 ^ pad / 10 ^ p)) := by
    rw [frame' _ (by omega), frame _ (by omega), ← first, ← digits (n - 1) (by omega)]
    congr 1
    omega
  set point := decide (0 < p ∨ alt = true) with point_eq
  set dp := if point then 1 else 0 with dp_eq
  have mark : (if (0 : ℤ) < p ∨ alt = true then 1 else 0) = dp := by
    simp [dp_eq, point_eq]
  have narrow : dp ≤ 1 := by
    rw [dp_eq]
    split_ifs <;> omega
  have text : (sciText (V * 10 ^ pad) p x point caseAdj).reverse =
      (exponentText caseAdj x).reverse ++ digitText p (V * 10 ^ pad) ++ pointText point ++
        [digitChar 0 (V * 10 ^ pad / 10 ^ p)] := by
    simp [sciText]
  have total : (sciText (V * 10 ^ pad) p x point caseAdj).length = o + p + dp + 1 := by
    rw [← List.length_reverse, text]
    simp [← o_eq, ← dp_eq, Nat.add_assoc]
  rw [Leaves, text, total]
  refine ⟨⟨Function.update (Function.update c.cell (o + p) (some '.')) (o + p + dp)
    (some (digitChar 0 (V * 10 ^ pad / 10 ^ p)))⟩, ?_, ?_⟩
  · have nsig : (cfg.cbuf : ℤ) - end_ = n := by omega
    have zeros : (p : ℤ) - ((n : ℤ) - 1) = pad := by omega
    have kept : (⟨Function.update c.cell (o + p) (some '.')⟩ : ConvBuffer cfg).cell (cfg.cbuf - 1) =
        some (digitChar 0 (V * 10 ^ pad / 10 ^ p)) := by
      rw [← top]
      exact Function.update_of_ne (by omega) _ _
    simp only [composeScientific, exponent, nsig, zeros, Int.toNat_natCast, fraction, bind,
      Except.bind, c.write_eq '.' (show o + p < cfg.cbuf by omega), mark,
      Buffer.read_eq (show cfg.cbuf - 1 < cfg.cbuf by omega) kept,
      Buffer.write_eq _ _ (show o + p + dp < cfg.cbuf by omega), pure, Except.pure]
  · have front : c.Holds 0 ((exponentText caseAdj x).reverse ++ digitText p (V * 10 ^ pad)) := by
      rw [Buffer.holds_append, List.length_reverse, Nat.zero_add]
      refine ⟨low.congr fun j _ bound => frame' j (.inl ?_), middle⟩
      rwa [List.length_reverse, Nat.zero_add] at bound
    have size :
        ((exponentText caseAdj x).reverse ++ digitText p (V * 10 ^ pad)).length = o + p := by
      simp [← o_eq]
    refine (holds_pointText front point size.symm).update_concat _ ?_
    rw [List.length_append, size, length_pointText, Nat.zero_add]

/-! ## The fixed layout -/

/-- The runs land one after the other. -/
theorem layFixed_eq {end_ fz dp iz : ℕ} {low high : List Char} {buf : ConvBuffer cfg}
    (count : end_ + low.length + high.length = cfg.cbuf) (holds : buf.Holds end_ (low ++ high))
    (narrow : dp ≤ 1) (bottom : dp = 1 ∨ end_ ≠ 0 ∧ fz = 0 ∧ low = [])
    (fits : fz + low.length + dp + iz + high.length ≤ cfg.cbuf) :
    ∃ c, layFixed end_ fz low.length dp iz high.length buf =
        .ok (((fz + low.length + dp + iz + high.length : ℕ) : ℤ), c) ∧
      c.Holds 0 (List.replicate fz '0' ++ low ++ pointText (dp = 1) ++ List.replicate iz '0' ++
        high) := by
  obtain ⟨lows, highs⟩ := (Buffer.holds_append ..).mp holds
  have empty : buf.Holds 0 [] := trivial
  obtain ⟨b, zeros, bottom₁, frame₁⟩ := @Buffer.Holds.fill_append _ Leave _ _ _ empty '0' fz
    (by rw [List.length_nil]; omega)
  rw [List.nil_append] at bottom₁
  have lows₁ := lows.congr fun j above _ => frame₁ j (by rw [List.length_nil]; omega)
  have highs₁ := highs.congr fun j above _ => frame₁ j (by rw [List.length_nil]; omega)
  obtain ⟨c, fraction, bottom₂, frame₂⟩ := @Buffer.Holds.copyUp_append _ Leave _ _ _ _ _ bottom₁
    lows₁ (by omega) (by rw [List.length_replicate]; omega)
  rw [List.length_replicate] at fraction frame₂
  have highs₂ := highs₁.congr fun j above _ => frame₂ j (by omega)
  -- the point is stored in any case
  have highs₃ := highs₂.update (k := fz + low.length) '.' (.inl (by omega))
  have marked := holds_pointText bottom₂ (dp = 1) (show fz + low.length = _ by simp)
  have size :
      (List.replicate fz '0' ++ low ++ pointText (dp = 1)).length = fz + low.length + dp := by
    simp only [List.length_append, List.length_replicate, length_pointText, decide_eq_true_eq]
    split_ifs <;> omega
  obtain ⟨d, integer, bottom₄, frame₄⟩ := @Buffer.Holds.fill_append _ Leave _ _ _ marked '0' iz
    (by omega)
  rw [size] at integer frame₄
  have highs₄ := highs₃.congr fun j above _ => frame₄ j (by omega)
  obtain ⟨e, last, bottom₅, -⟩ := @Buffer.Holds.copyUp_append _ Leave _ _ _ _ _ bottom₄ highs₄
    (by omega) (by rw [List.length_append, size, List.length_replicate]; omega)
  rw [List.length_append, size, List.length_replicate] at last
  refine ⟨e, ?_, bottom₅⟩
  rw [List.length_nil] at zeros
  simp only [layFixed, zeros, fraction, integer, last, bind, Except.bind,
    c.write_eq '.' (show fz + low.length < cfg.cbuf by omega), pure, Except.pure]

/-- The text is longer than the buffer. -/
theorem composeFixed_exit {n q end_ : ℕ} {dec : ℤ} {alt : Bool} (buf : ConvBuffer cfg)
    (count : end_ + n = cfg.cbuf)
    (long : (cfg.cbuf : ℤ) < n + dec + (if decide (0 < q ∨ alt = true) then 1 else 0) + q) :
    composeFixed cfg alt q end_ dec buf = gotoExit := by
  have nsig : (cfg.cbuf : ℤ) - end_ = n := by omega
  simp only [composeFixed, nsig, Nat.cast_pos]
  rw [if_pos]
  push_cast
  simp only [decide_eq_true_eq] at long
  split_ifs at long ⊢ <;> omega

/-- Digits that all stand in front of the point are followed by zeros. -/
theorem FixedDigits.ordered_of_whole {q T n V d : ℕ} (digits : FixedDigits q T n V d) :
    digitText q T = List.replicate q '0' ++ digitText 0 V ∧
      numeralText 10 0 (T / 10 ^ q) = List.replicate d '0' ++ digitText n V := by
  obtain ⟨-, value, length⟩ := digits
  rw [show ((d : ℤ) + q).toNat = d + q by omega, pow_add, ← mul_assoc] at value
  have whole : T / 10 ^ q = V * 10 ^ d := by
    rw [← value, Nat.mul_div_cancel _ (by positivity)]
  rw [whole] at length
  refine ⟨?_, ?_⟩
  · rw [← value]
    exact digitText_mul_pow q 0 _
  · rw [whole, numeralText_eq, ← digitText_mul_pow]
    congr 1
    omega

/-- Digits that reach behind the point split there. -/
theorem FixedDigits.ordered_of_behind {n V T d j : ℕ}
    (digits : FixedDigits (d + j) T n V (-(d : ℤ))) :
    digitText (d + j) T = List.replicate j '0' ++ digitText d V ∧
      numeralText 10 0 (T / 10 ^ (d + j)) = digitText (n - d) (V / 10 ^ d) := by
  obtain ⟨-, value, length⟩ := digits
  rw [show (-(d : ℤ) + (d + j : ℕ)).toNat = j by omega] at value
  have whole : T / 10 ^ (d + j) = V / 10 ^ d := by
    rw [← value, pow_add, Nat.mul_div_mul_right _ _ (by positivity)]
  rw [whole] at length
  refine ⟨?_, ?_⟩
  · rw [← value, Nat.add_comm d, digitText_mul_pow]
  · rw [whole, numeralText_eq]
    congr 1
    omega

/-- The digits of the number in the order of the buffer: `fd` of them in the fraction and `id`
in the integer, with the zeros that the exponent stands for. -/
theorem FixedDigits.ordered {q T n V : ℕ} {dec : ℤ} (digits : FixedDigits q T n V dec) :
    ∃ fz fd iz id : ℕ, n = fd + id ∧ (id : ℤ) = n + min dec 0 ∧ (iz : ℤ) = max dec 0 ∧
      (fz : ℤ) = q - fd ∧ digitText q T = List.replicate fz '0' ++ digitText fd V ∧
      numeralText 10 0 (T / 10 ^ q) = List.replicate iz '0' ++ digitText id (V / 10 ^ fd) := by
  have positive := numeralLength_pos 10 (T / 10 ^ q)
  have deep := digits.deep
  have length := digits.length
  rcases le_total 0 dec with above | below
  · obtain ⟨d, rfl⟩ := Int.eq_ofNat_of_zero_le above
    obtain ⟨fraction, integer⟩ := digits.ordered_of_whole
    refine ⟨q, 0, d, n, by omega, by omega, by omega, by omega, fraction, ?_⟩
    rw [integer, pow_zero, Nat.div_one]
  · obtain ⟨d, rfl⟩ : ∃ d : ℕ, dec = -d := ⟨(-dec).toNat, by omega⟩
    obtain ⟨j, rfl⟩ := Nat.exists_eq_add_of_le (show d ≤ q by omega)
    obtain ⟨fraction, integer⟩ := digits.ordered_of_behind
    refine ⟨j, d, 0, n - d, by omega, by omega, by omega, by omega, fraction, ?_⟩
    rw [integer, List.replicate_zero, List.nil_append]

/-- What the source computes are the lengths of the four runs. -/
theorem composeFixed_eq_layFixed {n q end_ fz fd dp iz id : ℕ} {dec : ℤ} {alt : Bool}
    (buf : ConvBuffer cfg) (count : end_ + n = cfg.cbuf) (sum : n = fd + id)
    (places : (id : ℤ) = n + min dec 0) (zeros : (iz : ℤ) = max dec 0) (whole : (fz : ℤ) = q - fd)
    (mark : (if (0 : ℤ) < q ∨ alt = true then 1 else 0) = dp) (fits : id + iz + dp + q ≤ cfg.cbuf) :
    composeFixed cfg alt q end_ dec buf = layFixed end_ fz fd dp iz id buf := by
  have nsig : (cfg.cbuf : ℤ) - end_ = n := by omega
  have above : (n : ℤ) + (if 0 < dec then 0 else dec) = id := by
    split_ifs <;> omega
  have below : (if 0 < dec then dec else 0) = (iz : ℤ) := by
    split_ifs <;> omega
  simp only [composeFixed, nsig, above, below, mark]
  rw [if_neg (by omega : ¬ (id : ℤ) < 0), if_neg (by omega), show (n : ℤ) - id = fd by omega,
    ← whole]
  simp only [Int.toNat_natCast]

/-- The fixed text: the digits of the fraction and those of the integer on either side of the
point, each with the zeros that the exponent stands for. -/
theorem composeFixed_eq {n V q T end_ : ℕ} {dec : ℤ} {alt : Bool} {buf : ConvBuffer cfg}
    (count : end_ + n = cfg.cbuf) (holds : buf.Holds end_ (digitText n V))
    (digits : FixedDigits q T n V dec)
    (bottom : 0 < q ∨ alt = true ∨ end_ ≠ 0)
    (fits : (fixedText T q (0 < q ∨ alt)).length ≤ cfg.cbuf) :
    Leaves (composeFixed cfg alt q end_ dec buf) (fixedText T q (0 < q ∨ alt)) := by
  set point := decide (0 < q ∨ alt = true) with point_eq
  set dp := if point then 1 else 0 with dp_eq
  have mark : (if (0 : ℤ) < q ∨ alt = true then 1 else 0) = dp := by
    simp [dp_eq, point_eq]
  have one : decide (dp = 1) = point := by
    rw [dp_eq]
    cases point <;> rfl
  obtain ⟨fz, fd, iz, id, sum, places, zeros, whole, fraction, integer⟩ := digits.ordered
  have text : (fixedText T q point).reverse = List.replicate fz '0' ++ digitText fd V ++
      pointText point ++ List.replicate iz '0' ++ digitText id (V / 10 ^ fd) := by
    simp [fixedText, fraction, integer]
  have size : (fixedText T q point).length = fz + fd + dp + iz + id := by
    rw [← List.length_reverse, text]
    simp [dp_eq, Nat.add_assoc]
  rw [size] at fits
  rw [sum, digitText_add] at holds
  obtain ⟨c, run, laid⟩ := @layFixed_eq cfg end_ fz dp iz (digitText fd V)
    (digitText id (V / 10 ^ fd)) buf (by simp; omega) holds (by rw [dp_eq]; split_ifs <;> omega)
    (by
      by_cases marked : 0 < q ∨ alt = true
      · exact .inl (by rw [dp_eq, point_eq, if_pos (decide_eq_true marked)])
      · obtain ⟨noFraction, plain⟩ := not_or.mp marked
        obtain rfl : fd = 0 := by omega
        exact .inr ⟨(bottom.resolve_left noFraction).resolve_left plain, by omega, rfl⟩)
    (by simp; omega)
  simp only [length_digitText] at run
  refine ⟨c, ?_, ?_⟩
  · rw [size, ← run]
    exact composeFixed_eq_layFixed buf count sum places zeros whole mark (by omega)
  · rw [text, ← one]
    exact laid

end Nanoprintf
