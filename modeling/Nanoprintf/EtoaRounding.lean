import Nanoprintf.EtoaDigits

/-!
# Dropping digits and rounding

What becomes of the digits of a pass: those past the request are dropped, and the
first of them decides, together with what is known to follow, whether the rest is
rounded up (`etoaDrop_eq`); rounding may carry past the first digit
(`etoaRound_eq`). The two results are `etoaGenerate_fixed` and
`etoaGenerate_significant`: after a pass, the digits are the number the conversion
works with rounded half to even to the place or to the number of digits that the
mode asks for.
-/

set_option autoImplicit false

namespace Nanoprintf

open Foundations

variable {cfg : Config}

/-! ## Digits as characters -/

theorem cell_digit {buf : ConvBuffer cfg} {e n V i : ℕ} (holds : buf.Holds e (digitText n V))
    (inside : i < n) : buf.cell (e + i) = some (digitChar 0 (V / 10 ^ i % 10)) := by
  refine ((Buffer.holds_iff ..).mp holds i (by rwa [length_digitText])).trans ?_
  rw [digitText, List.getElem?_map, getElem?_lowDigits 10 n V inside, Option.map_some]

theorem read_digit {buf : ConvBuffer cfg} {e n V i : ℕ} (count : e + n = cfg.cbuf)
    (holds : buf.Holds e (digitText n V)) (inside : i < n) :
    buf.read (e + i) = (.ok (digitChar 0 (V / 10 ^ i % 10)) : Run Char) :=
  Buffer.read_eq (by omega) (cell_digit holds inside)

theorem digitChar_beq {c d : ℕ} (first : c < 10) (second : d < 10) :
    (digitChar 0 c == digitChar 0 d) = decide (c = d) := by
  rw [Bool.eq_iff_iff, beq_iff_eq, decide_eq_true_iff]
  exact ⟨digitChar_inj first second, fun same => same ▸ rfl⟩

/-- The scan finds only zeros. -/
theorem allZero_eq {buf : ConvBuffer cfg} {e n V : ℕ} (count : e + n = cfg.cbuf)
    (holds : buf.Holds e (digitText n V)) {k : ℕ} (inside : k ≤ n) :
    allZero buf e k = .ok (V % 10 ^ k = 0) := by
  induction k generalizing e n V with
  | zero => simp [allZero, Nat.mod_one]
  | succ k ih =>
      obtain ⟨n, rfl⟩ : ∃ s, n = s + 1 := ⟨n - 1, by omega⟩
      have first := read_digit count holds (Nat.succ_pos n)
      rw [Nat.add_zero, pow_zero, Nat.div_one] at first
      rw [digitText_succ] at holds
      have rest := ih (by omega) holds.2 (by omega)
      have low : V % 10 ^ (k + 1) = 10 * (V / 10 % 10 ^ k) + V % 10 := by
        rw [pow_succ', Nat.mod_mul]
        omega
      rw [allZero, first]
      simp only [bind, Except.bind]
      rw [← digitChar_zero, digitChar_beq (Nat.mod_lt V (by norm_num)) (by norm_num)]
      by_cases zero : V % 10 = 0
      · rw [if_pos (decide_eq_true zero), rest]
        congr 2
        rw [low, zero]
        exact propext ⟨fun equal => by omega, fun equal => by omega⟩
      · rw [if_neg (by rwa [decide_eq_true_iff])]
        have nonzero : V % 10 ^ (k + 1) ≠ 0 := by omega
        simp [pure, Except.pure, nonzero]

/-! ## Rounding up -/

/-- The next character of a digit that is not nine. -/
theorem digitChar_succ {d : ℕ} (digit : d < 9) :
    Char.ofNat ((digitChar 0 d).toNat + 1) = digitChar 0 (d + 1) := by
  interval_cases d <;> rfl

/-- Adding one unit in the last place, without a carry out of the run. -/
theorem etoaRound_fits {n : ℕ} {buf : ConvBuffer cfg} {V : ℕ} (dec : ℤ) (inside : n ≤ cfg.cbuf)
    (fits : V + 1 < 10 ^ n) (holds : buf.Holds (cfg.cbuf - n) (digitText n V)) :
    ∃ c, etoaRound cfg n dec buf = .ok (dec, c) ∧
      c.Holds (cfg.cbuf - n) (digitText n (V + 1)) ∧
      ∀ j, j < cfg.cbuf - n → c.cell j = buf.cell j := by
  induction n generalizing buf V with
  | zero => simp at fits
  | succ n ih =>
      have first := read_digit (by omega) holds (Nat.succ_pos n)
      rw [Nat.add_zero, pow_zero, Nat.div_one] at first
      have place : cfg.cbuf - (n + 1) + 1 = cfg.cbuf - n := by omega
      have digit := Nat.mod_lt V (show 10 > 0 by norm_num)
      rw [digitText_succ, Buffer.holds_cons, place] at holds
      rw [etoaRound]
      simp only [first, bind, Except.bind]
      rw [← show digitChar 0 9 = '9' from rfl, digitChar_beq digit (by norm_num)]
      by_cases nine : V % 10 = 9
      · rw [if_pos (decide_eq_true nine)]
        simp only [buf.write_eq '0' (show cfg.cbuf - (n + 1) < cfg.cbuf by omega)]
        obtain ⟨c, run, holds', frame⟩ := @ih
          ⟨Function.update buf.cell (cfg.cbuf - (n + 1)) (some '0')⟩ (V / 10) (by omega)
          (by rw [pow_succ] at fits; omega) (holds.2.update _ (.inl (by omega)))
        refine ⟨c, run, ?_, fun j below => ?_⟩
        · rw [show V + 1 = 10 * (V / 10 + 1) + 0 by omega, digitText_cons (by norm_num),
            digitChar_zero, Buffer.holds_cons, place, frame _ (by omega)]
          exact ⟨Function.update_self .., holds'⟩
        · rw [frame j (by omega)]
          exact Function.update_of_ne (by omega) _ _
      · rw [if_neg (by rwa [decide_eq_true_iff]), digitChar_succ (by omega)]
        simp only [buf.write_eq _ (show cfg.cbuf - (n + 1) < cfg.cbuf by omega), pure, Except.pure]
        refine ⟨_, rfl, ?_, fun j below => Function.update_of_ne (by omega) _ _⟩
        rw [show V + 1 = 10 * (V / 10) + (V % 10 + 1) by omega, digitText_cons (by omega)]
        exact (place ▸ holds.2 : buf.Holds (cfg.cbuf - (n + 1) + 1) _).update_cons _

/-- Adding one to nines leaves zeros and a one in the top cell. -/
theorem etoaRound_nines {n : ℕ} {buf : ConvBuffer cfg} {V : ℕ} (dec : ℤ) (inside : n ≤ cfg.cbuf)
    (nines : V + 1 = 10 ^ n) (holds : buf.Holds (cfg.cbuf - n) (digitText n V)) :
    ∃ c, etoaRound cfg n dec buf = .ok (dec + 1, c) ∧ c.cell (cfg.cbuf - 1) = some '1' ∧
      (∀ j, cfg.cbuf - n ≤ j → j + 1 < cfg.cbuf → c.cell j = some '0') ∧
      ∀ j, j < cfg.cbuf - n → j + 1 < cfg.cbuf → c.cell j = buf.cell j := by
  have room := cfg.cbuf_ge
  induction n generalizing buf V with
  | zero =>
      refine ⟨⟨Function.update buf.cell (cfg.cbuf - 1) (some '1')⟩, ?_, Function.update_self ..,
        fun j _ _ => by omega, fun j _ _ => Function.update_of_ne (by omega) _ _⟩
      simp only [etoaRound, bind, Except.bind, buf.write_eq '1' (show cfg.cbuf - 1 < cfg.cbuf by
        omega), pure, Except.pure]
  | succ n ih =>
      have first := read_digit (by omega) holds (Nat.succ_pos n)
      rw [Nat.add_zero, pow_zero, Nat.div_one] at first
      have nine : V % 10 = 9 := by
        rw [pow_succ] at nines
        omega
      rw [digitText_succ, Buffer.holds_cons,
        show cfg.cbuf - (n + 1) + 1 = cfg.cbuf - n by omega] at holds
      obtain ⟨c, run, top, zeros, frame⟩ := @ih
        ⟨Function.update buf.cell (cfg.cbuf - (n + 1)) (some '0')⟩ (V / 10) (by omega)
        (by rw [pow_succ] at nines; omega) (holds.2.update _ (.inl (by omega)))
      refine ⟨c, ?_, top, fun j above short => ?_, fun j below short => ?_⟩
      · rw [etoaRound]
        simp only [first, nine, bind, Except.bind]
        rw [if_pos (show (digitChar 0 9 == '9') = true from rfl)]
        simp only [buf.write_eq '0' (show cfg.cbuf - (n + 1) < cfg.cbuf by omega)]
        exact run
      · rcases eq_or_ne j (cfg.cbuf - (n + 1)) with rfl | other
        · rw [frame _ (by omega) short]
          exact Function.update_self ..
        · exact zeros j (by omega) short
      · rw [frame j (by omega) short]
        exact Function.update_of_ne (by omega) _ _

/-- Adding one unit in the last place. -/
theorem etoaRound_eq {n : ℕ} {buf : ConvBuffer cfg} {V : ℕ} (dec : ℤ) (nonzero : n ≠ 0)
    (inside : n ≤ cfg.cbuf) (below : V < 10 ^ n)
    (holds : buf.Holds (cfg.cbuf - n) (digitText n V)) :
    ∃ c, etoaRound cfg n dec buf = .ok ((carried n (V + 1) dec).2, c) ∧
      c.Holds (cfg.cbuf - n) (digitText n (carried n (V + 1) dec).1) := by
  unfold carried
  by_cases fits : V + 1 < 10 ^ n
  · rw [if_pos fits]
    obtain ⟨c, run, holds', -⟩ := etoaRound_fits dec inside fits holds
    exact ⟨c, run, holds'⟩
  · rw [if_neg fits]
    obtain ⟨c, run, top, zeros, -⟩ := etoaRound_nines dec inside (by omega) holds
    refine ⟨c, run, ?_⟩
    obtain ⟨m, rfl⟩ : ∃ m, n = m + 1 := ⟨n - 1, by omega⟩
    have text : digitText (m + 1) (10 ^ m) = List.replicate m '0' ++ digitText 1 1 := by
      rw [← digitText_mul_pow, one_mul]
    rw [Nat.add_sub_cancel, text, Buffer.holds_append]
    constructor
    · rw [Buffer.holds_iff]
      intro j bound
      rw [List.length_replicate] at bound
      rw [zeros _ (by omega) (by omega), List.getElem?_replicate, if_pos bound]
    · rw [List.length_replicate, show cfg.cbuf - (m + 1) + m = cfg.cbuf - 1 by omega]
      exact ⟨top, trivial⟩

/-! ## Dropping digits -/

theorem five_le_digitChar {d : ℕ} (digit : d < 10) : '5' ≤ digitChar 0 d ↔ 5 ≤ d := by
  interval_cases d <;> decide

theorem digitChar_odd {d : ℕ} (digit : d < 10) : (digitChar 0 d).toNat &&& 1 = d % 2 := by
  rw [digitChar_toNat digit, Nat.and_one_is_mod]
  omega

/-- The dropped digits decide the rounding. -/
theorem etoaDrop_eq {mode : EtoaMode} {d : Digits cfg} {n V k : ℕ} (count : d.end_ + n = cfg.cbuf)
    (holds : d.buf.Holds d.end_ (digitText n V)) (inside : k < n)
    (drop : (if mode.fmode then -mode.prec - d.dec else n - mode.nsigMax) = k) (nonzero : k ≠ 0) :
    ∃ carry, etoaDrop mode d = .ok { d with end_ := d.end_ + k, dec := d.dec + k, carry := carry } ∧
      (carry ≠ 0 ↔ roundsUp V k (d.tail = false)) := by
  obtain ⟨s, rfl⟩ : ∃ s, k = s + 1 := ⟨k - 1, by omega⟩
  have digit : V / 10 ^ s % 10 < 10 := Nat.mod_lt _ (by norm_num)
  have first := read_digit count holds (show s < n by omega)
  have next := read_digit count holds inside
  have zeros := allZero_eq count holds (show s ≤ n by omega)
  have drop' : (if mode.fmode then -mode.prec - d.dec
      else (cfg.cbuf : ℤ) - d.end_ - mode.nsigMax) = (s + 1 : ℕ) := by
    rw [← drop]
    congr 2
    omega
  have five : (digitChar 0 (V / 10 ^ s % 10) == '5') = decide (V / 10 ^ s % 10 = 5) := by
    rw [← digitChar_beq digit (by norm_num)]
    rfl
  have odd : (digitChar 0 (V / 10 ^ (s + 1) % 10)).toNat &&& 1 = V / 10 ^ (s + 1) % 2 := by
    rw [digitChar_odd (Nat.mod_lt _ (by norm_num)), Nat.mod_mod_of_dvd _ (by norm_num)]
  simp only [roundsUp_succ]
  simp only [etoaDrop, drop']
  rw [if_pos (by omega), Int.toNat_natCast, ← Nat.add_assoc, Nat.add_sub_cancel, Nat.add_sub_cancel]
  simp only [first, bind, Except.bind, five, five_le_digitChar digit]
  by_cases tie : V / 10 ^ s % 10 = 5
  · rw [if_pos (decide_eq_true tie)]
    cases tail : d.tail with
    | false =>
        simp only [Bool.false_eq_true, ↓reduceIte, pure, Except.pure]
        refine ⟨_, rfl, ?_⟩
        simp [tie]
    | true =>
        simp only [↓reduceIte, zeros]
        by_cases exact : V % 10 ^ s = 0
        · rw [← Nat.add_assoc] at next
          simp only [exact, decide_true, ↓reduceIte, next, odd, pure, Except.pure]
          refine ⟨_, rfl, ?_⟩
          simp [tie]
        · simp only [exact, decide_false, Bool.false_eq_true, ↓reduceIte, pure, Except.pure]
          refine ⟨_, rfl, ?_⟩
          simp [tie, exact]
  · rw [if_neg (by rwa [decide_eq_true_iff])]
    simp only [pure, Except.pure]
    refine ⟨_, rfl, ?_⟩
    split_ifs <;> omega

/-- What a pass makes of its digits: the `k` low ones go, and the carry they or the
digits below leave is added. -/
theorem etoaGenerate_of_digits {mode : EtoaMode} {bin : ℕ} {exp : ℤ} {buf : ConvBuffer cfg}
    {d : Digits cfg} {n V : ℕ} (run : etoaDigits cfg mode bin exp buf = .ok d)
    (count : d.end_ + n = cfg.cbuf) (holds : d.buf.Holds d.end_ (digitText n V))
    (below : V < 10 ^ n) {k : ℕ} (inside : k < n)
    (drop : (if mode.fmode then -mode.prec - d.dec else n - mode.nsigMax) = k ∨
      k = 0 ∧ (if mode.fmode then -mode.prec - d.dec else n - mode.nsigMax) ≤ 0) {up : Prop}
    [Decidable up] (decision : up ↔ if k = 0 then d.carry ≠ 0 else roundsUp V k (d.tail = false)) :
    ∃ c, etoaGenerate cfg mode bin exp buf = .ok (d.end_ + k,
        (carried (n - k) (V / 10 ^ k + if up then 1 else 0) (d.dec + k)).2, c) ∧
      c.Holds (d.end_ + k) (digitText (n - k)
        (carried (n - k) (V / 10 ^ k + if up then 1 else 0) (d.dec + k)).1) := by
  have zero : etoaZero d = .ok d := if_neg (by omega)
  obtain ⟨carry, dropped, carries⟩ : ∃ carry, etoaDrop mode d =
      .ok { d with end_ := d.end_ + k, dec := d.dec + k, carry := carry } ∧ (carry ≠ 0 ↔ up) := by
    by_cases vanishes : k = 0
    · subst vanishes
      refine ⟨d.carry, ?_, by simpa using decision.symm⟩
      have size : (cfg.cbuf : ℤ) - d.end_ = n := by omega
      rw [etoaDrop, size, if_neg (by omega)]
      simp [pure, Except.pure]
    · obtain ⟨carry, run, up⟩ :=
        etoaDrop_eq count holds inside (drop.resolve_right (by omega)) vanishes
      rw [if_neg vanishes] at decision
      exact ⟨carry, run, up.trans decision.symm⟩
  have kept : d.buf.Holds (d.end_ + k) (digitText (n - k) (V / 10 ^ k)) := by
    rw [← drop_digitText V inside.le]
    exact holds.drop (by rw [length_digitText]; omega)
  have below' : V / 10 ^ k < 10 ^ (n - k) := by
    rw [Nat.div_lt_iff_lt_mul (by positivity), ← pow_add, Nat.sub_add_cancel inside.le]
    exact below
  simp only [etoaGenerate, run, zero, dropped, bind, Except.bind]
  by_cases rounds : up
  · rw [if_pos (carries.mpr rounds), if_pos rounds]
    have place : cfg.cbuf - (n - k) = d.end_ + k := by omega
    obtain ⟨c, round, holds'⟩ := etoaRound_eq (d.dec + k) (by omega : n - k ≠ 0) (by omega) below'
      (place ▸ kept)
    rw [place] at holds'
    rw [show cfg.cbuf - (d.end_ + k) = n - k by omega]
    simp only [round, pure, Except.pure]
    exact ⟨c, rfl, holds'⟩
  · rw [if_neg fun nonzero => rounds (carries.mp nonzero), if_neg rounds, Nat.add_zero, carried,
      if_pos below']
    exact ⟨d.buf, rfl, kept⟩

/-! ## Rounding to a place -/

/-- The digits of a pass to a place denote `T / 10 ^ q`, and those in front of the
point are as few as can be. -/
structure FixedDigits (q T n V : ℕ) (dec : ℤ) : Prop where
  deep : -(q : ℤ) ≤ dec
  value : V * 10 ^ (dec + q).toNat = T
  length : n + dec = numeralLength 10 (T / 10 ^ q)

/-- What the digits of a place denote after a carry, and how many of them are in front
of the point. -/
theorem carried_fixed {n U q T a : ℕ} {dec : ℤ} (nonzero : n ≠ 0) (small : U ≤ 10 ^ n)
    (deep : -(q : ℤ) ≤ dec) (value : T = U * 10 ^ (dec + q).toNat)
    (length : (numeralLength 10 a : ℤ) = n + dec) (least : a * 10 ^ q ≤ T) :
    (carried n U dec).1 < 10 ^ n ∧
      FixedDigits q T n (carried n U dec).1 (carried n U dec).2 := by
  obtain ⟨m, rfl⟩ : ∃ m, n = m + 1 := ⟨n - 1, by omega⟩
  have positive := numeralLength_pos 10 a
  unfold carried
  by_cases fits : U < 10 ^ (m + 1)
  · rw [if_pos fits]
    refine ⟨fits, deep, value.symm, ?_⟩
    have more := numeralLength_mono (by norm_num : 1 < 10)
      ((Nat.le_div_iff_mul_le (by positivity)).mpr least)
    have less : numeralLength 10 (T / 10 ^ q) ≤ numeralLength 10 a := by
      refine numeralLength_le (by norm_num) positive ?_
      rw [Nat.div_lt_iff_lt_mul (by positivity), value, ← pow_add,
        show numeralLength 10 a + q = m + 1 + (dec + q).toNat by omega, pow_add]
      exact Nat.mul_lt_mul_of_pos_right fits (by positivity)
    simp only
    omega
  · rw [if_neg fits, Nat.add_sub_cancel]
    obtain rfl : U = 10 ^ (m + 1) := by omega
    have shifted : (dec + 1 + q).toNat = (dec + q).toNat + 1 := by omega
    refine ⟨Nat.pow_lt_pow_right (by norm_num) (by omega), by simp only; omega, ?_, ?_⟩
    · rw [value, shifted, pow_succ, pow_succ]
      ring
    · obtain ⟨w, width⟩ : ∃ w : ℕ, m + 1 + dec = w := ⟨(m + 1 + dec).toNat, by omega⟩
      have whole : T / 10 ^ q = 10 ^ w := by
        rw [value, ← pow_add, show m + 1 + (dec + q).toNat = w + q by omega, pow_add,
          Nat.mul_div_cancel _ (by positivity)]
      rw [whole, numeralLength_eq (by norm_num) le_rfl
        (Nat.pow_lt_pow_right (by norm_num) (Nat.lt_succ_self w))]
      push_cast
      omega

/-- One digit behind the last decides, together with what follows. -/
theorem roundHalfEven_guard {V : ℕ} {v r : ℚ} (split : v * 10 ^ 1 = V + r) (nonneg : 0 ≤ r)
    (less : r < 1) :
    roundHalfEven v = ((V / 10 ^ 1 + if roundsUp V 1 (r ≠ 0) then 1 else 0 : ℕ) : ℤ) := by
  refine roundHalfEven_of_digits one_pos ?_ ?_ ?_
  · rw [split]
    linarith
  · rw [split]
    linarith
  · rw [split, ne_eq, ne_eq, left_eq_add]

/-- A run that goes one digit past the place, rounded on that digit. -/
theorem fixedDigits_guard {q m V a : ℕ} {v r : ℚ} (least : (a : ℚ) ≤ v)
    (length : m = numeralLength 10 a + (q + 1)) (below : V < 10 ^ m)
    (split : v * 10 ^ (q + 1) = V + r) (nonneg : 0 ≤ r) (less : r < 1) {U : ℕ}
    (rounded : U = V / 10 ^ 1 + if roundsUp V 1 (r ≠ 0) then 1 else 0) :
    (carried (m - 1) U (-((q + 1 : ℕ) : ℤ) + (1 : ℕ))).1 < 10 ^ (m - 1) ∧
      FixedDigits q (fixedRound q v) (m - 1) (carried (m - 1) U (-((q + 1 : ℕ) : ℤ) + (1 : ℕ))).1
        (carried (m - 1) U (-((q + 1 : ℕ) : ℤ) + (1 : ℕ))).2 := by
  have positive := numeralLength_pos 10 a
  have value : fixedRound q v = U := by
    rw [rounded]
    refine fixedRound_eq (roundHalfEven_guard ?_ nonneg less)
    rw [← split, mul_assoc, ← pow_add]
  have kept : V / 10 ^ 1 < 10 ^ (m - 1) := by
    rw [Nat.div_lt_iff_lt_mul (by positivity), ← pow_add, Nat.sub_add_cancel (by omega)]
    exact below
  have small : U ≤ 10 ^ (m - 1) := by
    rw [rounded]
    split_ifs <;> omega
  refine carried_fixed (by omega) small (by omega) ?_ (by omega) (le_fixedRound least)
  rw [value, show (-((q + 1 : ℕ) : ℤ) + (1 : ℕ) + q).toNat = 0 by omega, pow_zero, mul_one]

/-- A run that ends before the place, with nothing left. -/
theorem fixedDigits_exact {q k m V a : ℕ} {v : ℚ} (least : (a : ℚ) ≤ v)
    (length : m = numeralLength 10 a + k) (inside : k ≤ q) (below : V < 10 ^ m)
    (split : v * 10 ^ k = V) :
    (carried m V (-(k : ℤ))).1 < 10 ^ m ∧
      FixedDigits q (fixedRound q v) m (carried m V (-(k : ℤ))).1 (carried m V (-(k : ℤ))).2 := by
  have positive := numeralLength_pos 10 a
  have value : fixedRound q v = V * 10 ^ (-(k : ℤ) + q).toNat := by
    refine fixedRound_of_exact ?_
    obtain ⟨j, rfl⟩ := Nat.exists_eq_add_of_le inside
    rw [show (-(k : ℤ) + (k + j : ℕ)).toNat = j by omega, pow_add, ← mul_assoc, split]
    push_cast
    rfl
  exact carried_fixed (by omega) below.le (by omega) value (by omega) (le_fixedRound least)

section

variable {bin : ℕ} {exp : ℤ} (valid : (machine cfg bin exp).Valid cfg) (q : ℕ)
  (buf : ConvBuffer cfg)

include valid

/-- A scaled integer, whose digits are all in front of the point. -/
theorem etoaGenerate_fixed_none (whole : (machine cfg bin exp).frac = none) :
    ∃ (e n V : ℕ) (dec : ℤ) (c : ConvBuffer cfg),
      etoaGenerate cfg (.fixed cfg q) bin exp buf = .ok (e, dec, c) ∧ e + n = cfg.cbuf ∧ n ≠ 0 ∧
      n ≤ 20 + q ∧ c.Holds e (digitText n V) ∧ V < 10 ^ n ∧
      FixedDigits q (fixedRound q ((machine cfg bin exp).value cfg)) n V dec := by
  have nonzero := valid.scaled whole
  have bit := valid.fits.2
  have short := numeralLength_int valid.fits.1
  have positive := numeralLength_pos 10 (machine cfg bin exp).int
  have below := lt_pow_numeralLength (by norm_num : 1 < 10) (machine cfg bin exp).int
  obtain ⟨carry, e, b, run, count, holds, up⟩ := @etoaDigits_int _ _ _ valid (.fixed cfg q)
    (fun fraction => absurd whole fraction) buf
  rw [up whole] at run
  have printed : intDigits (.fixed cfg q) (machine cfg bin exp).int =
      numeralLength 10 (machine cfg bin exp).int := if_pos (.inr rfl)
  rw [printed] at count holds
  obtain ⟨c, round, holds'⟩ := @etoaGenerate_of_digits _ _ _ _ _ _ _ _ run count holds below 0
    positive (.inr ⟨rfl, by simp only [EtoaMode.fixed, ↓reduceIte]; omega⟩)
    ((machine cfg bin exp).up ≠ 0) _ (by simp)
  have added : (if (machine cfg bin exp).up ≠ 0 then 1 else 0) = (machine cfg bin exp).up := by
    split_ifs <;> omega
  have rounded : fixedRound q ((machine cfg bin exp).value cfg) =
      ((machine cfg bin exp).int + (machine cfg bin exp).up) *
        10 ^ ((machine cfg bin exp).dec + q : ℤ).toNat := by
    refine fixedRound_of_exact ?_
    rw [Machine.value, whole, show ((machine cfg bin exp).dec + q : ℤ).toNat =
      (machine cfg bin exp).dec + q by omega, pow_add]
    push_cast
    ring
  simp only [added, pow_zero, Nat.div_one, Nat.sub_zero, Nat.cast_zero, add_zero] at round holds'
  have spec := @carried_fixed _ _ q _ ((machine cfg bin exp).int * 10 ^ (machine cfg bin exp).dec)
    (machine cfg bin exp).dec positive.ne' (by omega) (by omega) rounded
    (by rw [numeralLength_mul_pow (by norm_num) nonzero]; push_cast; rfl)
    (by
      rw [rounded, show ((machine cfg bin exp).dec + q : ℤ).toNat =
        (machine cfg bin exp).dec + q by omega, mul_assoc, ← pow_add]
      exact Nat.mul_le_mul_right _ (by omega))
  exact ⟨e, _, _, _, c, round, count, positive.ne', by omega, holds', spec⟩

/-- The digits of a value with a fraction go down to one past the place, or end before: with
nothing left, or at the bottom of the buffer. -/
theorem etoaDigits_fixed {f : Fraction} (fraction : (machine cfg bin exp).frac = some f) :
    ∃ (carry e m V k : ℕ) (r : ℚ) (c : ConvBuffer cfg),
      etoaDigits cfg (.fixed cfg q) bin exp buf = .ok ⟨e, -k, carry, r = 0, c⟩ ∧
      e + m = cfg.cbuf ∧ c.Holds e (digitText m V) ∧ V < 10 ^ m ∧
      (machine cfg bin exp).value cfg * 10 ^ k = V + r ∧ 0 ≤ r ∧ r < 1 ∧ (r = 0 → carry = 0) ∧
      m = numeralLength 10 (machine cfg bin exp).int + k ∧
      (k = q + 1 ∨ k ≤ q ∧ (r = 0 ∨ e = 0)) := by
  have room := cfg.cbuf_ge
  have short := numeralLength_int valid.fits.1
  have positive := numeralLength_pos 10 (machine cfg bin exp).int
  have printed : intDigits (.fixed cfg q) (machine cfg bin exp).int =
      numeralLength 10 (machine cfg bin exp).int := if_pos (.inr rfl)
  obtain ⟨carry, e, m, V, k, r, b, run, count, holds, below, split, nonneg, less, spent, ends, low,
    far, wide, -⟩ := @etoaDigits_some _ _ _ valid (.fixed cfg q) f fraction
      (by simp only [EtoaMode.fixed]; omega) (by rw [printed]; simp only [EtoaMode.fixed]; omega)
      (by simp only [EtoaMode.fixed]; omega) (by rw [printed]; omega) buf
  rw [printed] at wide
  simp only [EtoaMode.fixed] at ends low far
  refine ⟨carry, e, m, V, k, r, b, run, count, holds, below, split, nonneg, less, spent,
    wide positive.ne', ?_⟩
  by_cases guard : k = q + 1
  · exact .inl guard
  · exact .inr ⟨by omega, ends.imp_right fun bottom => by omega⟩

/-- A value with a fraction, whose digits go down to one past the place, or end before. -/
theorem etoaGenerate_fixed_some {f : Fraction} (fraction : (machine cfg bin exp).frac = some f) :
    ∃ (e n V : ℕ) (dec : ℤ) (c : ConvBuffer cfg),
      etoaGenerate cfg (.fixed cfg q) bin exp buf = .ok (e, dec, c) ∧ e + n = cfg.cbuf ∧ n ≠ 0 ∧
      n ≤ 20 + q ∧ c.Holds e (digitText n V) ∧ V < 10 ^ n ∧ -(q : ℤ) ≤ dec ∧
      (FixedDigits q (fixedRound q ((machine cfg bin exp).value cfg)) n V dec ∨
        0 < q ∧ cfg.cbuf < n + dec + q + 1 ∧ cfg.cbuf < numeralLength 10
          (fixedRound q ((machine cfg bin exp).value cfg) / 10 ^ q) + q + 1) := by
  have room := cfg.cbuf_ge
  have short := numeralLength_int valid.fits.1
  have positive := numeralLength_pos 10 (machine cfg bin exp).int
  -- the integer is a lower bound
  have least : ((machine cfg bin exp).int : ℚ) ≤ (machine cfg bin exp).value cfg := by
    rw [Machine.value, fraction]
    exact le_add_of_nonneg_right f.value_nonneg
  obtain ⟨carry, e, m, V, k, r, b, run, count, holds, below, split, nonneg, less, spent, length,
    ends⟩ := etoaDigits_fixed valid q buf fraction
  rcases ends with rfl | ⟨inside, ends⟩
  · -- the guard digit decides
    obtain ⟨c, round, holds'⟩ := @etoaGenerate_of_digits _ _ _ _ _ _ _ _ run count holds below 1
      (by omega) (.inl (by simp only [EtoaMode.fixed, ↓reduceIte]; push_cast; omega))
      (roundsUp V 1 (r ≠ 0)) _ (by simp)
    obtain ⟨small, digits⟩ := fixedDigits_guard least length below split nonneg less rfl
    exact ⟨e + 1, m - 1, _, _, c, round, by omega, by omega, by omega, holds', small, digits.deep,
      .inl digits⟩
  · obtain ⟨c, round, holds'⟩ := @etoaGenerate_of_digits _ _ _ _ _ _ _ _ run count holds below 0
      (by omega) (.inr ⟨rfl, by simp only [EtoaMode.fixed, ↓reduceIte]; omega⟩)
      (carry ≠ 0) _ (by simp)
    simp only [pow_zero, Nat.div_one, Nat.sub_zero, Nat.cast_zero, add_zero] at round holds'
    by_cases exact : r = 0
    · -- the digits are all there are
      rw [spent exact, if_neg (not_not.mpr rfl), Nat.add_zero] at round holds'
      rw [exact, add_zero] at split
      obtain ⟨small, digits⟩ := fixedDigits_exact least length inside below split
      exact ⟨e, m, _, _, c, round, count, by omega, by omega, holds', small, digits.deep,
        .inl digits⟩
    · -- the buffer is full, and the precision asks for more
      have full := ends.resolve_left exact
      have longer := numeralLength_mono (by norm_num : 1 < 10)
        ((Nat.le_div_iff_mul_le (by positivity)).mpr (le_fixedRound (q := q) least))
      have within := le_carried m (V + if carry ≠ 0 then 1 else 0) (-k)
      exact ⟨e, m, _, _, c, round, count, by omega, by omega, holds', carried_lt (by omega) _ _,
        by omega, .inr ⟨by omega, by omega, by omega⟩⟩

end

/-- **The pass of `%f` leaves the number rounded to its precision**, unless the digits
it stands for are more than the buffer can hold. -/
theorem etoaGenerate_fixed {bin : ℕ} {exp : ℤ} (valid : (machine cfg bin exp).Valid cfg) (q : ℕ)
    (buf : ConvBuffer cfg) :
    ∃ (e n V : ℕ) (dec : ℤ) (c : ConvBuffer cfg),
      etoaGenerate cfg (.fixed cfg q) bin exp buf = .ok (e, dec, c) ∧ e + n = cfg.cbuf ∧ n ≠ 0 ∧
      n ≤ 20 + q ∧ c.Holds e (digitText n V) ∧ V < 10 ^ n ∧ -(q : ℤ) ≤ dec ∧
      (FixedDigits q (fixedRound q ((machine cfg bin exp).value cfg)) n V dec ∨
        0 < q ∧ cfg.cbuf < n + dec + q + 1 ∧ cfg.cbuf < numeralLength 10
          (fixedRound q ((machine cfg bin exp).value cfg) / 10 ^ q) + q + 1) := by
  match frac : (machine cfg bin exp).frac with
  | none =>
      obtain ⟨e, n, V, dec, c, run, count, nonzero, few, holds, below, digits⟩ :=
        etoaGenerate_fixed_none valid q buf frac
      exact ⟨e, n, V, dec, c, run, count, nonzero, few, holds, below, digits.deep, .inl digits⟩
  | some f => exact etoaGenerate_fixed_some valid q buf frac

/-! ## Rounding to a number of digits -/

/-- The digits of a pass to `p + 1` of them are those of the rounded number. -/
structure SignificantDigits (p : ℕ) (v : ℚ) (n V : ℕ) (dec : ℤ) : Prop where
  value : V * 10 ^ (p + 1 - n) = (sciRound p v).1
  exponent : dec + n - 1 = (sciRound p v).2

/-- The integer without its `k` low digits, rounded on them and on what is known of the rest. -/
def droppedRound (m : Machine) (tail : Bool) (p k : ℕ) : ℕ × ℤ :=
  carried (p + 1) (m.int / 10 ^ k + if roundsUp m.int k (tail = false) then 1 else 0) (m.dec + k)

/-- A pass that generates no digit leaves a zero. -/
theorem etoaGenerate_zero {mode : EtoaMode} {bin : ℕ} {exp : ℤ} {buf : ConvBuffer cfg}
    {d : Digits cfg} (run : etoaDigits cfg mode bin exp buf = .ok d) (noDigits : d.end_ = cfg.cbuf)
    (plain : mode.fmode = false) (asked : 1 ≤ mode.nsigMax) :
    ∃ c, etoaGenerate cfg mode bin exp buf = .ok (cfg.cbuf - 1, 0, c) ∧
      c.Holds (cfg.cbuf - 1) (digitText 1 0) := by
  have room := cfg.cbuf_ge
  obtain ⟨e, below⟩ : ∃ e, cfg.cbuf = e + 1 := ⟨cfg.cbuf - 1, by omega⟩
  obtain ⟨c, pushed, holds⟩ := pushDown_eq (V := 0) (d := 0) (show e < cfg.cbuf by omega)
    (by norm_num) (show d.buf.Holds (e + 1) (digitText 0 0) from trivial)
  rw [digitChar_zero] at pushed
  have zero : etoaZero d = .ok { d with end_ := e, buf := c, dec := 0, carry := 0 } := by
    rw [etoaZero, if_pos noDigits, noDigits, below]
    simp only [pushed, bind, Except.bind, pure, Except.pure]
  have kept : etoaDrop mode { d with end_ := e, buf := c, dec := 0, carry := 0 } =
      .ok { d with end_ := e, buf := c, dec := 0, carry := 0 } := by
    simp only [etoaDrop, plain, Bool.false_eq_true, ↓reduceIte]
    rw [if_neg (by omega)]
    rfl
  rw [show cfg.cbuf - 1 = e by omega]
  refine ⟨c, ?_, holds⟩
  simp only [etoaGenerate, run, zero, kept, bind, Except.bind, ne_eq, not_true_eq_false, ↓reduceIte,
    pure, Except.pure]

theorem intDigits_significant (cfg : Config) (prec nsigMax : ℤ) (int : ℕ) :
    intDigits (.significant cfg prec nsigMax) int =
      if int ≠ 0 then numeralLength 10 int else 0 := by
  simp [intDigits, EtoaMode.significant]

/-- The digits in front of the point start a longer run. -/
theorem pow_le_of_front {int V k : ℕ} {v r : ℚ} (nonzero : int ≠ 0) (front : (int : ℚ) ≤ v)
    (split : v * 10 ^ k = V + r) (less : r < 1) : 10 ^ (numeralLength 10 int + k - 1) ≤ V := by
  have positive := numeralLength_pos 10 int
  have below : ((int * 10 ^ k : ℕ) : ℚ) < (V + 1 : ℕ) := by
    push_cast
    calc (int : ℚ) * 10 ^ k ≤ v * 10 ^ k := mul_le_mul_of_nonneg_right front (by positivity)
      _ = V + r := split
      _ < V + 1 := by linarith
  calc 10 ^ (numeralLength 10 int + k - 1) = 10 ^ (numeralLength 10 int - 1) * 10 ^ k := by
        rw [← pow_add, Nat.sub_add_comm positive]
    _ ≤ int * 10 ^ k := Nat.mul_le_mul_right _ (pow_numeralLength_le (by norm_num) nonzero)
    _ ≤ V := Nat.lt_succ_iff.mp (by exact_mod_cast below)

/-- A run with one digit more than there is room for, rounded on that digit. -/
theorem significantDigits_guard {p V k : ℕ} {v r : ℚ} (least : 10 ^ (p + 1) ≤ V)
    (below : V < 10 ^ (p + 2)) (scaled : v = (V + r) * 10 ^ (-(k : ℤ))) (nonneg : 0 ≤ r)
    (less : r < 1) {U : ℕ} (rounded : U = V / 10 ^ 1 + if roundsUp V 1 (r ≠ 0) then 1 else 0) :
    SignificantDigits p v (p + 1) (carried (p + 1) U (-(k : ℤ) + (1 : ℕ))).1
      (carried (p + 1) U (-(k : ℤ) + (1 : ℕ))).2 := by
  have ten : (10 : ℚ) ≠ 0 := by norm_num
  have unit : (0 : ℚ) < 10 ^ (-(k : ℤ)) := by positivity
  have leastQ : (10 : ℚ) ^ (p + 1) ≤ V := by exact_mod_cast least
  have belowQ : (V : ℚ) + 1 ≤ 10 ^ (p + 2) := by exact_mod_cast below
  have small : U ≤ 10 ^ (p + 1) := by
    have kept : V / 10 ^ 1 < 10 ^ (p + 1) := by
      rw [Nat.div_lt_iff_lt_mul (by positivity), ← pow_add]
      exact below
    rw [rounded]
    split_ifs <;> omega
  have lower : (10 : ℚ) ^ (-(k : ℤ) + (1 : ℕ) + (p + 1 : ℕ) - 1) ≤ v := by
    rw [scaled, show -(k : ℤ) + (1 : ℕ) + (p + 1 : ℕ) - 1 = ((p + 1 : ℕ) : ℤ) + -k by
      push_cast
      ring, zpow_add₀ ten, zpow_natCast]
    exact mul_le_mul_of_nonneg_right (leastQ.trans (by linarith)) unit.le
  have upper : v < (10 : ℚ) ^ (-(k : ℤ) + (1 : ℕ) + (p + 1 : ℕ)) := by
    rw [scaled, show -(k : ℤ) + (1 : ℕ) + (p + 1 : ℕ) = ((p + 2 : ℕ) : ℤ) + -k by
      push_cast
      ring, zpow_add₀ ten, zpow_natCast]
    exact mul_lt_mul_of_pos_right (by linarith) unit
  have place : v * 10 ^ ((p : ℤ) - (-(k : ℤ) + (1 : ℕ) + (p + 1 : ℕ) - 1)) * 10 ^ 1 = V + r := by
    rw [scaled, mul_assoc, mul_assoc, ← zpow_natCast 10 1, ← zpow_add₀ ten, ← zpow_add₀ ten]
    push_cast
    ring_nf
    simp
  obtain ⟨digits, exponent⟩ := sciRound_carried (Nat.succ_ne_zero p) le_rfl small lower upper (by
    rw [Nat.sub_self, pow_zero, mul_one, rounded]
    exact roundHalfEven_guard place nonneg less)
  exact ⟨digits, exponent⟩

section

variable {bin : ℕ} {exp : ℤ} (valid : (machine cfg bin exp).Valid cfg) {p : ℕ} (prec : ℤ)
  (buf : ConvBuffer cfg)

include valid

/-- A scaled integer of no more digits than asked for. -/
theorem etoaGenerate_significant_none (whole : (machine cfg bin exp).frac = none)
    (few : numeralLength 10 (machine cfg bin exp).int ≤ p + 1) :
    ∃ (e n V : ℕ) (dec : ℤ) (c : ConvBuffer cfg),
      etoaGenerate cfg (.significant cfg prec (p + 1)) bin exp buf = .ok (e, dec, c) ∧
      e + n = cfg.cbuf ∧ n ≠ 0 ∧ n ≤ p + 1 ∧ c.Holds e (digitText n V) ∧ V < 10 ^ n ∧
      SignificantDigits p ((machine cfg bin exp).value cfg) n V dec := by
  have nonzero := valid.scaled whole
  have bit := valid.fits.2
  have positive := numeralLength_pos 10 (machine cfg bin exp).int
  have below := lt_pow_numeralLength (by norm_num : 1 < 10) (machine cfg bin exp).int
  have least := pow_numeralLength_le (by norm_num : 1 < 10) nonzero
  obtain ⟨carry, e, b, run, count, holds, up⟩ := @etoaDigits_int _ _ _ valid
    (.significant cfg prec (p + 1)) (fun fraction => absurd whole fraction) buf
  rw [up whole] at run
  have printed : intDigits (.significant cfg prec (p + 1)) (machine cfg bin exp).int =
      numeralLength 10 (machine cfg bin exp).int := if_pos (.inl nonzero)
  rw [printed] at count holds
  obtain ⟨c, round, holds'⟩ := @etoaGenerate_of_digits _ _ _ _ _ _ _ _ run count holds below 0
    positive (.inr ⟨rfl, by
      simp only [EtoaMode.significant, Bool.false_eq_true, ↓reduceIte]
      omega⟩)
    ((machine cfg bin exp).up ≠ 0) _ (by simp)
  have added : (if (machine cfg bin exp).up ≠ 0 then 1 else 0) = (machine cfg bin exp).up := by
    split_ifs <;> omega
  simp only [added, pow_zero, Nat.div_one, Nat.sub_zero, Nat.cast_zero, add_zero] at round holds'
  have value : (machine cfg bin exp).value cfg =
      ((machine cfg bin exp).int + (machine cfg bin exp).up : ℕ) *
        10 ^ ((machine cfg bin exp).dec : ℤ) := by
    rw [Machine.value, whole, zpow_natCast]
    push_cast
    rfl
  obtain ⟨digits, exponent⟩ := sciRound_exact positive.ne' few (by omega) (by omega) value
  exact ⟨e, _, _, _, c, round, count, positive.ne', few, holds', carried_lt positive.ne' _ _,
    digits, exponent⟩

/-- The digits of a value with a fraction go on to one past the request, or end with nothing
left. Without a digit the value is zero, and else the first digit is not. -/
theorem etoaDigits_significant {f : Fraction} (fraction : (machine cfg bin exp).frac = some f)
    (few : (machine cfg bin exp).int ≠ 0 → numeralLength 10 (machine cfg bin exp).int ≤ p + 1)
    (fits : p + 8 ≤ cfg.cbuf) :
    ∃ (carry e m V k : ℕ) (r : ℚ) (c : ConvBuffer cfg),
      etoaDigits cfg (.significant cfg prec (p + 1)) bin exp buf = .ok ⟨e, -k, carry, r = 0, c⟩ ∧
      e + m = cfg.cbuf ∧ c.Holds e (digitText m V) ∧ V < 10 ^ m ∧
      (machine cfg bin exp).value cfg * 10 ^ k = V + r ∧ 0 ≤ r ∧ r < 1 ∧ (r = 0 → carry = 0) ∧
      (m = p + 2 ∨ m ≤ p + 1 ∧ r = 0) ∧ (m = 0 → (machine cfg bin exp).value cfg = 0) ∧
      (m ≠ 0 → 10 ^ (m - 1) ≤ V) := by
  have room := cfg.cbuf_ge
  have capacity := cfg.cbuf_le
  have wide := cfg.toTarget.intMax_ge
  have printed := intDigits_significant cfg prec (p + 1) (machine cfg bin exp).int
  have short : (intDigits (.significant cfg prec (p + 1)) (machine cfg bin exp).int : ℤ) ≤
      (EtoaMode.significant cfg prec (p + 1)).nsigMax := by
    rw [printed]
    simp only [EtoaMode.significant]
    split_ifs with integer
    · exact_mod_cast few integer
    · exact Int.natCast_nonneg (p + 1)
  obtain ⟨carry, e, m, V, k, r, b, run, count, holds, below, split, nonneg, less, spent, ends, low,
    far, behind, alone⟩ := @etoaDigits_some _ _ _ valid (.significant cfg prec (p + 1)) f fraction
      (by simp only [EtoaMode.significant]; omega) short
      (by simp only [EtoaMode.significant]; omega) (by simp only [EtoaMode.significant]; omega) buf
  simp only [EtoaMode.significant] at ends low far
  have stops (bounded : k ≤ cfg.intMax) : m = p + 2 ∨ m ≤ p + 1 ∧ r = 0 := by
    by_cases guard : m = p + 2
    · exact .inl guard
    · exact .inr ⟨by omega, ends.resolve_right (by omega)⟩
  by_cases integer : intDigits (.significant cfg prec (p + 1)) (machine cfg bin exp).int = 0
  · rcases alone integer with ⟨vanishes, zero⟩ | ⟨nonzero, least, shallow⟩
    · -- there is no digit, and nothing left
      have nothing : V = 0 := by
        rw [vanishes] at below
        omega
      have exact : r = 0 := by
        rw [zero, nothing, zero_mul, Nat.cast_zero, zero_add] at split
        exact split.symm
      exact ⟨carry, e, m, V, k, r, b, run, count, holds, below, split, nonneg, less, spent,
        .inr ⟨by omega, exact⟩, fun _ => zero, fun nonzero => absurd vanishes nonzero⟩
    · -- the digits start behind the point, and the position is no bound
      exact ⟨carry, e, m, V, k, r, b, run, count, holds, below, split, nonneg, less, spent,
        stops (by omega), fun vanishes => absurd vanishes nonzero, fun _ => least⟩
  · have length := behind integer
    have nonzero : (machine cfg bin exp).int ≠ 0 := by
      intro zero
      rw [printed, if_neg (not_not.mpr zero)] at integer
      exact integer rfl
    rw [printed, if_pos nonzero] at length
    have positive := numeralLength_pos 10 (machine cfg bin exp).int
    have front : ((machine cfg bin exp).int : ℚ) ≤ (machine cfg bin exp).value cfg := by
      rw [Machine.value, fraction]
      exact le_add_of_nonneg_right f.value_nonneg
    refine ⟨carry, e, m, V, k, r, b, run, count, holds, below, split, nonneg, less, spent,
      stops (by omega), fun vanishes => absurd vanishes (by omega), fun _ => ?_⟩
    rw [length]
    exact pow_le_of_front nonzero front split less

/-- A value with a fraction, whose digits go on to one past the request, or end before. -/
theorem etoaGenerate_significant_some {f : Fraction}
    (fraction : (machine cfg bin exp).frac = some f)
    (few : (machine cfg bin exp).int ≠ 0 → numeralLength 10 (machine cfg bin exp).int ≤ p + 1)
    (fits : p + 8 ≤ cfg.cbuf) :
    ∃ (e n V : ℕ) (dec : ℤ) (c : ConvBuffer cfg),
      etoaGenerate cfg (.significant cfg prec (p + 1)) bin exp buf = .ok (e, dec, c) ∧
      e + n = cfg.cbuf ∧ n ≠ 0 ∧ n ≤ p + 1 ∧ c.Holds e (digitText n V) ∧ V < 10 ^ n ∧
      SignificantDigits p ((machine cfg bin exp).value cfg) n V dec := by
  obtain ⟨carry, e, m, V, k, r, b, run, count, holds, below, split, nonneg, less, spent, ends,
    empty, first⟩ := etoaDigits_significant valid prec buf fraction few fits
  by_cases vanishes : m = 0
  · -- the value is zero
    subst vanishes
    have zero := empty rfl
    obtain ⟨c, round, holds'⟩ := etoaGenerate_zero run (by omega) rfl
      (by simp only [EtoaMode.significant]; omega)
    refine ⟨_, 1, 0, 0, c, round, by omega, by omega, by omega, holds', by norm_num, ?_, ?_⟩
    · simp [zero, sciRound]
    · simp [zero, sciRound]
  have least := first vanishes
  have power : (0 : ℚ) < 10 ^ k := by positivity
  have scaled : (machine cfg bin exp).value cfg = (V + r) * 10 ^ (-(k : ℤ)) := by
    rw [zpow_neg, zpow_natCast, ← split, mul_inv_cancel_right₀ power.ne']
  rcases ends with rfl | ⟨inside, exact⟩
  · -- the guard digit decides
    obtain ⟨c, round, holds'⟩ := @etoaGenerate_of_digits _ _ _ _ _ _ _ _ run count holds below 1
      (by omega) (.inl (by
        simp only [EtoaMode.significant, Bool.false_eq_true, ↓reduceIte]
        push_cast
        ring))
      (roundsUp V 1 (r ≠ 0)) _ (by simp)
    exact ⟨e + 1, p + 1, _, _, c, round, by omega, by omega, le_rfl, holds',
      carried_lt (by omega) _ _, significantDigits_guard least below scaled nonneg less rfl⟩
  · -- the digits are all there are
    obtain ⟨c, round, holds'⟩ := @etoaGenerate_of_digits _ _ _ _ _ _ _ _ run count holds below 0
      (by omega) (.inr ⟨rfl, by
        simp only [EtoaMode.significant, Bool.false_eq_true, ↓reduceIte]
        omega⟩)
      (carry ≠ 0) _ (by simp)
    rw [spent exact] at round holds'
    simp only [ne_eq, not_true_eq_false, ↓reduceIte, pow_zero, Nat.div_one, Nat.sub_zero,
      Nat.cast_zero, add_zero] at round holds'
    rw [exact, add_zero] at scaled
    obtain ⟨digits, exponent⟩ :=
      @sciRound_exact p m V _ (-(k : ℤ)) vanishes (by omega) least below.le scaled
    exact ⟨e, m, _, _, c, round, count, vanishes, by omega, holds', carried_lt vanishes _ _, digits,
      exponent⟩

/-- **The pass of `%e` leaves the number rounded to its digits**, unless integer digits
have to go. -/
theorem etoaGenerate_significant
    (few : (machine cfg bin exp).int ≠ 0 → numeralLength 10 (machine cfg bin exp).int ≤ p + 1)
    (fits : p + 8 ≤ cfg.cbuf) :
    ∃ (e n V : ℕ) (dec : ℤ) (c : ConvBuffer cfg),
      etoaGenerate cfg (.significant cfg prec (p + 1)) bin exp buf = .ok (e, dec, c) ∧
      e + n = cfg.cbuf ∧ n ≠ 0 ∧ n ≤ p + 1 ∧ c.Holds e (digitText n V) ∧ V < 10 ^ n ∧
      SignificantDigits p ((machine cfg bin exp).value cfg) n V dec := by
  match frac : (machine cfg bin exp).frac with
  | none => exact etoaGenerate_significant_none valid prec buf frac (few (valid.scaled frac))
  | some f => exact etoaGenerate_significant_some valid prec buf frac few fits

/-- Integer digits that have to go are rounded on what is known of the rest. -/
theorem etoaGenerate_drop {k : ℕ} (positive : k ≠ 0)
    (many : numeralLength 10 (machine cfg bin exp).int = p + 1 + k) :
    ∃ (e : ℕ) (c : ConvBuffer cfg),
      etoaGenerate cfg (.significant cfg prec (p + 1)) bin exp buf =
        .ok (e, (droppedRound (machine cfg bin exp) (intTail cfg bin exp) p k).2, c) ∧
      e + (p + 1) = cfg.cbuf ∧ c.Holds e (digitText (p + 1)
        (droppedRound (machine cfg bin exp) (intTail cfg bin exp) p k).1) := by
  have nonzero : (machine cfg bin exp).int ≠ 0 := by
    intro zero
    rw [zero, numeralLength, numeral_of_lt (by norm_num), List.length_singleton] at many
    omega
  have printed : intDigits (.significant cfg prec (p + 1)) (machine cfg bin exp).int = p + 1 + k :=
    (if_pos (.inl nonzero)).trans many
  have below := many ▸ lt_pow_numeralLength (by norm_num : 1 < 10) (machine cfg bin exp).int
  obtain ⟨carry, e, b, run, count, holds, -⟩ := @etoaDigits_int _ _ _ valid
    (.significant cfg prec (p + 1)) (fun _ => by
      rw [printed]
      simp only [EtoaMode.significant]
      omega) buf
  rw [printed] at count holds
  obtain ⟨c, round, holds'⟩ := @etoaGenerate_of_digits _ _ _ _ _ _ _ _ run count holds below k
    (by omega) (.inl (by
      simp only [EtoaMode.significant, Bool.false_eq_true, ↓reduceIte]
      push_cast
      ring))
    (roundsUp (machine cfg bin exp).int k (intTail cfg bin exp = false)) _
    (by rw [if_neg positive])
  rw [Nat.add_sub_cancel] at round holds'
  exact ⟨e + k, c, round, by omega, holds'⟩

end

end Nanoprintf
