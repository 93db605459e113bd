import Nanoprintf.EtoaLayout

/-!
# What the conversion by digits and exponent leaves

`npf_etoa_rev` as a whole, for every pattern: the word of a value that is no
number, and for a finite value the text of the number the conversion works with,
rounded half to even, or the word of an error when that text is too long. The
number is `approximation`; nothing in this file says how close it is.
-/

set_option autoImplicit false

namespace Nanoprintf

open Foundations

variable {cfg : Config}

/-! ## Words -/

/-- A conversion leaves a word that is no number. -/
def LeavesWord (run : Run (ℤ × ConvBuffer cfg)) (word : List Char) : Prop :=
  ∃ c, run = .ok (-(word.length : ℤ), c) ∧ c.Holds 0 word.reverse

instance (run : Run (ℤ × ConvBuffer cfg)) (word : List Char) : Decidable (LeavesWord run word) :=
  match run with
  | .ok (n, c) =>
    decidable_of_iff (n = -(word.length : ℤ) ∧ c.Holds 0 word.reverse)
      ⟨fun both => ⟨c, by rw [both.1], both.2⟩,
        fun ⟨_, same, holds⟩ => by cases same; exact ⟨rfl, holds⟩⟩
  | .error _ => isFalse nofun

/-- A word in the case of its conversion. -/
def inCase (caseAdj : ℕ) (word : List Char) : List Char :=
  word.map fun c => Char.ofNat (c.toNat + caseAdj)

/-- The word of a conversion that cannot print its number. -/
def errWord (caseAdj : ℕ) : List Char := inCase caseAdj ['E', 'R', 'R']

theorem specialLoop_eq (caseAdj : ℕ) {word rest : List Char} {i : ℕ} {buf : ConvBuffer cfg}
    (nonempty : word ≠ []) (plain : NUL ∉ word.tail) (inside : i + word.length ≤ cfg.cbuf) :
    ∃ c, specialLoop caseAdj (word ++ NUL :: rest) i buf = .ok (i + word.length, c) ∧
      c.Holds i (inCase caseAdj word) ∧ ∀ j, j < i → c.cell j = buf.cell j := by
  induction word generalizing i buf with
  | nil => exact absurd rfl nonempty
  | cons a word ih =>
      rw [List.length_cons] at inside
      rw [List.cons_append, specialLoop]
      simp only [bind, Except.bind, buf.write_eq _ (show i < cfg.cbuf by omega)]
      cases word with
      | nil =>
          exact ⟨_, rfl, ⟨Function.update_self .., trivial⟩,
            fun j below => Function.update_of_ne (by omega) _ _⟩
      | cons b word =>
          obtain ⟨first, later⟩ := not_or.mp (List.mem_cons.not.mp plain)
          obtain ⟨c, run, holds, frame⟩ := @ih (i + 1)
            ⟨Function.update buf.cell i (some (Char.ofNat (a.toNat + caseAdj)))⟩ nofun later
            (by omega)
          refine ⟨c, ?_, ⟨?_, holds⟩, fun j below => ?_⟩
          · rw [List.cons_append] at run ⊢
            simp only [ne_eq, Ne.symm first, not_false_eq_true, ↓reduceIte, run]
            congr 2
            simp only [List.length_cons]
            omega
          · rw [frame i (Nat.lt_succ_self i)]
            exact Function.update_self ..
          · rw [frame j (by omega)]
            exact Function.update_of_ne (by omega) _ _

/-- The three words. -/
theorem npfFtoaSpecial_eq (caseAdj : ℕ) {off : ℕ} {word rest : List Char} (buf : ConvBuffer cfg)
    (packed : specials.drop off = word.reverse ++ NUL :: rest) (nonempty : word ≠ [])
    (plain : NUL ∉ word) (inside : word.length ≤ cfg.cbuf) :
    LeavesWord (npfFtoaSpecial buf caseAdj off) (inCase caseAdj word) := by
  have absent : NUL ∉ word.reverse.tail := fun inner =>
    plain (List.mem_reverse.mp (List.mem_of_mem_tail inner))
  obtain ⟨c, run, holds, -⟩ := @specialLoop_eq cfg caseAdj word.reverse rest 0 buf (by simpa) absent
    (by rw [List.length_reverse]; omega)
  refine ⟨c, ?_, ?_⟩
  · rw [npfFtoaSpecial, packed, run]
    simp [bind, Except.bind, pure, Except.pure, inCase]
  · rwa [inCase, ← List.map_reverse]

/-- The conversion leaves through its exit. -/
theorem orErr_exit (buf : ConvBuffer cfg) (caseAdj : ℕ) :
    LeavesWord (orErr buf caseAdj gotoExit) (errWord caseAdj) := by
  have room := cfg.cbuf_ge
  exact @npfFtoaSpecial_eq cfg caseAdj npfFtoaErr ['E', 'R', 'R'] [] buf rfl (by simp) (by decide)
    (by simp only [List.length_cons, List.length_nil]; omega)

theorem Leaves.orErr {run : Run (ℤ × ConvBuffer cfg)} {text : List Char} (leaves : Leaves run text)
    (buf : ConvBuffer cfg) (caseAdj : ℕ) : Leaves (orErr buf caseAdj run) text := by
  obtain ⟨c, rfl, holds⟩ := leaves
  exact ⟨c, rfl, holds⟩

/-- A run that leaves a text leaves no other. -/
theorem Leaves.unique {run : Run (ℤ × ConvBuffer cfg)} {s t : List Char} (first : Leaves run s)
    (second : Leaves run t) : s = t := by
  obtain ⟨c, rfl, holds⟩ := first
  obtain ⟨d, same, holds'⟩ := second
  obtain ⟨length, rfl⟩ := Prod.mk.inj (Except.ok.inj same)
  exact List.reverse_injective (holds.unique holds' (by simp; omega))

theorem Leaves.iff_eq {run : Run (ℤ × ConvBuffer cfg)} {s t : List Char} (leaves : Leaves run s) :
    Leaves run t ↔ s = t :=
  ⟨leaves.unique, fun same => same ▸ leaves⟩

/-! ## The number of a pattern -/

/-- What a conversion works with for a pattern. -/
def machineOf (cfg : Config) (f : RealBits cfg) : Machine :=
  machine cfg (normalize cfg (biasedExp cfg f.toNat) (fracField cfg f.toNat)).1
    (normalize cfg (biasedExp cfg f.toNat) (fracField cfg f.toNat)).2

/-- The number that the decimal conversions print for a pattern. -/
def approximation (cfg : Config) (f : RealBits cfg) : ℚ := (machineOf cfg f).value cfg

/-- What `%e` knows of the digits below the integer of a pattern: there are none. -/
def integerTail (cfg : Config) (f : RealBits cfg) : Bool :=
  intTail cfg (normalize cfg (biasedExp cfg f.toNat) (fracField cfg f.toNat)).1
    (normalize cfg (biasedExp cfg f.toNat) (fracField cfg f.toNat)).2

theorem Reads.machineOf_eq {f : RealBits cfg} {bin : ℕ} {exp : ℤ} (reads : Reads cfg f bin exp) :
    machineOf cfg f = machine cfg bin exp := by
  rw [machineOf, reads.normalized]

theorem Reads.integerTail_eq {f : RealBits cfg} {bin : ℕ} {exp : ℤ} (reads : Reads cfg f bin exp) :
    integerTail cfg f = intTail cfg bin exp := by
  rw [integerTail, reads.normalized]

theorem machineOf_valid {f : RealBits cfg} (finite : IsFinite cfg f) :
    (machineOf cfg f).Valid cfg := by
  obtain ⟨bin, exp, reads⟩ := exists_reads finite
  rw [reads.machineOf_eq]
  exact machine_valid reads.norm

/-- **On the grid of the intermediate type the number is the argument.** -/
theorem approximation_exact {f : RealBits cfg} (finite : IsFinite cfg f) {n : ℕ}
    (grid : magnitude cfg f * 2 ^ (cfg.manBits - 3) = n)
    (below : magnitude cfg f < 2 ^ cfg.manBits) : approximation cfg f = magnitude cfg f := by
  obtain ⟨bin, exp, reads⟩ := exists_reads finite
  rw [reads.value] at grid below ⊢
  rw [approximation, reads.machineOf_eq]
  exact machine_value_exact reads.norm grid below

theorem Machine.Valid.value_nonneg (m : Machine) : 0 ≤ m.value cfg := by
  unfold Machine.value
  split
  · positivity
  · exact add_nonneg (by positivity) (Fraction.value_nonneg _)

/-- The decades a number can be in. -/
theorem Machine.Valid.value_bounds {m : Machine} (valid : m.Valid cfg) {b : ℕ} (wide : 543 ≤ b) :
    m.value cfg < 10 ^ b ∧ (m.value cfg = 0 ∨ 1 ≤ m.value cfg * 10 ^ b) := by
  have small : (m.int : ℚ) + 1 ≤ 10 ^ 20 := by
    have short := numeralLength_int valid.fits.1
    have below := (lt_pow_numeralLength (by norm_num : 1 < 10) m.int).trans_le
      (Nat.pow_le_pow_right (by norm_num) short)
    exact_mod_cast below
  have bit : (m.up : ℚ) ≤ 1 := by exact_mod_cast valid.fits.2
  have room : (10 : ℚ) ^ 20 < 10 ^ b := pow_lt_pow_right₀ (by norm_num) (by omega)
  have scale : (1 : ℚ) ≤ 10 ^ b := one_le_pow₀ (by norm_num)
  have large : ∀ x : ℚ, 1 ≤ x → 1 ≤ x * 10 ^ b := fun x one =>
    one_le_mul_of_one_le_of_one_le one scale
  match frac : m.frac with
  | none =>
      have nonzero : (1 : ℚ) ≤ m.int := by
        exact_mod_cast Nat.one_le_iff_ne_zero.mpr (valid.scaled frac)
      have short := valid.dec_le
      have one : (1 : ℚ) ≤ 10 ^ m.dec := one_le_pow₀ (by norm_num)
      have value : m.value cfg = (m.int + m.up) * 10 ^ m.dec := by rw [Machine.value, frac]
      have up : (0 : ℚ) ≤ m.up := by positivity
      refine ⟨?_, .inr (large _ ?_)⟩
      · calc m.value cfg ≤ 10 ^ 20 * 10 ^ m.dec := by
              rw [value]
              exact mul_le_mul_of_nonneg_right (by linarith) (by positivity)
          _ = 10 ^ (20 + m.dec) := (pow_add 10 20 m.dec).symm
          _ < 10 ^ b := pow_lt_pow_right₀ (by norm_num) (by omega)
      · rw [value]
        exact one_le_mul_of_one_le_of_one_le (by linarith) one
  | some f =>
      have part := (valid.fraction f frac).2
      have value : m.value cfg = m.int + f.value cfg := by rw [Machine.value, frac]
      have less := part.value_lt_one
      have nonneg := @Fraction.value_nonneg cfg f
      rw [value]
      refine ⟨by linarith, ?_⟩
      by_cases integer : m.int = 0
      · by_cases zero : f.IsZero
        · exact .inl (by rw [integer, Fraction.value, if_pos zero, Nat.cast_zero, add_zero])
        · have first := part.value_ge integer zero
          have shallow := part.zeros_le zero
          refine .inr (first.trans ?_)
          rw [integer, Nat.cast_zero, zero_add]
          exact mul_le_mul_of_nonneg_left (pow_le_pow_right₀ (by norm_num) (by omega)) nonneg
      · have one : (1 : ℚ) ≤ m.int := by exact_mod_cast Nat.one_le_iff_ne_zero.mpr integer
        exact .inr (large _ (by linarith))

/-- The exponent of the rounded number has at most three digits. -/
theorem Machine.Valid.exponent_bounds {m : Machine} (valid : m.Valid cfg) (p : ℕ) :
    (sciRound p (m.value cfg)).2.natAbs ≤ 543 := by
  obtain ⟨b, bound⟩ : ∃ b : ℕ, b = 543 := ⟨_, rfl⟩
  obtain ⟨upper, lower⟩ := valid.value_bounds bound.ge
  unfold sciRound
  by_cases zero : m.value cfg = 0
  · rw [if_pos zero]
    exact Nat.zero_le _
  · have positive : 0 < m.value cfg := lt_of_le_of_ne (Machine.Valid.value_nonneg m) (Ne.symm zero)
    have base : 1 < 10 := by norm_num
    have low : -(b : ℤ) ≤ Int.log 10 (m.value cfg) := by
      refine (Int.zpow_le_iff_le_log base positive).mp ?_
      rw [Nat.cast_ofNat, zpow_neg, zpow_natCast, inv_le_iff_one_le_mul₀ (by positivity)]
      exact lower.resolve_left zero
    have high : Int.log 10 (m.value cfg) < b := by
      refine (Int.lt_zpow_iff_log_lt base positive).mp ?_
      rw [Nat.cast_ofNat, zpow_natCast]
      exact upper
    rw [if_neg zero]
    simp only
    split_ifs <;> simp only <;> omega

/-! ## The fixed conversion -/

/-- The flag is given and compiled in. -/
def alternate (cfg : Config) (spec : NpfFormatSpec) : Bool := cfg.altForm && spec.altForm

/-- A pass for a place, laid out. -/
theorem etoaFixed_eq {bin : ℕ} {exp : ℤ} (valid : (machine cfg bin exp).Valid cfg) {q T : ℕ}
    (rounded : fixedRound q ((machine cfg bin exp).value cfg) = T) (alt : Bool)
    (buf : ConvBuffer cfg) (run : Run (ℤ × ConvBuffer cfg))
    (unfolded : run = do
      let (end_, dec, buf) ← etoaGenerate cfg (.fixed cfg q) bin exp buf
      composeFixed cfg alt q end_ dec buf) :
    (fixedText T q (0 < q ∨ alt)).length ≤ cfg.cbuf ∧ Leaves run (fixedText T q (0 < q ∨ alt)) ∨
      cfg.cbuf < (fixedText T q (0 < q ∨ alt)).length ∧ run = gotoExit := by
  have room := cfg.cbuf_ge
  obtain ⟨e, n, V, dec, c, generated, count, nonzero, few, holds, below, deep, result⟩ :=
    etoaGenerate_fixed valid q buf
  simp only [generated, bind, Except.bind] at unfolded
  subst unfolded
  rw [rounded] at result
  have length := length_fixedText T q (0 < q ∨ alt)
  rcases result with digits | ⟨positive, overflow, long⟩
  · by_cases fits : (fixedText T q (0 < q ∨ alt)).length ≤ cfg.cbuf
    · refine .inl ⟨fits, composeFixed_eq count holds digits ?_ fits⟩
      by_cases zero : q = 0
      · exact .inr (.inr (by omega))
      · exact .inl (by omega)
    · refine .inr ⟨by omega, composeFixed_exit c count ?_⟩
      rw [digits.length]
      split_ifs at length ⊢ <;> omega
  · have point : decide (0 < q ∨ alt = true) = true := decide_eq_true (.inl positive)
    rw [point, if_pos rfl] at length
    refine .inr ⟨by rw [point]; omega, composeFixed_exit c count ?_⟩
    rw [point, if_pos rfl]
    omega

/-- A conversion leaves a text if it fits the buffer, and the word of an error if not. -/
def Prints (run : Run (ℤ × ConvBuffer cfg)) (caseAdj : ℕ) (text : List Char) : Prop :=
  text.length ≤ cfg.cbuf ∧ Leaves run text ∨
    cfg.cbuf < text.length ∧ LeavesWord run (errWord caseAdj)

/-- The path of a finite value. -/
theorem npfEtoaRev_finite {f g : RealBits cfg} [ReadAs cfg f g] (finite : IsFinite cfg g)
    (spec : NpfFormatSpec) (buf : ConvBuffer cfg) :
    ∃ bin exp, Reads cfg g bin exp ∧
      npfEtoaRev cfg buf spec f = orErr buf spec.caseAdjust (
        let prec := npfDecPrec cfg spec
        if prec > cfg.cbuf - 2 then gotoExit
        else
          let fmode := spec.convSpec == .floatDec
          let g := isShortest cfg spec
          let alt := alternate cfg spec
          let (prec, nsigMax) := if g then (if prec ≠ 0 then prec else 1,
            if prec ≠ 0 then prec else 1) else (prec, prec + 1)
          if fmode then etoaFinite cfg buf alt spec.caseAdjust g (.fixed cfg prec) bin exp
          else if nsigMax > cfg.cbuf - 7 then gotoExit
          else
            etoaFinite cfg buf alt spec.caseAdjust g (.significant cfg prec nsigMax) bin exp) := by
  obtain ⟨bin, exp, reads⟩ := exists_reads finite
  refine ⟨bin, exp, reads, ?_⟩
  have number : ¬ isSpecial cfg (biasedExp cfg g.toNat) = true :=
    (isSpecial_eq cfg _).not.mpr finite
  simp only [npfEtoaRev, expField_eq, manField_eq, ReadAs.exp, ReadAs.man, if_neg number,
    reads.normalized, alternate]

theorem npfEtoaRev_special {f g : RealBits cfg} [ReadAs cfg f g] (special : ¬ IsFinite cfg g)
    (spec : NpfFormatSpec) (buf : ConvBuffer cfg) :
    npfEtoaRev cfg buf spec f = npfFtoaSpecial buf spec.caseAdjust
      (if fracField cfg g.toNat ≠ 0 then npfFtoaNan else npfFtoaInf) := by
  have top := (isSpecial_eq cfg g.toNat).mpr (not_not.mp special)
  simp only [npfEtoaRev, expField_eq, manField_eq, ReadAs.exp, ReadAs.man, if_pos top]

theorem isShortest_fixed {spec : NpfFormatSpec} (conversion : spec.convSpec = .floatDec) :
    isShortest cfg spec = false := by
  rw [isShortest, conversion]
  cases cfg.floatSci <;> simp

/-- **`%f` prints the number the conversion works with, rounded half to even**, or reports an
error exactly when the text does not fit. -/
theorem npfEtoaRev_fixed {f g : RealBits cfg} [ReadAs cfg f g] (finite : IsFinite cfg g)
    {spec : NpfFormatSpec} (conversion : spec.convSpec = .floatDec) {q : ℕ}
    (precision : npfDecPrec cfg spec = q) (buf : ConvBuffer cfg) :
    Prints (npfEtoaRev cfg buf spec f) spec.caseAdjust
      (fixedText (fixedRound q (approximation cfg g)) q (0 < q ∨ alternate cfg spec)) := by
  obtain ⟨bin, exp, reads, run⟩ := npfEtoaRev_finite (f := f) finite spec buf
  have fixed : (spec.convSpec == .floatDec) = true := by rw [conversion]; rfl
  rw [run, approximation, reads.machineOf_eq]
  simp only [precision, isShortest_fixed conversion, fixed, Bool.false_eq_true, ↓reduceIte]
  by_cases long : (q : ℤ) > cfg.cbuf - 2
  · have room := cfg.cbuf_ge
    have integer := numeralLength_pos 10
      (fixedRound q ((machine cfg bin exp).value cfg) / 10 ^ q)
    have point : decide (0 < q ∨ alternate cfg spec = true) = true :=
      decide_eq_true (.inl (by omega))
    rw [if_pos long]
    refine .inr ⟨?_, orErr_exit buf _⟩
    rw [length_fixedText, point, if_pos rfl]
    omega
  · rw [if_neg long]
    rcases etoaFixed_eq (machine_valid reads.norm) rfl (alternate cfg spec) buf (etoaFinite cfg buf
      (alternate cfg spec) spec.caseAdjust false (.fixed cfg q) bin exp) rfl with
      ⟨fits, leaves⟩ | ⟨short, exits⟩
    · exact .inl ⟨fits, leaves.orErr buf _⟩
    · rw [exits]
      exact .inr ⟨short, orErr_exit buf _⟩

/-! ## The scientific conversion -/

/-- The integer digits are no more than asked for. -/
def IntegerFits (m : Machine) (p : ℕ) : Prop := m.int ≠ 0 → numeralLength 10 m.int ≤ p + 1

theorem isShortest_scientific {spec : NpfFormatSpec} (conversion : spec.convSpec = .floatSci)
    (compiled : cfg.floatSci = true) : isShortest cfg spec = false := by
  rw [isShortest, conversion, compiled]
  simp

/-- The path of `%e`, up to the layout. -/
theorem npfEtoaRev_scientific {f g : RealBits cfg} [ReadAs cfg f g] (finite : IsFinite cfg g)
    {spec : NpfFormatSpec} (conversion : spec.convSpec = .floatSci) (compiled : cfg.floatSci = true)
    {p : ℕ} (precision : npfDecPrec cfg spec = p) (buf : ConvBuffer cfg) :
    ∃ bin exp, Reads cfg g bin exp ∧
      npfEtoaRev cfg buf spec f = orErr buf spec.caseAdjust (
        if p + 8 ≤ cfg.cbuf then do
          let (end_, dec, buf) ← etoaGenerate cfg (.significant cfg p (p + 1)) bin exp buf
          composeScientific cfg (alternate cfg spec) spec.caseAdjust p
            (dec + (cfg.cbuf - end_ : ℤ) - 1) end_ buf
        else gotoExit) := by
  obtain ⟨bin, exp, reads, run⟩ := npfEtoaRev_finite (f := f) finite spec buf
  refine ⟨bin, exp, reads, ?_⟩
  have scientific : (spec.convSpec == .floatDec) = false := by rw [conversion]; rfl
  rw [run]
  simp only [precision, isShortest_scientific conversion compiled, scientific, Bool.false_eq_true,
    ↓reduceIte]
  by_cases fits : p + 8 ≤ cfg.cbuf
  · rw [if_pos fits, if_neg (by omega), if_neg (by omega)]
    rfl
  · rw [if_neg fits]
    split_ifs with long tight
    · rfl
    · rfl
    · omega

/-- A precision that the buffer has no room for. -/
theorem npfEtoaRev_scientific_long {f g : RealBits cfg} [ReadAs cfg f g] (finite : IsFinite cfg g)
    {spec : NpfFormatSpec} (conversion : spec.convSpec = .floatSci)
    (compiled : cfg.floatSci = true) {p : ℕ} (precision : npfDecPrec cfg spec = p)
    (long : cfg.cbuf < p + 8) (buf : ConvBuffer cfg) :
    LeavesWord (npfEtoaRev cfg buf spec f) (errWord spec.caseAdjust) := by
  obtain ⟨bin, exp, -, run⟩ :=
    npfEtoaRev_scientific (f := f) finite conversion compiled precision buf
  rw [run, if_neg (by omega)]
  exact orErr_exit buf _

/-- **`%e` prints the number the conversion works with, rounded half to even to its
digits**, when it does not have to drop digits of the integer. -/
theorem npfEtoaRev_scientific_fits {f g : RealBits cfg} [ReadAs cfg f g] (finite : IsFinite cfg g)
    {spec : NpfFormatSpec} (conversion : spec.convSpec = .floatSci)
    (compiled : cfg.floatSci = true) {p : ℕ} (precision : npfDecPrec cfg spec = p)
    (few : IntegerFits (machineOf cfg g) p) (fits : p + 8 ≤ cfg.cbuf) (buf : ConvBuffer cfg) :
    Leaves (npfEtoaRev cfg buf spec f)
      (sciText (sciRound p (approximation cfg g)).1 p (sciRound p (approximation cfg g)).2
        (0 < p ∨ alternate cfg spec) spec.caseAdjust) := by
  obtain ⟨bin, exp, reads, run⟩ :=
    npfEtoaRev_scientific (f := f) finite conversion compiled precision buf
  have valid := machine_valid reads.norm
  rw [reads.machineOf_eq] at few
  obtain ⟨e, n, V, dec, c, generated, count, nonzero, short, holds, below, digits⟩ :=
    etoaGenerate_significant valid p buf few fits
  have bound := valid.exponent_bounds p
  have exponent : dec + ((cfg.cbuf : ℤ) - e) - 1 =
      (sciRound p ((machine cfg bin exp).value cfg)).2 := by
    rw [← digits.exponent]
    omega
  rw [run, if_pos fits, approximation, reads.machineOf_eq, ← digits.value]
  refine Leaves.orErr ?_ buf _
  simp only [generated, bind, Except.bind, exponent]
  exact composeScientific_eq _ _ count nonzero short fits (by omega) below holds

theorem droppedRound_small {m : Machine} (valid : m.Valid cfg) {p k : ℕ}
    (many : numeralLength 10 m.int = p + 1 + k) (tail : Bool) :
    ((droppedRound m tail p k).2 + p).natAbs < 1000 := by
  have short := numeralLength_int valid.fits.1
  have shallow := valid.dec_le
  unfold droppedRound carried
  split_ifs <;> simp only <;> omega

/-- **Where `%e` has to drop digits of the integer** it prints the integer rounded on
those digits, a remainder below them being what the tail says. -/
theorem npfEtoaRev_scientific_drop {f g : RealBits cfg} [ReadAs cfg f g] (finite : IsFinite cfg g)
    {spec : NpfFormatSpec} (conversion : spec.convSpec = .floatSci)
    (compiled : cfg.floatSci = true) {p k : ℕ} (precision : npfDecPrec cfg spec = p)
    (nonzero : k ≠ 0) (many : numeralLength 10 (machineOf cfg g).int = p + 1 + k)
    (fits : p + 8 ≤ cfg.cbuf) (buf : ConvBuffer cfg) :
    Leaves (npfEtoaRev cfg buf spec f)
      (sciText (droppedRound (machineOf cfg g) (integerTail cfg g) p k).1 p
        ((droppedRound (machineOf cfg g) (integerTail cfg g) p k).2 + p)
        (0 < p ∨ alternate cfg spec) spec.caseAdjust) := by
  obtain ⟨bin, exp, reads, run⟩ :=
    npfEtoaRev_scientific (f := f) finite conversion compiled precision buf
  have valid := machine_valid reads.norm
  rw [reads.machineOf_eq] at many
  obtain ⟨e, c, generated, count, holds⟩ := etoaGenerate_drop valid p buf nonzero many
  have exponent : (droppedRound (machine cfg bin exp) (intTail cfg bin exp) p k).2 +
      ((cfg.cbuf : ℤ) - e) - 1 =
        (droppedRound (machine cfg bin exp) (intTail cfg bin exp) p k).2 + p := by
    omega
  have small := droppedRound_small valid many (intTail cfg bin exp)
  rw [run, if_pos fits, reads.machineOf_eq, reads.integerTail_eq]
  refine Leaves.orErr ?_ buf _
  simp only [generated, bind, Except.bind, exponent]
  have leaves :=
    composeScientific_eq (alternate cfg spec) spec.caseAdjust count (by omega) le_rfl fits
    small (carried_lt (by omega) _ _) holds
  rwa [Nat.sub_self, pow_zero, mul_one] at leaves

end Nanoprintf
