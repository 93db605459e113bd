import Nanoprintf.FtoaDigits
import Nanoprintf.EtoaSpec

/-!
# What the fused conversion leaves

`npf_ftoa_rev` as a whole, for every pattern. It starts from the same `Machine` as
the shared conversion but stops scaling as soon as the precision is used up, and
decides the rounding on what is left of the mantissa then. `fusedRound` is the
number it rounds to; how that compares with the number the shared conversion
prints is left to other files.
-/

set_option autoImplicit false

namespace Nanoprintf

open Foundations

variable {cfg : Config}

/-! ## The path of a finite value -/

/-- The carry of the fraction: the top bit of what is left, a tie going by the last digit. -/
def ftoaTie (cfg : Config) (carry man : ℕ) (buf : ConvBuffer cfg) : Run ℕ :=
  let carry := carry &&& man >>> (cfg.manBits - 1)
  if man = 1 <<< (cfg.manBits - 1) then do pure (carry &&& ((← ftoaLsd cfg buf).toNat &&& 1))
  else pure carry

/-- What follows the integer, which ends at `end_`; a carry of a scaled integer goes in
at `dec`. -/
def ftoaRest (cfg : Config) (q dec end_ carry : ℕ) (frac : Option Fraction)
    (buf : ConvBuffer cfg) : Run (ℤ × ConvBuffer cfg) := do
  let (dec, man, carry, decF, buf) ←
    match frac with
    | some f => do
      let (left, man, carry, decF, buf) ← ftoaFracScale cfg f.left 0 f.man f.carry q buf
      let man := if man ≠ 2 ^ cfg.manBits - 1 then (man + carry) % 2 ^ cfg.manBits else man
      pure (0, man, if left ≤ 4 then 1 else 0, decF, buf)
    | none => pure (dec, 0, carry, q, buf)
  let (man, buf) ←
    if decF ≠ 0 then do
      let (man, buf) ← ftoaPrintFrac cfg decF man buf
      pure (man <<< 4 % 2 ^ cfg.manBits, buf)
    else pure (man, buf)
  let carry ←
    match frac with
    | some _ => ftoaTie cfg carry man buf
    | none => pure carry
  let (end_, buf) ← if carry ≠ 0 then ftoaRound cfg (cfg.cbuf - dec) end_ buf else pure (end_, buf)
  pure (end_, buf)

/-- The point, if there is one. -/
def ftoaPoint (cfg : Config) (q : ℕ) (point : Bool) (buf : ConvBuffer cfg) :
    Run (ℕ × ConvBuffer cfg) :=
  if point then do pure (q + 1, ← buf.write q '.') else pure (q, buf)

/-- The integer, which is scaled if it has an exponent. -/
def ftoaInteger (cfg : Config) (bin : ℕ) (exp : ℤ) (dec : ℕ) (buf : ConvBuffer cfg) :
    Run (ℕ × ℕ × ℕ × ConvBuffer cfg) :=
  if 0 ≤ exp then
    ftoaIntScale cfg (intStart cfg bin exp).2.2 dec (intStart cfg bin exp).1
      (intStart cfg bin exp).2.1 buf
  else pure (dec, 0, 0, buf)

theorem ftoaTie_bind {α : Type} (carry man : ℕ) (buf : ConvBuffer cfg) (k : ℕ → Run α) :
    ftoaTie cfg carry man buf >>= k =
      if man = 1 <<< (cfg.manBits - 1) then do
        k ((carry &&& man >>> (cfg.manBits - 1)) &&& ((← ftoaLsd cfg buf).toNat &&& 1))
      else k (carry &&& man >>> (cfg.manBits - 1)) := by
  rw [ftoaTie]
  split_ifs
  · cases ftoaLsd cfg buf <;> rfl
  · rfl

/-- The conversion in terms of what it works with. -/
theorem ftoaFinite_eq_rest (bin : ℕ) (exp : ℤ) (q : ℕ) (spec : NpfFormatSpec)
    (buf : ConvBuffer cfg) :
    ftoaFinite cfg buf spec q bin exp = (do
      let (dec, buf) ← ftoaPoint cfg q (0 < q ∨ alternate cfg spec) buf
      let (dec, man, carry, buf) ← ftoaInteger cfg bin exp dec buf
      let (end_, buf) ← ftoaPrintInt cfg dec man buf
      ftoaRest cfg q dec end_ carry (machine cfg bin exp).frac buf) := by
  have point : (q ≠ 0 ∨ (cfg.altForm && spec.altForm) = true) =
      (decide (0 < q ∨ alternate cfg spec = true) = true) := by
    rw [decide_eq_true_eq, Nat.pos_iff_ne_zero, alternate]
  unfold ftoaFinite ftoaPoint ftoaInteger machine etoaInteger ftoaRest
  simp only [point]
  generalize decide (0 < q ∨ alternate cfg spec = true) = pointed
  have low : ¬ 0 ≤ exp → exp < cfg.realManBits := by omega
  by_cases nonneg : 0 ≤ exp
  · by_cases whole : (intStart cfg bin exp).2.2 = 0
    · by_cases fraction : exp < cfg.realManBits <;> cases pointed <;>
        simp only [nonneg, whole, fraction, bne_self_eq_false, ne_eq, not_true_eq_false,
          Bool.false_eq_true, ↓reduceIte, ftoaTie_bind] <;>
        simp only [bind, Except.bind, pure, Except.pure, fraction, Bool.false_eq_true,
          ↓reduceIte] <;>
        cases buf.write (ε := Leave) q '.' <;> rfl
    · cases pointed <;>
        simp only [nonneg, whole, bne_iff_ne, ne_eq, not_false_eq_true, lt_self_iff_false,
          Bool.false_eq_true, ↓reduceIte, bind, Except.bind, pure, Except.pure] <;>
        cases buf.write (ε := Leave) q '.' <;> rfl
  · have fraction := low nonneg
    cases pointed <;>
      simp only [nonneg, fraction, Bool.false_eq_true, ↓reduceIte, ftoaTie_bind] <;>
      simp only [bind, Except.bind, pure, Except.pure, fraction, Bool.false_eq_true, ↓reduceIte] <;>
      cases buf.write (ε := Leave) q '.' <;> rfl

/-- A decimal exponent puts zeros under an integer. -/
theorem numeralText_mul_pow {I : ℕ} (d : ℕ) (shape : d = 0 ∨ I ≠ 0) :
    numeralText 10 0 (I * 10 ^ d) = List.replicate d '0' ++ numeralText 10 0 I := by
  rcases shape with rfl | nonzero
  · simp
  · rw [numeralText_eq, numeralLength_mul_pow (by norm_num) nonzero, add_comm, digitText_mul_pow,
      numeralText_eq]

theorem ftoaPoint_eq {q : ℕ} (inside : q < cfg.cbuf) (point : Bool) (buf : ConvBuffer cfg) :
    ∃ b, ftoaPoint cfg q point buf = .ok (q + (pointText point).length, b) ∧
      b.Holds q (pointText point) := by
  cases point with
  | false => exact ⟨buf, rfl, trivial⟩
  | true =>
      refine ⟨⟨Function.update buf.cell q (some '.')⟩, ?_, Function.update_self .., trivial⟩
      simp only [ftoaPoint, ↓reduceIte, buf.write_eq '.' inside, bind, Except.bind, pure,
        Except.pure]
      rfl

theorem ftoaInteger_eq (bin : ℕ) (exp : ℤ) {s : ℕ} (inside : s ≤ cfg.cbuf)
    (buf : ConvBuffer cfg) :
    cfg.cbuf < s + (machine cfg bin exp).dec ∧ ftoaInteger cfg bin exp s buf = gotoExit ∨
      s + (machine cfg bin exp).dec ≤ cfg.cbuf ∧ ∃ b, ftoaInteger cfg bin exp s buf =
          .ok (s + (machine cfg bin exp).dec, (machine cfg bin exp).int, (machine cfg bin exp).up,
            b) ∧
        b.Holds s (List.replicate (machine cfg bin exp).dec '0') ∧
        ∀ j, j < s → b.cell j = buf.cell j := by
  rw [ftoaInteger]
  by_cases nonneg : 0 ≤ exp
  · have shape : etoaIntScale cfg (intStart cfg bin exp).2.2 0 (intStart cfg bin exp).1
        (intStart cfg bin exp).2.1 =
          ((machine cfg bin exp).dec, (machine cfg bin exp).int, (machine cfg bin exp).up) := by
      rw [machine, etoaInteger, if_pos nonneg]
    have run := @ftoaIntScale_eq cfg (intStart cfg bin exp).2.2 s (s + (machine cfg bin exp).dec)
      _ _ _ _ buf inside (by rw [etoaIntScale_add, shape])
    rw [if_pos nonneg]
    rw [Nat.add_sub_cancel_left] at run
    exact run.2
  · obtain ⟨whole, zero, clear⟩ : (machine cfg bin exp).dec = 0 ∧ (machine cfg bin exp).int = 0 ∧
        (machine cfg bin exp).up = 0 := by
      rw [machine, etoaInteger, if_neg nonneg]
      exact ⟨rfl, rfl, rfl⟩
    rw [if_neg nonneg, whole, zero, clear]
    exact .inr ⟨inside, buf, rfl, trivial, fun _ _ => rfl⟩

/-- The integer is printed over the point, with the zeros of a scaled one below it. -/
theorem ftoaFinite_front {bin : ℕ} {exp : ℤ} (valid : (machine cfg bin exp).Valid cfg) {q : ℕ}
    (fits : q + 2 ≤ cfg.cbuf) (spec : NpfFormatSpec) (buf : ConvBuffer cfg) :
    ftoaFinite cfg buf spec q bin exp = gotoExit ∧
        ¬ IntRoom cfg (q + (pointText (0 < q ∨ alternate cfg spec)).length +
          (machine cfg bin exp).dec) (machine cfg bin exp).int ∨
      IntRoom cfg (q + (pointText (0 < q ∨ alternate cfg spec)).length +
        (machine cfg bin exp).dec) (machine cfg bin exp).int ∧
      ∃ b dec end_, ftoaFinite cfg buf spec q bin exp =
          ftoaRest cfg q dec end_ (machine cfg bin exp).up (machine cfg bin exp).frac b ∧
        dec = q + (pointText (0 < q ∨ alternate cfg spec)).length + (machine cfg bin exp).dec ∧
        end_ = q + (pointText (0 < q ∨ alternate cfg spec)).length +
          numeralLength 10 ((machine cfg bin exp).int * 10 ^ (machine cfg bin exp).dec) ∧
        end_ ≤ cfg.cbuf ∧
        b.Holds q (pointText (0 < q ∨ alternate cfg spec) ++
          numeralText 10 0 ((machine cfg bin exp).int * 10 ^ (machine cfg bin exp).dec)) := by
  have path := ftoaFinite_eq_rest bin exp q spec buf
  set point := decide (0 < q ∨ alternate cfg spec = true)
  have shape : (machine cfg bin exp).dec = 0 ∨ (machine cfg bin exp).int ≠ 0 := by
    match frac : (machine cfg bin exp).frac with
    | none => exact .inr (valid.scaled frac)
    | some f => exact .inl (valid.fraction f frac).1
  have length := congrArg List.length (numeralText_mul_pow (machine cfg bin exp).dec shape)
  rw [length_numeralText, List.length_append, List.length_replicate, length_numeralText] at length
  have small : (pointText point).length ≤ 1 := by
    rw [length_pointText]
    split_ifs <;> omega
  obtain ⟨b, first, mark⟩ := ftoaPoint_eq (show q < cfg.cbuf by omega) point buf
  simp only [first, bind, Except.bind] at path
  rcases ftoaInteger_eq bin exp (s := q + (pointText point).length) (by omega) b with
    ⟨long, exits⟩ | ⟨room, c, run, zeros, frame⟩
  · refine .inl ⟨?_, fun printed => ?_⟩
    · rw [path, exits]
      rfl
    · have fits' := printed.length_le valid.fits.1
      omega
  simp only [run] at path
  rcases ftoaPrintInt_eq valid.fits.1 room c with
    ⟨exits, long⟩ | ⟨printed, d, run', numeral, frame'⟩
  · refine .inl ⟨?_, long⟩
    rw [path, exits]
    rfl
  have fits' := printed.length_le valid.fits.1
  simp only [run'] at path
  refine .inr ⟨printed, d, _, _, path, rfl, by omega, fits', ?_⟩
  rw [numeralText_mul_pow _ shape, Buffer.holds_append, Buffer.holds_append, List.length_replicate]
  exact ⟨mark.congr fun j _ below => (frame' j (by omega)).trans (frame j below),
    zeros.congr fun j _ below => frame' j (by rwa [List.length_replicate] at below), numeral⟩

/-! ## What is rounded -/

/-- The digits of a fraction to `q` places, and what is left of its mantissa. -/
def fusedDigits (cfg : Config) (q : ℕ) (f : Fraction) : ℕ × ℕ :=
  let r := fracScale cfg q f.left 0 f.man f.carry
  let man := if r.man ≠ 2 ^ cfg.manBits - 1 then r.man + r.carry else r.man
  if q - r.zeros = 0 then (0, man)
  else (10 ^ (q - r.zeros - 1) * man / cfg.unit, 16 * (10 ^ (q - r.zeros - 1) * man % cfg.unit))

/-- The number the fused conversion rounds to, in units of the last place. -/
def fusedRound (cfg : Config) (q : ℕ) (m : Machine) : ℕ :=
  match m.frac with
  | none => (m.int + m.up) * 10 ^ m.dec * 10 ^ q
  | some f =>
    let T := m.int * 10 ^ q + (fusedDigits cfg q f).1
    let rest := (fusedDigits cfg q f).2
    T + if (fracScale cfg q f.left 0 f.man f.carry).left ≤ 4 ∧
      (8 * cfg.unit < rest ∨ rest = 8 * cfg.unit ∧ T % 2 = 1) then 1 else 0

/-- The scaling of a fraction within a precision: it comes to the first digit, or stops at the
last zero there is room for. -/
theorem fusedScale_cases {int : ℕ} {f : Fraction} (valid : f.Valid cfg int) (q : ℕ) :
    (f.zeros cfg < q ∧ ∃ man carry,
      fracScale cfg q f.left 0 f.man f.carry = ⟨0, f.zeros cfg, man, carry⟩ ∧
        man + carry = f.settled cfg ∧ carry ≤ 1) ∨
    (q ≤ f.zeros cfg ∧ ∃ i man carry,
      fracScale cfg q f.left 0 f.man f.carry = ⟨i + 4, q, man, carry⟩ ∧ Fits cfg man carry) := by
  rcases lt_or_ge (f.zeros cfg) q with enough | short
  · exact .inl ⟨enough, valid.fracScale_full enough⟩
  · obtain ⟨i, man, carry, run, -, fits, -⟩ :=
      Nanoprintf.fracScale_stops (f.left - 4) valid.fits short
    rw [Nat.sub_add_cancel valid.left_ge] at run
    exact .inr ⟨short, i, man, carry, run, fits⟩

/-- The mantissa that the digits are taken from, the carry added. -/
theorem fusedMan_lt {man carry : ℕ} (fits : Fits cfg man carry) :
    (if man ≠ 2 ^ cfg.manBits - 1 then (man + carry) % 2 ^ cfg.manBits else man) =
        (if man ≠ 2 ^ cfg.manBits - 1 then man + carry else man) ∧
      (if man ≠ 2 ^ cfg.manBits - 1 then man + carry else man) < 16 * cfg.unit := by
  obtain ⟨small, bit⟩ := fits
  have whole := cfg.two_pow_manBits
  split_ifs with room
  · exact ⟨Nat.mod_eq_of_lt (by omega), by omega⟩
  · exact ⟨rfl, small⟩

/-- The last digit that is kept. -/
theorem ftoaLsd_eq {T q : ℕ} {point : Bool} {buf : ConvBuffer cfg}
    (holds : buf.Holds 0 (fixedText T q point).reverse)
    (pointed : point = true → q = 0 → cfg.altForm = true) :
    ftoaLsd cfg buf = .ok (digitChar 0 (T % 10)) := by
  have room := cfg.cbuf_ge
  have digit : T % 10 < 10 := Nat.mod_lt T (by norm_num)
  have other : (digitChar 0 (T % 10) == '.') = false := by
    rw [beq_eq_false_iff_ne]
    intro same
    have digital := isDigit_digitChar digit
    rw [same] at digital
    exact absurd digital (by decide)
  have split := @reverse_fixedText (T % 10 ^ q) (T / 10 ^ q) q (Nat.mod_lt _ (by positivity)) point
  rw [Nat.div_add_mod'] at split
  rw [split] at holds
  have first : ∀ V, ∃ t, numeralText 10 0 V = digitChar 0 (V % 10) :: t := by
    intro V
    obtain ⟨n, length⟩ : ∃ n, numeralLength 10 V = n + 1 :=
      ⟨_, (Nat.sub_add_cancel (numeralLength_pos 10 V)).symm⟩
    exact ⟨_, by rw [numeralText_eq, length, digitText_succ]⟩
  cases q with
  | zero =>
      obtain ⟨t, numeral⟩ := first (T / 10 ^ 0)
      rw [pow_zero, Nat.div_one] at numeral
      rw [digitText_zero, List.nil_append, pow_zero, Nat.div_one, numeral] at holds
      cases point with
      | false =>
          have read : buf.read 0 = (.ok (digitChar 0 (T % 10)) : Run Char) :=
            Buffer.read_eq (by omega) holds.1
          simp only [ftoaLsd, read, bind, Except.bind, other, Bool.and_false, Bool.false_eq_true,
            ↓reduceIte, pure, Except.pure]
      | true =>
          have mark : buf.read 0 = (.ok '.' : Run Char) := Buffer.read_eq (by omega) holds.1
          have read : buf.read 1 = (.ok (digitChar 0 (T % 10)) : Run Char) :=
            Buffer.read_eq (by omega) holds.2.1
          simp only [ftoaLsd, mark, bind, Except.bind, pointed rfl rfl, beq_self_eq_true,
            Bool.and_self, ↓reduceIte, read]
  | succ q =>
      have low : T % 10 ^ (q + 1) % 10 = T % 10 :=
        Nat.mod_mod_of_dvd T (Dvd.intro_left (10 ^ q) rfl)
      rw [digitText_succ, low] at holds
      have read : buf.read 0 = (.ok (digitChar 0 (T % 10)) : Run Char) :=
        Buffer.read_eq (by omega) holds.1
      simp only [ftoaLsd, read, bind, Except.bind, other, Bool.and_false, Bool.false_eq_true,
        ↓reduceIte, pure, Except.pure]

/-! ## The rest of the path -/

/-- The digits of the fraction are stored under the point. -/
theorem fusedDigits_print {int : ℕ} {f : Fraction} (valid : f.Valid cfg int) {q : ℕ}
    (inside : q ≤ cfg.cbuf) {b : ConvBuffer cfg} {r : Scaled}
    (scaled : fracScale cfg q f.left 0 f.man f.carry = r)
    (zeros : b.Holds (q - r.zeros) (digitText r.zeros 0)) :
    (fusedDigits cfg q f).1 < 10 ^ q ∧ (fusedDigits cfg q f).2 < 16 * cfg.unit ∧
      (q - r.zeros = 0 → r.zeros = q ∧ (fusedDigits cfg q f).1 = 0) ∧
      (q - r.zeros ≠ 0 → ∃ R c, ftoaPrintFrac cfg (q - r.zeros)
          (if r.man ≠ 2 ^ cfg.manBits - 1 then r.man + r.carry else r.man) b = .ok (R, c) ∧
        R <<< 4 % 2 ^ cfg.manBits = (fusedDigits cfg q f).2 ∧
        c.Holds 0 (digitText q (fusedDigits cfg q f).1) ∧ ∀ j, q ≤ j → c.cell j = b.cell j) := by
  have unit := cfg.unit_ge
  have whole := cfg.two_pow_manBits
  rcases fusedScale_cases valid q with ⟨enough, man, carry, run, sum, bit⟩ |
    ⟨short, i, man, carry, run, fits⟩
  · obtain ⟨k, length⟩ : ∃ k, q - f.zeros cfg = k + 1 := ⟨q - f.zeros cfg - 1, by omega⟩
    have digit := valid.settled_lt
    obtain rfl : r = ⟨0, f.zeros cfg, man, carry⟩ := scaled.symm.trans run
    have nudge : (if man ≠ 2 ^ cfg.manBits - 1 then man + carry else man) = f.settled cfg := by
      rw [if_pos (by omega), sum]
    have shape : fusedDigits cfg q f = (10 ^ k * f.settled cfg / cfg.unit,
        16 * (10 ^ k * f.settled cfg % cfg.unit)) := by
      simp only [fusedDigits, run, nudge, length, Nat.succ_ne_zero, ↓reduceIte,
        Nat.add_sub_cancel]
    have rest : 10 ^ k * f.settled cfg % cfg.unit < cfg.unit := Nat.mod_lt _ (by omega)
    obtain ⟨R, D, c, printed, value, less, bound, holds, frame⟩ :=
      ftoaPrintFrac_eq k digit (show k < cfg.cbuf by omega) b
    obtain ⟨rfl, rfl⟩ : 10 ^ k * f.settled cfg / cfg.unit = D ∧
        10 ^ k * f.settled cfg % cfg.unit = R :=
      (Nat.div_mod_unique (by omega)).mpr ⟨by rw [← value]; ring, less⟩
    have wider : 10 ^ (k + 1) ≤ 10 ^ q := Nat.pow_le_pow_right (by norm_num) (by omega)
    rw [shape]
    simp only [length, nudge] at zeros ⊢
    refine ⟨by omega, by omega, fun blank => absurd blank (Nat.succ_ne_zero k), fun _ =>
      ⟨_, c, printed, ?_, ?_, fun j above => frame j (by omega)⟩⟩
    · rw [Nat.shiftLeft_eq, Nat.mod_eq_of_lt (by omega), mul_comm]
    · rw [show q = k + 1 + f.zeros cfg by omega, digitText_add, Buffer.holds_append,
        length_digitText, Nat.div_eq_of_lt bound, Nat.zero_add]
      exact ⟨holds, zeros.congr fun j above _ => frame j (by omega)⟩
  · obtain rfl : r = ⟨i + 4, q, man, carry⟩ := scaled.symm.trans run
    have small := (fusedMan_lt fits).2
    have shape : fusedDigits cfg q f =
        (0, if man ≠ 2 ^ cfg.manBits - 1 then man + carry else man) := by
      simp only [fusedDigits, run, Nat.sub_self, ↓reduceIte]
    rw [shape]
    exact ⟨by positivity, small, fun _ => ⟨rfl, rfl⟩,
      fun nonzero => absurd (Nat.sub_self q) nonzero⟩

/-- The top bit of a mantissa as the code masks it. -/
theorem and_topBit {x man : ℕ} (bit : x ≤ 1) (small : man < 16 * cfg.unit) :
    x &&& man >>> (cfg.manBits - 1) = if x = 1 ∧ 8 * cfg.unit ≤ man then 1 else 0 := by
  have positive := cfg.unit_ge
  have top : man / (8 * cfg.unit) = if 8 * cfg.unit ≤ man then 1 else 0 := by
    split_ifs with large
    · exact Nat.div_eq_of_lt_le (by omega) (by omega)
    · exact Nat.div_eq_of_lt (by omega)
  rw [Nat.shiftRight_eq_div_pow, cfg.two_pow_top, top]
  obtain rfl | rfl : x = 0 ∨ x = 1 := by omega
  · simp
  · split_ifs <;> simp_all

/-- The places after the point of a number without a fraction. -/
theorem ftoaPrintFrac_zero {q : ℕ} (nonzero : q ≠ 0) (inside : q ≤ cfg.cbuf) (b : ConvBuffer cfg) :
    ∃ R c, ftoaPrintFrac cfg q 0 b = .ok (R, c) ∧ c.Holds 0 (digitText q 0) ∧
      ∀ j, q ≤ j → c.cell j = b.cell j := by
  have positive := cfg.unit_ge
  obtain ⟨k, rfl⟩ := Nat.exists_eq_succ_of_ne_zero nonzero
  obtain ⟨R, D, c, run, value, -, -, holds, frame⟩ :=
    ftoaPrintFrac_eq k (show 0 < 10 * cfg.unit by omega) (show k < cfg.cbuf by omega) b
  have zero : D * cfg.unit = 0 := by omega
  obtain rfl : D = 0 := (Nat.mul_eq_zero.mp zero).resolve_right (by omega)
  exact ⟨R, c, run, holds, fun j above => frame j above⟩

/-- Without a fraction the places after the point are zeros, and the carry of the integer
goes in over the zeros of its exponent. -/
theorem ftoaRest_none {q d carry I end_ : ℕ} {point : Bool} {b : ConvBuffer cfg}
    (inside : q ≤ cfg.cbuf) (nonzero : I ≠ 0) (bit : carry ≤ 1)
    (count : q + (pointText point).length + numeralLength 10 (I * 10 ^ d) = end_)
    (room : end_ ≤ cfg.cbuf)
    (holds : b.Holds q (pointText point ++ numeralText 10 0 (I * 10 ^ d))) :
    ftoaRest cfg q (q + (pointText point).length + d) end_ carry none b = gotoExit ∧
        cfg.cbuf < (fixedText ((I + carry) * 10 ^ d * 10 ^ q) q point).length ∨
      (fixedText ((I + carry) * 10 ^ d * 10 ^ q) q point).length ≤ cfg.cbuf ∧
        Leaves (ftoaRest cfg q (q + (pointText point).length + d) end_ carry none b)
          (fixedText ((I + carry) * 10 ^ d * 10 ^ q) q point) := by
  obtain ⟨mark, integer⟩ := (Buffer.holds_append b q _ _).mp holds
  have positive : 0 < 10 ^ q := by positivity
  -- the zeros of the fraction
  obtain ⟨c, path, zeros, frame⟩ : ∃ c,
      ftoaRest cfg q (q + (pointText point).length + d) end_ carry none b = (do
        let (end_, buf) ← if carry ≠ 0 then
          ftoaRound cfg (cfg.cbuf - (q + (pointText point).length + d)) end_ c
          else pure (end_, c)
        pure ((end_ : ℤ), buf)) ∧
      c.Holds 0 (digitText q 0) ∧ ∀ j, q ≤ j → c.cell j = b.cell j := by
    by_cases empty : q = 0
    · subst empty
      exact ⟨b, by simp [ftoaRest], trivial, fun _ _ => rfl⟩
    · obtain ⟨R, c, run, zeros, frame⟩ := ftoaPrintFrac_zero empty inside b
      exact ⟨c, by simp [ftoaRest, empty, run, bind, Except.bind, pure, Except.pure], zeros, frame⟩
  have mark' : c.Holds q (pointText point) := mark.congr fun j above _ => frame j above
  have integer' : c.Holds (q + (pointText point).length) (numeralText 10 0 (I * 10 ^ d)) :=
    integer.congr fun j above _ => frame j (by omega)
  rw [path, ← Nat.add_zero ((I + carry) * 10 ^ d * 10 ^ q), length_fixedText_add positive]
  obtain rfl | rfl : carry = 0 ∨ carry = 1 := by omega
  · rw [Nat.add_zero I, count]
    refine .inr ⟨room, c, ?_, (holds_fixedText positive point c).mpr ⟨⟨zeros, mark'⟩, integer'⟩⟩
    rw [length_fixedText_add positive, count]
    rfl
  · have next : I + 1 ≠ 0 := Nat.succ_ne_zero I
    rw [numeralText_mul_pow d (.inr nonzero), Buffer.holds_append, List.length_replicate]
      at integer'
    rw [numeralLength_mul_pow (by norm_num) nonzero] at count
    rw [numeralLength_mul_pow (by norm_num) next]
    rcases ftoaRound_numeral (by omega) room integer'.2 with
      ⟨exits, long⟩ | ⟨e, run, fits, holds', frame'⟩
    · refine .inl ⟨?_, by omega⟩
      rw [if_pos one_ne_zero, exits]
      rfl
    · refine .inr ⟨by omega, e, ?_, (holds_fixedText positive point e).mpr ⟨⟨?_, ?_⟩, ?_⟩⟩
      · rw [if_pos one_ne_zero, run, length_fixedText_add positive,
          numeralLength_mul_pow (by norm_num) next]
        simp only [bind, Except.bind, pure, Except.pure, Nat.add_assoc, Nat.add_comm d]
      · exact zeros.congr fun j _ below => frame' j (by rw [length_digitText] at below; omega)
      · exact mark'.congr fun j _ below => frame' j (by omega)
      · rw [numeralText_mul_pow d (.inr next), Buffer.holds_append,
          List.length_replicate]
        refine ⟨integer'.1.congr fun j _ below => frame' j ?_, holds'⟩
        rwa [List.length_replicate] at below

/-- The digits and the rest of a fraction as the scaling leaves them. -/
theorem fusedScale_fits {int : ℕ} {f : Fraction} (valid : f.Valid cfg int) {q : ℕ} {r : Scaled}
    (scaled : fracScale cfg q f.left 0 f.man f.carry = r) : Fits cfg r.man r.carry := by
  have digit := valid.settled_lt
  have unit := cfg.unit_ge
  rcases fusedScale_cases valid q with
    ⟨-, man, carry, run, sum, bit⟩ | ⟨-, i, man, carry, run, fits⟩
  · obtain rfl := scaled.symm.trans run
    exact ⟨by simp only; omega, bit⟩
  · obtain rfl := scaled.symm.trans run
    exact fits

/-- The fraction is stored under the point, and what is left of its mantissa decides the
rounding. -/
theorem ftoaRest_fraction {int q dec carry end_ : ℕ} {f : Fraction} (valid : f.Valid cfg int)
    {point : Bool} {b : ConvBuffer cfg} (inside : q ≤ cfg.cbuf)
    (holds : b.Holds q (pointText point ++ numeralText 10 0 int)) :
    ∃ c : ConvBuffer cfg,
      c.Holds 0 (fixedText (int * 10 ^ q + (fusedDigits cfg q f).1) q point).reverse ∧
      ftoaRest cfg q dec end_ carry (some f) b = (do
        let carry ← ftoaTie cfg (if (fracScale cfg q f.left 0 f.man f.carry).left ≤ 4 then 1 else 0)
          (fusedDigits cfg q f).2 c
        let (end_, buf) ← if carry ≠ 0 then ftoaRound cfg cfg.cbuf end_ c else pure (end_, c)
        pure ((end_ : ℤ), buf)) := by
  obtain ⟨mark, integer⟩ := (Buffer.holds_append b q _ _).mp holds
  obtain ⟨r, scaled⟩ : ∃ r, fracScale cfg q f.left 0 f.man f.carry = r := ⟨_, rfl⟩
  obtain ⟨few, d, run, zeros, frame⟩ := @ftoaFracScale_eq cfg _ _ _ _ q b r inside scaled
  obtain ⟨nudge, -⟩ := fusedMan_lt (fusedScale_fits valid scaled)
  obtain ⟨less, -, ifBlank, ifPrinted⟩ := fusedDigits_print valid inside scaled zeros
  by_cases empty : q - r.zeros = 0
  · obtain ⟨all, zero⟩ := ifBlank empty
    have rest : (fusedDigits cfg q f).2 =
        if r.man ≠ 2 ^ cfg.manBits - 1 then r.man + r.carry else r.man := by
      simp only [fusedDigits, scaled, empty, ↓reduceIte]
    refine ⟨d, (holds_fixedText less point d).mpr ⟨⟨?_, ?_⟩, ?_⟩, ?_⟩
    · rw [empty, all] at zeros
      rwa [zero]
    · exact mark.congr fun j above _ => frame j above
    · exact integer.congr fun j above _ => frame j (by omega)
    · rw [rest, scaled, ftoaRest]
      simp only [run, nudge, empty, bind, Except.bind, pure, Except.pure, ne_eq, not_true_eq_false,
        ↓reduceIte, Nat.sub_zero]
  · obtain ⟨R, e, printed, rest, digits, frame'⟩ := ifPrinted empty
    refine ⟨e, (holds_fixedText less point e).mpr ⟨⟨digits, ?_⟩, ?_⟩, ?_⟩
    · exact mark.congr fun j above _ => (frame' j above).trans (frame j above)
    · exact integer.congr fun j above _ => (frame' j (by omega)).trans (frame j (by omega))
    · rw [← rest, scaled, ftoaRest]
      simp only [run, nudge, empty, printed, bind, Except.bind, pure, Except.pure, ne_eq,
        not_false_eq_true, ↓reduceIte, Nat.sub_zero]

/-- Whether the fused conversion rounds up: by the top bit of what is left, a tie by the last
digit. -/
theorem ftoaTie_eq {x T man : ℕ} (bit : x ≤ 1) (small : man < 16 * cfg.unit)
    {c : ConvBuffer cfg} (lsd : ftoaLsd cfg c = .ok (digitChar 0 (T % 10))) :
    ftoaTie cfg x man c =
      .ok (if x = 1 ∧ (8 * cfg.unit < man ∨ man = 8 * cfg.unit ∧ T % 2 = 1) then 1 else 0) := by
  have digit : T % 10 < 10 := Nat.mod_lt T (by norm_num)
  have parity : (48 + T % 10) % 2 = T % 2 := by omega
  rw [ftoaTie, and_topBit bit small, Nat.one_shiftLeft, cfg.two_pow_top]
  simp only [lsd, bind, Except.bind, pure, Except.pure, digitChar_toNat digit, Nat.and_one_is_mod,
    parity]
  by_cases tie : man = 8 * cfg.unit
  · rw [if_pos tie]
    obtain rfl | rfl : x = 0 ∨ x = 1 := by omega
    · simp
    · rcases Nat.mod_two_eq_zero_or_one T with even | odd
      · simp [even, tie]
      · simp [odd, tie]
  · rw [if_neg tie]
    congr 1
    split_ifs <;> first | rfl | omega

theorem ftoaRest_some {int q dec carry end_ : ℕ} {f : Fraction} (valid : f.Valid cfg int)
    {point : Bool} {b : ConvBuffer cfg} (inside : q ≤ cfg.cbuf)
    (pointed : point = true → q = 0 → cfg.altForm = true)
    (count : q + (pointText point).length + numeralLength 10 int = end_) (room : end_ ≤ cfg.cbuf)
    (holds : b.Holds q (pointText point ++ numeralText 10 0 int)) (m : Machine)
    (shape : m.int = int ∧ m.frac = some f) :
    ftoaRest cfg q dec end_ carry (some f) b = gotoExit ∧
        cfg.cbuf < (fixedText (fusedRound cfg q m) q point).length ∨
      (fixedText (fusedRound cfg q m) q point).length ≤ cfg.cbuf ∧
        Leaves (ftoaRest cfg q dec end_ carry (some f) b)
          (fixedText (fusedRound cfg q m) q point) := by
  obtain ⟨c, text, path⟩ := @ftoaRest_fraction cfg int q dec carry end_ f valid point b inside holds
  obtain ⟨-, d, -, zeros, -⟩ := @ftoaFracScale_eq cfg f.left 0 f.man f.carry q b _ inside rfl
  obtain ⟨less, small, -⟩ := fusedDigits_print valid inside rfl zeros
  obtain ⟨x, x_eq⟩ : ∃ x : ℕ,
      (if (fracScale cfg q f.left 0 f.man f.carry).left ≤ 4 then 1 else 0) = x := ⟨_, rfl⟩
  have stops : (fracScale cfg q f.left 0 f.man f.carry).left ≤ 4 ↔ x = 1 := by
    rw [← x_eq]
    split_ifs with low <;> simp [low]
  have bit : x ≤ 1 := by
    rw [← x_eq]
    split_ifs <;> omega
  rw [path]
  simp only [x_eq]
  rw [ftoaTie_eq bit small (ftoaLsd_eq text pointed)]
  obtain ⟨T, T_eq⟩ : ∃ T, int * 10 ^ q + (fusedDigits cfg q f).1 = T := ⟨_, rfl⟩
  have length := length_fixedText_add (I := int) less point
  rw [count, T_eq] at length
  rw [T_eq] at text
  simp only [fusedRound, shape.1, shape.2, T_eq, stops, bind, Except.bind]
  by_cases up : x = 1 ∧ (8 * cfg.unit < (fusedDigits cfg q f).2 ∨
      (fusedDigits cfg q f).2 = 8 * cfg.unit ∧ T % 2 = 1)
  · simp only [if_pos up, ne_eq, one_ne_zero, not_false_eq_true, ↓reduceIte]
    rcases ftoaRound_text length room text with ⟨exits, long⟩ | ⟨fits, d, run, holds'⟩
    · exact .inl ⟨by rw [exits]; rfl, long⟩
    · exact .inr ⟨fits, d, by rw [run]; rfl, holds'⟩
  · simp only [if_neg up, ne_eq, not_true_eq_false, ↓reduceIte, Nat.add_zero]
    exact .inr ⟨by omega, c, by rw [length]; rfl, text⟩

/-! ## The whole conversion -/

/-- The fused conversion has room for its number. -/
structure FusedRoom (cfg : Config) (q : ℕ) (point : Bool) (m : Machine) : Prop where
  point_fits : q + 2 ≤ cfg.cbuf
  int_fits : IntRoom cfg (q + (pointText point).length + m.dec) m.int
  text_fits : (fixedText (fusedRound cfg q m) q point).length ≤ cfg.cbuf

/-- The conversion of a finite value leaves the number it rounds to, exactly if it has room. -/
theorem ftoaFinite_eq {bin : ℕ} {exp : ℤ} (valid : (machine cfg bin exp).Valid cfg) {q : ℕ}
    (fits : q + 2 ≤ cfg.cbuf) (spec : NpfFormatSpec) (buf : ConvBuffer cfg) :
    ftoaFinite cfg buf spec q bin exp = gotoExit ∧
        ¬ FusedRoom cfg q (0 < q ∨ alternate cfg spec) (machine cfg bin exp) ∨
      FusedRoom cfg q (0 < q ∨ alternate cfg spec) (machine cfg bin exp) ∧
        Leaves (ftoaFinite cfg buf spec q bin exp)
          (fixedText (fusedRound cfg q (machine cfg bin exp)) q (0 < q ∨ alternate cfg spec)) := by
  rcases ftoaFinite_front valid fits spec buf with
    ⟨exits, long⟩ | ⟨printed, b, dec, end_, path, dec_eq, end_eq, room, holds⟩
  · exact .inl ⟨exits, fun room => long room.int_fits⟩
  have result : ∀ {run : Run (ℤ × ConvBuffer cfg)} {text : List Char},
      fixedText (fusedRound cfg q (machine cfg bin exp)) q (0 < q ∨ alternate cfg spec) = text →
      (run = gotoExit ∧ cfg.cbuf < text.length ∨ text.length ≤ cfg.cbuf ∧ Leaves run text) →
      run = gotoExit ∧ ¬ FusedRoom cfg q (0 < q ∨ alternate cfg spec) (machine cfg bin exp) ∨
        FusedRoom cfg q (0 < q ∨ alternate cfg spec) (machine cfg bin exp) ∧ Leaves run text := by
    rintro run text rfl (⟨exits, long⟩ | ⟨short, leaves⟩)
    · exact .inl ⟨exits, fun room => absurd room.text_fits (by omega)⟩
    · exact .inr ⟨⟨fits, printed, short⟩, leaves⟩
  rw [path]
  match frac : (machine cfg bin exp).frac with
  | none =>
      have value : fusedRound cfg q (machine cfg bin exp) =
          ((machine cfg bin exp).int + (machine cfg bin exp).up) * 10 ^ (machine cfg bin exp).dec *
            10 ^ q := by
        rw [fusedRound, frac]
      refine result rfl ?_
      rw [value, dec_eq]
      exact ftoaRest_none (by omega) (valid.scaled frac) valid.fits.2 end_eq.symm room holds
  | some f =>
      obtain ⟨whole, part⟩ := valid.fraction f frac
      rw [whole, pow_zero, mul_one] at holds end_eq
      refine result rfl (ftoaRest_some part (by omega) (fun point zero => ?_) end_eq.symm room holds
        _ ⟨rfl, frac⟩)
      have asked := of_decide_eq_true point
      simp only [zero, lt_self_iff_false, false_or, alternate, Bool.and_eq_true] at asked
      exact asked.1

end Nanoprintf
