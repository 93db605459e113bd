import Nanoprintf.Builds
import Nanoprintf.EtoaAgreement

/-!
# The shortest style

`%g` chooses between the two styles by the exponent that `%e` prints, and without
the flag `#` drops the trailing zeros of the fraction. The code drops them from
the digits of the first pass and generates again, at the place of the last digit
that is left; `npfEtoaRev_shortest` says that the text is the one of the chosen
style at full precision, with its zeros removed.
-/

set_option autoImplicit false

namespace Nanoprintf

open Foundations

variable {cfg : Config}

/-! ## Removing zeros from a text -/

/-- A mantissa without the trailing zeros of its fraction, and without a bare point. -/
def stripFraction (m : List Char) : List Char :=
  if '.' ∈ m then
    match m.reverse.dropWhile (· == '0') with
    | '.' :: int => int.reverse
    | kept => kept.reverse
  else m

/-- A text without the trailing zeros of its fraction, and without a bare point. -/
def stripZeros (t : List Char) : List Char := stripFraction (mantissaPart t) ++ exponentPart t

theorem dropWhile_zeros (k : ℕ) {c : Char} (stop : c ≠ '0') (t : List Char) :
    (List.replicate k '0' ++ c :: t).dropWhile (· == '0') = c :: t := by
  rw [List.dropWhile_append_of_pos (by simp)]
  exact List.dropWhile_cons_of_neg (by simpa using stop)

/-- The zeros are those of the fraction, whose other digits end in one that is not zero. -/
theorem stripFraction_eq {int : List Char} (digits : ∀ c ∈ int, c.isDigit = true) {k q T : ℕ}
    (last : q = 0 ∨ T % 10 ≠ 0) :
    stripFraction (int ++ pointText (0 < k + q) ++ (digitText (k + q) (T * 10 ^ k)).reverse) =
      int ++ pointText (0 < q) ++ (digitText q T).reverse := by
  have mark : '.'.isDigit = false := rfl
  by_cases vanishes : k + q = 0
  · obtain ⟨rfl, rfl⟩ : k = 0 ∧ q = 0 := by omega
    have plain : '.' ∉ int := fun member => by
      rw [digits _ member] at mark
      exact absurd mark (by decide)
    simp [stripFraction, pointText, plain]
  · rw [decide_eq_true (by omega : 0 < k + q)]
    have pointed : '.' ∈ int ++ pointText true ++ (digitText (k + q) (T * 10 ^ k)).reverse := by
      simp [pointText]
    rw [stripFraction, if_pos pointed, digitText_mul_pow]
    simp only [List.reverse_append, List.reverse_reverse, reverse_pointText, List.append_assoc]
    cases q with
    | zero =>
        simp only [digitText_zero, List.nil_append, pointText, ↓reduceIte, List.singleton_append]
        rw [dropWhile_zeros k (by decide)]
        simp
    | succ q =>
        have digit : T % 10 < 10 := Nat.mod_lt T (by norm_num)
        have first : digitChar 0 (T % 10) ≠ '0' := fun same =>
          last.resolve_left (Nat.succ_ne_zero q) (digitChar_inj digit (by norm_num) same)
        have other : digitChar 0 (T % 10) ≠ '.' := fun same => by
          have digital := isDigit_digitChar digit
          rw [same, mark] at digital
          exact absurd digital (by decide)
        rw [digitText_succ, List.cons_append, dropWhile_zeros k first]
        split
        · next int' same => exact absurd (List.cons.inj same).1 other
        · simp

/-- Zeros at the end of a fixed text. -/
theorem stripZeros_fixedText {k q T : ℕ} (last : q = 0 ∨ T % 10 ≠ 0) :
    stripZeros (fixedText (T * 10 ^ k) (k + q) (0 < k + q)) = fixedText T q (0 < q) := by
  have parts := @parts_eq (fixedText (T * 10 ^ k) (k + q) (0 < k + q))
    (digit_or_point (fun _ => isDigit_numeralText) (fun _ => isDigit_fraction)) []
    (by simp)
  rw [List.append_nil] at parts
  have integer : T * 10 ^ k / 10 ^ (k + q) = T / 10 ^ q := by
    rw [pow_add, mul_comm T, Nat.mul_div_mul_left _ _ (by positivity)]
  rw [stripZeros, parts.1, parts.2, List.append_nil, fixedText, integer,
    stripFraction_eq (fun _ => isDigit_numeralText) last, fixedText]

/-- Zeros at the end of the digits of a scientific text. -/
theorem stripZeros_sciText {k q V : ℕ} (x : ℤ) (caseAdj : ℕ) (small : V < 10 ^ (q + 1))
    (last : q = 0 ∨ V % 10 ≠ 0) :
    stripZeros (sciText (V * 10 ^ k) (k + q) x (0 < k + q) caseAdj) =
      sciText V q x (0 < q) caseAdj := by
  have first : V / 10 ^ q < 10 := by
    rw [Nat.div_lt_iff_lt_mul (by positivity), ← pow_succ']
    exact small
  have lead : V * 10 ^ k / 10 ^ (k + q) = V / 10 ^ q := by
    rw [pow_add, mul_comm V, Nat.mul_div_mul_left _ _ (by positivity)]
  have wide : V * 10 ^ k < 10 ^ (k + q + 1) := by
    rw [Nat.add_assoc, pow_add, mul_comm]
    exact Nat.mul_lt_mul_of_pos_left small (by positivity)
  have parts := parts_sciText x (0 < k + q) caseAdj wide
  rw [stripZeros, parts.1, parts.2, lead, stripFraction_eq (by
    intro c member
    obtain rfl := List.mem_singleton.mp member
    exact isDigit_digitChar first) last]
  rfl

/-! ## Removing zeros from the digits of a pass -/

/-- The digits that are left end in one that is not zero, or there is only one. -/
theorem etoaStrip_eq {n e V : ℕ} (dec : ℤ) {buf : ConvBuffer cfg} (count : e + n = cfg.cbuf)
    (nonzero : n ≠ 0) (holds : buf.Holds e (digitText n V)) :
    ∃ k m W, etoaStrip buf n e dec = .ok (e + k, dec + k) ∧ k + m = n ∧ m ≠ 0 ∧ V = W * 10 ^ k ∧
      (m = 1 ∨ W % 10 ≠ 0) := by
  induction n generalizing e V dec with
  | zero => exact absurd rfl nonzero
  | succ n ih =>
      cases n with
      | zero =>
          exact ⟨0, 1, V, by simp [etoaStrip, pure, Except.pure], rfl, one_ne_zero, by simp,
            .inl rfl⟩
      | succ n =>
          rw [digitText_succ, Buffer.holds_cons] at holds
          have digit : V % 10 < 10 := Nat.mod_lt V (by norm_num)
          have read : buf.read e = (.ok (digitChar 0 (V % 10)) : Run Char) :=
            Buffer.read_eq (by omega) holds.1
          rw [etoaStrip]
          simp only [read, bind, Except.bind]
          by_cases zero : V % 10 = 0
          · obtain ⟨k, m, W, run, length, nonzero, value, last⟩ :=
              @ih (e + 1) (V / 10) (dec + 1) (by omega) (by omega) holds.2
            refine ⟨k + 1, m, W, ?_, by omega, nonzero, ?_, last⟩
            · rw [zero, if_pos (by rfl), run]
              congr 2
              · omega
              · push_cast
                ring
            · rw [pow_succ, ← mul_assoc, ← value]
              omega
          · refine ⟨0, n + 2, V, ?_, by omega, by omega, by simp, .inr zero⟩
            rw [if_neg]
            · simp [pure, Except.pure]
            · rw [beq_iff_eq, ← digitChar_zero]
              exact fun same => zero (digitChar_inj digit (by norm_num) same)

/-! ## The path of the shortest style -/

/-- A text as `%g` prints it: with the flag `#` as it is, without it shortened. -/
def shorten (alt : Bool) (t : List Char) : List Char := if alt then t else stripZeros t

theorem isShortest_shortest {spec : NpfFormatSpec} (conversion : spec.convSpec = .floatShortest)
    (compiled : cfg.floatShortest = true) : isShortest cfg spec = true := by
  rw [isShortest, conversion, compiled]
  cases cfg.floatSci <;> rfl

/-- The path of `%g`, up to the first pass. A precision of zero counts as one. -/
theorem npfEtoaRev_shortest_path {f g : RealBits cfg} [ReadAs cfg f g] (finite : IsFinite cfg g)
    {spec : NpfFormatSpec} (conversion : spec.convSpec = .floatShortest)
    (compiled : cfg.floatShortest = true) {P p : ℕ} (precision : npfDecPrec cfg spec = P)
    (digits : p + 1 = max P 1) (fits : p + 8 ≤ cfg.cbuf) (buf : ConvBuffer cfg) :
    ∃ bin exp, Reads cfg g bin exp ∧
      npfEtoaRev cfg buf spec f = orErr buf spec.caseAdjust
        (etoaFinite cfg buf (alternate cfg spec) spec.caseAdjust true
          (.significant cfg (p + 1) (p + 1)) bin exp) := by
  obtain ⟨bin, exp, reads, run⟩ := npfEtoaRev_finite (f := f) finite spec buf
  refine ⟨bin, exp, reads, ?_⟩
  have shortest : (spec.convSpec == .floatDec) = false := by rw [conversion]; rfl
  have least : (if (P : ℤ) ≠ 0 then (P : ℤ) else 1) = p + 1 := by
    split_ifs <;> omega
  rw [run]
  simp only [precision, isShortest_shortest conversion compiled, shortest, Bool.false_eq_true,
    ↓reduceIte, least]
  rw [if_neg (by omega), if_neg (by omega)]

/-- A precision that the buffer has no room for. -/
theorem npfEtoaRev_shortest_long {f g : RealBits cfg} [ReadAs cfg f g] (finite : IsFinite cfg g)
    {spec : NpfFormatSpec} (conversion : spec.convSpec = .floatShortest)
    (compiled : cfg.floatShortest = true) {P p : ℕ} (precision : npfDecPrec cfg spec = P)
    (digits : p + 1 = max P 1) (long : cfg.cbuf < p + 8) (buf : ConvBuffer cfg) :
    LeavesWord (npfEtoaRev cfg buf spec f) (errWord spec.caseAdjust) := by
  obtain ⟨bin, exp, reads, run⟩ := npfEtoaRev_finite (f := f) finite spec buf
  have shortest : (spec.convSpec == .floatDec) = false := by rw [conversion]; rfl
  have least : (if (P : ℤ) ≠ 0 then (P : ℤ) else 1) = p + 1 := by
    split_ifs <;> omega
  have exits : ∀ run : Run (ℤ × ConvBuffer cfg),
      (if (P : ℤ) > cfg.cbuf - 2 then gotoExit
        else if (p : ℤ) + 1 > cfg.cbuf - 7 then gotoExit else run) = gotoExit := by
    intro run
    split_ifs <;> first | rfl | omega
  rw [run]
  simp only [precision, isShortest_shortest conversion compiled, shortest, Bool.false_eq_true,
    ↓reduceIte, least, exits]
  exact orErr_exit buf _

section

variable {bin : ℕ} {exp : ℤ} {p e n V : ℕ} {dec x : ℤ} {buf c : ConvBuffer cfg}

/-- The digits that are left. -/
theorem stripped {k m W : ℕ} (length : k + m = n) (value : V = W * 10 ^ k)
    (holds : c.Holds e (digitText n V)) (below : V < 10 ^ n) :
    c.Holds (e + k) (digitText m W) ∧ W < 10 ^ m := by
  subst length value
  rw [digitText_mul_pow, Buffer.holds_append, List.length_replicate] at holds
  rw [pow_add, mul_comm] at below
  exact ⟨holds.2, Nat.lt_of_mul_lt_mul_left below⟩

/-- Scientific style, from the digits of the first pass. -/
theorem etoaFinite_scientific (alt : Bool) (caseAdj : ℕ)
    (generated : etoaGenerate cfg (.significant cfg (p + 1) (p + 1)) bin exp buf = .ok (e, dec, c))
    (count : e + n = cfg.cbuf) (nonzero : n ≠ 0) (few : n ≤ p + 1)
    (holds : c.Holds e (digitText n V)) (below : V < 10 ^ n) (fits : p + 8 ≤ cfg.cbuf)
    (exponent : dec + n - 1 = x) (small : x.natAbs < 1000) (style : ¬ (-4 ≤ x ∧ x < p + 1)) :
    Leaves (etoaFinite cfg buf alt caseAdj true (.significant cfg (p + 1) (p + 1)) bin exp)
      (shorten alt (sciText (V * 10 ^ (p + 1 - n)) p x (0 < p ∨ alt) caseAdj)) := by
  have place : dec + ((cfg.cbuf : ℤ) - e) - 1 = x := by omega
  have prec : (EtoaMode.significant cfg (p + 1) (p + 1)).prec = p + 1 := rfl
  simp only [etoaFinite, generated, bind, Except.bind, place, ↓reduceIte, prec, if_neg style]
  cases alt with
  | true =>
      have leaves := composeScientific_eq true caseAdj count nonzero few fits small below holds
      simpa [shorten, pure, Except.pure] using leaves
  | false =>
      obtain ⟨k, m, W, run, length, some', value, last⟩ := etoaStrip_eq dec count nonzero holds
      obtain ⟨q, rfl⟩ : ∃ q, m = q + 1 := ⟨m - 1, by omega⟩
      obtain ⟨kept, small'⟩ := stripped length value holds below
      have leaves := composeScientific_eq (p := q) (x := x) false caseAdj
        (show e + k + (q + 1) = cfg.cbuf by omega) (Nat.succ_ne_zero q) le_rfl (by omega) small
        small' kept
      have zeros : V * 10 ^ (p + 1 - n) = W * 10 ^ (k + (p + 1 - n)) := by
        rw [value, pow_add, mul_assoc]
      have total : p = k + (p + 1 - n) + q := by omega
      simp only [show cfg.cbuf - e = n by omega, run, Bool.not_false, ↓reduceIte, shorten,
        Bool.false_eq_true, or_false, show (cfg.cbuf : ℤ) - (e + k : ℕ) - 1 = q by push_cast; omega]
      generalize k + (p + 1 - n) = K at zeros total
      have strip := @stripZeros_sciText K q W x caseAdj small' (by omega)
      simp only [Nat.sub_self, pow_zero, mul_one, Bool.false_eq_true, or_false] at leaves
      rw [zeros, total, strip]
      exact leaves

/-- The place of the last digit that is kept, for a number rounded to `q` places whose digits
are `m` and zeros. -/
theorem kept_place {m W K T q : ℕ} (positive : m ≠ 0) (digits : T = W * 10 ^ K)
    (total : p + 1 = K + m) (place : (q : ℤ) = p - x) (last : m = 1 ∧ (x ≠ 0 → W ≠ 0 ∧ W < 10) ∨
      W % 10 ≠ 0) :
    ∃ k q' U : ℕ, (if 0 < (m : ℤ) - 1 - x then (m : ℤ) - 1 - x else 0) = q' ∧ q = k + q' ∧
      T = U * 10 ^ k ∧ (q' = 0 ∨ U % 10 ≠ 0) := by
  by_cases below : 0 < (m : ℤ) - 1 - x
  · refine ⟨K, q - K, W, ?_, by omega, digits, .inr ?_⟩
    · rw [if_pos below]
      omega
    · rcases last with ⟨rfl, one⟩ | nonzero
      · obtain ⟨nonzero, digit⟩ := one (by omega)
        omega
      · exact nonzero
  · refine ⟨q, 0, W * 10 ^ (K - q), by rw [if_neg below]; rfl, rfl, ?_, .inl rfl⟩
    rw [digits, mul_assoc, ← pow_add]
    congr 2
    omega

/-- Fixed style, from the digits of the first pass. -/
theorem etoaFinite_fixed (valid : (machine cfg bin exp).Valid cfg) (alt : Bool) (caseAdj : ℕ)
    (generated : etoaGenerate cfg (.significant cfg (p + 1) (p + 1)) bin exp buf = .ok (e, dec, c))
    (count : e + n = cfg.cbuf) (pos : n ≠ 0) (few : n ≤ p + 1)
    (holds : c.Holds e (digitText n V)) (below : V < 10 ^ n)
    (digits : SignificantDigits p ((machine cfg bin exp).value cfg) n V dec) {q : ℕ}
    (place : (q : ℤ) = p - (sciRound p ((machine cfg bin exp).value cfg)).2)
    (style : -4 ≤ (sciRound p ((machine cfg bin exp).value cfg)).2) {text : List Char}
    (text_eq : shorten alt (fixedText (fixedRound q ((machine cfg bin exp).value cfg)) q
      (0 < q ∨ alt)) = text) :
    text.length ≤ cfg.cbuf ∧
        Leaves (etoaFinite cfg buf alt caseAdj true (.significant cfg (p + 1) (p + 1)) bin exp)
          text ∨
      cfg.cbuf < text.length ∧
        etoaFinite cfg buf alt caseAdj true (.significant cfg (p + 1) (p + 1)) bin exp =
          gotoExit := by
  have nonneg : 0 ≤ (machine cfg bin exp).value cfg := Machine.Valid.value_nonneg _
  have rounded := fixedRound_of_sciRound nonneg place
  obtain ⟨-, least⟩ := sciRound_bounds p nonneg
  have origin : (sciRound p ((machine cfg bin exp).value cfg)).2 ≠ 0 →
      (machine cfg bin exp).value cfg ≠ 0 := by
    intro nonzero zero
    rw [zero, sciRound, if_pos rfl] at nonzero
    exact nonzero rfl
  have first : dec + ((cfg.cbuf : ℤ) - e) - 1 =
      (sciRound p ((machine cfg bin exp).value cfg)).2 := by
    rw [← digits.exponent]
    omega
  have value' := digits.value
  set v := (machine cfg bin exp).value cfg
  set x := (sciRound p v).2
  have prec : (EtoaMode.significant cfg (p + 1) (p + 1)).prec = p + 1 := rfl
  have choice : -4 ≤ x ∧ x < p + 1 := by omega
  simp only [etoaFinite, generated, bind, Except.bind, first, ↓reduceIte, prec, if_pos choice]
  subst text_eq
  cases alt with
  | true =>
      have last : (if 0 < (p : ℤ) + 1 - 1 - x then (p : ℤ) + 1 - 1 - x else 0) = q := by
        split_ifs <;> omega
      simp only [Bool.not_true, Bool.false_eq_true, ↓reduceIte, pure, Except.pure, last, shorten,
        EtoaMode.fixed_prec]
      -- the second pass at the same place
      have second := etoaFixed_eq valid (q := q) rfl true c _ rfl
      simp only [bind, Except.bind] at second
      exact second
  | false =>
      obtain ⟨k, m, W, run, length, some', value, final⟩ := etoaStrip_eq dec count pos holds
      have small := (stripped length value holds below).2
      have zeros : fixedRound q v = W * 10 ^ (k + (p + 1 - n)) := by
        rw [rounded, ← value', value, pow_add, mul_assoc]
      have single : m = 1 ∧ (x ≠ 0 → W ≠ 0 ∧ W < 10) ∨ W % 10 ≠ 0 := by
        refine final.imp_left fun one => ⟨one, fun nonzero => ⟨?_, by simpa [one] using small⟩⟩
        rintro rfl
        have positive := least (origin nonzero)
        rw [← rounded, zeros, Nat.zero_mul] at positive
        exact absurd positive (not_le.mpr (by positivity))
      obtain ⟨k', q', U, last, rfl, split, end_⟩ :=
        kept_place some' zeros (by omega) place single
      have inner := fixedRound_of_zeros nonneg (show fixedRound (q' + k') v = U * 10 ^ k' by
        rwa [add_comm])
      have text : stripZeros (fixedText (fixedRound (k' + q') v) (k' + q')
          (0 < k' + q' ∨ false = true)) = fixedText U q' (0 < q' ∨ false = true) := by
        simp only [Bool.false_eq_true, or_false]
        rw [split, stripZeros_fixedText end_]
      simp only [show cfg.cbuf - e = n by omega, run, Bool.not_false, ↓reduceIte, shorten,
        Bool.false_eq_true, show (cfg.cbuf : ℤ) - (e + k : ℕ) = m by push_cast; omega, last,
        EtoaMode.fixed_prec]
      simp only [Bool.false_eq_true] at text
      rw [text]
      -- the second pass at the place of the last digit that is kept
      have second := etoaFixed_eq valid inner false c _ rfl
      simp only [Bool.false_eq_true, bind, Except.bind] at second
      exact second

end

/-! ## The choice of a style -/

/-- The build that has the other conversions and precisions, too. -/
def Config.withSci (cfg : Config) (compiled : cfg.floatShortest = true) : Config :=
  { cfg with
    floatSci := true
    precision := true
    sci_float := fun _ => cfg.shortest_float compiled }

instance [reads : cfg.RepExact] (compiled : cfg.floatShortest = true) :
    (cfg.withSci compiled).RepExact := ⟨reads.exact⟩

/-- The specification with another conversion and precision. -/
def NpfFormatSpec.style (spec : NpfFormatSpec) (conv : ConvSpec) (prec : ℤ) : NpfFormatSpec :=
  { spec with convSpec := conv, prec := prec }

section

variable (compiled : cfg.floatShortest = true)

theorem withSci_same : SameReal (cfg.withSci compiled) cfg where
  single := rfl
  bin := rfl
  man := rfl

theorem withSci_machineOf {f : RealBits cfg} (finite : IsFinite cfg f) :
    machineOf (cfg.withSci compiled) f = machineOf cfg f :=
  (withSci_same compiled).machineOf_eq rfl finite

theorem withSci_approximation {f : RealBits cfg} (finite : IsFinite cfg f) :
    approximation (cfg.withSci compiled) f = approximation cfg f :=
  (withSci_same compiled).approximation_eq rfl finite

theorem withSci_integerTail {f : RealBits cfg} (finite : IsFinite cfg f) :
    integerTail (cfg.withSci compiled) f = integerTail cfg f :=
  (withSci_same compiled).integerTail_eq rfl finite

end

/-- `%g`, from the digits of `%e`. -/
theorem npfEtoaRev_shortest_scientific {f g : RealBits cfg} [ReadAs cfg f g]
    (finite : IsFinite cfg g) {spec : NpfFormatSpec} (conversion : spec.convSpec = .floatShortest)
    (compiled : cfg.floatShortest = true) {P p : ℕ} (precision : npfDecPrec cfg spec = P)
    (digits : p + 1 = max P 1) (fits : p + 8 ≤ cfg.cbuf) (buf : ConvBuffer cfg) :
    (IntegerFits (machineOf cfg g) p →
      ¬ (-4 ≤ (sciRound p (approximation cfg g)).2 ∧
        (sciRound p (approximation cfg g)).2 < p + 1) →
      Leaves (npfEtoaRev cfg buf spec f) (shorten (alternate cfg spec)
        (sciText (sciRound p (approximation cfg g)).1 p (sciRound p (approximation cfg g)).2
          (0 < p ∨ alternate cfg spec) spec.caseAdjust))) ∧
    (∀ k ≠ 0, numeralLength 10 (machineOf cfg g).int = p + 1 + k →
      Leaves (npfEtoaRev cfg buf spec f) (shorten (alternate cfg spec)
        (sciText (droppedRound (machineOf cfg g) (integerTail cfg g) p k).1 p
          ((droppedRound (machineOf cfg g) (integerTail cfg g) p k).2 + p)
          (0 < p ∨ alternate cfg spec) spec.caseAdjust))) := by
  obtain ⟨bin, exp, reads, run⟩ :=
    npfEtoaRev_shortest_path (f := f) finite conversion compiled precision digits fits buf
  have valid := machine_valid reads.norm
  have bound := valid.exponent_bounds p
  rw [approximation, reads.machineOf_eq, reads.integerTail_eq, run]
  refine ⟨fun few style => ?_, fun k nonzero many => ?_⟩
  · obtain ⟨e, n, V, dec, c, generated, count, nonzero, short, holds, below, sig⟩ :=
      etoaGenerate_significant valid (p + 1) buf few fits
    rw [← sig.value]
    exact (etoaFinite_scientific _ _ generated count nonzero short holds below fits sig.exponent
      (by omega) style).orErr buf _
  · obtain ⟨e, c, generated, count, holds⟩ := etoaGenerate_drop valid (p + 1) buf nonzero many
    have above := @droppedRound_exponent (machine cfg bin exp) (intTail cfg bin exp) p k nonzero
    have small := droppedRound_small valid many (intTail cfg bin exp)
    have leaves := etoaFinite_scientific (x := (droppedRound (machine cfg bin exp)
      (intTail cfg bin exp) p k).2 + p) (alternate cfg spec) spec.caseAdjust generated count
      (by omega) le_rfl holds (droppedRound_lt _ _ p k) fits (by push_cast; ring) small (by omega)
    rw [Nat.sub_self, pow_zero, mul_one] at leaves
    exact leaves.orErr buf _

/-- `%g` at an exponent of the fixed style. -/
theorem npfEtoaRev_shortest_fixed {f g : RealBits cfg} [ReadAs cfg f g] (finite : IsFinite cfg g)
    {spec : NpfFormatSpec} (conversion : spec.convSpec = .floatShortest)
    (compiled : cfg.floatShortest = true) {P p q : ℕ} (precision : npfDecPrec cfg spec = P)
    (digits : p + 1 = max P 1) (fits : p + 8 ≤ cfg.cbuf) (few : IntegerFits (machineOf cfg g) p)
    (place : (q : ℤ) = p - (sciRound p (approximation cfg g)).2)
    (style : -4 ≤ (sciRound p (approximation cfg g)).2)
    (buf : ConvBuffer cfg) :
    Prints (npfEtoaRev cfg buf spec f) spec.caseAdjust (shorten (alternate cfg spec)
      (fixedText (fixedRound q (approximation cfg g)) q (0 < q ∨ alternate cfg spec))) := by
  obtain ⟨bin, exp, reads, run⟩ :=
    npfEtoaRev_shortest_path (f := f) finite conversion compiled precision digits fits buf
  have valid := machine_valid reads.norm
  rw [approximation, reads.machineOf_eq] at place style ⊢
  rw [reads.machineOf_eq] at few
  obtain ⟨e, n, V, dec, c, generated, count, nonzero, short, holds, below, sig⟩ :=
    etoaGenerate_significant valid (p + 1) buf few fits
  rw [run]
  rcases etoaFinite_fixed valid (alternate cfg spec) spec.caseAdjust generated count nonzero short
    holds below sig place style rfl with ⟨room, leaves⟩ | ⟨long, exits⟩
  · exact .inl ⟨room, leaves.orErr buf _⟩
  · exact .inr ⟨long, exits ▸ orErr_exit buf _⟩

theorem length_stripFraction (m : List Char) : (stripFraction m).length ≤ m.length := by
  have shorter : (m.reverse.dropWhile (· == '0')).length ≤ m.length :=
    m.length_reverse ▸ (List.dropWhile_suffix _).length_le
  unfold stripFraction
  split_ifs
  · split
    · next kept =>
        rw [kept, List.length_cons] at shorter
        rw [List.length_reverse]
        omega
    · rwa [List.length_reverse]
  · exact le_rfl

theorem length_shorten (alt : Bool) (t : List Char) : (shorten alt t).length ≤ t.length := by
  cases alt with
  | true => exact le_rfl
  | false =>
      have parts := congrArg List.length
        (List.takeWhile_append_dropWhile (p := isMantissaChar) (l := t))
      have shorter := length_stripFraction (mantissaPart t)
      rw [List.length_append] at parts
      simp only [shorten, Bool.false_eq_true, ↓reduceIte, stripZeros, List.length_append,
        mantissaPart, exponentPart] at shorter ⊢
      omega

/-- **`%g` prints what the style that `%e` decides on prints**: for an exponent from -4 up to the
precision the text of `%f` whose last digit has the same place, otherwise the text of `%e`, in
either case without the trailing zeros of the fraction unless the flag `#` keeps them. -/
theorem npfEtoaRev_shortest [cfg.RepExact] {f : RealBits cfg} (finite : IsFinite cfg f)
    {spec : NpfFormatSpec} (conversion : spec.convSpec = .floatShortest)
    (compiled : cfg.floatShortest = true) {P p : ℕ} (precision : npfDecPrec cfg spec = P)
    (digits : p + 1 = max P 1) (buf : ConvBuffer cfg)
    (number : ¬ LeavesWord (npfEtoaRev (cfg.withSci compiled) buf (spec.style .floatSci p) f)
      (errWord spec.caseAdjust)) :
    ∃ s, Leaves (npfEtoaRev (cfg.withSci compiled) buf (spec.style .floatSci p) f) s ∧
      if -4 ≤ printedExponent s ∧ printedExponent s < p + 1 then
        ¬ LeavesWord (npfEtoaRev (cfg.withSci compiled) buf
          (spec.style .floatDec (p - printedExponent s)) f) (errWord spec.caseAdjust) →
        ∃ t, Leaves (npfEtoaRev (cfg.withSci compiled) buf
            (spec.style .floatDec (p - printedExponent s)) f) t ∧
          Leaves (npfEtoaRev cfg buf spec f) (shorten (alternate cfg spec) t)
      else Leaves (npfEtoaRev cfg buf spec f) (shorten (alternate cfg spec) s) := by
  have nonneg : 0 ≤ approximation cfg f := Machine.Valid.value_nonneg _
  rcases @npfEtoaRev_scientific_cases (cfg.withSci compiled) _ f finite (spec.style .floatSci p) rfl
    rfl p rfl buf with word | ⟨fits, few, leaves⟩ | ⟨fits, k, nonzero, many, leaves⟩
  · exact absurd word number
  · rw [withSci_approximation compiled finite] at leaves
    rw [withSci_machineOf compiled finite] at few
    have scientific := (npfEtoaRev_shortest_scientific finite conversion compiled precision digits
      fits buf).1 few
    refine ⟨_, leaves, ?_⟩
    rw [printedExponent_sciText _ _ _ (sciRound_bounds p nonneg).1]
    by_cases style : -4 ≤ (sciRound p (approximation cfg f)).2 ∧
        (sciRound p (approximation cfg f)).2 < p + 1
    · rw [if_pos style]
      intro number'
      obtain ⟨q, place⟩ : ∃ q : ℕ, (q : ℤ) = p - (sciRound p (approximation cfg f)).2 :=
        ⟨(p - (sciRound p (approximation cfg f)).2).toNat, by omega⟩
      rw [← place] at number' ⊢
      rcases @npfEtoaRev_fixed (cfg.withSci compiled) f f (readAs_self (cfg.withSci compiled) f)
        finite (spec.style .floatDec q) rfl q rfl buf with ⟨room, leaves'⟩ | ⟨-, word⟩
      · rw [withSci_approximation compiled finite] at room leaves'
        refine ⟨_, leaves', ?_⟩
        rcases npfEtoaRev_shortest_fixed finite conversion compiled precision digits fits few place
          style.1 buf with ⟨-, leaves''⟩ | ⟨long, -⟩
        · exact leaves''
        · exact absurd ((length_shorten _ _).trans room) (not_le.mpr long)
      · exact absurd word number'
    · rw [if_neg style]
      exact scientific style
  · rw [withSci_machineOf compiled finite, withSci_integerTail compiled finite] at leaves
    rw [withSci_machineOf compiled finite] at many
    have above := @droppedRound_exponent (machineOf cfg f) (integerTail cfg f) p k nonzero
    refine ⟨_, leaves, ?_⟩
    rw [printedExponent_sciText _ _ _ (droppedRound_lt _ _ p k), if_neg (by omega)]
    exact (npfEtoaRev_shortest_scientific finite conversion compiled precision digits fits buf).2 k
      nonzero many

/-- `%.3g` of `1.5` is `1.50` without its zero. -/
theorem npfEtoaRev_shortest_half :
    Leaves (npfEtoaRev (Config.standard.withSci rfl) .blank
        ((NpfFormatSpec.lower .floatShortest 3).style .floatDec 2) (pattern _ 0x3ff8000000000000))
        "1.50".toList ∧
      Leaves (npfEtoaRev .standard .blank (.lower .floatShortest 3)
        (pattern _ 0x3ff8000000000000)) "1.5".toList := by
  obtain ⟨s, leaves, choice⟩ := @npfEtoaRev_shortest .standard _ (pattern _ 0x3ff8000000000000)
    (by decide) (.lower .floatShortest 3) rfl rfl 3 2 rfl rfl .blank (by decide)
  have text : Leaves (npfEtoaRev (Config.standard.withSci rfl) .blank
      ((NpfFormatSpec.lower .floatShortest 3).style .floatSci 2) (pattern _ 0x3ff8000000000000))
      "1.50e+00".toList := by decide
  obtain rfl := leaves.unique text
  obtain ⟨t, leaves', stripped⟩ := choice (by decide)
  have text' : Leaves (npfEtoaRev (Config.standard.withSci rfl) .blank
      ((NpfFormatSpec.lower .floatShortest 3).style .floatDec 2) (pattern _ 0x3ff8000000000000))
      "1.50".toList := by decide
  obtain rfl := leaves'.unique text'
  exact ⟨leaves', stripped⟩

end Nanoprintf
