import Nanoprintf.DecimalText

/-!
# Reading decimal text

The other direction of decimal notation: the number that a text denotes, whether
it is fixed or scientific (`denotes`), and the exponent a scientific text prints
(`printedExponent`). Both are defined on any text, by the longest prefix of
digits and points; `denotes_fixedText` and `denotes_sciText` are the round trips.
-/

set_option autoImplicit false

namespace Nanoprintf

open Foundations

/-- The characters in front of an exponent. -/
def isMantissaChar (c : Char) : Bool := c.isDigit || c == '.'

/-- The number a run of digits denotes. -/
def readDigits (t : List Char) : ℕ := t.foldl (fun v c => 10 * v + (c.toNat - '0'.toNat)) 0

/-- The number digits around an optional point denote. -/
def readMantissa (t : List Char) : ℚ :=
  readDigits (t.filter Char.isDigit) / 10 ^ ((t.dropWhile Char.isDigit).length - 1)

/-- The exponent after its letter; without one, zero. -/
def readExponent : List Char → ℤ
  | _ :: sign :: digits => if sign == '-' then -readDigits digits else readDigits digits
  | _ => 0

/-- The part of a text in front of its exponent. -/
def mantissaPart (t : List Char) : List Char := t.takeWhile isMantissaChar

/-- The exponent of a text, with its letter. -/
def exponentPart (t : List Char) : List Char := t.dropWhile isMantissaChar

/-- The exponent that a text prints. -/
def printedExponent (t : List Char) : ℤ := readExponent (exponentPart t)

/-- The number that a text denotes. -/
def denotes (t : List Char) : ℚ := readMantissa (mantissaPart t) * 10 ^ printedExponent t

/-! ## Digits -/

theorem isDigit_digitChar {d : ℕ} (digit : d < 10) : (digitChar 0 d).isDigit = true := by
  interval_cases d <;> decide

theorem isDigit_digitText {n V : ℕ} {c : Char} (member : c ∈ digitText n V) :
    c.isDigit = true := by
  obtain ⟨d, inside, rfl⟩ := List.mem_map.mp member
  exact isDigit_digitChar (lowDigits_lt (by norm_num) inside)

theorem readDigits_append (s t : List Char) :
    readDigits (s ++ t) = readDigits s * 10 ^ t.length + readDigits t := by
  have step : ∀ (t : List Char) (v : ℕ), t.foldl (fun v c => 10 * v + (c.toNat - '0'.toNat)) v =
      v * 10 ^ t.length + t.foldl (fun v c => 10 * v + (c.toNat - '0'.toNat)) 0 := by
    intro t
    induction t with
    | nil => simp
    | cons c t ih =>
        intro v
        rw [List.foldl_cons, List.foldl_cons, ih, ih (10 * 0 + _), List.length_cons, pow_succ]
        ring
  rw [readDigits, List.foldl_append, step]
  rfl

theorem readDigits_digitText (n V : ℕ) : readDigits (digitText n V).reverse = V % 10 ^ n := by
  induction n generalizing V with
  | zero => simp [readDigits, Nat.mod_one]
  | succ n ih =>
      have digit : V % 10 < 10 := Nat.mod_lt V (by norm_num)
      rw [digitText_succ, List.reverse_cons, readDigits_append, ih, List.length_singleton, pow_one,
        readDigits, List.foldl_cons, List.foldl_nil, digitChar_toNat digit, pow_succ',
        Nat.mod_mul, show '0'.toNat = 48 from rfl]
      omega

theorem readDigits_numeralText (V : ℕ) : readDigits (numeralText 10 0 V).reverse = V := by
  rw [numeralText_eq, readDigits_digitText, Nat.mod_eq_of_lt (lt_pow_numeralLength (by norm_num) V)]

/-! ## The parts of a text -/

section

variable {digit : Char → Bool} {int frac : List Char} {point : Bool}
  (digits : ∀ c ∈ int, digit c = true) (digits' : ∀ c ∈ frac, digit c = true)

include digits digits' in
/-- A mantissa consists of digits and points. -/
theorem digit_or_point :
    ∀ c ∈ int ++ pointText point ++ frac, (digit c || c == '.') = true := by
  intro c member
  rcases List.mem_append.mp member with front | back
  · rcases List.mem_append.mp front with first | mark
    · rw [digits c first, Bool.true_or]
    · cases point with
      | false => simp [pointText] at mark
      | true =>
          obtain rfl := List.mem_singleton.mp mark
          rw [beq_self_eq_true, Bool.or_true]
  · rw [digits' c back, Bool.true_or]

variable (mark : digit '.' = false)
include digits mark

include digits' in
/-- The digits of a mantissa, without its point. -/
theorem filter_mantissa : (int ++ pointText point ++ frac).filter digit = int ++ frac := by
  rw [List.filter_append, List.filter_append, List.filter_eq_self.mpr digits,
    List.filter_eq_self.mpr digits']
  cases point <;> simp [pointText, mark]

/-- The places of a mantissa are behind its point. -/
theorem length_places (pointed : point = false → frac = []) :
    ((int ++ pointText point ++ frac).dropWhile digit).length - 1 = frac.length := by
  rw [List.append_assoc, List.dropWhile_append_of_pos digits]
  cases point with
  | false => rw [pointed rfl]; rfl
  | true => simp [pointText, mark]

end

/-- The digits of a fixed text, without a point. -/
theorem readMantissa_eq {int frac : List Char} {point : Bool} (digits : ∀ c ∈ int, c.isDigit = true)
    (digits' : ∀ c ∈ frac, c.isDigit = true) (pointed : point = false → frac = []) :
    readMantissa (int ++ pointText point ++ frac) =
      readDigits (int ++ frac) / 10 ^ frac.length := by
  rw [readMantissa, filter_mantissa digits digits' rfl, length_places digits rfl pointed]

/-- The letter of an exponent is neither a digit nor a point. -/
theorem letter_not_mantissa (caseAdj : ℕ) :
    isMantissaChar (Char.ofNat ('E'.toNat + caseAdj)) = false := by
  have code : (Char.ofNat (69 + caseAdj)).val.toNat = 69 + caseAdj ∨
      (Char.ofNat (69 + caseAdj)).val.toNat = 0 := by
    unfold Char.ofNat
    by_cases valid : (69 + caseAdj).isValidChar
    · rw [dif_pos valid]
      exact .inl rfl
    · rw [dif_neg valid]
      exact .inr rfl
  rw [isMantissaChar, Bool.or_eq_false_iff, beq_eq_false_iff_ne, show 'E'.toNat = 69 from rfl]
  constructor
  · rw [Char.isDigit]
    simp only [ge_iff_le, UInt32.le_iff_toNat_le, Bool.and_eq_false_iff, decide_eq_false_iff_not,
      show '0'.val.toNat = 48 from rfl, show '9'.val.toNat = 57 from rfl]
    omega
  · intro same
    rw [same, show '.'.val.toNat = 46 from rfl] at code
    omega

/-- A front of one kind of characters, and what another kind of character begins. -/
theorem split_eq {kind : Char → Bool} {front rest : List Char} (inner : ∀ c ∈ front, kind c = true)
    (outer : ∀ c ∈ rest.head?, kind c = false) :
    (front ++ rest).takeWhile kind = front ∧ (front ++ rest).dropWhile kind = rest := by
  rw [List.takeWhile_append_of_pos inner, List.dropWhile_append_of_pos inner]
  cases rest with
  | nil => simp
  | cons c rest =>
      have stop := outer c rfl
      simp [stop]

/-- A mantissa in front of an exponent, which may be missing. -/
theorem parts_eq {mantissa : List Char} (inner : ∀ c ∈ mantissa, isMantissaChar c = true)
    {exponent : List Char} (outer : ∀ c ∈ exponent.head?, isMantissaChar c = false) :
    mantissaPart (mantissa ++ exponent) = mantissa ∧
      exponentPart (mantissa ++ exponent) = exponent :=
  split_eq inner outer

/-! ## Round trips -/

theorem isDigit_numeralText {V : ℕ} {c : Char} (member : c ∈ (numeralText 10 0 V).reverse) :
    c.isDigit = true := by
  rw [numeralText_eq] at member
  exact isDigit_digitText (List.mem_reverse.mp member)

theorem isDigit_fraction {n V : ℕ} {c : Char} (member : c ∈ (digitText n V).reverse) :
    c.isDigit = true :=
  isDigit_digitText (List.mem_reverse.mp member)

/-- The leading digit of a numeral that does not fit one digit. -/
theorem head?_numeralText {base v : ℕ} (radix : 1 < base) (small : base ≤ 10) (nonzero : v ≠ 0)
    (caseAdj : ℕ) : (numeralText base caseAdj v).reverse.head? ≠ some '0' := by
  have positive := (Nat.digits_ne_nil_iff_ne_zero (b := base)).mpr nonzero
  have digit : (Nat.digits base v).getLast positive < 10 :=
    (Nat.digits_lt_base radix (List.getLast_mem _)).trans_le small
  have decimal : digitChar caseAdj ((Nat.digits base v).getLast positive) =
      digitChar 0 ((Nat.digits base v).getLast positive) := by
    rw [digitChar, digitChar, if_pos digit, if_pos digit]
  rw [List.head?_reverse, numeralText, numeral, if_neg nonzero, List.getLast?_map,
    List.getLast?_eq_getLast_of_ne_nil positive, Option.map_some, ne_eq, Option.some_inj,
    decimal, ← digitChar_zero]
  exact fun same => Nat.getLast_digit_ne_zero base nonzero (digitChar_inj digit (by norm_num) same)

/-- A fixed text denotes its multiple of the last place. -/
theorem denotes_fixedText {T q : ℕ} {point : Bool} (pointed : point = false → q = 0) :
    denotes (fixedText T q point) = T / 10 ^ q := by
  obtain ⟨mantissa, exponent⟩ := @parts_eq (fixedText T q point)
    (digit_or_point (fun _ => isDigit_numeralText) (fun _ => isDigit_fraction)) []
    (by simp)
  rw [List.append_nil] at mantissa exponent
  rw [denotes, printedExponent, exponent, mantissa, fixedText,
    readMantissa_eq (fun _ => isDigit_numeralText) (fun _ => isDigit_fraction)
      (fun plain => by rw [pointed plain]; rfl), readDigits_append, readDigits_numeralText,
    readDigits_digitText, List.length_reverse, length_digitText, Nat.div_add_mod']
  simp [readExponent]

theorem readExponent_exponentText (caseAdj : ℕ) (x : ℤ) :
    readExponent (exponentText caseAdj x) = x := by
  have digits : readDigits ((if x.natAbs < 10 then ['0'] else []) ++
      (numeralText 10 0 x.natAbs).reverse) = x.natAbs := by
    rw [readDigits_append, readDigits_numeralText]
    split_ifs <;> simp [readDigits]
  rw [exponentText, List.append_assoc, List.cons_append, List.cons_append, List.nil_append,
    readExponent, digits]
  by_cases negative : x < 0
  · rw [if_pos negative, if_pos (by rfl)]
    omega
  · rw [if_neg negative, if_neg (by decide)]
    omega

/-- The two parts of a scientific text. -/
theorem parts_sciText {n p : ℕ} (x : ℤ) (point : Bool) (caseAdj : ℕ) (small : n < 10 ^ (p + 1)) :
    mantissaPart (sciText n p x point caseAdj) =
        [digitChar 0 (n / 10 ^ p)] ++ pointText point ++ (digitText p n).reverse ∧
      exponentPart (sciText n p x point caseAdj) = exponentText caseAdj x := by
  have first : n / 10 ^ p < 10 := by
    rw [Nat.div_lt_iff_lt_mul (by positivity), ← pow_succ']
    exact small
  have split : sciText n p x point caseAdj =
      [digitChar 0 (n / 10 ^ p)] ++ pointText point ++ (digitText p n).reverse ++
        exponentText caseAdj x := rfl
  rw [split]
  refine parts_eq (digit_or_point ?_ fun _ => isDigit_fraction) ?_
  · intro c member
    obtain rfl := List.mem_singleton.mp member
    exact isDigit_digitChar first
  · intro c member
    obtain rfl := Option.some.inj member
    exact letter_not_mantissa caseAdj

/-- A scientific text prints its exponent. -/
theorem printedExponent_sciText {n p : ℕ} (x : ℤ) (point : Bool) (caseAdj : ℕ)
    (small : n < 10 ^ (p + 1)) : printedExponent (sciText n p x point caseAdj) = x := by
  rw [printedExponent, (parts_sciText x point caseAdj small).2, readExponent_exponentText]

/-- A scientific text denotes its digits at its exponent. -/
theorem denotes_sciText {n p : ℕ} (x : ℤ) {point : Bool} (caseAdj : ℕ) (small : n < 10 ^ (p + 1))
    (pointed : point = false → p = 0) :
    denotes (sciText n p x point caseAdj) = n / 10 ^ p * 10 ^ x := by
  have first : n / 10 ^ p < 10 := by
    rw [Nat.div_lt_iff_lt_mul (by positivity), ← pow_succ']
    exact small
  have lead : readDigits [digitChar 0 (n / 10 ^ p)] = n / 10 ^ p := by
    rw [readDigits, List.foldl_cons, List.foldl_nil, digitChar_toNat first,
      show '0'.toNat = 48 from rfl, Nat.mul_zero, Nat.zero_add, Nat.add_sub_cancel_left]
  rw [denotes, printedExponent_sciText x point caseAdj small,
    (parts_sciText x point caseAdj small).1, readMantissa_eq (by
      intro c member
      obtain rfl := List.mem_singleton.mp member
      exact isDigit_digitChar first) (fun _ => isDigit_fraction)
      (fun plain => by rw [pointed plain]; rfl), readDigits_append, lead, readDigits_digitText,
    List.length_reverse, length_digitText, Nat.div_add_mod']

end Nanoprintf
