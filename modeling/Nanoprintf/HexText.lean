import Nanoprintf.DecimalReading

/-!
# Hexadecimal notation

The text of a number in hexadecimal digits and a power of two, in reading order,
and its reading: the number a text denotes (`denotesHex`) and the exponent it
prints (`hexExponent`). `HexForm` is the shape that such a text has.
-/

set_option autoImplicit false

namespace Nanoprintf

open Foundations

/-! ## Writing -/

/-- The characters of the `n` low hexadecimal digits of `V`, units first. -/
def hexDigitText (caseAdj n V : ℕ) : List Char := (lowDigits 16 n V).map (digitChar caseAdj)

/-- An exponent of two: a sign and as many digits as it takes. -/
def powerText (caseAdj : ℕ) (x : ℤ) : List Char :=
  [Char.ofNat ('P'.toNat + caseAdj), if x < 0 then '-' else '+'] ++
    (numeralText 10 0 x.natAbs).reverse

/-- `V / 16 ^ n * 2 ^ x`, for a `V` of `n + 1` digits. -/
def hexText (V n : ℕ) (x : ℤ) (point : Bool) (caseAdj : ℕ) : List Char :=
  digitChar 0 (V / 16 ^ n) :: pointText point ++ (hexDigitText caseAdj n V).reverse ++
    powerText caseAdj x

@[simp] theorem length_hexDigitText (caseAdj n V : ℕ) : (hexDigitText caseAdj n V).length = n := by
  rw [hexDigitText, List.length_map, length_lowDigits]

theorem hexDigitText_succ (caseAdj n V : ℕ) :
    hexDigitText caseAdj (n + 1) V =
      digitChar caseAdj (V % 16) :: hexDigitText caseAdj n (V / 16) := by
  rw [hexDigitText, lowDigits_succ, List.map_cons, hexDigitText]

/-- The text from its end, as a conversion composes it. -/
theorem hexText_reverse (V n : ℕ) (x : ℤ) (point : Bool) (caseAdj : ℕ) :
    (hexText V n x point caseAdj).reverse =
      numeralText 10 0 x.natAbs ++ [if x < 0 then '-' else '+'] ++
        [Char.ofNat ('P'.toNat + caseAdj)] ++ hexDigitText caseAdj n V ++ pointText point ++
        [digitChar 0 (V / 16 ^ n)] := by
  simp [hexText, powerText]

/-! ## Reading -/

def isHexDigit (c : Char) : Bool := c.isDigit || (97 ≤ (c.toNat ||| 32) && (c.toNat ||| 32) ≤ 102)

def hexDigitValue (c : Char) : ℕ := if c.isDigit then c.toNat - 48 else (c.toNat ||| 32) - 87

/-- The number a run of hexadecimal digits denotes. -/
def readHexDigits (t : List Char) : ℕ := t.foldl (fun v c => 16 * v + hexDigitValue c) 0

/-- The number hexadecimal digits around an optional point denote. -/
def readHexMantissa (t : List Char) : ℚ :=
  readHexDigits (t.filter isHexDigit) / 16 ^ ((t.dropWhile isHexDigit).length - 1)

/-- The characters in front of an exponent of two. -/
def isHexMantissaChar (c : Char) : Bool := isHexDigit c || c == '.'

/-- The exponent of two that a text prints. -/
def hexExponent (t : List Char) : ℤ := readExponent (t.dropWhile isHexMantissaChar)

/-- The number that a hexadecimal text denotes. -/
def denotesHex (t : List Char) : ℚ :=
  readHexMantissa (t.takeWhile isHexMantissaChar) * 2 ^ hexExponent t

section

variable {caseAdj : ℕ} (letterCase : caseAdj = 0 ∨ caseAdj = 32)
include letterCase

theorem isHexDigit_digitChar {d : ℕ} (digit : d < 16) :
    isHexDigit (digitChar caseAdj d) = true ∧ hexDigitValue (digitChar caseAdj d) = d := by
  rcases letterCase with rfl | rfl <;> interval_cases d <;> decide

theorem isHexDigit_hexDigitText {n V : ℕ} {c : Char}
    (member : c ∈ (hexDigitText caseAdj n V).reverse) : isHexDigit c = true := by
  obtain ⟨d, inside, rfl⟩ := List.mem_map.mp (List.mem_reverse.mp member)
  exact (isHexDigit_digitChar letterCase (lowDigits_lt (by norm_num) inside)).1

theorem readHexDigits_hexDigitText (n V a : ℕ) :
    (hexDigitText caseAdj n V).reverse.foldl (fun v c => 16 * v + hexDigitValue c) a =
      a * 16 ^ n + V % 16 ^ n := by
  induction n generalizing V with
  | zero => simp [hexDigitText, Nat.mod_one]
  | succ n ih =>
      have digit : V % 16 < 16 := Nat.mod_lt V (by norm_num)
      rw [hexDigitText_succ, List.reverse_cons, List.foldl_append, ih, List.foldl_cons,
        List.foldl_nil, (isHexDigit_digitChar letterCase digit).2, pow_succ', Nat.mod_mul]
      ring

/-- A hexadecimal text prints its exponent and denotes its digits at it. -/
theorem denotesHex_hexText {V n : ℕ} (x : ℤ) {point : Bool} (lead : V / 16 ^ n < 10)
    (pointed : point = false → n = 0) :
    hexExponent (hexText V n x point caseAdj) = x ∧
      denotesHex (hexText V n x point caseAdj) = V / 16 ^ n * 2 ^ x := by
  have first := isHexDigit_digitChar (.inl rfl) (show V / 16 ^ n < 16 by omega)
  have int : ∀ c ∈ [digitChar 0 (V / 16 ^ n)], isHexDigit c = true := fun c member => by
    rw [List.mem_singleton.mp member]
    exact first.1
  have frac : ∀ c ∈ (hexDigitText caseAdj n V).reverse, isHexDigit c = true := fun c =>
    isHexDigit_hexDigitText letterCase
  have text : hexText V n x point caseAdj =
      ([digitChar 0 (V / 16 ^ n)] ++ pointText point ++ (hexDigitText caseAdj n V).reverse) ++
        powerText caseAdj x := rfl
  obtain ⟨front, back⟩ := @split_eq isHexMantissaChar _ (powerText caseAdj x)
    (digit_or_point int frac) (by
      rcases letterCase with rfl | rfl <;> simp [powerText] <;> decide)
  have power : readExponent (powerText caseAdj x) = x := by
    rw [powerText, List.cons_append, List.cons_append, List.nil_append, readExponent,
      readDigits_numeralText]
    by_cases negative : x < 0
    · rw [if_pos negative, if_pos (by rfl)]
      omega
    · rw [if_neg negative, if_neg (by decide)]
      omega
  have exponent : hexExponent (hexText V n x point caseAdj) = x := by
    rw [hexExponent, text, back, power]
  refine ⟨exponent, ?_⟩
  rw [denotesHex, exponent, text, front, readHexMantissa, filter_mantissa int frac rfl,
    length_places int rfl fun plain => by rw [pointed plain]; rfl, readHexDigits,
    List.singleton_append, List.foldl_cons, readHexDigits_hexDigitText letterCase, first.2,
    Nat.mul_zero, Nat.zero_add, Nat.div_add_mod', List.length_reverse, length_hexDigitText]

end

/-! ## The grammar -/

/-- `D[.h…h]p(+|-)E` with `n` digits behind the point. -/
inductive HexForm (n : ℕ) (point : Bool) : List Char → Prop
  | mk {lead letter sign : Char} {fraction exponent : List Char}
      (low : lead = '0' ∨ lead = '1' ∨ lead = '2')
      (digits : ∀ c ∈ fraction, isHexDigit c = true)
      (length : fraction.length = n)
      (letter_p : letter = 'p' ∨ letter = 'P')
      (plus_minus : sign = '+' ∨ sign = '-')
      (nonempty : exponent ≠ [])
      (decimal : ∀ c ∈ exponent, c.isDigit = true)
      (minimal : 1 < exponent.length → exponent.head? ≠ some '0') :
      HexForm n point (lead :: pointText point ++ fraction ++ letter :: sign :: exponent)

theorem hexForm_hexText {V n caseAdj : ℕ} (x : ℤ) (point : Bool) (low : V / 16 ^ n ≤ 2)
    (letterCase : caseAdj = 0 ∨ caseAdj = 32) :
    HexForm n point (hexText V n x point caseAdj) := by
  have text : hexText V n x point caseAdj =
      digitChar 0 (V / 16 ^ n) :: pointText point ++ (hexDigitText caseAdj n V).reverse ++
        Char.ofNat ('P'.toNat + caseAdj) :: (if x < 0 then '-' else '+') ::
          (numeralText 10 0 x.natAbs).reverse := rfl
  rw [text]
  refine .mk ?_ (fun c => isHexDigit_hexDigitText letterCase) ?_ ?_ ?_ ?_
    (fun c => isDigit_numeralText) fun long => ?_
  · interval_cases V / 16 ^ n <;> decide
  · rw [List.length_reverse, length_hexDigitText]
  · rcases letterCase with rfl | rfl
    · exact .inr rfl
    · exact .inl rfl
  · rcases lt_or_ge x 0 with negative | nonneg
    · exact .inr (if_pos negative)
    · exact .inl (if_neg (by omega))
  · rw [ne_eq, List.reverse_eq_nil_iff, ← List.length_eq_zero_iff, length_numeralText]
    exact (numeralLength_pos 10 _).ne'
  · rw [List.length_reverse, length_numeralText] at long
    refine head?_numeralText (by norm_num) le_rfl ?_ 0
    by_contra small
    rw [numeralLength, numeral_of_lt (by omega)] at long
    exact absurd long (lt_irrefl 1)

end Nanoprintf
