import Mathlib.Data.List.TakeWhile
import Nanoprintf.Arguments
import Nanoprintf.RealText
import Nanoprintf.Saturation

/-!
# Reals in fields

A field is padded without a look at the text: the sign and the prefix are known
apart from the digits, and a negative length says that there are none. Seen from
outside, where a real is printed without a field first, its text is taken apart
instead. `npfVpprintf_field` says that this is the same, since no text of a number
starts like a word or has a second `0x`.
-/

set_option autoImplicit false

namespace Nanoprintf

open Foundations

variable {cfg : Config}

/-! ## Texts of numbers -/

/-- A text that starts with a digit and has no letter of a prefix in it. -/
structure IsNumeral (t : List Char) : Prop where
  starts : ∃ c s, t = c :: s ∧ c.isDigit = true
  lower : 'x' ∉ t
  upper : 'X' ∉ t

/-- No letter of a prefix is among digits and the point. -/
theorem isMantissaChar_x : isMantissaChar 'x' = false ∧ isMantissaChar 'X' = false := ⟨rfl, rfl⟩

/-- A mantissa in front of something without the letters of a prefix. -/
theorem isNumeral_append {mantissa rest : List Char}
    (starts : ∃ c s, mantissa = c :: s ∧ c.isDigit = true)
    (inner : ∀ c ∈ mantissa, isMantissaChar c = true) (lower : 'x' ∉ rest) (upper : 'X' ∉ rest) :
    IsNumeral (mantissa ++ rest) where
  starts := by
    obtain ⟨c, s, rfl, digit⟩ := starts
    exact ⟨c, s ++ rest, rfl, digit⟩
  lower member := by
    rcases List.mem_append.mp member with front | back
    · exact absurd ((inner _ front).symm.trans isMantissaChar_x.1) (by decide)
    · exact lower back
  upper member := by
    rcases List.mem_append.mp member with front | back
    · exact absurd ((inner _ front).symm.trans isMantissaChar_x.2) (by decide)
    · exact upper back

theorem numeralText_starts (V : ℕ) :
    ∃ c s, (numeralText 10 0 V).reverse = c :: s ∧ c.isDigit = true := by
  have nonempty : (numeralText 10 0 V).reverse ≠ [] := by
    rw [ne_eq, ← List.length_eq_zero_iff, List.length_reverse, length_numeralText]
    exact (numeralLength_pos 10 V).ne'
  obtain ⟨c, s, shape⟩ := List.exists_cons_of_ne_nil nonempty
  exact ⟨c, s, shape, isDigit_numeralText (V := V) (shape ▸ List.mem_cons_self)⟩

theorem isNumeral_fixedText (T q : ℕ) (point : Bool) : IsNumeral (fixedText T q point) := by
  obtain ⟨c, s, shape, digit⟩ := numeralText_starts (T / 10 ^ q)
  have whole := @isNumeral_append (fixedText T q point) []
    ⟨c, s ++ (pointText point ++ (digitText q T).reverse), by rw [fixedText, shape]; simp, digit⟩
    (digit_or_point (fun _ => isDigit_numeralText) fun _ => isDigit_fraction) nofun nofun
  rwa [List.append_nil] at whole

/-- Digits behind a letter and a sign. -/
theorem not_mem_exponentText {caseAdj : ℕ} (letterCase : caseAdj = 0 ∨ caseAdj = 32) (x : ℤ)
    {c : Char} (letter : c = 'x' ∨ c = 'X') : c ∉ exponentText caseAdj x := by
  have digits : c ∉ (numeralText 10 0 x.natAbs).reverse := by
    intro member
    have digit := isDigit_numeralText member
    rcases letter with rfl | rfl <;> exact absurd digit (by decide)
  rw [exponentText, List.mem_append, not_or]
  refine ⟨?_, digits⟩
  rcases letter with rfl | rfl <;> rcases letterCase with rfl | rfl <;> split_ifs <;> decide

theorem isNumeral_sciText {n p caseAdj : ℕ} (letterCase : caseAdj = 0 ∨ caseAdj = 32) (x : ℤ)
    (point : Bool) (small : n < 10 ^ (p + 1)) : IsNumeral (sciText n p x point caseAdj) := by
  have first : n / 10 ^ p < 10 := by
    rw [Nat.div_lt_iff_lt_mul (by positivity), ← pow_succ']
    exact small
  have lead : ∀ c ∈ [digitChar 0 (n / 10 ^ p)], c.isDigit = true := by
    intro c member
    obtain rfl := List.mem_singleton.mp member
    exact isDigit_digitChar first
  exact @isNumeral_append ([digitChar 0 (n / 10 ^ p)] ++ pointText point ++ (digitText p n).reverse)
    (exponentText caseAdj x) ⟨_, _, rfl, isDigit_digitChar first⟩
    (digit_or_point lead fun _ => isDigit_fraction)
    (not_mem_exponentText letterCase x (.inl rfl)) (not_mem_exponentText letterCase x (.inr rfl))

/-- Zeros are removed behind the first digit. -/
theorem stripFraction_cons {c : Char} (digit : c.isDigit = true) (m : List Char) :
    ∃ s, stripFraction (c :: m) = c :: s ∧ ∀ e ∈ s, e ∈ m := by
  by_cases pointed : '.' ∈ c :: m
  · have inside : '.' ∈ m := by
      rcases List.mem_cons.mp pointed with same | inside
      · rw [← same] at digit
        exact absurd digit (by decide)
      · exact inside
    -- the zeros at the end stop at the point at the latest
    have stops : m.reverse.dropWhile (· == '0') ≠ [] := by
      intro empty
      have zeros := List.dropWhile_eq_nil_iff.mp empty '.' (List.mem_reverse.mpr inside)
      exact absurd zeros (by decide)
    obtain ⟨e, kept, shape⟩ := List.exists_cons_of_ne_nil stops
    have among : ∀ a ∈ e :: kept, a ∈ m := by
      intro a member
      rw [← shape] at member
      exact List.mem_reverse.mp ((List.dropWhile_suffix _).subset member)
    have whole : (c :: m).reverse.dropWhile (· == '0') = e :: (kept ++ [c]) := by
      rw [List.reverse_cons, List.dropWhile_append, shape]
      rfl
    rw [stripFraction, if_pos pointed, whole]
    split
    · next int same =>
        obtain ⟨-, rfl⟩ := List.cons.inj same
        refine ⟨kept.reverse, by simp, fun a member => ?_⟩
        exact among a (List.mem_cons_of_mem _ (List.mem_reverse.mp member))
    · refine ⟨(e :: kept).reverse, by simp, fun a member => ?_⟩
      exact among a (List.mem_reverse.mp member)
  · exact ⟨m, if_neg pointed, fun _ => id⟩

/-- A shortened text is one of a number if the text is. -/
theorem IsNumeral.shorten {t : List Char} (numeral : IsNumeral t) (alt : Bool) :
    IsNumeral (shorten alt t) := by
  cases alt with
  | true => exact numeral
  | false =>
      obtain ⟨⟨c, s, rfl, digit⟩, lower, upper⟩ := numeral
      have mantissa : isMantissaChar c = true := by
        rw [isMantissaChar, digit, Bool.true_or]
      have first : mantissaPart (c :: s) = c :: s.takeWhile isMantissaChar :=
        List.takeWhile_cons_of_pos mantissa
      obtain ⟨kept, stripped, among⟩ := stripFraction_cons digit (s.takeWhile isMantissaChar)
      have text : Nanoprintf.shorten false (c :: s) = c :: (kept ++ exponentPart (c :: s)) := by
        rw [Nanoprintf.shorten, if_neg Bool.false_ne_true, stripZeros, first, stripped,
          List.cons_append]
      have subset : ∀ e ∈ Nanoprintf.shorten false (c :: s), e ∈ c :: s := by
        intro e member
        rw [text, List.mem_cons, List.mem_append] at member
        rcases member with same | front | back
        · exact same ▸ List.mem_cons_self
        · exact List.mem_cons_of_mem _ ((List.takeWhile_prefix _).subset (among e front))
        · exact (List.dropWhile_suffix _).subset back
      exact ⟨⟨c, _, text, digit⟩, fun member => lower (subset _ member),
        fun member => upper (subset _ member)⟩

section

variable {caseAdj : ℕ} (letterCase : caseAdj = 0 ∨ caseAdj = 32)
include letterCase

theorem isNumeral_scientificText (m : Machine) (tail : Bool) (p : ℕ) (point : Bool) :
    IsNumeral (scientificText m (m.value cfg) tail p point caseAdj) := by
  rw [scientificText]
  split_ifs
  · exact isNumeral_sciText letterCase _ point (droppedRound_lt m tail p _)
  · exact isNumeral_sciText letterCase _ point
      (sciRound_bounds p (Machine.Valid.value_nonneg m)).1

/-- What the conversion by digits and exponent leaves is the text of a number, unless it is an
error. -/
theorem isNumeral_etoaText {f : RealBits cfg} {conv : ConvSpec} {P : ℕ} {alt : Bool}
    {t : List Char} (text : etoaText cfg f conv P alt caseAdj = some t) : IsNumeral t := by
  have scientific := fun p => @isNumeral_scientificText cfg caseAdj letterCase (machineOf cfg f)
    (integerTail cfg f) p
  unfold etoaText at text
  split at text
  · obtain rfl := Option.some.inj text
    exact isNumeral_fixedText _ _ _
  · split_ifs at text
    obtain rfl := Option.some.inj text
    exact scientific P _
  · split_ifs at text
    obtain rfl := Option.some.inj text
    rw [shortestText]
    split_ifs
    · exact (isNumeral_fixedText _ _ _).shorten alt
    · exact (scientific (max P 1 - 1) _).shorten alt
  · cases text

end

/-! ## Words -/

/-- The texts of a value that is no number, and of a number that finds no room. -/
def realWords : List (List Char) :=
  ["nan".toList, "inf".toList, "err".toList, "NAN".toList, "INF".toList, "ERR".toList]

theorem inCase_mem_realWords {caseAdj : ℕ} (letterCase : caseAdj = 0 ∨ caseAdj = 32)
    {word : List Char} (upper : word ∈ realWords.drop 3) : inCase caseAdj word ∈ realWords := by
  have three : word = "NAN".toList ∨ word = "INF".toList ∨ word = "ERR".toList := by
    simpa [realWords] using upper
  rcases letterCase with rfl | rfl <;> rcases three with rfl | rfl | rfl <;> decide

/-! ## What a float conversion leaves -/

/-- The letter of the prefix, the length and the digits that a conversion leaves. -/
inductive Printed : Char → ℤ → List Char → Prop
  | hex {letter : Char} {len : ℤ} {digits : List Char} (letter_x : letter = 'x' ∨ letter = 'X')
      (nonneg : 0 ≤ len) : Printed letter len digits
  | decimal {len : ℤ} {digits : List Char} (numeral : IsNumeral digits) (nonneg : 0 ≤ len) :
      Printed NUL len digits
  | word {len : ℤ} {digits : List Char} (member : digits ∈ realWords) (negative : len < 0) :
      Printed NUL len digits

/-- A decimal conversion leaves a text that can be read from the buffer. -/
def LeavesPrinted (run : Run (ℤ × ConvBuffer cfg)) : Prop :=
  ∃ len b digits, run = .ok (len, b) ∧ readDown b len.natAbs = .ok digits ∧ Printed NUL len digits

section

variable {run : Run (ℤ × ConvBuffer cfg)} {caseAdj : ℕ}

theorem Leaves.printed {t : List Char} (leaves : Leaves run t) (fits : t.length ≤ cfg.cbuf)
    (numeral : IsNumeral t) : LeavesPrinted run := by
  obtain ⟨b, rfl, holds⟩ := leaves
  exact ⟨t.length, b, t, rfl, readDown_eq holds fits, .decimal numeral (Int.natCast_nonneg _)⟩

theorem LeavesWord.printed {word : List Char} (leaves : LeavesWord run word)
    (member : word ∈ realWords) : LeavesPrinted run := by
  have room := cfg.cbuf_ge
  have length : word.length = 3 := by
    simp only [realWords, List.mem_cons, List.not_mem_nil, or_false] at member
    rcases member with rfl | rfl | rfl | rfl | rfl | rfl <;> rfl
  obtain ⟨b, rfl, holds⟩ := leaves
  refine ⟨-(word.length : ℤ), b, word, rfl, ?_, .word member (by omega)⟩
  rw [Int.natAbs_neg, Int.natAbs_natCast]
  exact readDown_eq holds (by omega)

variable (letterCase : caseAdj = 0 ∨ caseAdj = 32)
include letterCase

theorem LeavesWord.printed_err (leaves : LeavesWord run (errWord caseAdj)) : LeavesPrinted run :=
  leaves.printed (inCase_mem_realWords letterCase (by decide))

theorem npfFtoaSpecial_printed (buf : ConvBuffer cfg) (nan : Prop) [Decidable nan] :
    LeavesPrinted (npfFtoaSpecial buf caseAdj (if nan then npfFtoaNan else npfFtoaInf)) := by
  refine (npfFtoaSpecial_word buf caseAdj nan).printed (inCase_mem_realWords letterCase ?_)
  split_ifs <;> decide

end

section

variable {spec : NpfFormatSpec} (letterCase : spec.caseAdjust = 0 ∨ spec.caseAdjust = 32)
include letterCase

theorem npfFtoaRev_printed (buf : ConvBuffer cfg) (prec : ℕ) (f : RealBits cfg) :
    LeavesPrinted (npfFtoaRev cfg buf spec prec f) := by
  by_cases finite : IsFinite cfg (asRead cfg f)
  · rcases npfFtoaRev_finite finite spec prec buf with ⟨word, -⟩ | ⟨room, leaves⟩
    · exact word.printed_err letterCase
    · exact leaves.printed room.text_fits (isNumeral_fixedText _ _ _)
  · rw [npfFtoaRev_special finite]
    exact npfFtoaSpecial_printed letterCase _ _

theorem npfEtoaRev_printed (buf : ConvBuffer cfg) {prec : ℕ} (f : RealBits cfg)
    (compiled : Decimal cfg spec.convSpec) (precision : npfDecPrec cfg spec = prec) :
    LeavesPrinted (npfEtoaRev cfg buf spec f) := by
  by_cases finite : IsFinite cfg (asRead cfg f)
  · have leaves := npfEtoaRev_text (f := f) finite compiled precision buf
    rcases text : etoaText cfg (asRead cfg f) spec.convSpec prec (alternate cfg spec)
      spec.caseAdjust with - | t
    · rw [text] at leaves
      exact LeavesWord.printed_err letterCase leaves
    · rw [text] at leaves
      rcases leaves with ⟨fits, leaves⟩ | ⟨-, word⟩
      · exact leaves.printed fits (isNumeral_etoaText letterCase text)
      · exact word.printed_err letterCase
  · rw [npfEtoaRev_special finite]
    exact npfFtoaSpecial_printed letterCase _ _

/-- **Every float conversion leaves a text**, and its length is negative exactly for a word. -/
theorem floatRun_printed (real : IsReal cfg spec.convSpec)
    (nonneg : cfg.precision = true → 0 ≤ spec.prec) (val : RealBits cfg) :
    ∃ c len b digits, floatRun cfg spec val = .ok (c, len, b) ∧
      readDown b len.natAbs = .ok digits ∧ Printed c len digits := by
  rcases floatRun_cases real nonneg val with
    ⟨text, b, run, holds, short⟩ | ⟨P, conv, prec, compiled, run⟩
  · refine ⟨_, _, b, _, run, readDown_eq holds short, .hex ?_ (Int.natCast_nonneg _)⟩
    rcases letterCase with upper | lower
    · exact .inr (by rw [upper]; rfl)
    · exact .inl (by rw [lower]; rfl)
  · have leaves : LeavesPrinted (if cfg.useSci then
        npfEtoaRev cfg .blank { spec with convSpec := conv } val
        else npfFtoaRev cfg .blank spec P val) := by
      split_ifs
      · exact @npfEtoaRev_printed cfg { spec with convSpec := conv } letterCase _ P val compiled
          prec
      · exact npfFtoaRev_printed letterCase _ _ _
    obtain ⟨len, b, digits, done, read, printed⟩ := leaves
    refine ⟨NUL, len, b, digits, ?_, read, printed⟩
    rw [run, done]
    rfl

end

/-! ## A text taken apart -/

/-- The characters that stand for a sign. -/
def isSign (c : Char) : Bool := c == '-' || c == '+' || c == ' '

/-- A text behind its sign. -/
def unsigned : List Char → List Char
  | [] => []
  | c :: t => if isSign c then t else c :: t

/-- The length of the prefix of a text without a sign. -/
def hexPrefixLength : List Char → ℕ
  | '0' :: c :: _ => if c = 'x' ∨ c = 'X' then 2 else 0
  | _ => 0

/-- The length of the sign and the prefix of a text. -/
def headLength (t : List Char) : ℕ :=
  t.length - (unsigned t).length + hexPrefixLength (unsigned t)

/-- The text of a number and not a word, whatever the sign. -/
def isNumber (t : List Char) : Bool := decide (unsigned t ∉ realWords)

/-- A text in a field of `w`, as it looks from outside. -/
def inField (w : ℕ) (left zero : Bool) (t : List Char) : List Char :=
  if w ≤ t.length then t
  else if left then t ++ List.replicate (w - t.length) ' '
  else if zero && isNumber t then
    t.take (headLength t) ++ List.replicate (w - t.length) '0' ++ t.drop (headLength t)
  else List.replicate (w - t.length) ' ' ++ t

/-- The characters in front of a number: a sign, a flag's character, or nothing. -/
def IsSignC (c : Char) : Prop := c = NUL ∨ isSign c = true

theorem unsigned_signText {c : Char} (sign : IsSignC c) {body : List Char}
    (first : ∀ e ∈ body.head?, isSign e = false) : unsigned (signText c ++ body) = body := by
  by_cases blank : c = NUL
  · rw [blank, signText, if_neg (not_not.mpr rfl), List.nil_append]
    cases body with
    | nil => rfl
    | cons e body => rw [unsigned, if_neg (by simp [first e rfl])]
  · rw [signText, if_pos blank, List.singleton_append, unsigned, if_pos (sign.resolve_left blank)]

/-- The parts of a text that its sign is known of. -/
theorem headLength_signText {c : Char} (sign : IsSignC c) {body : List Char}
    (first : ∀ e ∈ body.head?, isSign e = false) :
    headLength (signText c ++ body) = (signText c).length + hexPrefixLength body := by
  rw [headLength, unsigned_signText sign first, List.length_append, Nat.add_sub_cancel]

/-- No word starts like a number or a sign. -/
theorem realWords_head :
    ∀ t ∈ realWords, ∀ c ∈ t.head?, isSign c = false ∧ c.isDigit = false := by
  intro t member c head
  have all : (realWords.all fun t => t.head?.all fun c => !isSign c && !c.isDigit) = true := by
    decide
  have first := List.all_eq_true.mp all t member
  rw [Option.mem_def.mp head] at first
  simpa using first

theorem not_isSign_of_isDigit {c : Char} (digit : c.isDigit = true) : isSign c = false := by
  cases sign : isSign c with
  | false => rfl
  | true =>
      have three : c = '-' ∨ c = '+' ∨ c = ' ' := by simpa [isSign, or_assoc] using sign
      rcases three with rfl | rfl | rfl <;> exact absurd digit (by decide)

theorem hexPrefixLength_of_not_mem {t : List Char} (lower : 'x' ∉ t) (upper : 'X' ∉ t) :
    hexPrefixLength t = 0 := by
  unfold hexPrefixLength
  split
  · refine if_neg fun letter_x => ?_
    rcases letter_x with rfl | rfl
    · exact lower (by simp)
    · exact upper (by simp)
  · rfl

/-- **The text of a real shows what its conversion knows**: whether it is a number, and where its
digits start. -/
theorem Printed.parts {c need0x : Char} (sign : IsSignC c) {len : ℤ} {digits : List Char}
    (printed : Printed need0x len digits) :
    isNumber (signText c ++ prefixText need0x ++ digits) = decide (0 ≤ len) ∧
      (0 ≤ len → headLength (signText c ++ prefixText need0x ++ digits) =
        (signText c ++ prefixText need0x).length) := by
  rw [List.append_assoc]
  cases printed with
  | hex letter_x nonneg =>
      have shown : prefixText need0x = ['0', need0x] := by
        rcases letter_x with rfl | rfl <;> rfl
      have first : ∀ e ∈ (prefixText need0x ++ digits).head?, isSign e = false := by
        intro e member
        rw [shown] at member
        obtain rfl := Option.some.inj member
        rfl
      constructor
      · rw [isNumber, unsigned_signText sign first, shown, decide_eq_true nonneg,
          decide_eq_true_iff]
        simp [realWords]
      · rintro -
        rw [headLength_signText sign first, shown, List.length_append]
        congr 1
        exact if_pos letter_x
  | decimal numeral nonneg =>
      obtain ⟨⟨d, s, rfl, digit⟩, lower, upper⟩ := numeral
      have noPrefix : prefixText NUL = [] := rfl
      have first : ∀ e ∈ (d :: s).head?, isSign e = false := by
        intro e member
        obtain rfl := Option.some.inj member
        exact not_isSign_of_isDigit digit
      rw [noPrefix, List.nil_append, List.append_nil]
      constructor
      · rw [isNumber, unsigned_signText sign first, decide_eq_true nonneg, decide_eq_true_iff]
        intro member
        exact absurd digit (by rw [(realWords_head _ member d rfl).2]; decide)
      · rintro -
        rw [headLength_signText sign first, hexPrefixLength_of_not_mem lower upper, Nat.add_zero]
  | word member negative =>
      have noPrefix : prefixText NUL = [] := rfl
      have first : ∀ e ∈ digits.head?, isSign e = false := fun e head =>
        (realWords_head digits member e head).1
      rw [noPrefix, List.nil_append]
      constructor
      · rw [isNumber, unsigned_signText sign first, decide_eq_false (not_le.mpr negative),
          decide_eq_false_iff_not, not_not]
        exact member
      · intro nonneg
        exact absurd nonneg (not_le.mpr negative)

/-- A field that is padded by parts is one that is padded as a text. -/
theorem padField_eq_inField (w : ℕ) (left zero : Bool) {number : Bool} {head body : List Char}
    (kind : isNumber (head ++ body) = number)
    (split : number = true → headLength (head ++ body) = head.length) :
    padField w left (zero && number) head body = inField w left zero (head ++ body) := by
  unfold inField
  split_ifs with full justified zeros
  · exact padField_of_le (by rwa [← List.length_append]) _ _
  · rw [padField, if_pos justified, List.length_append]
  · rw [kind] at zeros
    have numeric : number = true := by
      rw [Bool.and_eq_true] at zeros
      exact zeros.2
    rw [padField, if_neg justified, if_pos zeros, split numeric, List.take_left, List.drop_left,
      List.length_append]
  · rw [kind] at zeros
    rw [padField, if_neg justified, if_neg zeros, List.length_append, List.append_assoc]

/-! ## Requests -/

/-- The request without a field. -/
def Request.bare (r : Request) : Request := { r with width := 0, left := false, zero := false }

/-- The text of a real in a field is its text without one, in that field. -/
theorem realText_inField {r : Request} (real : IsReal cfg r.convSpec)
    (letterCase : r.caseAdjust = 0 ∨ r.caseAdjust = 32) (prepend : IsSignC r.prepend)
    (val : RealBits cfg) :
    ∃ t, realText cfg r.bare val = .ok t ∧
      realText cfg r val = .ok (inField r.width r.left r.zero t) := by
  obtain ⟨c, len, b, digits, run, read, printed⟩ := @floatRun_printed cfg r.realSpec letterCase
    real (fun _ => Int.natCast_nonneg _) val
  obtain ⟨signC, signC_eq⟩ : ∃ signC, signC =
    if npfRealToIntRep cfg val >>> (cfg.realBits - 1) ≠ 0 then '-' else r.prepend := ⟨_, rfl⟩
  have sign : IsSignC signC := by
    rw [signC_eq]
    split_ifs
    · exact .inr rfl
    · exact prepend
  obtain ⟨number, head⟩ := printed.parts sign
  have field := padField_eq_inField r.width r.left r.zero number fun shown =>
    head (of_decide_eq_true shown)
  have unfielded : realText cfg r.bare val = .ok (signText signC ++ prefixText c ++ digits) := by
    have spec : r.bare.realSpec = r.realSpec := rfl
    have unpadded := @padField_of_le 0 (signText signC ++ prefixText c) digits (Nat.zero_le _) false
      (false && decide (0 ≤ len))
    rw [← unpadded, signC_eq, realText, spec, run]
    simp only [bind, Except.bind, read]
    rfl
  refine ⟨_, unfielded, ?_⟩
  rw [← field, signC_eq, realText, run]
  simp only [bind, Except.bind, read]
  rfl

/-! ## Directives -/

/-- The directive without a width and without the flags `-` and `0`. -/
def Directive.bare (d : Directive) : Directive :=
  { d with
    flags := d.flags.filter fun f => !(f == .minus || f == .zero)
    width := .digits [] }

namespace Directive

variable {d : Directive}

theorem bare_enabled (on : d.enabled cfg = true) : d.bare.enabled cfg = true := by
  simp only [Directive.enabled, Bool.and_eq_true, List.all_eq_true] at on ⊢
  obtain ⟨⟨⟨⟨flags, -⟩, precision⟩, length⟩, conversion⟩ := on
  exact ⟨⟨⟨⟨fun f member => flags f (List.mem_of_mem_filter member), rfl⟩, precision⟩, length⟩,
    conversion⟩

theorem bare_greedy (d : Directive) : d.bare.Greedy := by
  intro ds same
  obtain rfl := WidthPart.digits.inj same
  simp

theorem mem_bare_flags {f : Flag} (other : f ≠ .minus ∧ f ≠ .zero) :
    f ∈ d.bare.flags ↔ f ∈ d.flags := by
  simp [Directive.bare, List.mem_filter, other.1, other.2]

/-- The request of a directive without its field. -/
theorem request_bare (d : Directive) (w : ℕ) (negative : Bool) (precision : Option ℕ) :
    (d.request cfg w negative precision).bare = d.bare.request cfg 0 false precision := by
  have minus : Flag.minus ∉ d.bare.flags := by simp [Directive.bare, List.mem_filter]
  have zero : Flag.zero ∉ d.bare.flags := by simp [Directive.bare, List.mem_filter]
  have plus := @mem_bare_flags d .plus (by decide)
  have space := @mem_bare_flags d .space (by decide)
  have hash := @mem_bare_flags d .hash (by decide)
  have prepend : d.bare.prepend = d.prepend := by
    simp only [Directive.prepend, plus, space]
  simp only [Directive.request, Request.bare, minus, zero, hash, prepend, decide_false,
    Bool.or_false]
  rfl

theorem isSignC_prepend (d : Directive) : IsSignC d.prepend := by
  unfold Directive.prepend
  split_ifs
  · exact .inr rfl
  · exact .inr rfl
  · exact .inl rfl

end Directive

theorem Conversion.caseAdjust_cases (conv : Conversion) :
    conv.caseAdjust = 0 ∨ conv.caseAdjust = 32 := by
  rcases conv with - | ⟨l, - | -⟩
  · exact .inr rfl
  · exact .inr rfl
  · exact .inl rfl

/-- How a directive asks for a field of `w`, with the arguments that this takes: by a number in the
format, or by an `int` whose sign may ask for left justification. -/
inductive AsksWidth (cfg : Config) : WidthPart → List Arg → ℕ → Bool → Prop
  | digits (ds : List (Fin 10)) : AsksWidth cfg (.digits ds) [] (literalNumber cfg ds) false
  | star (v : BitVec cfg.intBits) :
      AsksWidth cfg .star [.int cfg.intBits v] v.toInt.natAbs (decide (v.toInt < 0))

theorem resolveWidth_asked {part : WidthPart} {taken : List Arg} {w : ℕ} {negative : Bool}
    (asked : AsksWidth cfg part taken w negative) (under : (w : ℤ) ≤ cfg.fmtNumMax)
    (rest : List Arg) : resolveWidth cfg part (taken ++ rest) = .ok (w, negative, rest) := by
  have ceiling : min w cfg.fmtNumMax.toNat = w := min_eq_left (by omega)
  cases asked with
  | digits ds => rw [resolveWidth, ceiling, List.nil_append]
  | star v =>
      rw [resolveWidth, List.singleton_append, vaInt, if_pos rfl, BitVec.setWidth_eq]
      simp only [bind, Except.bind, pure, Except.pure, ceiling]

/-! ## Arguments of the right types -/

section

variable {args : List Arg} {kinds : List ArgType}

theorem exists_vaInt {bits : ℕ}
    (typed : List.Forall₂ (Arg.HasType cfg) args (.int bits :: kinds)) :
    ∃ v rest, vaInt bits args = .ok (v, rest) ∧ List.Forall₂ (Arg.HasType cfg) rest kinds := by
  cases typed with
  | @cons a _ rest _ kind typed =>
      cases a with
      | int b v => exact ⟨_, rest, if_pos kind, typed⟩
      | ptr | double | longDouble | npfFloat => exact kind.elim

theorem exists_vaReal {lm : LengthModifier}
    (typed : List.Forall₂ (Arg.HasType cfg) args (.real lm :: kinds)) :
    ∃ v rest, vaReal cfg lm args = .ok (v, rest) ∧ List.Forall₂ (Arg.HasType cfg) rest kinds := by
  cases typed with
  | @cons a _ rest _ kind typed =>
      cases a with
      | int | ptr => exact kind.elim
      | double rep =>
          exact ⟨_, rest, if_pos (by simpa [Arg.HasType] using kind), typed⟩
      | longDouble rep =>
          exact ⟨_, rest, if_pos (by simpa [Arg.HasType] using kind), typed⟩
      | npfFloat rep => exact ⟨_, rest, if_pos kind, typed⟩

theorem exists_resolvePrecision_typed {p : PrecisionPart}
    (typed : List.Forall₂ (Arg.HasType cfg) args (p.argTypes cfg ++ kinds)) :
    ∃ precision rest, resolvePrecision cfg p args = .ok (precision, rest) ∧
      List.Forall₂ (Arg.HasType cfg) rest kinds := by
  rcases p with - | - | ⟨_ | _, ds⟩
  · exact ⟨_, args, rfl, typed⟩
  · obtain ⟨v, rest, run, typed⟩ := exists_vaInt typed
    refine ⟨if v.toInt < 0 then none else some (min v.toInt.toNat cfg.fmtNumMax.toNat), rest, ?_,
      typed⟩
    rw [resolvePrecision, run]
    rfl
  · exact ⟨_, args, rfl, typed⟩
  · exact ⟨_, args, rfl, typed⟩

end

/-! ## The engine -/

/-- **Fields of reals.** For every argument, precision, sign and `#`, the text of a float conversion
with a width is its text without one and without `-` and `0`, put in the field from outside. A
width that is written in digits is the number that they denote. -/
theorem npfVpprintf_field {d : Directive} (on : d.enabled cfg = true) (greedy : d.Greedy)
    (float : d.conversion.convSpec ∈ [ConvSpec.floatDec, .floatHex, .floatSci, .floatShortest])
    {taken : List Arg} {w : ℕ} {negative : Bool} (asked : AsksWidth cfg d.width taken w negative)
    (under : (w : ℤ) ≤ cfg.fmtNumMax) {args : List Arg}
    (typed : List.Forall₂ (Arg.HasType cfg) args (d.bare.argTypes cfg)) (fs fs' : NpfFormatSpec) :
    ∃ t, (npfVpprintf cfg record [] (d.bare.text ++ [NUL]) args fs).map (fun out => out.2.1) =
        .ok t ∧
      (npfVpprintf cfg record [] (d.text ++ [NUL]) (taken ++ args) fs').map
        (fun out => out.2.1) =
          .ok (inField w (decide (Flag.minus ∈ d.flags) || negative) (decide (Flag.zero ∈ d.flags))
            t) ∧
      ∀ ds, d.width = .digits ds → cfg.intMax = 32767 ∨ cfg.intMax = 2147483647 →
        cfg.cbuf ≤ 65280 → (decimalValue ds : ℤ) ≤ cfg.fmtNumMax → w = decimalValue ds := by
  have kinds :
      d.bare.argTypes cfg = d.precision.argTypes cfg ++ [.real (d.length.modifier cfg)] := by
    simp only [List.mem_cons, List.not_mem_nil, or_false] at float
    simp only [Directive.argTypes, Directive.bare, WidthPart.argTypes, List.nil_append]
    rcases float with kind | kind | kind | kind <;> rw [kind] <;> rfl
  rw [kinds] at typed
  obtain ⟨precision, middle, precisionRun, typed⟩ := exists_resolvePrecision_typed typed
  obtain ⟨val, rest, valueRun, -⟩ := exists_vaReal typed
  have real : IsReal cfg d.conversion.convSpec :=
    (Directive.compiled on).real (by
      simpa only [List.mem_cons, List.not_mem_nil, or_false] using float)
  -- both directives answer a request for the same real
  have answered : ∀ (r : Request), r.convSpec = d.conversion.convSpec →
      r.lengthModifier = d.length.modifier cfg → ∀ t, realText cfg r val = .ok t →
      answer cfg r middle = .ok ⟨t, [], rest⟩ := by
    intro r spec modifier t text
    simp only [List.mem_cons, List.not_mem_nil, or_false] at float
    unfold answer
    rw [spec, modifier]
    rcases float with kind | kind | kind | kind <;> rw [kind] <;>
      simp only [valueRun, bind, Except.bind, text, pure, Except.pure]
  obtain ⟨t, bare, field⟩ := @realText_inField cfg (d.request cfg w negative precision) real
    (Conversion.caseAdjust_cases d.conversion) (d.isSignC_prepend) val
  have zeroUnder : ((0 : ℕ) : ℤ) ≤ cfg.fmtNumMax := by
    have bounds := fmtNumMax_bounds cfg
    omega
  refine ⟨t, ?_, ?_, fun ds digits target buffer below => ?_⟩
  · rw [d.request_bare] at bare
    rw [npfVpprintf_directive (Directive.bare_enabled on) d.bare_greedy, Piece.format, resolve]
    have width : resolveWidth cfg d.bare.width args = .ok (0, false, args) :=
      resolveWidth_asked (AsksWidth.digits []) zeroUnder args
    have same : d.bare.precision = d.precision := rfl
    rw [width, same]
    simp only [bind, Except.bind, precisionRun, pure, Except.pure, answered _ rfl rfl _ bare,
      Except.map]
  · rw [npfVpprintf_directive on greedy, Piece.format, resolve,
      resolveWidth_asked asked under]
    simp only [bind, Except.bind, precisionRun, pure, Except.pure, answered _ rfl rfl _ field,
      Except.map]
    rfl
  · rw [digits] at asked
    cases asked with
    | digits ds => exact literalNumber_of_le target buffer below

/-- `%+08.0f` with a negative zero. -/
theorem npfVpprintf_field_zero :
    (npfVpprintf .standard record [] ("%+08.0f".toList ++ [NUL]) [.double 0x8000000000000000]
      .zeroed).map (fun out => out.2.1) = .ok "-0000000".toList := by
  obtain ⟨t, bare, field, -⟩ := @npfVpprintf_field .standard
    ⟨[.plus, .zero], .digits [8], .literal false [0], .none, .letter .f false⟩ (by decide)
    (by decide) (by decide) [] 8 false (.digits [8]) (by decide) [.double 0x8000000000000000]
    (.cons ⟨rfl, .inr (by decide)⟩ .nil) .zeroed .zeroed
  have shown : "-0".toList = t := Except.ok.inj bare
  rw [← shown] at field
  exact field

end Nanoprintf
