import Mathlib.Data.List.DropRight
import Nanoprintf.Features
import Nanoprintf.IntegerText
import Nanoprintf.RealFields
import Nanoprintf.RealPatterns
import Nanoprintf.Soundness

/-!
# Printing and scanning

What is printed can be read again. `scanBack` reads a text by the format it was printed
with: a directive for an integer as `strtol` reads a number in its base, one for
hexadecimal digits of a real as `strtod` does, and white space as `scanf` does, wherever
it stands. It finds the arguments: an integer reduced to the type its directive names,
an address, and of a real every bit.
-/

set_option autoImplicit false

namespace Nanoprintf

open Foundations

variable {cfg : Config}

/-! ## The scanner -/

/-- The value of a digit in any base up to 36, and 36 for other characters. -/
def digitOf (c : Char) : ℕ :=
  if c.isDigit then c.toNat - 48 else if c.isAlpha then (c.toNat ||| 32) - 87 else 36

def scanSpaces (t : List Char) : List Char := t.dropWhile Char.isWhitespace

def scanSign : List Char → Bool × List Char
  | '-' :: t => (true, t)
  | '+' :: t => (false, t)
  | t => (false, t)

/-- The prefix that a number may have in base 16 or 2. -/
def scanPrefix (base : ℕ) : List Char → List Char
  | '0' :: c :: t =>
    if base = 16 ∧ (c = 'x' ∨ c = 'X') ∨ base = 2 ∧ (c = 'b' ∨ c = 'B') then t else '0' :: c :: t
  | t => t

/-- A sign and a prefix behind white space. -/
def scanHead (base : ℕ) (t : List Char) : Bool × List Char :=
  let (negative, t) := scanSign (scanSpaces t)
  (negative, scanPrefix base t)

def scanDigits (base : ℕ) (t : List Char) : ℕ := t.foldl (fun v c => base * v + digitOf c) 0

/-- A number behind white space, and what follows it. -/
def scanNumber (base : ℕ) (t : List Char) : ℤ × List Char :=
  let (negative, t) := scanHead base t
  let v : ℤ := scanDigits base (t.takeWhile (digitOf · < base))
  (if negative then -v else v, t.dropWhile (digitOf · < base))

/-- Hexadecimal digits with an exponent, and what follows them. -/
def scanHex (t : List Char) : ℚ × List Char :=
  let exponent := t.dropWhile isHexMantissaChar
  (denotesHex (t.takeWhile isHexMantissaChar ++ exponent.take 2 ++
      (exponent.drop 2).takeWhile Char.isDigit),
    (exponent.drop 2).dropWhile Char.isDigit)

def numberBase : ConvSpec → ℕ
  | .binary => 2
  | .octal => 8
  | .hexInt => 16
  | .pointer => 16
  | _ => 10

/-- What a directive prints. -/
inductive Value (cfg : Config) where
  | int (v : ℤ)
  | real (f : RealBits cfg)
  deriving DecidableEq

/-- The value behind white space, and what follows it. -/
def scanField (cfg : Config) (conv : ConvSpec) (t : List Char) : Value cfg × List Char :=
  if conv = .floatHex then
    let (negative, t) := scanHead 16 t
    let (x, rest) := scanHex t
    (.real (realOf cfg negative x), rest)
  else
    let (v, rest) := scanNumber (numberBase conv) t
    (.int v, rest)

/-- The values that a text printed with a format shows. -/
def scanBack (cfg : Config) : List Piece → List Char → Option (List (Value cfg))
  | [], t => if scanSpaces t = [] then some [] else none
  | .literal c :: ps, t =>
    if c.isWhitespace then scanBack cfg ps t
    else if (scanSpaces t).head? = some c then scanBack cfg ps (scanSpaces t).tail else none
  | .directive d :: ps, t =>
    let (v, rest) := scanField cfg d.conversion.convSpec t
    (scanBack cfg ps rest).map (v :: ·)

/-! ## Digits -/

/-- Digits of a base whose number is `v`. -/
structure Digital (base v : ℕ) (t : List Char) : Prop where
  nonempty : t ≠ []
  digits : ∀ c ∈ t, digitOf c < base
  value : scanDigits base t = v

section

variable {base : ℕ} {caseAdj : ℕ} (letterCase : caseAdj = 0 ∨ caseAdj = 32)

include letterCase in
theorem digitOf_digitChar {d : ℕ} (digit : d < 16) : digitOf (digitChar caseAdj d) = d := by
  rcases letterCase with rfl | rfl <;> interval_cases d <;> decide

theorem scanDigits_zero (t : List Char) : scanDigits base ('0' :: t) = scanDigits base t := by
  rw [scanDigits, List.foldl_cons, show digitOf '0' = 0 from by decide, mul_zero, add_zero,
    scanDigits]

/-- Zeros in front change nothing. -/
theorem Digital.zeros {v : ℕ} {t : List Char} (digital : Digital base v t) (n : ℕ) :
    Digital base v (List.replicate n '0' ++ t) := by
  induction n with
  | zero => exact digital
  | succ n ih =>
      have positive : digitOf '0' < base :=
        (show digitOf '0' = 0 from by decide) ▸ by
          obtain ⟨c, rest, rfl⟩ := List.exists_cons_of_ne_nil digital.nonempty
          exact Nat.zero_lt_of_lt (digital.digits c List.mem_cons_self)
      rw [List.replicate_succ, List.cons_append]
      refine ⟨List.cons_ne_nil _ _, fun c member => ?_, (scanDigits_zero _).trans ih.value⟩
      rcases List.mem_cons.mp member with rfl | later
      · exact positive
      · exact ih.digits c later

include letterCase in
/-- A numeral. -/
theorem digital_numeralText (radix : 1 < base) (small : base ≤ 16) (v : ℕ) :
    Digital base v (numeralText base caseAdj v).reverse := by
  have digits : ∀ d ∈ numeral base v, d < base := by
    intro d member
    rw [numeral] at member
    split_ifs at member with zero
    · rw [List.mem_singleton.mp member]
      omega
    · exact Nat.digits_lt_base radix member
  refine ⟨?_, fun c member => ?_, ?_⟩
  · rw [Ne, List.reverse_eq_nil_iff, ← List.length_eq_zero_iff, length_numeralText]
    exact (numeralLength_pos base v).ne'
  · obtain ⟨d, inside, rfl⟩ := List.mem_map.mp (List.mem_reverse.mp member)
    have less := digits d inside
    rwa [digitOf_digitChar letterCase (by omega)]
  · have value : Nat.ofDigits base (numeral base v) = v := by
      rw [numeral]
      split_ifs with zero
      · rw [zero]
        rfl
      · exact Nat.ofDigits_digits base v
    rw [scanDigits, List.foldl_reverse, numeralText, List.foldr_map]
    have folded : ∀ ds : List ℕ, (∀ d ∈ ds, d < base) →
        ds.foldr (fun d v => base * v + digitOf (digitChar caseAdj d)) 0 =
          Nat.ofDigits base ds := by
      intro ds
      induction ds with
      | nil => exact fun _ => rfl
      | cons d ds ih =>
          intro inside
          have less := inside d List.mem_cons_self
          rw [List.foldr_cons, ih fun d' later => inside d' (List.mem_cons_of_mem _ later),
            digitOf_digitChar letterCase (by omega), Nat.ofDigits_cons, Nat.add_comm]
    rw [folded _ digits, value]

end

/-! ## The text of an integer -/

instance (conv : ConvSpec) : Decidable (OfInteger conv) :=
  inferInstanceAs (Decidable (conv ∈ [ConvSpec.signedInt, .binary, .octal, .hexInt, .unsignedInt]))

/-- The conversions that print an integer. -/
def ShowsInteger (conv : ConvSpec) : Prop := OfInteger conv ∨ conv = .pointer

theorem ShowsInteger.not_hex {conv : ConvSpec} (integer : ShowsInteger conv) :
    conv ≠ .floatHex := by
  rintro rfl
  revert integer
  simp [ShowsInteger, OfInteger]

section

variable {r : Request} (integer : ShowsInteger r.convSpec)
  (letterCase : r.caseAdjust = 0 ∨ r.caseAdjust = 32)

include integer in
theorem base_eq : r.base = numberBase r.convSpec ∧ 1 < r.base ∧ r.base ≤ 16 := by
  simp only [ShowsInteger, OfInteger, List.mem_cons, List.not_mem_nil, or_false] at integer
  rw [Request.base]
  rcases integer with (kind | kind | kind | kind | kind) | kind <;> rw [kind] <;>
    exact ⟨rfl, by norm_num, by norm_num⟩

include integer letterCase in
/-- The digits of an integer, unless the precision hides a zero. -/
theorem digital_digits (default : ℕ) {v : ℕ} (shown : ¬ (v = 0 ∧ r.precision = some 0)) :
    Digital r.base v (r.digits default v) := by
  obtain ⟨-, radix, small⟩ := base_eq integer
  by_cases leading : r.convSpec = .octal ∧ r.alt = true ∧ v ≠ 0
  · obtain ⟨octal, alt, nonzero⟩ := leading
    have eight : r.base = 8 := by rw [Request.base, octal]
    rw [Request.digits_octal _ _ octal alt nonzero, Request.zeroExtend, eight]
    exact ((digital_numeralText letterCase (by norm_num) (by norm_num) v).zeros 1).zeros _
  · rw [Request.digits_numeral _ _ shown fun octal alt => by
      by_contra nonzero
      exact leading ⟨octal, alt, nonzero⟩, Request.zeroExtend]
    exact (digital_numeralText letterCase radix small v).zeros _

end

/-! ## A number -/

/-- Digits end at characters that are neither digits nor letters. -/
def Ends (t : List Char) : Prop := ∀ c ∈ t.head?, digitOf c = 36

theorem isWhitespace_of_digit {c : Char} (digit : digitOf c < 36) : c.isWhitespace = false := by
  by_contra space
  rw [Bool.not_eq_false, Char.isWhitespace, Bool.or_eq_true, Bool.or_eq_true, Bool.or_eq_true]
    at space
  rcases space with ((space | space) | space) | space <;>
    · rw [of_decide_eq_true space] at digit
      exact absurd digit (by decide)

theorem scanSpaces_of_digit {c : Char} (digit : digitOf c < 36) (t : List Char) :
    scanSpaces (c :: t) = c :: t :=
  List.dropWhile_cons_of_neg (by rw [isWhitespace_of_digit digit]; simp)

theorem scanSpaces_replicate (n : ℕ) (t : List Char) :
    scanSpaces (List.replicate n ' ' ++ t) = scanSpaces t := by
  rw [scanSpaces, List.dropWhile_append_of_pos (by simp +decide), scanSpaces]

/-- A number without a prefix. -/
theorem scanPrefix_digits {base v : ℕ} (small : base ≤ 16) {body rest : List Char}
    (digital : Digital base v body) (ends : Ends rest) :
    scanPrefix base (body ++ rest) = body ++ rest := by
  have second : ∀ c ∈ (body ++ rest).tail.head?, digitOf c < base ∨ digitOf c = 36 := by
    obtain ⟨d, ds, rfl⟩ := List.exists_cons_of_ne_nil digital.nonempty
    intro c member
    cases ds with
    | nil => exact .inr (ends c member)
    | cons d' ds =>
        obtain rfl := Option.some.inj member
        exact .inl (digital.digits _ (List.mem_cons_of_mem _ List.mem_cons_self))
  rw [scanPrefix.eq_def]
  split
  · next c t same =>
      rw [same] at second ⊢
      have kind := second c rfl
      refine if_neg ?_
      rintro (⟨rfl, rfl | rfl⟩ | ⟨rfl, rfl | rfl⟩) <;> exact absurd kind (by decide)
  · rfl

/-- The letters of the prefixes. -/
def IsPrefixLetter (base : ℕ) (letter : Char) : Prop :=
  letter = NUL ∨ base = 16 ∧ (letter = 'x' ∨ letter = 'X') ∨
    base = 2 ∧ (letter = 'b' ∨ letter = 'B')

theorem scanPrefix_prefixText {base v : ℕ} (small : base ≤ 16) {letter : Char}
    (known : IsPrefixLetter base letter) {body rest : List Char}
    (digital : Digital base v body) (ends : Ends rest) :
    scanPrefix base (prefixText letter ++ (body ++ rest)) = body ++ rest := by
  rcases known with rfl | known
  · rw [prefixText, if_neg (not_not.mpr rfl), List.nil_append]
    exact scanPrefix_digits small digital ends
  · have lettered : letter ≠ NUL := by
      rcases known with ⟨-, rfl | rfl⟩ | ⟨-, rfl | rfl⟩ <;> decide
    rw [prefixText, if_pos lettered]
    exact if_pos known

/-- A sign and a prefix are scanned, to the digits behind them. -/
theorem scanHead_text {base n : ℕ} {c letter d : Char} (sign : IsSignC c) {body t : List Char}
    (shape : prefixText letter ++ body = d :: t) (digit : digitOf d < 36)
    (unprefixed : scanPrefix base (d :: t) = body) :
    scanHead base (List.replicate n ' ' ++ (signText c ++ (prefixText letter ++ body))) =
      (decide (c = '-'), body) := by
  have unsigned : scanSign (d :: t) = (false, d :: t) := by
    rw [scanSign.eq_def]
    split
    · next same =>
        obtain ⟨rfl, -⟩ := List.cons.inj same
        exact absurd digit (by decide)
    · next same =>
        obtain ⟨rfl, -⟩ := List.cons.inj same
        exact absurd digit (by decide)
    · rfl
  have signed : scanSign (scanSpaces (signText c ++ d :: t)) = (decide (c = '-'), d :: t) := by
    rcases sign with rfl | sign
    · rw [signText, if_neg (by decide), List.nil_append, scanSpaces_of_digit digit, unsigned]
      rfl
    · rw [isSign, Bool.or_eq_true, Bool.or_eq_true] at sign
      rcases sign with (minus | plus) | blank
      · rw [eq_of_beq minus]
        rfl
      · rw [eq_of_beq plus]
        rfl
      · rw [eq_of_beq blank]
        exact (congrArg scanSign (scanSpaces_of_digit digit t)).trans unsigned
  rw [scanHead, scanSpaces_replicate, shape, signed]
  exact congrArg (decide (c = '-'), ·) unprefixed

/-- **A number is scanned** with its sign and its prefix, up to what ends it. -/
theorem scanNumber_text {base v n : ℕ} (small : base ≤ 16) {c letter : Char} (sign : IsSignC c)
    (known : IsPrefixLetter base letter) {body rest : List Char} (digital : Digital base v body)
    (ends : Ends rest) :
    scanNumber base
        (List.replicate n ' ' ++ (signText c ++ (prefixText letter ++ (body ++ rest)))) =
      (if c = '-' then -(v : ℤ) else v, rest) := by
  have unprefixed := scanPrefix_prefixText small known digital ends
  have parts := @split_eq (digitOf · < base) body rest
    (fun c' inside => decide_eq_true (digital.digits c' inside))
    (fun c' outside => by
      have stop := ends c' outside
      simp only [decide_eq_false_iff_not]
      omega)
  obtain ⟨d, t, shape, digit⟩ :
      ∃ d t, prefixText letter ++ (body ++ rest) = d :: t ∧ digitOf d < 36 := by
    obtain ⟨d, ds, rfl⟩ := List.exists_cons_of_ne_nil digital.nonempty
    rw [prefixText]
    split_ifs
    · exact ⟨_, _, rfl, by decide⟩
    · have below := digital.digits d List.mem_cons_self
      exact ⟨_, _, rfl, by omega⟩
  rw [shape] at unprefixed
  rw [scanNumber, scanHead_text sign shape digit unprefixed]
  simp only [parts.1, parts.2, digital.value, decide_eq_true_eq]

/-! ## Hexadecimal digits -/

theorem denotesHex_zero (t : List Char) : denotesHex ('0' :: t) = denotesHex t := by
  have mantissa : isHexMantissaChar '0' = true := rfl
  have digit : isHexDigit '0' = true := rfl
  have leadingZero : ∀ ds : List Char, readHexDigits ('0' :: ds) = readHexDigits ds := fun ds => rfl
  rw [denotesHex, denotesHex, hexExponent, hexExponent, List.takeWhile_cons_of_pos mantissa,
    List.dropWhile_cons_of_pos mantissa, readHexMantissa, readHexMantissa,
    List.filter_cons_of_pos digit, List.dropWhile_cons_of_pos digit, leadingZero]

theorem scanPrefix_hex {letter : Char} (hex : letter = 'x' ∨ letter = 'X') (t : List Char) :
    prefixText letter ++ t = '0' :: letter :: t ∧ scanPrefix 16 ('0' :: letter :: t) = t := by
  have lettered : letter ≠ NUL := by
    rcases hex with rfl | rfl <;> decide
  exact ⟨by rw [prefixText, if_pos lettered]; rfl, if_pos (.inl ⟨rfl, hex⟩)⟩

/-- A hexadecimal text is scanned, behind zeros that fill its field. -/
theorem scanHex_hexText {caseAdj : ℕ} (letterCase : caseAdj = 0 ∨ caseAdj = 32) {V n : ℕ} (x : ℤ)
    {point : Bool} (lead : V / 16 ^ n < 10) (pointed : point = false → n = 0) (z : ℕ)
    {rest : List Char} (ends : Ends rest) :
    scanHex (List.replicate z '0' ++ hexText V n x point caseAdj ++ rest) =
      ((V : ℚ) / 16 ^ n * 2 ^ x, rest) := by
  have zeros : ∀ t, denotesHex (List.replicate z '0' ++ t) = denotesHex t := by
    intro t
    induction z with
    | zero => rfl
    | succ z ih => rw [List.replicate_succ, List.cons_append, denotesHex_zero, ih]
  have int : ∀ c ∈ List.replicate z '0' ++ [digitChar 0 (V / 16 ^ n)], isHexDigit c = true := by
    intro c member
    rcases List.mem_append.mp member with padded | member
    · rw [List.eq_of_mem_replicate padded]
      rfl
    · rw [List.mem_singleton.mp member]
      exact (isHexDigit_digitChar (.inl rfl) (show V / 16 ^ n < 16 by omega)).1
  have frac : ∀ c ∈ (hexDigitText caseAdj n V).reverse, isHexDigit c = true := fun c =>
    isHexDigit_hexDigitText letterCase
  obtain ⟨mantissa, text⟩ : ∃ mantissa, mantissa =
      (List.replicate z '0' ++ [digitChar 0 (V / 16 ^ n)]) ++ pointText point ++
        (hexDigitText caseAdj n V).reverse := ⟨_, rfl⟩
  have inner : ∀ c ∈ mantissa, isHexMantissaChar c = true := by
    rw [text]
    exact digit_or_point int frac
  obtain ⟨front, back⟩ := @split_eq _ _ (powerText caseAdj x ++ rest) inner (by
    rcases letterCase with rfl | rfl <;> simp [powerText] <;> decide)
  obtain ⟨digits, left⟩ := @split_eq Char.isDigit (numeralText 10 0 x.natAbs).reverse rest
    (fun c => isDigit_numeralText) (fun c member => by
      by_contra digit
      rw [Bool.not_eq_false] at digit
      have stop := ends c member
      rw [digitOf, if_pos digit] at stop
      have most : c.toNat ≤ 57 := of_decide_eq_true (Bool.and_eq_true_iff.mp digit).2
      omega)
  have behind : (powerText caseAdj x ++ rest).drop 2 =
      (numeralText 10 0 x.natAbs).reverse ++ rest := rfl
  have parts : List.replicate z '0' ++ hexText V n x point caseAdj ++ rest =
      mantissa ++ (powerText caseAdj x ++ rest) := by
    simp [text, hexText]
  have whole : mantissa ++ (powerText caseAdj x ++ rest).take 2 ++
        (numeralText 10 0 x.natAbs).reverse =
      List.replicate z '0' ++ hexText V n x point caseAdj := by
    simp [text, hexText, powerText]
  rw [scanHex, parts]
  simp only [front, back, behind, digits, left, whole, zeros,
    (denotesHex_hexText letterCase x lead pointed).2]

/-! ## A field -/

theorem padField_parts (width : ℕ) (left zero : Bool) (head body : List Char) :
    ∃ a z b, padField width left zero head body =
      List.replicate a ' ' ++ (head ++ (List.replicate z '0' ++ body ++ List.replicate b ' ')) := by
  unfold padField
  generalize width - (head.length + body.length) = pad
  split_ifs
  · exact ⟨0, 0, pad, by simp⟩
  · exact ⟨0, pad, 0, by simp⟩
  · exact ⟨pad, 0, 0, by simp⟩

theorem ends_replicate (b : ℕ) {rest : List Char} (ends : Ends rest) :
    Ends (List.replicate b ' ' ++ rest) := by
  cases b with
  | zero => exact ends
  | succ b =>
      intro c member
      obtain rfl := Option.some.inj member
      decide

/-- The text of an integer is scanned to the padding behind it. -/
theorem scanNumber_integer {r : Request} (integer : ShowsInteger r.convSpec)
    (letterCase : r.caseAdjust = 0 ∨ r.caseAdjust = 32) {c : Char} (sign : IsSignC c) (default : ℕ)
    {v : ℕ} (shown : ¬ (v = 0 ∧ r.precision = some 0)) {rest : List Char} (ends : Ends rest) :
    ∃ b, scanNumber (numberBase r.convSpec) (r.integer default c v ++ rest) =
      (if c = '-' then -(v : ℤ) else v, List.replicate b ' ' ++ rest) := by
  obtain ⟨base, -, small⟩ := base_eq integer
  have known : IsPrefixLetter r.base (r.prefixLetter v) := by
    rw [Request.prefixLetter]
    by_cases asked : v ≠ 0 ∧ r.alt = true
    · rw [if_pos asked, Request.base]
      rcases r.convSpec <;> first | exact .inl rfl | skip
      · rcases letterCase with adj | adj <;> rw [adj]
        · exact .inr (.inr ⟨rfl, .inr rfl⟩)
        · exact .inr (.inr ⟨rfl, .inl rfl⟩)
      all_goals
        rcases letterCase with adj | adj <;> rw [adj]
        · exact .inr (.inl ⟨rfl, .inr rfl⟩)
        · exact .inr (.inl ⟨rfl, .inl rfl⟩)
    · exact .inl (if_neg asked)
  obtain ⟨a, z, b, parts⟩ := padField_parts r.width r.left (r.zeroFills v)
    (signText c ++ prefixText (r.prefixLetter v)) (r.digits default v)
  refine ⟨b, ?_⟩
  have scanned := scanNumber_text (n := a) small sign known
    ((digital_digits integer letterCase default shown).zeros z) (ends_replicate b ends)
  rw [Request.integer, parts, ← base, ← scanned]
  simp only [List.append_assoc]

/-! ## The arguments -/

/-- The number that a directive prints: its argument, reduced to the type that the directive
names. -/
def Directive.number (cfg : Config) (d : Directive) {n : ℕ} (v : BitVec n) : ℤ :=
  if d.conversion.convSpec = .signedInt then (v.setWidth (d.length.bits cfg)).toInt
  else (v.setWidth (d.length.bits cfg)).toNat

/-- What a directive prints of its arguments can be scanned: of an integer no zero that a
precision hides, of a real a finite one with as many digits as it takes. -/
inductive Tells (cfg : Config) (d : Directive) (args : List Arg) : Value cfg → List Arg → Prop
  | integer {rest : List Arg} {r : Request} {v : BitVec (max cfg.intBits (d.length.bits cfg))}
      (kind : OfInteger d.conversion.convSpec)
      (resolved : resolve cfg d args = .ok (r, .int _ v :: rest))
      (shown : ¬ (d.number cfg v = 0 ∧ r.precision = some 0)) :
      Tells cfg d args (.int (d.number cfg v)) rest
  | pointer {rest : List Arg} {r : Request} {a : ℕ} {memory : List Char}
      (kind : d.conversion.convSpec = .pointer)
      (resolved : resolve cfg d args = .ok (r, .ptr a memory :: rest))
      (shown : ¬ (a % 2 ^ cfg.uintBits = 0 ∧ r.precision = some 0)) :
      Tells cfg d args (.int (a % 2 ^ cfg.uintBits : ℕ)) rest
  | real {args' rest : List Arg} {r : Request} {f : RealBits cfg}
      (kind : d.conversion.convSpec = .floatHex) (resolved : resolve cfg d args = .ok (r, args'))
      (read : vaReal cfg r.lengthModifier args' = .ok (f, rest)) (finite : IsFinite cfg f)
      (precise : 13 ≤ r.realPrecision) : Tells cfg d args (.real f) rest

/-- The values that the arguments show. -/
inductive Carries (cfg : Config) : List Piece → List Arg → List (Value cfg) → Prop
  | done (unused : List Arg) : Carries cfg [] unused []
  | literal {c : Char} {ps : List Piece} {args : List Arg} {vs : List (Value cfg)}
      (more : Carries cfg ps args vs) : Carries cfg (.literal c :: ps) args vs
  | directive {d : Directive} {ps : List Piece} {args rest : List Arg} {v : Value cfg}
      {vs : List (Value cfg)} (tells : Tells cfg d args v rest) (more : Carries cfg ps rest vs) :
      Carries cfg (.directive d :: ps) args (v :: vs)

/-- What follows a directive is neither a digit nor a letter. -/
def Separated : List Piece → Prop
  | [] => True
  | .literal _ :: ps => Separated ps
  | .directive _ :: ps => (∀ p ∈ ps.head?, ∃ c, p = .literal c ∧ digitOf c = 36) ∧ Separated ps

/-- An integer is scanned. -/
theorem scanNumber_integerText (d : Directive) (kind : OfInteger d.conversion.convSpec) (width : ℕ)
    (negative : Bool) (precision : Option ℕ) {n : ℕ} (v : BitVec n)
    (shown : ¬ (d.number cfg v = 0 ∧ precision = some 0)) {rest : List Char} (ends : Ends rest) :
    ∃ b, scanNumber (numberBase d.conversion.convSpec)
        ((d.request cfg width negative precision).integerText
          (v.setWidth (d.length.bits cfg)) ++ rest) =
      (d.number cfg v, List.replicate b ' ' ++ rest) := by
  have unsigned : d.prepend ≠ '-' := by
    unfold Directive.prepend
    split_ifs <;> decide
  have scanned : ∀ {c : Char}, IsSignC c → ∀ {v : ℕ}, ¬ (v = 0 ∧ precision = some 0) →
      ∃ b, scanNumber (numberBase d.conversion.convSpec)
          ((d.request cfg width negative precision).integer 1 c v ++ rest) =
        (if c = '-' then -(v : ℤ) else v, List.replicate b ' ' ++ rest) :=
    fun sign _ shown => @scanNumber_integer (d.request cfg width negative precision) (.inl kind)
      (Conversion.caseAdjust_cases d.conversion) _ sign 1 _ shown _ ends
  have same : (d.request cfg width negative precision).convSpec = d.conversion.convSpec := rfl
  rw [Request.integerText, same]
  rw [Directive.number] at shown ⊢
  set w := v.setWidth (d.length.bits cfg)
  by_cases signed : d.conversion.convSpec = .signedInt
  · rw [if_pos signed] at shown ⊢
    have shown' : ¬ (w.toInt.natAbs = 0 ∧ precision = some 0) := by
      rwa [Int.natAbs_eq_zero]
    by_cases below : w.toInt < 0
    · obtain ⟨b, scanned⟩ := scanned (c := '-') (.inr rfl) shown'
      refine ⟨b, ?_⟩
      rw [if_pos signed, if_pos below, scanned, if_pos rfl]
      congr 1
      omega
    · obtain ⟨b, scanned⟩ := scanned d.isSignC_prepend shown'
      refine ⟨b, ?_⟩
      rw [if_pos signed, if_neg below]
      refine scanned.trans ?_
      rw [if_neg unsigned]
      congr 1
      omega
  · rw [if_neg signed] at shown ⊢
    obtain ⟨b, scanned⟩ := scanned (c := NUL) (.inl rfl) fun hidden =>
      shown ⟨congrArg Int.ofNat hidden.1, hidden.2⟩
    refine ⟨b, ?_⟩
    rw [if_neg signed]
    exact scanned

/-- A real in hexadecimal digits is scanned to its pattern. -/
theorem scanField_hex {r : Request} (letterCase : r.caseAdjust = 0 ∨ r.caseAdjust = 32)
    (prepend : IsSignC r.prepend) (unsigned : r.prepend ≠ '-') (precise : 13 ≤ r.realPrecision)
    {f : RealBits cfg} (finite : IsFinite cfg f) {rest : List Char} (ends : Ends rest) :
    ∃ b, scanField cfg .floatHex (padField r.width r.left r.zero
        (signText (if f.msb then '-' else r.prepend) ++
          prefixText (Char.ofNat ('X'.toNat + r.caseAdjust)))
        (atoaText (min r.realPrecision 13) (atoaArg cfg f) r.alt r.caseAdjust) ++ rest) =
      (.real f, List.replicate b ' ' ++ rest) := by
  obtain ⟨a, z, b, parts⟩ := padField_parts r.width r.left r.zero
    (signText (if f.msb then '-' else r.prepend) ++
      prefixText (Char.ofNat ('X'.toNat + r.caseAdjust)))
    (atoaText (min r.realPrecision 13) (atoaArg cfg f) r.alt r.caseAdjust)
  refine ⟨b, ?_⟩
  have sign : IsSignC (if f.msb then '-' else r.prepend) := by
    split_ifs
    · exact .inr rfl
    · exact prepend
  have negative : decide ((if f.msb then '-' else r.prepend) = '-') = f.msb := by
    cases f.msb with
    | false => exact decide_eq_false unsigned
    | true => rfl
  -- thirteen digits are the whole mantissa
  have whole : atoaRound 13 (atoaArg cfg f) = (atoaParts (atoaArg cfg f)).1 := by
    rw [atoaRound, atoaDiscard, Nat.add_zero]
  have value : ((atoaParts (atoaArg cfg f)).1 : ℚ) / 16 ^ 13 * 2 ^ (atoaParts (atoaArg cfg f)).2 =
      magnitude cfg f := by
    rw [← doubleMagnitude_atoaArg finite, doubleMagnitude_eq]
    norm_num
  have lead := atoaRound_lead le_rfl (atoaArg cfg f)
  have scanned := @scanHex_hexText _ letterCase (atoaRound 13 (atoaArg cfg f)) 13
    (atoaParts (atoaArg cfg f)).2 (decide (0 < 13 ∨ r.alt = true)) (by omega) (by simp) z
    _ (ends_replicate b ends)
  rw [whole, value] at scanned
  obtain ⟨digits, digits_eq⟩ : ∃ digits, digits = List.replicate z '0' ++
    atoaText 13 (atoaArg cfg f) r.alt r.caseAdjust ++ (List.replicate b ' ' ++ rest) := ⟨_, rfl⟩
  have letter : Char.ofNat ('X'.toNat + r.caseAdjust) = 'x' ∨
      Char.ofNat ('X'.toNat + r.caseAdjust) = 'X' := by
    rcases letterCase with adj | adj <;> rw [adj]
    · exact .inr rfl
    · exact .inl rfl
  obtain ⟨shape, stripped⟩ := scanPrefix_hex letter digits
  have head := scanHead_text (n := a) sign shape (by decide) stripped
  rw [negative] at head
  have text : List.replicate a ' ' ++ (signText (if f.msb then '-' else r.prepend) ++
      prefixText (Char.ofNat ('X'.toNat + r.caseAdjust)) ++ (List.replicate z '0' ++
        atoaText 13 (atoaArg cfg f) r.alt r.caseAdjust ++ List.replicate b ' ')) ++ rest =
      List.replicate a ' ' ++ (signText (if f.msb then '-' else r.prepend) ++
        (prefixText (Char.ofNat ('X'.toNat + r.caseAdjust)) ++ digits)) := by
    simp only [digits_eq, List.append_assoc]
  have read : scanHex digits = (magnitude cfg f, List.replicate b ' ' ++ rest) := by
    rw [digits_eq, atoaText, whole]
    exact scanned
  rw [min_eq_right precise] at parts ⊢
  rw [parts, text, scanField, if_pos rfl, head]
  simp only [read, realOf_magnitude finite]

theorem format_of_answer {d : Directive} {args left : List Arg} {r : Request} {f : Formatted}
    (resolved : resolve cfg d args = .ok (r, left)) (answered : answer cfg r left = .ok f) :
    (Piece.directive d).format cfg args = .ok f := by
  simp only [Piece.format, resolved, bind, Except.bind]
  exact answered

/-- **What a directive prints is scanned** to the padding behind it. -/
theorem Tells.scanField [cfg.RepExact] [cfg.FixedCarried] {d : Directive} {args rest : List Arg}
    {v : Value cfg} (tells : Tells cfg d args v rest) (on : d.enabled cfg = true) :
    ∃ text, (Piece.directive d).format cfg args = .ok ⟨text, [], rest⟩ ∧
      ∀ {t : List Char}, Ends t → ∃ b,
        scanField cfg d.conversion.convSpec (text ++ t) = (v, List.replicate b ' ' ++ t) := by
  have letterCase := Conversion.caseAdjust_cases d.conversion
  have unsigned : d.prepend ≠ '-' := by
    unfold Directive.prepend
    split_ifs <;> decide
  cases tells with
  | @integer _ r v kind resolved shown =>
      obtain ⟨width, negative, precision, rfl, -⟩ := resolve_request on resolved
      have answered := answer_integer on kind width negative precision (.int _ v :: rest)
      rw [vaInt, if_pos rfl, BitVec.setWidth_eq] at answered
      refine ⟨_, format_of_answer resolved answered, fun ends => ?_⟩
      obtain ⟨b, scanned⟩ := scanNumber_integerText d kind width negative precision v shown ends
      refine ⟨b, ?_⟩
      rw [Nanoprintf.scanField, if_neg (ShowsInteger.not_hex (.inl kind)), scanned]
  | @pointer _ r a memory kind resolved shown =>
      obtain ⟨width, negative, precision, rfl, -⟩ := resolve_request on resolved
      have spec : (d.request cfg width negative precision).convSpec = .pointer := kind
      have answered : answer cfg (d.request cfg width negative precision)
          (.ptr a memory :: rest) =
            .ok ⟨(d.request cfg width negative precision).integer (pointerDigits cfg) NUL
              (a % 2 ^ cfg.uintBits), [], rest⟩ := by
        simp only [answer, spec, vaPtr]
        rfl
      refine ⟨_, format_of_answer resolved answered, fun ends => ?_⟩
      obtain ⟨b, scanned⟩ := @scanNumber_integer (d.request cfg width negative precision)
        (.inr kind) letterCase NUL (.inl rfl) (pointerDigits cfg) _ shown _ ends
      refine ⟨b, ?_⟩
      have base : numberBase d.conversion.convSpec =
        numberBase (d.request cfg width negative precision).convSpec := rfl
      rw [Nanoprintf.scanField, if_neg (ShowsInteger.not_hex (.inr kind)), base, scanned]
      rfl
  | @real args' _ r f kind resolved read finite precise =>
      obtain ⟨width, negative, precision, rfl, prec⟩ := resolve_request on resolved
      have spec : (d.request cfg width negative precision).convSpec = .floatHex := kind
      have parts := on
      simp only [Directive.enabled, Bool.and_eq_true] at parts
      have hex : Compiled cfg .floatHex := kind ▸ Conversion.compiled parts.2
      have printed := realText_hex hex spec (fun asked => by
        by_contra off
        exact Directive.enabled_alt on (Bool.not_eq_true _ ▸ off) (of_decide_eq_true asked))
        prec (doubleFinite_atoaArg finite)
      have answered : answer cfg (d.request cfg width negative precision) args' =
          (realText cfg (d.request cfg width negative precision) f).map (⟨·, [], rest⟩) := by
        simp only [answer, spec, read]
        rfl
      rw [printed] at answered
      refine ⟨_, format_of_answer resolved answered, fun ends => ?_⟩
      rw [kind]
      exact scanField_hex letterCase d.isSignC_prepend unsigned precise finite ends

/-! ## A text -/

theorem scanSpaces_idem (t : List Char) : scanSpaces (scanSpaces t) = scanSpaces t :=
  List.dropWhile_idempotent _ _

theorem scanHead_spaces (base : ℕ) (t : List Char) :
    scanHead base (scanSpaces t) = scanHead base t := by
  rw [scanHead, scanHead, scanSpaces_idem]

/-- White space in front of a text does not matter. -/
theorem scanBack_spaces (ps : List Piece) (t : List Char) :
    scanBack cfg ps (scanSpaces t) = scanBack cfg ps t := by
  induction ps generalizing t with
  | nil => rw [scanBack, scanBack, scanSpaces_idem]
  | cons p ps ih =>
      cases p with
      | literal c => rw [scanBack, scanBack, scanSpaces_idem, ih]
      | directive d =>
          rw [scanBack, scanBack, scanField, scanField, scanNumber, scanNumber, scanHead_spaces,
            scanHead_spaces]

theorem scanBack_replicate (ps : List Piece) (b : ℕ) (t : List Char) :
    scanBack cfg ps (List.replicate b ' ' ++ t) = scanBack cfg ps t := by
  rw [← scanBack_spaces, scanSpaces_replicate, scanBack_spaces]

theorem scanBack_literal (c : Char) (ps : List Piece) (t : List Char) :
    scanBack cfg (.literal c :: ps) (c :: t) = scanBack cfg ps t := by
  rw [scanBack]
  by_cases space : c.isWhitespace = true
  · rw [if_pos space, ← scanBack_spaces, scanSpaces, List.dropWhile_cons_of_pos space]
    exact scanBack_spaces ps t
  · have stays : scanSpaces (c :: t) = c :: t := List.dropWhile_cons_of_neg space
    rw [if_neg space, stays]
    exact if_pos rfl

/-- What the pieces print is scanned. -/
theorem Scans.scanBack_output [cfg.RepExact] [cfg.FixedCarried] {s : List Char} {ps : List Piece}
    (scan : Scans cfg s ps) {args : List Arg} {vs : List (Value cfg)} (separated : Separated ps)
    (carries : Carries cfg ps args vs) :
    ∃ o, output cfg ps args = .ok o ∧ scanBack cfg ps o.text = some vs ∧
      (∀ p ∈ ps.head?, ∀ c, p = .literal c → digitOf c = 36 → Ends o.text) ∧
      (ps = [] → o.text = []) := by
  induction scan generalizing args vs with
  | done junk =>
      cases carries
      refine ⟨_, rfl, rfl, ?_, fun _ => rfl⟩
      rintro p ⟨⟩
  | @literal c s ps char literal rest ih =>
      cases carries with
      | literal more =>
          obtain ⟨o, run, scanned, -, -⟩ := ih separated more
          refine ⟨o.after ⟨[c], [], args⟩, ?_, ?_, ?_, ?_⟩
          · rw [output, Piece.format]
            simp only [bind, Except.bind, run]
            rfl
          · exact (scanBack_literal c ps o.text).trans scanned
          · intro p member c' same stop d member'
            obtain rfl := Option.some.inj member
            obtain rfl := Piece.literal.inj same
            obtain rfl := Option.some.inj member'
            exact stop
          · intro noText
            exact absurd noText (List.cons_ne_nil _ _)
  | @directive d s ps on greedy rest ih =>
      cases carries with
      | @directive _ _ _ rest' v vs' tells more =>
          obtain ⟨follows, separated'⟩ := separated
          obtain ⟨o, run, scanned, starts, empty⟩ := ih separated' more
          have ends : Ends o.text := by
            cases ps with
            | nil =>
                rw [empty rfl]
                rintro c ⟨⟩
            | cons p qs =>
                obtain ⟨c, same, stop⟩ := follows p rfl
                exact starts p rfl c same stop
          obtain ⟨text, formatted, field⟩ := tells.scanField on
          obtain ⟨b, field⟩ := field ends
          refine ⟨o.after ⟨text, [], rest'⟩, ?_, ?_, ?_, ?_⟩
          · rw [output, formatted]
            simp only [bind, Except.bind, run]
            rfl
          · rw [scanBack]
            simp only [Output.after, field, scanBack_replicate, scanned, Option.map_some]
          · intro p member c same
            obtain rfl := Option.some.inj member
            cases same
          · intro noText
            exact absurd noText (List.cons_ne_nil _ _)

/-- **What is printed can be scanned**: of a format of characters, integers, addresses and reals
in hexadecimal digits, whatever their flags, widths, precisions and lengths, the text that
`npf_vpprintf` sends gives the arguments back. -/
theorem npfVpprintf_scanBack [cfg.RepExact] [cfg.FixedCarried] {format : Cursor} {ps : List Piece}
    (scan : Scans cfg format ps) (separated : Separated ps) {args : List Arg}
    {vs : List (Value cfg)} (carries : Carries cfg ps args vs) (fs : NpfFormatSpec) :
    ∃ n text stores, npfVpprintf cfg record [] format args fs = .ok (n, text, stores) ∧
      scanBack cfg ps text = some vs := by
  obtain ⟨o, run, scanned, -, -⟩ := scan.scanBack_output separated carries
  rw [npfVpprintf_record scan, run]
  exact ⟨_, _, _, rfl, scanned⟩

/-- `-42  ,-0x1.8000000000000p+0`, from the arguments `-42` and `-1.5`. -/
theorem npfVpprintf_scanBack_two :
    ∃ n text stores, npfVpprintf .standard record [] ("%-5d,%a".toList ++ [NUL])
        [.int 32 (-42), .double 0xbff8000000000000] .zeroed = .ok (n, text, stores) ∧
      scanBack .standard [.directive ⟨[.minus], .digits [5], .absent, .none, .letter .d false⟩,
        .literal ',', .directive ⟨[], .digits [], .absent, .none, .letter .a false⟩] text =
          some [.int (-42), .real (pattern _ 0xbff8000000000000)] := by
  refine npfVpprintf_scanBack (.directive (d := ⟨[.minus], .digits [5], .absent, .none,
      .letter .d false⟩) rfl (by decide) (.literal (by decide) (.inl (by decide))
        (.directive (d := ⟨[], .digits [], .absent, .none, .letter .a false⟩) rfl (by decide)
          (.done [])))) ⟨?_, ?_, trivial⟩
    (.directive (.integer (v := -42) (by decide) rfl (by decide)) (.literal
      (.directive (.real rfl rfl rfl (by decide) (by decide)) (.done [])))) .zeroed
  · intro p member
    obtain rfl := Option.some.inj member
    exact ⟨',', rfl, by decide⟩
  · rintro p ⟨⟩

end Nanoprintf
