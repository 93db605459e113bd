import Nanoprintf.Foundations.Runs
import Nanoprintf.Requests

/-!
# Conversions answer requests

The engine sets defaults in a record, converts into a buffer and computes how far
to pad; `converted_eq` says that what comes of it is the answer to the request
the record stands for, and `convert_shows` that every conversion has the
characters it announces.
-/

set_option autoImplicit false

namespace Nanoprintf

open Foundations

variable {cfg : Config}

/-! ## Fields and defaults -/

theorem widthOf_of_off (off : cfg.fieldWidth = false) (fs : NpfFormatSpec) :
    widthOf cfg fs = 0 := by
  simp [widthOf, off]

/-- The field of a conversion, in terms of the record before the defaults. -/
theorem convertedText_field {conv : Converted cfg} {fs : NpfFormatSpec}
    (width : conv.fs.fieldWidth = fs.fieldWidth)
    (left : conv.fs.leftJustified = fs.leftJustified) {zero : Bool}
    (fill : cfg.fieldWidth = true → fs.leftJustified = false →
      (padChar cfg conv = '0' ↔ zero = true)) (t : List Char) :
    convertedText conv t = padField (request cfg fs).width (request cfg fs).left zero
      (signText conv.signC ++ prefixText conv.need0x)
      (List.replicate (precPad cfg conv).toNat '0' ++ t) := by
  have same : widthOf cfg conv.fs = widthOf cfg fs := by rw [widthOf, widthOf, width]
  rw [convertedText, same, left]
  simp only [request]
  rcases compiled : cfg.fieldWidth
  · rw [widthOf_of_off compiled, padField_of_le (Nat.zero_le _), padField_of_le (Nat.zero_le _)]
  · rcases justified : fs.leftJustified
    · have fills := fill compiled justified
      rw [show (padChar cfg conv == '0') = zero from Bool.eq_iff_iff.mpr (by simpa using fills)]
      rfl
    · simp [padField]

/-- The precision after the defaults. -/
def precAfter (cfg : Config) (fs : NpfFormatSpec) : ℤ :=
  if cfg.precision && fs.precOpt == .none then
    if fs.convSpec = .pointer then (cfg.ptrBits + 3) / 4
    else if isFloat cfg fs.convSpec then
      if cfg.floatHex && fs.convSpec == .floatHex then (52 + 3) / 4 else 6
    else 0
  else fs.prec

/-- A precision is in effect for one of `d`, `i`, `o`, `u`, `x` and overrides `0`. -/
def dropsZero (cfg : Config) (fs : NpfFormatSpec) : Bool :=
  cfg.precision && cfg.fieldWidth && fs.precOpt != .none &&
    ConvSpec.signedInt.rank ≤ fs.convSpec.rank && fs.convSpec.rank ≤ ConvSpec.unsignedInt.rank &&
    !(cfg.binary && fs.convSpec == .binary)

theorem defaults_eq (cfg : Config) (fs : NpfFormatSpec) :
    defaults cfg fs = { fs with
      prec := precAfter cfg fs
      leadingZeroPad := fs.leadingZeroPad && !dropsZero cfg fs } := by
  have precision : (if cfg.precision && fs.precOpt == .none then
      if fs.convSpec = .pointer then { fs with prec := ((cfg.ptrBits + 3) / 4 : ℤ) }
      else if isFloat cfg fs.convSpec then
        { fs with prec := if cfg.floatHex && fs.convSpec == .floatHex then (52 + 3) / 4 else 6 }
      else { fs with prec := 0 }
    else fs) = { fs with prec := precAfter cfg fs } := by
    unfold precAfter
    split_ifs <;> rfl
  rw [defaults, precision]
  change (if dropsZero cfg fs = true then _ else _) = _
  rcases dropsZero cfg fs
  · simp
  · simp

/-! ## Digits -/

theorem npfBinLen_eq (v : ℕ) : npfBinLen v = numeralLength 2 v := by
  unfold npfBinLen
  by_cases zero : v = 0
  · rw [if_pos zero, zero, numeralLength, numeral_of_lt two_pos, List.length_singleton]
  · rw [if_neg zero, numeralLength_eq one_lt_two (Nat.log2_self_le zero) Nat.lt_log2_self]

/-- The binary conversion sends a numeral to base two. -/
theorem binaryText_eq (caseAdj v n : ℕ) :
    binaryText v n = ((lowDigits 2 n v).map (digitChar caseAdj)).reverse := by
  induction n with
  | zero => rfl
  | succ n ih =>
      have bit : v >>> n &&& 1 = v / 2 ^ n % 2 := by
        rw [Nat.shiftRight_eq_div_pow, Nat.and_one_is_mod]
      have digit : digitChar caseAdj (v / 2 ^ n % 2) = Char.ofNat ('0'.toNat + v / 2 ^ n % 2) := by
        rw [digitChar, if_pos (by omega)]
      rw [lowDigits_add, List.map_append, List.reverse_append, ← ih, binaryText, bit,
        lowDigits_succ, lowDigits_zero, List.map_singleton, List.reverse_singleton, digit,
        List.singleton_append]

theorem binaryText_numeral (caseAdj v : ℕ) :
    binaryText v (npfBinLen v) = (numeralText 2 caseAdj v).reverse := by
  rw [binaryText_eq caseAdj, npfBinLen_eq, numeralText, numeral_eq_lowDigits one_lt_two]

/-! ## Integers -/

/-- The integer conversions of a build. -/
def IsInteger (cfg : Config) : ConvSpec → Prop
  | .signedInt => True
  | .binary => cfg.binary = true
  | .octal => True
  | .hexInt => True
  | .unsignedInt => True
  | .pointer => True
  | _ => False

/-- The digits of an integer without a precision. -/
def defaultDigits (cfg : Config) (conv : ConvSpec) : ℕ :=
  if conv = .pointer then pointerDigits cfg else 1

section

variable {fs : NpfFormatSpec} {conv : Converted cfg}

theorem IsInteger.not_float (integer : IsInteger cfg fs.convSpec) :
    isFloat cfg fs.convSpec = false := by
  unfold isFloat
  rcases kind : fs.convSpec <;> rw [kind] at integer <;>
    first | exact integer.elim | simp [ConvSpec.rank, ConvSpec.ctorIdx]

theorem IsInteger.not_string (integer : IsInteger cfg fs.convSpec) : fs.convSpec ≠ .string := by
  intro kind
  rw [kind] at integer
  exact integer

/-- A precision drops the `0` flag of every integer conversion but `b` and `p`. -/
theorem dropsZero_eq (integer : IsInteger cfg fs.convSpec) :
    dropsZero cfg fs = (cfg.precision && cfg.fieldWidth && fs.precOpt != .none &&
      decide (fs.convSpec ≠ .binary ∧ fs.convSpec ≠ .pointer)) := by
  unfold dropsZero
  rcases kind : fs.convSpec <;> rw [kind] at integer <;>
    first
    | exact integer.elim
    | simp_all [IsInteger, ConvSpec.rank, ConvSpec.ctorIdx, Bool.beq_eq_decide_eq]

/-- The zeros of the precision. -/
theorem precPad_integer (integer : IsInteger cfg fs.convSpec)
    (spec : conv.fs.convSpec = fs.convSpec) (prec : conv.fs.prec = precAfter cfg fs)
    (nonzero : 1 ≤ conv.payload.len) :
    (precPad cfg conv).toNat =
      (request cfg fs).precision.getD (defaultDigits cfg fs.convSpec) - conv.payload.len := by
  have number := integer.not_string
  unfold precPad
  rw [spec, prec, precAfter, integer.not_float, request, defaultDigits, pointerDigits]
  rcases compiled : cfg.precision
  · simp only [Bool.false_eq_true, false_and, if_false, Bool.false_and, Option.getD_none,
      ite_self, Int.toNat_zero]
    omega
  · by_cases absent : fs.precOpt = .none
    · by_cases pointer : fs.convSpec = .pointer
      · simp [absent, pointer]
        omega
      · simp [absent, pointer, number]
        omega
    · simp [absent, number]
      omega

/-- The character that fills the field of an integer. -/
theorem padChar_integer (integer : IsInteger cfg fs.convSpec) {v : ℕ}
    (nonneg : cfg.precision = true → fs.precOpt ≠ .none → 0 ≤ fs.prec)
    (pad : conv.fs.leadingZeroPad = (fs.leadingZeroPad && !dropsZero cfg fs))
    (opt : conv.fs.precOpt = fs.precOpt) (prec : conv.fs.prec = precAfter cfg fs)
    (zero : conv.zero = decide (v = 0)) (width : cfg.fieldWidth = true)
    (right : conv.fs.leftJustified = false) :
    padChar cfg conv = '0' ↔ (request cfg fs).zeroFills v = true := by
  have filled : padChar cfg conv = '0' ↔ conv.fs.leadingZeroPad = true ∧
      ¬ (cfg.precision = true ∧ fs.precOpt ≠ .none ∧ fs.prec = 0 ∧ v = 0) := by
    unfold padChar
    rw [right, opt, prec, zero, precAfter]
    by_cases absent : fs.precOpt = .none
    · simp [absent]
    · simp [absent]
  rw [filled, pad, dropsZero_eq integer, Request.zeroFills, request, width]
  rcases compiled : cfg.precision
  · cases kind : fs.convSpec <;> simp
  · by_cases absent : fs.precOpt = .none
    · cases kind : fs.convSpec <;> simp [absent]
    · obtain ⟨n, value⟩ := Int.eq_ofNat_of_zero_le (nonneg compiled absent)
      cases kind : fs.convSpec <;> simp [absent, value, imp_iff_not_or, or_comm]

end

namespace Request

variable (r : Request) (default : ℕ) {v : ℕ}

/-- A zero that the precision hides. -/
theorem digits_blank (hidden : r.precision = some 0) :
    r.digits default 0 = if r.convSpec = .octal ∧ r.alt = true then ['0'] else [] := by
  simp [digits, hidden, zeroExtend]

theorem head?_zeroExtend (n : ℕ) (ds : List Char) :
    (zeroExtend n ds).head? = if ds.length < n then some '0' else ds.head? := by
  rw [zeroExtend]
  by_cases short : ds.length < n
  · rw [if_pos short, show n - ds.length = n - ds.length - 1 + 1 by omega, List.replicate_succ]
    rfl
  · rw [if_neg short, show n - ds.length = 0 by omega, List.replicate_zero, List.nil_append]

theorem digits_numeral (shown : ¬ (v = 0 ∧ r.precision = some 0))
    (form : r.convSpec = .octal → r.alt = true → v = 0) :
    r.digits default v =
      zeroExtend (r.precision.getD default) (numeralText r.base r.caseAdjust v).reverse := by
  rw [digits, if_neg shown]
  refine if_neg fun ⟨octal, alt, head⟩ => head ?_
  obtain rfl := form octal alt
  have one : (numeralText r.base r.caseAdjust 0).reverse = ['0'] := by
    rw [base, octal, numeralText_of_lt (by norm_num)]
    rfl
  rw [one, head?_zeroExtend]
  split_ifs <;> rfl

/-- The least precision that makes the first octal digit `0`. -/
theorem digits_octal (octal : r.convSpec = .octal) (alt : r.alt = true) (nonzero : v ≠ 0) :
    r.digits default v =
      zeroExtend (r.precision.getD default) ('0' :: (numeralText 8 r.caseAdjust v).reverse) := by
  have radix : r.base = 8 := by rw [base, octal]
  have head := @head?_numeralText 8 v (by norm_num) (by norm_num) nonzero r.caseAdjust
  have shown : ¬ (v = 0 ∧ r.precision = some 0) := fun hidden => nonzero hidden.1
  rw [digits, if_neg shown, radix]
  generalize (numeralText 8 r.caseAdjust v).reverse = ds at head ⊢
  generalize r.precision.getD default = n
  simp only [octal, alt, true_and, head?_zeroExtend]
  rw [zeroExtend, zeroExtend, List.length_cons]
  by_cases short : ds.length < n
  · rw [if_pos short, if_neg (not_not.mpr rfl),
      show n - ds.length = n - (ds.length + 1) + 1 by omega,
      List.replicate_succ', List.append_assoc, List.singleton_append]
  · rw [if_neg short, if_pos head, show n - ds.length = 0 by omega,
      show n - (ds.length + 1) = 0 by omega]
    rfl

end Request

/-- A conversion has the characters it announces. -/
structure Shows (conv : Converted cfg) (t : List Char) : Prop where
  valid : conv.payload.Valid
  text : payloadText conv.payload = .ok t

theorem shows_reversed {conv : Converted cfg} {buf : ConvBuffer cfg} {n : ℕ} {t : List Char}
    (payload : conv.payload = .reversed buf n) (length : t.length = n)
    (holds : buf.Holds 0 t.reverse) (inside : n ≤ cfg.cbuf) : Shows conv t := by
  subst length
  constructor
  · rw [payload]
    trivial
  · rw [payload]
    exact readDown_eq holds inside

/-- A numeral in the conversion buffer. -/
theorem npfUtoaRev_eq {base v : ℕ} (caseAdj : ℕ) (radix : base = 8 ∨ base = 10 ∨ base = 16)
    (word : v < 2 ^ cfg.uintBits) (buf : ConvBuffer cfg) :
    ∃ c, npfUtoaRev cfg v buf base caseAdj = .ok (numeralLength base v, c) ∧
      c.Holds 0 (numeralText base caseAdj v) := by
  obtain ⟨c, run, holds, -⟩ := npfUtoaRevEnd_eq (i := 0) caseAdj radix word
    (by rw [Nat.zero_add]; exact (numeralLength_uint radix word).le) buf
  rw [Nat.zero_add] at run
  exact ⟨c, run, holds⟩

section

variable {fs : NpfFormatSpec}

/-- The text of an integer conversion that shows its digits. -/
theorem convertedText_integer {conv : Converted cfg} {t : List Char} {v : ℕ}
    (integer : IsInteger cfg fs.convSpec)
    (nonneg : cfg.precision = true → fs.precOpt ≠ .none → 0 ≤ fs.prec)
    (same : conv.fs = defaults cfg fs) (zero : conv.zero = decide (v = 0)) (shaped : Shows conv t)
    (nonzero : 1 ≤ t.length) (letter : conv.need0x = (request cfg fs).prefixLetter v)
    (digits : (request cfg fs).digits (defaultDigits cfg fs.convSpec) v =
      Request.zeroExtend ((request cfg fs).precision.getD (defaultDigits cfg fs.convSpec)) t) :
    convertedText conv t =
      (request cfg fs).integer (defaultDigits cfg fs.convSpec) conv.signC v := by
  have length := length_payloadText shaped.valid shaped.text
  rw [defaults_eq] at same
  have pad := @precPad_integer cfg fs conv integer (by rw [same]) (by rw [same])
    (length ▸ nonzero)
  rw [@convertedText_field cfg conv fs (by rw [same]) (by rw [same]) _ fun width right =>
      padChar_integer integer nonneg (by rw [same]) (by rw [same]) (by rw [same]) zero width
        (by rw [same]; exact right),
    Request.integer, letter, digits, pad, ← length, Request.zeroExtend]

/-- The test for a zero that the precision hides. -/
theorem blank_iff (nonneg : cfg.precision = true → fs.precOpt ≠ .none → 0 ≤ fs.prec) (v : ℕ) :
    (cfg.precision && v == 0 && (defaults cfg fs).precOpt != .none &&
      (defaults cfg fs).prec == 0) = true ↔ v = 0 ∧ (request cfg fs).precision = some 0 := by
  rw [defaults_eq]
  simp only [precAfter, request]
  rcases compiled : cfg.precision
  · simp
  · by_cases absent : fs.precOpt = .none
    · simp [absent]
    · have positive := nonneg compiled absent
      have zero : fs.prec = 0 ↔ fs.prec.toNat = 0 := by omega
      simp [absent, zero]

theorem baseOf_octal (fs : NpfFormatSpec) : baseOf fs.convSpec = 8 ↔ fs.convSpec = .octal := by
  cases fs.convSpec <;> simp [baseOf]

theorem zeroFills_blank {r : Request} (hidden : r.precision = some 0) : r.zeroFills 0 = false := by
  rw [Request.zeroFills, hidden]
  cases r.convSpec <;> simp

/-- A zero that the precision hides: no digit, or the one that the alternate octal form asks for. -/
theorem convertInt_blank {args rest : List Arg} {signC : Char}
    (integer : IsInteger cfg fs.convSpec)
    (nonneg : cfg.precision = true → fs.precOpt ≠ .none → 0 ≤ fs.prec)
    (hidden : (request cfg fs).precision = some 0)
    (extract : extractInt cfg (defaults cfg fs) args = .ok (0, signC, rest)) :
    ∃ conv t, convertInt cfg (defaults cfg fs) args = .ok (conv, rest) ∧ Shows conv t ∧
      convertedText conv t =
        (request cfg fs).integer (defaultDigits cfg fs.convSpec) signC 0 := by
  have blank := (blank_iff nonneg 0).mpr ⟨rfl, hidden⟩
  obtain ⟨compiled, present, value⟩ :
      cfg.precision = true ∧ fs.precOpt ≠ .none ∧ fs.prec.toNat = 0 := by
    simpa [request, and_assoc] using hidden
  have prec : precAfter cfg fs = 0 := by
    have positive := nonneg compiled present
    simp only [precAfter, beq_eq_false_iff_ne.mpr present, Bool.and_false, Bool.false_eq_true,
      if_false]
    omega
  have form : (baseOf (defaults cfg fs).convSpec = 8 ∧
      (cfg.altForm && (defaults cfg fs).altForm) = true) ↔
      (fs.convSpec = .octal ∧ (request cfg fs).alt = true) := by
    rw [defaults_eq]
    exact and_congr_left' (baseOf_octal fs)
  have silent : (request cfg fs).prefixLetter 0 = NUL := by simp [Request.prefixLetter]
  unfold convertInt
  simp only [extract, bind, Except.bind, pure, Except.pure, if_pos blank]
  refine ⟨_, [], rfl, ⟨trivial, rfl⟩, ?_⟩
  rw [Request.integer, Request.digits_blank _ _ hidden, zeroFills_blank hidden,
    silent]
  simp only [form]
  by_cases octal : fs.convSpec = .octal ∧ (request cfg fs).alt = true
  · simp only [if_pos octal, show (request cfg fs).convSpec = fs.convSpec from rfl]
    rw [@convertedText_field cfg _ fs (by rw [defaults_eq]) (by rw [defaults_eq]) false]
    · rw [defaults_eq]
      simp [precPad, compiled, octal.1, isFloat, ConvSpec.rank, ConvSpec.ctorIdx, Payload.len]
    · intro width right
      rw [defaults_eq]
      simp [padChar, dropsZero_eq integer, compiled, width, present, octal.1]
  · simp only [if_neg octal, show (request cfg fs).convSpec = fs.convSpec from rfl]
    rw [@convertedText_field cfg _ fs (by rw [defaults_eq]) (by rw [defaults_eq]) false]
    · rw [defaults_eq]
      simp [precPad, prec, Payload.len]
    · intro width right
      rw [defaults_eq]
      simp [padChar, prec, compiled, present]

/-- **An integer conversion writes the integer of the request.** -/
theorem convertInt_eq {args rest : List Arg} {val : ℕ} {signC : Char}
    (integer : IsInteger cfg fs.convSpec)
    (nonneg : cfg.precision = true → fs.precOpt ≠ .none → 0 ≤ fs.prec)
    (word : val < 2 ^ cfg.uintBits)
    (extract : extractInt cfg (defaults cfg fs) args = .ok (val, signC, rest)) :
    ∃ conv t, convertInt cfg (defaults cfg fs) args = .ok (conv, rest) ∧ Shows conv t ∧
      convertedText conv t =
        (request cfg fs).integer (defaultDigits cfg fs.convSpec) signC val := by
  by_cases hidden : val = 0 ∧ (request cfg fs).precision = some 0
  · obtain ⟨rfl, hidden⟩ := hidden
    exact convertInt_blank integer nonneg hidden extract
  have shown : ¬ (cfg.precision && val == 0 && (defaults cfg fs).precOpt != .none &&
      (defaults cfg fs).prec == 0) = true := (blank_iff nonneg val).not.mpr hidden
  have alt : (cfg.altForm && (defaults cfg fs).altForm) = (request cfg fs).alt := by
    rw [defaults_eq]
    rfl
  have adj : (defaults cfg fs).caseAdjust = (request cfg fs).caseAdjust := by
    rw [defaults_eq]
    rfl
  have kind : (defaults cfg fs).convSpec = fs.convSpec := by rw [defaults_eq]
  unfold convertInt
  simp only [extract, bind, Except.bind, pure, Except.pure, if_neg shown, alt, adj, kind]
  by_cases binary : fs.convSpec = .binary
  · have on : (cfg.binary && fs.convSpec == .binary) = true := by
      rw [binary] at integer ⊢
      simpa [IsInteger] using integer
    simp only [if_pos on]
    refine ⟨_, _, rfl, ⟨trivial, rfl⟩, ?_⟩
    refine convertedText_integer (v := val) integer nonneg rfl rfl ⟨trivial, rfl⟩ ?_ ?_ ?_
    · rw [length_binaryText, npfBinLen_eq]
      exact numeralLength_pos 2 val
    · simp [Request.prefixLetter, show (request cfg fs).convSpec = .binary from binary]
    · rw [binaryText_numeral (request cfg fs).caseAdjust]
      rw [Request.digits_numeral _ _ hidden, Request.base]
      · simp [show (request cfg fs).convSpec = .binary from binary]
      · simp [show (request cfg fs).convSpec = .binary from binary]
  · have off : ¬ (cfg.binary && fs.convSpec == .binary) = true := by simp [binary]
    have radix : baseOf fs.convSpec = (request cfg fs).base := by
      rw [Request.base, show (request cfg fs).convSpec = fs.convSpec from rfl]
      cases kind : fs.convSpec <;> first | rfl | exact absurd kind binary
    have bases : baseOf fs.convSpec = 8 ∨ baseOf fs.convSpec = 10 ∨ baseOf fs.convSpec = 16 := by
      cases fs.convSpec <;> simp [baseOf]
    obtain ⟨c, run, holds⟩ := npfUtoaRev_eq (request cfg fs).caseAdjust bases word .blank
    have room := numeralLength_uint bases word
    simp only [if_neg off, run]
    by_cases octal : val ≠ 0 ∧ (request cfg fs).alt = true ∧ baseOf fs.convSpec = 8
    · have ⟨nonzero, alternate, eight⟩ := octal
      have kind := (baseOf_octal fs).mp eight
      rw [eight] at holds room
      simp only [if_pos octal]
      rw [eight]
      simp only [c.write_eq '0' room]
      have text := holds.update_concat '0' (k := numeralLength 8 val) (by simp)
      rw [← List.reverse_reverse (numeralText _ _ _), ← List.reverse_cons] at text
      refine ⟨_, _, rfl, shows_reversed rfl (by simp) text (by omega), ?_⟩
      refine convertedText_integer (v := val) integer nonneg rfl rfl
        (shows_reversed rfl (by simp) text (by omega)) (by simp) ?_ ?_
      · simp [Request.prefixLetter, show (request cfg fs).convSpec = .octal from kind]
      · exact Request.digits_octal _ _ kind alternate nonzero
    · simp only [if_neg octal]
      rw [← List.reverse_reverse (numeralText _ _ _)] at holds
      refine ⟨_, _, rfl, shows_reversed rfl (by simp) holds room.le, ?_⟩
      refine convertedText_integer (v := val) integer nonneg rfl rfl
        (shows_reversed rfl (by simp) holds room.le) ?_ ?_ ?_
      · rw [List.length_reverse, length_numeralText]
        exact numeralLength_pos _ val
      · rw [Request.prefixLetter, show (request cfg fs).convSpec = fs.convSpec from rfl]
        cases kind : fs.convSpec <;> simp [baseOf]
        exact absurd kind binary
      · rw [radix]
        refine Request.digits_numeral _ _ hidden fun kind alternate => ?_
        by_contra nonzero
        exact octal ⟨nonzero, alternate, (baseOf_octal fs).mpr kind⟩

end

/-! ## Integer arguments -/

theorem longBits_le_uintBits (cfg : Config) : cfg.longBits ≤ cfg.uintBits := by
  have upper := cfg.longBits_le
  unfold Config.uintBits
  split_ifs <;> omega

theorem argWidth_le_uintBits (cfg : Config) (lm : LengthModifier) :
    argWidth cfg lm ≤ cfg.uintBits := by
  have long := longBits_le_uintBits cfg
  have int := cfg.int_le_long.trans long
  have size := cfg.sizeBits_le
  have ptrdiff := cfg.ptrdiff_eq_size
  have wide : cfg.large = true → cfg.uintBits = 64 := fun on => by rw [Config.uintBits, if_pos on]
  have fold : ∀ fold : Fold, ∀ own, cfg.large = true → own ≤ 64 →
      fold.width cfg own ≤ cfg.uintBits := by
    intro fold own on small
    cases fold with
    | int => exact int
    | long => exact long
    | own => exact (wide on).symm ▸ small
  cases lm with
  | none | short | char | longDouble => exact int
  | long =>
      rw [argWidth]
      split_ifs
      · exact int
      · exact long
  | largeLongLong | largeIntmax =>
      rw [argWidth]
      split_ifs with on
      · exact (wide on).ge
      · exact int
  | largeSizet | largePtrdifft =>
      rw [argWidth]
      split_ifs with on
      · exact fold _ _ on (by omega)
      · exact int

theorem narrowWidth_le_uintBits (cfg : Config) (lm : LengthModifier) :
    narrowWidth cfg lm ≤ cfg.uintBits := by
  have int := cfg.int_le_long.trans (longBits_le_uintBits cfg)
  have short := cfg.short_le_int
  have char := cfg.char_le_short
  unfold narrowWidth
  split
  · split_ifs <;> omega
  · split_ifs <;> omega
  · exact argWidth_le_uintBits cfg _

/-- The magnitude of a signed integer, computed without a sign. -/
theorem unsigned_magnitude {n : ℕ} {z : ℤ} (small : z.natAbs < 2 ^ n) :
    (let val := (z % 2 ^ n).toNat
      if z < 0 then (2 ^ n - val) % 2 ^ n else val) = z.natAbs := by
  have power : ((2 : ℤ) ^ n) = ((2 ^ n : ℕ) : ℤ) := by push_cast; rfl
  simp only [power]
  generalize 2 ^ n = m at small ⊢
  split_ifs with negative
  · have residue : z % (m : ℤ) = m - z.natAbs := by
      rw [Int.emod_eq_add_self_emod, Int.emod_eq_of_lt (by omega) (by omega)]
      omega
    rw [residue, show ((m : ℤ) - z.natAbs).toNat = m - z.natAbs by omega,
      show m - (m - z.natAbs) = z.natAbs by omega, Nat.mod_eq_of_lt small]
  · rw [Int.emod_eq_of_lt (by omega) (by omega)]
    omega

theorem natAbs_toInt_lt {w : ℕ} (v : BitVec w) : v.toInt.natAbs < 2 ^ w := by
  have small := v.isLt
  rw [BitVec.toInt_eq_toNat_cond]
  split_ifs <;> omega

theorem extractSigned_lt {lm : LengthModifier} {args rest : List Arg} {sval : ℤ}
    (run : extractSigned cfg lm args = .ok (sval, rest)) : sval.natAbs < 2 ^ cfg.uintBits := by
  obtain ⟨⟨v, left⟩, -, run⟩ := bind_eq_ok.mp run
  obtain ⟨rfl, -⟩ := Prod.mk.inj (pure_eq_ok.mp run)
  exact (natAbs_toInt_lt _).trans_le (Nat.pow_le_pow_right two_pos (narrowWidth_le_uintBits cfg lm))

theorem extractUnsigned_lt {lm : LengthModifier} {args rest : List Arg} {v : ℕ}
    (run : extractUnsigned cfg lm args = .ok (v, rest)) : v < 2 ^ cfg.uintBits := by
  obtain ⟨⟨w, left⟩, -, run⟩ := bind_eq_ok.mp run
  obtain ⟨rfl, -⟩ := Prod.mk.inj (pure_eq_ok.mp run)
  exact (BitVec.isLt _).trans_le (Nat.pow_le_pow_right two_pos (narrowWidth_le_uintBits cfg lm))

section

variable {fs : NpfFormatSpec} {args : List Arg}

theorem extractInt_signed (signed : fs.convSpec = .signedInt) :
    extractInt cfg fs args = (extractSigned cfg fs.lengthModifier args).map fun (sval, rest) =>
      (sval.natAbs, if sval < 0 then '-' else fs.prepend, rest) := by
  unfold extractInt
  rw [if_pos signed]
  rcases run : extractSigned cfg fs.lengthModifier args with e | ⟨sval, rest⟩
  · rfl
  · have value := unsigned_magnitude (extractSigned_lt run)
    simp only at value
    simp only [bind, Except.bind, pure, Except.pure, Except.map, value]

theorem extractInt_pointer (pointer : fs.convSpec = .pointer) :
    extractInt cfg fs args = (vaPtr args).map fun (p, _, rest) =>
      (p % 2 ^ cfg.uintBits, NUL, rest) := by
  unfold extractInt
  rw [if_neg (by rw [pointer]; decide), if_pos pointer]
  rcases vaPtr args with e | ⟨p, m, rest⟩ <;> rfl

theorem extractInt_unsigned (unsigned : fs.convSpec ≠ .signedInt ∧ fs.convSpec ≠ .pointer) :
    extractInt cfg fs args = (extractUnsigned cfg fs.lengthModifier args).map fun (v, rest) =>
      (v, NUL, rest) := by
  unfold extractInt
  rw [if_neg unsigned.1, if_neg unsigned.2]
  rcases run : extractUnsigned cfg fs.lengthModifier args with e | ⟨v, rest⟩
  · rfl
  · have value := Nat.mod_eq_of_lt (extractUnsigned_lt run)
    simp only [bind, Except.bind, pure, Except.pure, Except.map, value]

theorem extractInt_lt {val : ℕ} {signC : Char} {rest : List Arg}
    (run : extractInt cfg fs args = .ok (val, signC, rest)) : val < 2 ^ cfg.uintBits := by
  by_cases signed : fs.convSpec = .signedInt
  · rw [extractInt_signed signed] at run
    obtain ⟨⟨sval, left⟩, extract, same⟩ := map_eq_ok.mp run
    exact (Prod.mk.inj same).1 ▸ extractSigned_lt extract
  · by_cases pointer : fs.convSpec = .pointer
    · rw [extractInt_pointer pointer] at run
      obtain ⟨⟨p, m, left⟩, -, same⟩ := map_eq_ok.mp run
      exact (Prod.mk.inj same).1 ▸ Nat.mod_lt _ (by positivity)
    · rw [extractInt_unsigned ⟨signed, pointer⟩] at run
      obtain ⟨⟨v, left⟩, extract, same⟩ := map_eq_ok.mp run
      exact (Prod.mk.inj same).1 ▸ extractUnsigned_lt extract

end

/-! ## Answers -/

/-- The conversion of a parsed specification whose stars are resolved, apart from what came
before it. -/
def converted (cfg : Config) (fs : NpfFormatSpec) (args : List Arg) : Run Formatted := do
  let (conv, stores, args) ← convert cfg (defaults cfg fs) 0 args
  let payload ← payloadText conv.payload
  pure ⟨convertedText conv payload, stores.map Store.slot, args⟩

section

variable {fs : NpfFormatSpec} {args : List Arg}

theorem convert_integer (integer : IsInteger cfg fs.convSpec) :
    convert cfg (defaults cfg fs) 0 args =
      (convertInt cfg (defaults cfg fs) args).map fun (conv, rest) => (conv, [], rest) := by
  have kind : (defaults cfg fs).convSpec = fs.convSpec := by rw [defaults_eq]
  have store : (cfg.writeback && fs.convSpec == .writeback) = false := by
    rcases named : fs.convSpec <;> rw [named] at integer <;>
      first | exact integer.elim | simp
  have ranked : ConvSpec.signedInt.rank ≤ fs.convSpec.rank := by
    rcases named : fs.convSpec <;> rw [named] at integer <;>
      first | exact integer.elim | decide
  unfold convert
  rw [kind, integer.not_float, store, if_neg Bool.false_ne_true, if_neg Bool.false_ne_true,
    if_pos ranked]
  rcases convertInt cfg (defaults cfg fs) args with e | ⟨conv, rest⟩ <;> rfl

theorem converted_integer (integer : IsInteger cfg fs.convSpec)
    (nonneg : cfg.precision = true → fs.precOpt ≠ .none → 0 ≤ fs.prec) :
    converted cfg fs args =
      (extractInt cfg (defaults cfg fs) args).map fun (val, signC, rest) =>
        ⟨(request cfg fs).integer (defaultDigits cfg fs.convSpec) signC val, [], rest⟩ := by
  rw [converted, convert_integer integer]
  rcases extract : extractInt cfg (defaults cfg fs) args with e | ⟨val, signC, rest⟩
  · simp only [convertInt, extract, bind, Except.bind, Except.map]
  · obtain ⟨conv, t, run, shaped, text⟩ := convertInt_eq integer nonneg (extractInt_lt extract)
      extract
    simp only [run, Except.map, bind, Except.bind, shaped.text, text, pure, Except.pure,
      List.map_nil]

/-- The field of a conversion that is not an integer. -/
theorem convertedText_open {conv : Converted cfg} (width : conv.fs.fieldWidth = fs.fieldWidth)
    (left : conv.fs.leftJustified = fs.leftJustified) (number : conv.zero = false) (t : List Char) :
    convertedText conv t = padField (request cfg fs).width (request cfg fs).left
      (cfg.fieldWidth && conv.fs.leadingZeroPad) (signText conv.signC ++ prefixText conv.need0x)
      (List.replicate (precPad cfg conv).toNat '0' ++ t) := by
  refine convertedText_field width left (fun on right => ?_) t
  rw [padChar, left, right, number, on]
  simp

theorem convertedText_plain {conv : Converted cfg} (same : conv.fs = defaults cfg fs)
    (kept : dropsZero cfg fs = false) (number : conv.zero = false) (sign : conv.signC = NUL)
    (letter : conv.need0x = NUL) (t : List Char) :
    convertedText conv t =
      (request cfg fs).plain (List.replicate (precPad cfg conv).toNat '0' ++ t) := by
  rw [defaults_eq, kept] at same
  rw [@convertedText_open cfg fs _ (by rw [same]) (by rw [same]) number, same, sign, letter,
    Bool.not_false, Bool.and_true]
  rfl

/-- A character, `%` or nothing, extended by the precision. -/
theorem precPad_plain {conv : Converted cfg} (same : conv.fs = defaults cfg fs)
    (short : fs.convSpec ≠ .string ∧ fs.convSpec ≠ .pointer)
    (number : isFloat cfg fs.convSpec = false) :
    (precPad cfg conv).toNat = (request cfg fs).precision.getD 0 - conv.payload.len := by
  rw [defaults_eq] at same
  rw [precPad, same, precAfter, number, request]
  rcases compiled : cfg.precision
  · simp
  · by_cases absent : fs.precOpt = .none
    · simp [absent, short]
    · simp [absent, short]
      omega

theorem convert_char (kind : fs.convSpec = .percent ∨ fs.convSpec = .char) :
    convert cfg (defaults cfg fs) 0 args =
      (convertChar cfg (defaults cfg fs) args).map fun (conv, rest) => (conv, [], rest) := by
  have same : (defaults cfg fs).convSpec = fs.convSpec := by rw [defaults_eq]
  unfold convert
  rw [same]
  rcases kind with kind | kind <;>
    · simp only [kind, isFloat, ConvSpec.rank]
      rcases convertChar cfg (defaults cfg fs) args with e | ⟨conv, rest⟩ <;>
        simp [ConvSpec.ctorIdx, bind, Except.bind, pure, Except.pure, Except.map]

theorem plain_facts (kind : fs.convSpec = .percent ∨ fs.convSpec = .char) :
    isFloat cfg fs.convSpec = false ∧ dropsZero cfg fs = false ∧
      fs.convSpec ≠ .string ∧ fs.convSpec ≠ .pointer := by
  rcases kind with kind | kind <;>
    simp [kind, isFloat, dropsZero, ConvSpec.rank, ConvSpec.ctorIdx]

/-- A single character in the buffer. -/
theorem single_text (kind : fs.convSpec = .percent ∨ fs.convSpec = .char) (c : Char) :
    let conv : Converted cfg := ⟨defaults cfg fs, NUL, NUL, false,
      .reversed ⟨Function.update (Buffer.blank : ConvBuffer cfg).cell 0 (some c)⟩ 1⟩
    payloadText conv.payload = .ok [c] ∧ convertedText conv [c] =
      (request cfg fs).plain (Request.zeroExtend ((request cfg fs).precision.getD 0) [c]) := by
  have room := cfg.cbuf_ge
  obtain ⟨float, kept, short⟩ := @plain_facts cfg fs kind
  intro conv
  have shaped : Shows conv [c] :=
    shows_reversed rfl rfl ((Buffer.holds_nil _ 1).update_cons c) (by omega)
  refine ⟨shaped.text, ?_⟩
  rw [@convertedText_plain cfg fs _ rfl kept rfl rfl rfl, @precPad_plain cfg fs _ rfl short float]
  rfl

theorem converted_percent (kind : fs.convSpec = .percent) :
    converted cfg fs args = answer cfg (request cfg fs) args := by
  have room := cfg.cbuf_ge
  have same : (defaults cfg fs).convSpec = .percent := by rw [defaults_eq, kind]
  obtain ⟨text, field⟩ := @single_text cfg fs (.inl kind) '%'
  rw [converted, convert_char (.inl kind), convertChar, same, answer,
    show (request cfg fs).convSpec = .percent from kind]
  simp only [reduceCtorEq, if_false, bind, Except.bind, pure, Except.pure,
    Buffer.write_eq (ε := Leave) _ '%' (show 0 < cfg.cbuf by omega), Except.map, text, field,
    List.map_nil]

theorem converted_char (kind : fs.convSpec = .char) :
    converted cfg fs args = answer cfg (request cfg fs) args := by
  have room := cfg.cbuf_ge
  have same : (defaults cfg fs).convSpec = .char := by rw [defaults_eq, kind]
  rw [converted, convert_char (.inr kind), convertChar, same, answer,
    show (request cfg fs).convSpec = .char from kind]
  rcases vaInt cfg.intBits args with e | ⟨v, rest⟩
  · rfl
  · obtain ⟨text, field⟩ := @single_text cfg fs (.inr kind)
      (Char.ofNat (v.toNat % 2 ^ cfg.charBits))
    simp only [if_true, bind, Except.bind, pure, Except.pure,
      Buffer.write_eq (ε := Leave) _ _ (show 0 < cfg.cbuf by omega), Except.map, text, field,
      List.map_nil]

/-- The bound of a string is the precision that is asked for. -/
theorem bound_eq (nonneg : cfg.precision = true → fs.precOpt ≠ .none → 0 ≤ fs.prec) :
    (if cfg.precision && (defaults cfg fs).precOpt != .none then some (defaults cfg fs).prec
      else none) = (request cfg fs).precision.map Int.ofNat := by
  rw [defaults_eq]
  simp only [precAfter, request]
  rcases compiled : cfg.precision
  · simp
  · by_cases absent : fs.precOpt = .none
    · simp [absent]
    · simp [absent, Int.toNat_of_nonneg (nonneg compiled absent)]

theorem converted_string (kind : fs.convSpec = .string)
    (nonneg : cfg.precision = true → fs.precOpt ≠ .none → 0 ≤ fs.prec) :
    converted cfg fs args = answer cfg (request cfg fs) args := by
  have same : (defaults cfg fs).convSpec = .string := by rw [defaults_eq, kind]
  have kept : dropsZero cfg fs = false := by
    simp [kind, dropsZero, ConvSpec.rank, ConvSpec.ctorIdx]
  have taken : convert cfg (defaults cfg fs) 0 args =
      (convertString cfg (defaults cfg fs) args).map fun (conv, rest) => (conv, [], rest) := by
    unfold convert
    simp only [same, isFloat, ConvSpec.rank]
    rcases convertString cfg (defaults cfg fs) args with e | ⟨conv, rest⟩ <;>
      simp [ConvSpec.ctorIdx, bind, Except.bind, pure, Except.pure, Except.map]
  have field : ∀ memory len, convertedText
      (⟨defaults cfg fs, NUL, NUL, false, .string memory len⟩ : Converted cfg) (memory.take len) =
        (request cfg fs).plain (memory.take len) := by
    intro memory len
    rw [@convertedText_plain cfg fs _ rfl kept rfl rfl rfl, precPad, if_neg (by simp [same])]
    rfl
  rw [converted, taken, convertString, bound_eq nonneg, answer,
    show (request cfg fs).convSpec = .string from kind]
  rcases vaPtr args with e | ⟨a, memory, rest⟩
  · rfl
  · by_cases null : a = 0
    · simp only [null, if_true, bind, Except.bind, pure, Except.pure, Except.map, payloadText,
        field, List.map_nil]
    · simp only [null, if_false, bind, Except.bind, pure, Except.pure]
      rcases strLen ((request cfg fs).precision.map Int.ofNat) memory 0 with e | len
      · rfl
      · simp only [Except.map, payloadText, field, List.map_nil]

theorem converted_writeback (kind : fs.convSpec = .writeback) (compiled : cfg.writeback = true) :
    converted cfg fs args = answer cfg (request cfg fs) args := by
  have same : (defaults cfg fs).convSpec = .writeback := by rw [defaults_eq, kind]
  have modifier : (defaults cfg fs).lengthModifier = fs.lengthModifier := by rw [defaults_eq]
  have kept : dropsZero cfg fs = false := by
    simp [kind, dropsZero, ConvSpec.rank, ConvSpec.ctorIdx]
  have float : isFloat cfg fs.convSpec = false := by
    simp [kind, isFloat, ConvSpec.rank, ConvSpec.ctorIdx]
  have taken : convert cfg (defaults cfg fs) 0 args =
      (writeback cfg (defaults cfg fs) 0 args).map fun done =>
        (⟨defaults cfg fs, NUL, NUL, false, .reversed .blank 0⟩, done) := by
    unfold convert
    rw [same, ← kind, float, kind, compiled]
    rcases writeback cfg (defaults cfg fs) 0 args with e | ⟨conv, rest⟩ <;> rfl
  have field : convertedText
      (⟨defaults cfg fs, NUL, NUL, false, .reversed .blank 0⟩ : Converted cfg) [] =
        (request cfg fs).plain (Request.zeroExtend ((request cfg fs).precision.getD 0) []) := by
    rw [@convertedText_plain cfg fs _ rfl kept rfl rfl rfl,
      @precPad_plain cfg fs _ rfl (by simp [kind]) float]
    rfl
  rw [converted, taken, writeback, modifier, answer,
    show (request cfg fs).convSpec = .writeback from kind,
    show (request cfg fs).lengthModifier = fs.lengthModifier from rfl]
  rcases vaPtr args with e | ⟨wb, memory, rest⟩
  · rfl
  · simp only [bind, Except.bind]
    rcases writebackWidth cfg fs.lengthModifier with - | bits
    · simp only [pure, Except.pure, Except.map, payloadText, readDown, field, List.map_nil]
    · by_cases null : wb = 0
      · simp only [null, if_true, Except.map]
      · simp only [null, if_false, pure, Except.pure, Except.map, payloadText, readDown, field,
          List.map_cons, List.map_nil, Store.slot]

end

/-! ## Reals -/

section

variable {fs spec spec' : NpfFormatSpec} {args : List Arg}

theorem npfAtoaRev_congr (prec : npfHexPrec cfg spec = npfHexPrec cfg spec')
    (adj : spec.caseAdjust = spec'.caseAdjust)
    (alt : (cfg.altForm && spec.altForm) = (cfg.altForm && spec'.altForm)) (buf : ConvBuffer cfg)
    (f : BitVec 64) : npfAtoaRev cfg buf spec f = npfAtoaRev cfg buf spec' f := by
  simp only [npfAtoaRev, prec, adj, alt]

theorem npfEtoaRev_congr (prec : npfDecPrec cfg spec = npfDecPrec cfg spec')
    (conv : spec.convSpec = spec'.convSpec) (adj : spec.caseAdjust = spec'.caseAdjust)
    (alt : (cfg.altForm && spec.altForm) = (cfg.altForm && spec'.altForm)) (buf : ConvBuffer cfg)
    (f : RealBits cfg) : npfEtoaRev cfg buf spec f = npfEtoaRev cfg buf spec' f := by
  have shortest : isShortest cfg spec = isShortest cfg spec' := by rw [isShortest, isShortest, conv]
  simp only [npfEtoaRev, prec, conv, adj, alt, shortest]

theorem npfFtoaRev_congr (adj : spec.caseAdjust = spec'.caseAdjust)
    (alt : (cfg.altForm && spec.altForm) = (cfg.altForm && spec'.altForm)) (buf : ConvBuffer cfg)
    (prec : ℤ) (f : RealBits cfg) :
    npfFtoaRev cfg buf spec prec f = npfFtoaRev cfg buf spec' prec f := by
  simp only [npfFtoaRev, ftoaFinite, adj, alt]

theorem floatRun_congr (dec : npfDecPrec cfg spec = npfDecPrec cfg spec')
    (hex : npfHexPrec cfg spec = npfHexPrec cfg spec') (conv : spec.convSpec = spec'.convSpec)
    (adj : spec.caseAdjust = spec'.caseAdjust)
    (alt : (cfg.altForm && spec.altForm) = (cfg.altForm && spec'.altForm)) (val : RealBits cfg) :
    floatRun cfg spec val = floatRun cfg spec' val := by
  simp only [floatRun, npfAtoaRev_congr hex adj alt, npfEtoaRev_congr dec conv adj alt,
    npfFtoaRev_congr adj alt, dec, conv, adj]

/-- The float conversions of a build. -/
def IsReal (cfg : Config) : ConvSpec → Prop
  | .floatDec => cfg.float = true
  | .floatHex => cfg.floatHex = true
  | .floatSci => cfg.floatSci = true
  | .floatShortest => cfg.floatShortest = true
  | _ => False

theorem IsReal.float (real : IsReal cfg fs.convSpec) : isFloat cfg fs.convSpec = true := by
  have on : cfg.float = true := by
    rcases kind : fs.convSpec <;> rw [kind] at real <;>
      first
      | exact real.elim
      | exact real
      | exact cfg.hex_float real
      | exact cfg.sci_float real
      | exact cfg.shortest_float real
  rw [isFloat, on, Bool.true_and]
  rcases kind : fs.convSpec <;> rw [kind] at real <;>
    first | exact real.elim | decide

theorem IsReal.kept (real : IsReal cfg fs.convSpec) : dropsZero cfg fs = false := by
  rcases kind : fs.convSpec <;> rw [kind] at real <;>
    first | exact real.elim | simp [kind, dropsZero, ConvSpec.rank, ConvSpec.ctorIdx]

/-- The record with its defaults prints a real like the record of the request. -/
theorem floatRun_request (real : IsReal cfg fs.convSpec)
    (nonneg : cfg.precision = true → fs.precOpt ≠ .none → 0 ≤ fs.prec) (val : RealBits cfg) :
    floatRun cfg (defaults cfg fs) val = floatRun cfg (request cfg fs).realSpec val := by
  have hex : fs.convSpec = .floatHex → cfg.floatHex = true := fun kind => by
    rw [kind] at real
    exact real
  have prec : cfg.precision = true → (defaults cfg fs).prec = (request cfg fs).realPrecision := by
    intro compiled
    rw [defaults_eq]
    simp only [precAfter, Request.realPrecision, request, compiled, real.float]
    by_cases absent : fs.precOpt = .none
    · by_cases kind : fs.convSpec = .floatHex
      · simp [absent, kind, hex kind]
      · have number : fs.convSpec ≠ .pointer := by
          intro pointer
          rw [pointer] at real
          exact real
        simp [absent, kind, number]
    · simp [absent, Int.toNat_of_nonneg (nonneg compiled absent)]
  refine floatRun_congr ?_ ?_ ?_ ?_ ?_ val
  · unfold npfDecPrec
    split_ifs with compiled
    · exact prec compiled
    · rfl
  · unfold npfHexPrec
    split_ifs with compiled
    · exact prec compiled
    · rfl
  · rw [defaults_eq]
    rfl
  · rw [defaults_eq]
    rfl
  · rw [defaults_eq, Request.realSpec, request, ← Bool.and_assoc, Bool.and_self]

theorem convertFloat_eq (fs : NpfFormatSpec) (args : List Arg) :
    convertFloat cfg fs args = (do
      let (val, args) ← vaReal cfg fs.lengthModifier args
      let (need0x, len, buf) ← floatRun cfg fs val
      let signC := if npfRealToIntRep cfg val >>> (cfg.realBits - 1) ≠ 0 then '-' else fs.prepend
      let fs := if len < 0 ∧ cfg.fieldWidth then { fs with leadingZeroPad := false } else fs
      pure (⟨fs, signC, need0x, false, .reversed buf len.natAbs⟩, args)) := by
  unfold convertFloat floatRun
  rcases vaReal cfg fs.lengthModifier args with e | ⟨val, rest⟩
  · rfl
  simp only [bind, Except.bind, pure, Except.pure]
  by_cases hex : (cfg.floatHex && fs.convSpec == .floatHex) = true
  · simp only [if_pos hex]
    rcases npfAtoaRev cfg .blank fs _ with e | ⟨hexLen, buf⟩
    · rfl
    · by_cases number : hexLen ≠ 0
      · have nonneg : ¬ ((hexLen : ℤ) < 0 ∧ cfg.fieldWidth = true) := fun ⟨negative, _⟩ => by omega
        simp only [if_pos number, if_neg nonneg, Int.natAbs_natCast]
      · simp only [if_neg number]
        by_cases sci : cfg.useSci = true
        · simp only [if_pos sci]
          rcases npfEtoaRev cfg buf fs val with e | ⟨len, buf⟩ <;> simp only
        · simp only [if_neg sci]
          rcases npfFtoaRev cfg buf fs (npfDecPrec cfg fs) val with e | ⟨len, buf⟩ <;> simp only
  · simp only [if_neg hex, ne_eq, not_true_eq_false, if_false]
    by_cases sci : cfg.useSci = true
    · simp only [if_pos sci]
      rcases npfEtoaRev cfg .blank fs val with e | ⟨len, buf⟩ <;> simp only
    · simp only [if_neg sci]
      rcases npfFtoaRev cfg .blank fs (npfDecPrec cfg fs) val with e | ⟨len, buf⟩ <;> simp only

/-- The field of a real; a word is not extended by zeros. -/
theorem convertedText_real (real : IsReal cfg fs.convSpec) {conv : Converted cfg} {len : ℤ}
    (same : conv.fs =
      if len < 0 ∧ cfg.fieldWidth then { defaults cfg fs with leadingZeroPad := false }
      else defaults cfg fs) (number : conv.zero = false) (digits : List Char) :
    convertedText conv digits =
      padField (request cfg fs).width (request cfg fs).left
        ((request cfg fs).zero && decide (0 ≤ len)) (signText conv.signC ++ prefixText conv.need0x)
        digits := by
  rw [defaults_eq, real.kept] at same
  have kind : conv.fs.convSpec = fs.convSpec := by
    rw [same]
    split_ifs <;> rfl
  have zeros : precPad cfg conv = 0 := by
    rw [precPad, kind, real.float]
    simp
  have fill : (cfg.fieldWidth && conv.fs.leadingZeroPad) =
      ((request cfg fs).zero && decide (0 ≤ len)) := by
    rw [same, request]
    by_cases negative : len < 0
    · rcases cfg.fieldWidth <;> simp [negative]
    · simp [negative, not_lt.mp negative]
  rw [@convertedText_open cfg fs _ (by rw [same]; split_ifs <;> rfl)
    (by rw [same]; split_ifs <;> rfl) number, zeros, fill]
  rfl

theorem converted_real (real : IsReal cfg fs.convSpec)
    (nonneg : cfg.precision = true → fs.precOpt ≠ .none → 0 ≤ fs.prec) :
    converted cfg fs args = (do
      let (val, args) ← vaReal cfg fs.lengthModifier args
      let text ← realText cfg (request cfg fs) val
      pure ⟨text, [], args⟩) := by
  have kind : (defaults cfg fs).convSpec = fs.convSpec := by rw [defaults_eq]
  have modifier : (defaults cfg fs).lengthModifier = fs.lengthModifier := by rw [defaults_eq]
  have prepend : (defaults cfg fs).prepend = (request cfg fs).prepend := by
    rw [defaults_eq]
    rfl
  have taken : convert cfg (defaults cfg fs) 0 args =
      (convertFloat cfg (defaults cfg fs) args).map fun (conv, rest) => (conv, [], rest) := by
    unfold convert
    rw [kind, if_pos real.float]
    rcases convertFloat cfg (defaults cfg fs) args with e | ⟨conv, rest⟩ <;> rfl
  rw [← modifier, converted, taken, convertFloat_eq]
  rcases vaReal cfg (defaults cfg fs).lengthModifier args with e | ⟨val, rest⟩
  · rfl
  simp only [bind, Except.bind, realText, floatRun_request real nonneg]
  rcases floatRun cfg (request cfg fs).realSpec val with e | ⟨need0x, len, buf⟩
  · rfl
  simp only [pure, Except.pure, Except.map, payloadText]
  rcases readDown buf len.natAbs with e | digits
  · rfl
  simp only [List.map_nil]
  rw [@convertedText_real cfg fs real _ _ rfl rfl, prepend]

end

/-- **A conversion answers its request.** -/
theorem converted_eq {fs : NpfFormatSpec} (compiled : Compiled cfg fs.convSpec)
    (nonneg : cfg.precision = true → fs.precOpt ≠ .none → 0 ≤ fs.prec) (args : List Arg) :
    converted cfg fs args = answer cfg (request cfg fs) args := by
  have modifier : (defaults cfg fs).lengthModifier = fs.lengthModifier := by rw [defaults_eq]
  have prepend : (defaults cfg fs).prepend = fs.prepend := by rw [defaults_eq]
  have named : (defaults cfg fs).convSpec = fs.convSpec := by rw [defaults_eq]
  have same : (request cfg fs).convSpec = fs.convSpec := rfl
  cases kind : fs.convSpec with
  | none =>
      rw [kind] at compiled
      exact compiled.elim
  | percent => exact converted_percent kind
  | char => exact converted_char kind
  | string => exact converted_string kind nonneg
  | signedInt =>
      rw [converted_integer (by rw [kind]; trivial) nonneg,
        extractInt_signed (named.trans kind), modifier, prepend, answer, same, kind]
      simp only [defaultDigits, reduceCtorEq, if_false]
      rcases run : extractSigned cfg fs.lengthModifier args with e | ⟨sval, rest⟩ <;>
        simp only [request, run, Except.map, bind, Except.bind, pure, Except.pure]
  | pointer =>
      rw [converted_integer (by rw [kind]; trivial) nonneg,
        extractInt_pointer (named.trans kind), answer, same, kind]
      rcases vaPtr args with e | ⟨p, m, rest⟩ <;> rfl
  | writeback =>
      rw [kind] at compiled
      exact converted_writeback kind compiled
  | binary | octal | hexInt | unsignedInt =>
      rw [kind] at compiled
      rw [converted_integer (by rw [kind]; exact compiled) nonneg,
        extractInt_unsigned (by rw [named, kind]; decide), modifier, answer, same, kind]
      simp only [defaultDigits, reduceCtorEq, if_false]
      rcases run : extractUnsigned cfg fs.lengthModifier args with e | ⟨v, rest⟩ <;>
        simp only [request, run, Except.map, bind, Except.bind, pure, Except.pure]
  | floatDec | floatHex | floatSci | floatShortest =>
      rw [kind] at compiled
      rw [converted_real (by rw [kind]; exact compiled) nonneg, answer, same, kind]
      rfl

end Nanoprintf
