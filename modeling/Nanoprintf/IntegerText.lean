import Nanoprintf.Arguments
import Nanoprintf.Saturation

/-!
# Integer conversions and the standard

What C11 has an integer conversion print, as `integerReference` says it: the
argument is reduced to the type its modifier names, and its digits are extended
to the precision and put in a field of the width, both under the ceiling. The
engine prints this text unless the parser cuts a number short.
-/

set_option autoImplicit false

namespace Nanoprintf

open Foundations

variable {cfg : Config}

/-! ## The reference -/

/-- The text of an integer of a type. -/
def Request.integerText (r : Request) {n : ℕ} (v : BitVec n) : List Char :=
  if r.convSpec = .signedInt then
    r.integer 1 (if v.toInt < 0 then '-' else r.prepend) v.toInt.natAbs
  else r.integer 1 NUL v.toNat

/-- What an integer conversion prints, and the arguments it leaves. -/
def integerReference (cfg : Config) (d : Directive) (args : List Arg) :
    Run (List Char × List Arg) := do
  let (width, negative, args) ← wantedWidth cfg d.width args
  let (precision, args) ← wantedPrecision cfg d.precision args
  let (v, args) ← vaInt (max cfg.intBits (d.length.bits cfg)) args
  pure ((d.request cfg width negative precision).integerText (v.setWidth (d.length.bits cfg)), args)

/-! ## The answer to an integer directive -/

section

variable {m : LengthToken} (on : m.enabled cfg = true)
include on

theorem extractSigned_modifier [cfg.FixedCarried] (args : List Arg) :
    extractSigned cfg (m.modifier cfg) args =
    (vaInt (max cfg.intBits (m.bits cfg)) args).map fun p =>
      ((p.1.setWidth (m.bits cfg)).toInt, p.2) := by
  have projections : ∀ lm, extractSigned cfg lm args = (vaInt (argWidth cfg lm) args).map fun p =>
      ((p.1.setWidth (narrowWidth cfg lm)).toInt, p.2) := by
    intro lm
    unfold extractSigned
    rcases vaInt (argWidth cfg lm) args with e | p <;> rfl
  rw [projections, LengthToken.argWidth_modifier on, LengthToken.narrowWidth_modifier on]

theorem extractUnsigned_modifier [cfg.FixedCarried] (args : List Arg) :
    extractUnsigned cfg (m.modifier cfg) args =
    (vaInt (max cfg.intBits (m.bits cfg)) args).map fun p =>
      ((p.1.setWidth (m.bits cfg)).toNat, p.2) := by
  have projections : ∀ lm, extractUnsigned cfg lm args = (vaInt (argWidth cfg lm) args).map fun p =>
      ((p.1.setWidth (narrowWidth cfg lm)).toNat, p.2) := by
    intro lm
    unfold extractUnsigned
    rcases vaInt (argWidth cfg lm) args with e | p <;> rfl
  rw [projections, LengthToken.argWidth_modifier on, LengthToken.narrowWidth_modifier on]

end

/-- The conversions of integer arguments. -/
def OfInteger (conv : ConvSpec) : Prop :=
  conv ∈ [ConvSpec.signedInt, .binary, .octal, .hexInt, .unsignedInt]

section

variable {d : Directive} {args rest : List Arg}

theorem answer_integer [cfg.FixedCarried] (on : d.enabled cfg = true)
    (kind : OfInteger d.conversion.convSpec) (width : ℕ) (negative : Bool) (precision : Option ℕ)
    (args : List Arg) :
    answer cfg (d.request cfg width negative precision) args =
      (vaInt (max cfg.intBits (d.length.bits cfg)) args).map fun p =>
        ⟨(d.request cfg width negative precision).integerText (p.1.setWidth (d.length.bits cfg)),
          [], p.2⟩ := by
  have length : d.length.enabled cfg = true := by
    simp only [Directive.enabled, Bool.and_eq_true] at on
    exact on.1.2
  have signed := extractSigned_modifier length args
  have unsigned := extractUnsigned_modifier length args
  have spec : (d.request cfg width negative precision).convSpec = d.conversion.convSpec := rfl
  have modifier : (d.request cfg width negative precision).lengthModifier =
    d.length.modifier cfg := rfl
  simp only [OfInteger, List.mem_cons, List.not_mem_nil, or_false] at kind
  unfold answer Request.integerText
  rw [spec, modifier, signed, unsigned]
  rcases vaInt (max cfg.intBits (d.length.bits cfg)) args with e | ⟨v, rest⟩
  · rcases kind with kind | kind | kind | kind | kind <;> rw [kind] <;> rfl
  · rcases kind with kind | kind | kind | kind | kind <;> rw [kind] <;> rfl

end

/-! ## Fields and precisions -/

namespace Request

variable (r : Request)

/-- The request without a width. -/
def unpadded : Request := { r with width := 0 }

theorem integerText_eq_padField {n : ℕ} (v : BitVec n) :
    ∃ zero head body, r.integerText v = padField r.width r.left zero head body ∧
      r.unpadded.integerText v = head ++ body := by
  unfold integerText
  by_cases signed : r.convSpec = .signedInt
  · rw [if_pos signed, if_pos (show r.unpadded.convSpec = .signedInt from signed)]
    exact ⟨_, _, _, rfl, padField_of_le (Nat.zero_le _) _ _⟩
  · rw [if_neg signed, if_neg (show ¬ r.unpadded.convSpec = .signedInt from signed)]
    exact ⟨_, _, _, rfl, padField_of_le (Nat.zero_le _) _ _⟩

theorem length_integerText {n : ℕ} (v : BitVec n) :
    (r.integerText v).length = max r.width (r.unpadded.integerText v).length := by
  obtain ⟨zero, head, body, text, bare⟩ := r.integerText_eq_padField v
  rw [text, bare, length_padField, List.length_append]

/-- A field that the text fills. -/
theorem integerText_of_le {n : ℕ} {v : BitVec n}
    (full : r.width ≤ (r.unpadded.integerText v).length) :
    r.integerText v = r.unpadded.integerText v := by
  obtain ⟨zero, head, body, text, bare⟩ := r.integerText_eq_padField v
  rw [bare, List.length_append] at full
  rw [text, bare, padField_of_le full]

/-- The zeros of an integer with a precision that is longer than its digits. -/
theorem count_integer (decimal : r.convSpec ≠ .binary ∧ r.convSpec ≠ .pointer) {p v : ℕ}
    (precision : r.precision = some p) (long : numeralLength r.base v < p) (default : ℕ)
    (c : Char) :
    (r.integer default c v).count '0' + numeralLength r.base v =
      (signText c ++ prefixText (r.prefixLetter v)).count '0' +
        (numeralText r.base r.caseAdjust v).count '0' + p := by
  have fill : r.zeroFills v = false := by
    obtain ⟨notBinary, notPointer⟩ := decimal
    rw [zeroFills, precision]
    cases kind : r.convSpec <;> simp_all
  have digits : r.digits default v =
      List.replicate (p - numeralLength r.base v) '0' ++
        (numeralText r.base r.caseAdjust v).reverse := by
    have shown : ¬ (v = 0 ∧ r.precision = some 0) := by
      rw [precision]
      rintro ⟨-, zero⟩
      have := Option.some.inj zero
      omega
    rw [Request.digits, if_neg shown, precision, Option.getD_some, zeroExtend, List.length_reverse,
      length_numeralText]
    refine if_neg ?_
    rintro ⟨-, -, head⟩
    refine head ?_
    rw [show p - numeralLength r.base v = p - numeralLength r.base v - 1 + 1 by omega,
      List.replicate_succ]
    rfl
  rw [integer, fill, digits, padField]
  simp only [Bool.false_eq_true, if_false]
  split_ifs with left
  all_goals
    simp only [List.count_append, List.count_reverse, List.count_replicate_self,
      List.count_replicate]
    simp
    omega

end Request

/-! ## The engine -/

theorem LengthToken.bits_le (cfg : Config) (m : LengthToken) : m.bits cfg ≤ 64 := by
  have char := cfg.char_le_short
  have short := cfg.short_le_int
  have int := cfg.int_le_long
  have long := cfg.longBits_le
  have size := cfg.sizeBits_le
  have ptrdiff := cfg.ptrdiff_eq_size
  cases m with
  | none | L => exact int.trans long
  | hh => exact (char.trans short).trans (int.trans long)
  | h => exact short.trans (int.trans long)
  | l => exact long
  | ll | j => exact le_rfl
  | z => exact size
  | t => exact ptrdiff.le.trans size
  | w fast width =>
      have least := cfg.least_standard width
      have fastest := cfg.fast_standard width
      simp only [List.mem_cons, List.not_mem_nil, or_false] at least fastest
      rw [LengthToken.bits]
      split_ifs <;> omega

/-- What the engine prints and what is meant: the texts of two requests that differ in the width
and in the precision only, and only if a number is cut short. -/
structure Compared (cfg : Config) (d : Directive) (args rest : List Arg) (t : List Char) where
  width : ℕ
  wanted : ℕ
  negative : Bool
  precision : Option ℕ
  wantedPrecision : Option ℕ
  value : BitVec (d.length.bits cfg)
  reference : t = (d.request cfg wanted negative wantedPrecision).integerText value
  engine : (Piece.directive d).format cfg args =
    .ok ⟨(d.request cfg width negative precision).integerText value, [], rest⟩
  le : width ≤ wanted
  width_iff : width = wanted ↔ ∀ ds, d.width = .digits ds → ¬ CutShort cfg ds
  precision_iff : precision = wantedPrecision ↔
    ∀ ds, d.precision = .literal false ds → ¬ CutShort cfg ds
  large : precision ≠ wantedPrecision →
    ∃ n m, precision = some n ∧ wantedPrecision = some m ∧ 2048 ≤ n ∧ 2048 ≤ m
  bare : ∀ ds, d.width = .digits ds → wanted = min (decimalValue ds) cfg.fmtNumMax.toNat ∧
    integerReference cfg { d with width := .digits [] } args =
      .ok ((d.request cfg wanted negative wantedPrecision).unpadded.integerText value, rest)

section

variable {d : Directive} {args rest : List Arg} {t : List Char}

theorem exists_compared [cfg.FixedCarried] (on : d.enabled cfg = true)
    (kind : OfInteger d.conversion.convSpec)
    (reference : integerReference cfg d args = .ok (t, rest)) :
    Nonempty (Compared cfg d args rest t) := by
  obtain ⟨⟨wanted, negative, middle⟩, widthRun, reference⟩ := bind_eq_ok.mp reference
  obtain ⟨⟨wantedPrec, last⟩, precisionRun, reference⟩ := bind_eq_ok.mp reference
  obtain ⟨⟨v, left⟩, valueRun, reference⟩ := bind_eq_ok.mp reference
  obtain ⟨rfl, rfl⟩ := Prod.mk.inj (pure_eq_ok.mp reference)
  obtain ⟨width, le, engineWidth, widthIff⟩ := exists_resolveWidth widthRun
  obtain ⟨precision, enginePrecision, precisionIff, large⟩ := exists_resolvePrecision precisionRun
  refine ⟨⟨width, wanted, negative, precision, wantedPrec, v.setWidth _, rfl, ?_, le, widthIff,
    precisionIff, large, fun ds shape => ?_⟩⟩
  · simp only [Piece.format, resolve, engineWidth, enginePrecision, bind, Except.bind, pure,
      Except.pure, answer_integer on kind, valueRun, Except.map]
  · rw [shape] at widthRun
    obtain ⟨rfl, rfl, rfl⟩ : _ ∧ _ ∧ _ := by
      simpa only [wantedWidth, Except.ok.injEq, Prod.mk.injEq] using widthRun
    refine ⟨rfl, ?_⟩
    simp only [integerReference, wantedWidth, bind, Except.bind, precisionRun, valueRun, pure,
      Except.pure]
    rfl

/-- A long precision can be read from the text. -/
theorem precision_of_integerText_eq (decimal : d.conversion.convSpec ≠ .binary)
    (integer : OfInteger d.conversion.convSpec) {w w' : ℕ} {negative : Bool} {n m : ℕ}
    (long : 2048 ≤ n) (long' : 2048 ≤ m) {v : BitVec (d.length.bits cfg)}
    (same : (d.request cfg w negative (some n)).integerText v =
      (d.request cfg w' negative (some m)).integerText v) : n = m := by
  have kind : d.conversion.convSpec ≠ .binary ∧ d.conversion.convSpec ≠ .pointer :=
    ⟨decimal, fun pointer => by simp [OfInteger, pointer] at integer⟩
  have short : ∀ {k : ℕ}, k < 2 ^ 64 →
      numeralLength (d.request cfg 0 negative none).base k ≤ 64 := by
    intro k word
    have radix : 2 ≤ (d.request cfg 0 negative none).base := by
      unfold Request.base
      split <;> norm_num
    exact numeralLength_le radix (by norm_num)
      (word.trans_le (Nat.pow_le_pow_left radix 64))
  have equal : ∀ (c : Char) {k : ℕ}, k < 2 ^ 64 →
      (d.request cfg w negative (some n)).integer 1 c k =
        (d.request cfg w' negative (some m)).integer 1 c k → n = m := by
    intro c k word same
    have room := short word
    have first := (d.request cfg w negative (some n)).count_integer kind (p := n) (v := k) rfl
      (lt_of_le_of_lt room (by omega)) 1 c
    have second := (d.request cfg w' negative (some m)).count_integer kind (p := m) (v := k) rfl
      (lt_of_le_of_lt room (by omega)) 1 c
    rw [same] at first
    exact Nat.add_left_cancel (first.symm.trans second)
  have bits := LengthToken.bits_le cfg d.length
  have word := v.isLt.trans_le (Nat.pow_le_pow_right two_pos bits)
  unfold Request.integerText at same
  by_cases signed : d.conversion.convSpec = .signedInt
  · have kind : ∀ w p, (d.request cfg w negative p).convSpec = .signedInt := fun _ _ => signed
    rw [if_pos (kind _ _), if_pos (kind _ _)] at same
    refine equal _ ?_ same
    have magnitude := magnitude_int v
    have negated := (-v).isLt.trans_le (Nat.pow_le_pow_right two_pos bits)
    split_ifs at magnitude <;> omega
  · have kind : ∀ w p, ¬ (d.request cfg w negative p).convSpec = .signedInt := fun _ _ => signed
    rw [if_neg (kind _ _), if_neg (kind _ _)] at same
    exact equal _ word same

/-- **Integer conversions print what C11 says**, exactly if the precision is not cut short, and
the width is not either or the text fills the field without it. -/
theorem npfVpprintf_integer_iff [cfg.FixedCarried] (on : d.enabled cfg = true) (greedy : d.Greedy)
    (kind : d.conversion.convSpec ∈ [ConvSpec.signedInt, .octal, .hexInt, .unsignedInt])
    (reference : integerReference cfg d args = .ok (t, rest)) (fs : NpfFormatSpec) :
    (npfVpprintf cfg record [] (d.text ++ [NUL]) args fs).map (fun out => out.2.1) = .ok t ↔
      (∀ ds, d.precision = .literal false ds → ¬ CutShort cfg ds) ∧
      ∀ ds, d.width = .digits ds → CutShort cfg ds →
        ∀ t₀ rest₀, integerReference cfg { d with width := .digits [] } args = .ok (t₀, rest₀) →
          min (decimalValue ds) cfg.fmtNumMax.toNat ≤ t₀.length := by
  have integer : OfInteger d.conversion.convSpec := by
    simp only [OfInteger, List.mem_cons, List.not_mem_nil, or_false] at kind ⊢
    tauto
  have decimal : d.conversion.convSpec ≠ .binary := fun binary => by simp [binary] at kind
  obtain ⟨both⟩ := exists_compared on integer reference
  have printed : (npfVpprintf cfg record [] (d.text ++ [NUL]) args fs).map (fun out => out.2.1) =
      .ok t ↔ (d.request cfg both.width both.negative both.precision).integerText both.value =
        (d.request cfg both.wanted both.negative both.wantedPrecision).integerText both.value := by
    rw [npfVpprintf_directive on greedy, both.engine, ← both.reference]
    exact ⟨Except.ok.inj, congrArg Except.ok⟩
  rw [printed, ← both.precision_iff]
  constructor
  · intro same
    have agrees : both.precision = both.wantedPrecision := by
      by_contra different
      obtain ⟨n, m, used, meant, long, long'⟩ := both.large different
      rw [used, meant] at same different
      exact different (congrArg some (precision_of_integerText_eq decimal integer long long' same))
    refine ⟨agrees, fun ds shape short t₀ rest₀ bare => ?_⟩
    obtain ⟨wanted, run⟩ := both.bare ds shape
    obtain ⟨rfl, -⟩ := Prod.mk.inj (Except.ok.inj (bare.symm.trans run))
    have less : both.width ≠ both.wanted := fun equal => both.width_iff.mp equal ds shape short
    have le := both.le
    rw [agrees] at same
    have used : _ = max both.width _ := (d.request cfg both.width both.negative
      both.wantedPrecision).length_integerText both.value
    have meant : _ = max both.wanted _ := (d.request cfg both.wanted both.negative
      both.wantedPrecision).length_integerText both.value
    have unpadded : (d.request cfg both.width both.negative both.wantedPrecision).unpadded =
      (d.request cfg both.wanted both.negative both.wantedPrecision).unpadded := rfl
    rw [same, unpadded] at used
    omega
  · rintro ⟨agrees, fills⟩
    rw [agrees]
    by_cases kept : ∀ ds, d.width = .digits ds → ¬ CutShort cfg ds
    · rw [both.width_iff.mpr kept]
    · push Not at kept
      obtain ⟨ds, shape, short⟩ := kept
      obtain ⟨wanted, run⟩ := both.bare ds shape
      have full := fills ds shape short _ _ run
      rw [← wanted] at full
      exact ((d.request cfg both.width both.negative both.wantedPrecision).integerText_of_le
        (both.le.trans full)).trans ((d.request cfg both.wanted both.negative
          both.wantedPrecision).integerText_of_le full).symm

end

/-- `%-#*.3o` on the 64-bit target. -/
theorem npfVpprintf_integer_octal :
    (npfVpprintf .standard record [] ("%-#*.3o".toList ++ [NUL]) [.int 32 6, .int 32 9] .zeroed).map
      (fun out => out.2.1) = .ok "011   ".toList :=
  (@npfVpprintf_integer_iff .standard
    ⟨[.minus, .hash], .star, .literal false [3], .none, .letter .o false⟩
    [.int 32 6, .int 32 9] [] _ _ rfl (by decide) (by decide) rfl .zeroed).mpr
      ⟨fun ds _ => not_cutShort_of_wide (by decide) (by decide) ds, fun ds star => by cases star⟩

/-- `%30000d` where `int` has 16 bits: a field of 3000 characters instead of 8192. -/
theorem npfVpprintf_integer_cut : ∃ s t,
    (npfVpprintf .avr record [] ("%30000d".toList ++ [NUL]) [.int 16 7] .zeroed).map
      (fun out => out.2.1) = .ok s ∧
    integerReference .avr ⟨[], .digits [3, 0, 0, 0, 0], .absent, .none, .letter .d false⟩
      [.int 16 7] = .ok (t, []) ∧
    s.length = 3000 ∧ t.length = 8192 := by
  let d : Directive := ⟨[], .digits [3, 0, 0, 0, 0], .absent, .none, .letter .d false⟩
  have text : "%30000d".toList = d.text := rfl
  refine ⟨(d.request .avr 3000 false none).integerText 7#16,
    (d.request .avr 8192 false none).integerText 7#16, ?_, rfl, ?_, ?_⟩
  · rw [text, npfVpprintf_directive rfl (by decide)]
    rfl
  · rw [Request.length_integerText]
    rfl
  · rw [Request.length_integerText]
    rfl

/-! ## Binary -/

/-- A binary number in a field, which zeros fill behind the prefix or spaces in front of it. -/
def Directive.binaryText (d : Directive) (width : ℕ) (left zeros : Bool) (precision : Option ℕ)
    (v : ℕ) : List Char :=
  padField width left zeros
    (if v ≠ 0 ∧ Flag.hash ∈ d.flags then ['0', d.conversion.char] else [])
    (Request.zeroExtend (precision.getD 1)
      (if v = 0 ∧ precision = some 0 then [] else (numeralText 2 0 v).reverse))

/-- What a binary conversion prints, and the arguments it leaves: the `0` flag is in effect with a
precision too, unless there is no digit. -/
def binaryReference (cfg : Config) (d : Directive) (args : List Arg) :
    Run (List Char × List Arg) := do
  let (width, negative, args) ← wantedWidth cfg d.width args
  let (precision, args) ← wantedPrecision cfg d.precision args
  let (v, args) ← vaInt (max cfg.intBits (d.length.bits cfg)) args
  let v := (v.setWidth (d.length.bits cfg)).toNat
  pure (d.binaryText width (decide (Flag.minus ∈ d.flags) || negative)
    (decide (Flag.zero ∈ d.flags) && !decide (v = 0 ∧ precision = some 0)) precision v, args)

section

variable {d : Directive} {isUpper : Bool} (binary : d.conversion = .letter .b isUpper)
include binary

theorem integerText_binary (width : ℕ) (negative : Bool) (precision : Option ℕ) {n : ℕ}
    (v : BitVec n) : (d.request cfg width negative precision).integerText v =
      d.binaryText width (decide (Flag.minus ∈ d.flags) || negative)
        (decide (Flag.zero ∈ d.flags) && !decide (v.toNat = 0 ∧ precision = some 0)) precision
        v.toNat := by
  have kind : (d.request cfg width negative precision).convSpec = .binary := by
    simp [Directive.request, binary, Conversion.convSpec, Letter.convSpec]
  have letter : Char.ofNat ('B'.toNat + d.conversion.caseAdjust) = d.conversion.char := by
    rw [binary]
    cases isUpper <;> rfl
  have digits : ∀ a, (numeralText 2 a v.toNat).reverse = (numeralText 2 0 v.toNat).reverse :=
    fun a => (binaryText_numeral a v.toNat).symm.trans (binaryText_numeral 0 v.toNat)
  rw [Request.integerText, if_neg (by rw [kind]; decide), Request.integer, Request.zeroFills,
    Request.prefixLetter, Request.digits, Request.base]
  simp only [kind, digits, reduceCtorEq, false_and, if_false]
  rw [Directive.binaryText]
  have head : signText NUL ++ prefixText (if v.toNat ≠ 0 ∧ Flag.hash ∈ d.flags then
      d.conversion.char else NUL) =
        if v.toNat ≠ 0 ∧ Flag.hash ∈ d.flags then ['0', d.conversion.char] else [] := by
    have visible : d.conversion.char ≠ NUL := by
      rw [binary]
      cases isUpper <;> decide
    split_ifs <;> simp [signText, prefixText, visible]
  have blank : (decide (v.toNat = 0) && precision == some 0) =
      decide (v.toNat = 0 ∧ precision = some 0) := by
    rw [Bool.decide_and, Bool.beq_eq_decide_eq]
  simp only [Directive.request, letter, decide_eq_true_eq, head, blank]
  congr

theorem binaryReference_eq (args : List Arg) :
    integerReference cfg d args = binaryReference cfg d args := by
  simp only [integerReference, binaryReference, integerText_binary binary]

end

/-- **Binary conversions print the binary number**, if no number is cut short. -/
theorem npfVpprintf_binary [cfg.FixedCarried] {d : Directive} {isUpper : Bool}
    (on : d.enabled cfg = true) (greedy : d.Greedy) (binary : d.conversion = .letter .b isUpper)
    (kept : ∀ ds, d.width = .digits ds ∨ d.precision = .literal false ds → ¬ CutShort cfg ds)
    {args rest : List Arg} {t : List Char} (reference : binaryReference cfg d args = .ok (t, rest))
    (fs : NpfFormatSpec) :
    (npfVpprintf cfg record [] (d.text ++ [NUL]) args fs).map (fun out => out.2.1) = .ok t := by
  rw [← binaryReference_eq binary] at reference
  have integer : OfInteger d.conversion.convSpec := by
    simp [OfInteger, binary, Conversion.convSpec, Letter.convSpec]
  obtain ⟨both⟩ := exists_compared on integer reference
  rw [npfVpprintf_directive on greedy, both.engine,
    both.width_iff.mpr fun ds shape => kept ds (.inl shape),
    both.precision_iff.mpr fun ds shape => kept ds (.inr shape)]
  exact congrArg Except.ok both.reference.symm

/-- `%#010hhb` of 259. -/
theorem npfVpprintf_binary_prefixed :
    (npfVpprintf .standard record [] ("%#010hhb".toList ++ [NUL]) [.int 32 259] .zeroed).map
      (fun out => out.2.1) = .ok "0b00000011".toList :=
  @npfVpprintf_binary .standard _
    ⟨[.hash, .zero], .digits [1, 0], .absent, .hh, .letter .b false⟩ _ rfl (by decide) rfl
    (fun ds _ => not_cutShort_of_wide (by decide) (by decide) ds) _ [] _ rfl .zeroed

/-- A precision does not cancel the `0` flag. -/
theorem npfVpprintf_binary_zeros :
    (npfVpprintf .standard record [] ("%010.5b".toList ++ [NUL]) [.int 32 3] .zeroed).map
        (fun out => out.2.1) = .ok "0000000011".toList ∧
      Directive.binaryText ⟨[.zero], .digits [1, 0], .literal false [5], .none, .letter .b false⟩
        10 false false (some 5) 3 = "     00011".toList :=
  ⟨rfl, rfl⟩

end Nanoprintf
