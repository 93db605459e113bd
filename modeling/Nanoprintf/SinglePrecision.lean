import Nanoprintf.CallSites
import Nanoprintf.RealAgreement

/-!
# Single precision

A build that computes with `float` prints what the same build prints with `double`: every
`float` is a `double`, and the conversions cannot tell them apart. Digits that are dropped in
front of the point are the exception. The build with `float` knows the number to be whole only
below `2 ^ 24`, and rounds a tie above it upwards; `%e` and `%g` agree outside that range.
`npfPprintf_single` and `npfSnprintf_single` are about calls, the same call in both builds.
-/

set_option autoImplicit false

namespace Nanoprintf

open Foundations

variable {cfg : Config} {κ : Type}

/-! ## Conversions -/

/-- The double with the value of a float. -/
def widened (f : RealBits cfg) : RealBits cfg.doubled := widen (f.setWidth 32)

/-- The intermediate has room for the bits of a subnormal number. -/
def Kept (cfg : Config) (f : RealBits cfg) : Prop :=
  24 ≤ cfg.manBits ∨ biasedExp cfg f.toNat ≠ 0 ∨ fracField cfg f.toNat = 0

/-- Both types know whether the number is whole, or neither does. -/
def Outside (cfg : Config) (f : RealBits cfg) : Prop :=
  magnitude cfg f < 2 ^ 24 ∨ 2 ^ min cfg.manBits 53 ≤ magnitude cfg f

section

variable (single : cfg.singlePrecision = true) (f : RealBits cfg)
include single

theorem setWidth_single : (f.setWidth 32).toNat = f.toNat :=
  BitVec.toNat_setWidth_of_le (by simp [Config.realBits, single])

theorem fields_single : biasedExp cfg f.toNat = f.toNat / 2 ^ 23 % 2 ^ 8 ∧
    fracField cfg f.toNat = f.toNat % 2 ^ 23 ∧ cfg.expBits = 8 := by
  have bits := realManBits_single single
  have exp : cfg.expBits = 8 := by rw [Config.expBits, if_pos single]
  rw [biasedExp, fracField, bits, exp]
  exact ⟨rfl, rfl, rfl⟩

theorem atoaArg_single : atoaArg cfg f = widened f := if_pos single

omit single in
theorem atoaArg_doubled (f : RealBits cfg.doubled) : atoaArg cfg.doubled f = f :=
  BitVec.setWidth_eq f

theorem isFinite_widened : IsFinite cfg.doubled (widened f) ↔ IsFinite cfg f := by
  obtain ⟨exp, frac, bits⟩ := fields_single single f
  have special : IsFinite cfg f ↔ f.toNat / 2 ^ 23 % 2 ^ 8 ≠ 255 := by
    rw [IsFinite, exp, bits]
    norm_num
  rw [special]
  constructor
  · intro finite top
    exact finite (widen_special (by rwa [setWidth_single single f])).1
  · intro finite
    exact doubleFinite_widen (by rwa [setWidth_single single f])

theorem fracField_widened (special : ¬ IsFinite cfg f) :
    fracField cfg.doubled (widened f).toNat ≠ 0 ↔ fracField cfg f.toNat ≠ 0 := by
  obtain ⟨exp, frac, bits⟩ := fields_single single f
  rw [IsFinite, not_not, exp, bits] at special
  have double : fracField cfg.doubled (widened f).toNat = f.toNat % 2 ^ 23 * 2 ^ 29 := by
    have := @widen_special (f.setWidth 32) (by rwa [setWidth_single single f])
    rw [setWidth_single single f] at this
    exact this.2
  rw [double, frac]
  exact ⟨fun nonzero zero => nonzero (by rw [zero, Nat.zero_mul]),
    fun nonzero => Nat.mul_ne_zero nonzero (by positivity)⟩

theorem msb_widened : (widened f).msb = f.msb := by
  have same := widen_msb (f.setWidth 32)
  have bits : cfg.realBits = 32 := by rw [Config.realBits, if_pos single]
  rw [widened]
  refine same.trans ?_
  have top : 2 ^ (cfg.realBits - 1) = 2 ^ 31 := by rw [bits]
  rw [BitVec.msb_eq_decide, BitVec.msb_eq_decide, setWidth_single single f, top]

variable {f}

theorem magnitude_widened (finite : IsFinite cfg f) :
    magnitude cfg.doubled (widened f) = magnitude cfg f := by
  have double := doubleMagnitude_atoaArg ((isFinite_widened single f).mpr finite)
  rw [atoaArg_doubled] at double
  rw [← double, ← doubleMagnitude_atoaArg finite, atoaArg_single single]

/-- What the conversions read of a float and of its double. -/
theorem exists_reads_widened (finite : IsFinite cfg f) : ∃ y bin exp bin' exp',
    Reads cfg f bin exp ∧ Reads cfg.doubled (widened f) bin' exp' ∧
      Widened y bin exp bin' exp' := by
  obtain ⟨bin, exp, reads⟩ := exists_reads finite
  obtain ⟨bin', exp', reads'⟩ := exists_reads ((isFinite_widened single f).mpr finite)
  have bits := realManBits_single single
  have value : (bin' : ℚ) * 2 ^ (exp' - 52) = bin * 2 ^ (exp - 23) := by
    have same := magnitude_widened single finite
    rw [reads.value, reads'.value, bits] at same
    exact same
  obtain ⟨y, wide⟩ := exists_widened single reads.norm reads'.norm value
  exact ⟨y, bin, exp, bin', exp', reads, reads', wide⟩

theorem machineOf_widened (finite : IsFinite cfg f) (kept : Kept cfg f) :
    (machineOf cfg f).Alike cfg (machineOf cfg.doubled (widened f)) := by
  obtain ⟨y, bin, exp, bin', exp', reads, reads', wide⟩ := exists_reads_widened single finite
  rw [reads.machineOf_eq, reads'.machineOf_eq]
  refine machine_widened single reads.norm reads'.norm wide fun nonzero => ?_
  refine kept.imp_right fun small => ?_
  have normalized := reads.normalized
  by_cases subnormal : biasedExp cfg f.toNat = 0
  · rw [normalize, if_neg (not_not.mpr subnormal)] at normalized
    rw [← (Prod.mk.inj normalized).1]
    exact small.resolve_left (not_not.mpr subnormal)
  · rw [normalize, if_pos subnormal, realManBits_single single] at normalized
    have full : 2 ^ 23 ≤ bin := by
      rw [← (Prod.mk.inj normalized).1, ← Nat.one_shiftLeft]
      exact Nat.right_le_or
    have room : bin' < 2 ^ 53 := reads'.norm.small
    -- a full mantissa is not shifted further
    have above : 2 ^ 53 ≤ bin' := by
      rw [wide.mantissa]
      calc 2 ^ 53 = 2 ^ 23 * 2 ^ (29 + 1) := by norm_num
        _ ≤ bin * 2 ^ (29 + y) :=
            Nat.mul_le_mul full (Nat.pow_le_pow_right two_pos (by omega))
    omega

/-- Both know the same of the digits below an integer. -/
theorem integerTail_widened (finite : IsFinite cfg f) (outside : Outside cfg f)
    (whole : (machineOf cfg f).int ≠ 0) :
    integerTail cfg f = integerTail cfg.doubled (widened f) := by
  obtain ⟨y, bin, exp, bin', exp', reads, reads', wide⟩ := exists_reads_widened single finite
  rw [reads.integerTail_eq, reads'.integerTail_eq]
  rw [reads.machineOf_eq] at whole
  have nonneg : 0 ≤ exp := by
    by_contra negative
    exact whole (by rw [machine_of_neg reads.norm.small (by omega)])
  obtain ⟨e, rfl⟩ := Int.eq_ofNat_of_zero_le nonneg
  have zero : y = 0 := by
    by_contra nonzero
    exact absurd (wide.low nonzero) (by omega)
  have exponent := wide.exponent
  have mantissa := wide.mantissa
  rw [zero, Nat.cast_zero, sub_zero] at exponent
  rw [zero, Nat.add_zero] at mantissa
  subst exponent mantissa
  refine intTail_widened single reads.norm reads'.norm ?_
  have lower := @two_zpow_le_value cfg bin e (reads.norm.full nonneg)
  have upper := reads.norm.value_lt
  rw [← reads.value] at lower upper
  rcases outside with small | large
  · left
    rw [← zpow_natCast] at small
    have := (zpow_lt_zpow_iff_right₀ one_lt_two).mp (lower.trans_lt small)
    omega
  · right
    have below := large.trans_lt upper
    rw [← zpow_natCast] at below
    have := (zpow_lt_zpow_iff_right₀ one_lt_two).mp below
    omega

end

/-- The conversions read the same of a float and of its double. -/
theorem realAlike_widened (single : cfg.singlePrecision = true) {f : RealBits cfg} {digits : Prop}
    (alike : IsFinite cfg f → Kept cfg f ∧ (digits → Outside cfg f)) :
    RealAlike cfg cfg.doubled digits f (widened f) where
  finite := (isFinite_widened single f).symm
  machine finite := machineOf_widened single finite (alike finite).1
  tail finite asked := integerTail_widened single finite ((alike finite).2 asked)
  nan special := (fracField_widened single f special).symm
  atoa := (atoaArg_single single f).trans (atoaArg_doubled (widened f)).symm
  msb := (msb_widened single f).symm

theorem sameFormats_doubled (cfg : Config) : SameFormats cfg cfg.doubled :=
  ⟨rfl, rfl, rfl, rfl, rfl, rfl, rfl⟩

/-! ## Arguments -/

/-- The argument of the build with `float` and the one of the build with `double`: the same, or
a real of the same value. -/
inductive Arg.Widens (P : BitVec 32 → Prop) : Arg → Arg → Prop
  | refl (a : Arg) : Arg.Widens P a a
  | double {rep : BitVec 32} (alike : P rep) : Arg.Widens P (.npfFloat rep) (.double (widen rep))
  | longDouble {rep : BitVec 32} (alike : P rep) :
      Arg.Widens P (.npfFloat rep) (.longDouble (widen rep))

/-- Both builds print the float alike; `digits` is whether `%e` or `%g` may print it. -/
def PrintsAlike (cfg : Config) (digits : Prop) (rep : BitVec 32) : Prop :=
  IsFinite cfg (rep.setWidth _ : RealBits cfg) →
    Kept cfg (rep.setWidth _ : RealBits cfg) ∧
      (digits → Outside cfg (rep.setWidth _ : RealBits cfg))

section

variable {P : BitVec 32 → Prop}

theorem Arg.Widens.eq_of_hasType {a a' : Arg} (widens : a.Widens P a') {type : ArgType}
    (plain : ∀ lm, type ≠ .real lm) (typed : a.HasType cfg type) : a = a' := by
  cases widens with
  | refl => rfl
  | double alike | longDouble alike =>
      cases type with
      | real lm => exact absurd rfl (plain lm)
      | int bits | pointer => exact typed.elim

/-- A reader that takes no real reads the same. -/
theorem agree_of_takes {α : Type} {types : List ArgType} {read : List Arg → Run (α × List Arg)}
    (takes : Takes (Arg.HasType cfg) types read) (plain : ∀ lm, .real lm ∉ types) :
    Agree (Arg.Widens P) Eq read read :=
  takes.agree fun _ member _ _ typed _ widens =>
    widens.eq_of_hasType (fun lm same => plain lm (same ▸ member)) typed

variable (single : cfg.singlePrecision = true)
include single

/-- The reals that are read have the same value. -/
theorem agree_vaReal (lm : LengthModifier) :
    Agree (Arg.Widens P) (fun v v' => ∃ rep, P rep ∧ v = rep.setWidth _ ∧ v' = widened v)
      (vaReal cfg lm) (vaReal cfg.doubled lm) := by
  have bits : cfg.realBits = 32 := by rw [Config.realBits, if_pos single]
  have back : ∀ rep : BitVec 32, widened (rep.setWidth _ : RealBits cfg) = widen rep :=
    fun rep => congrArg widen (BitVec.eq_of_toNat_eq (by
      rw [BitVec.toNat_setWidth, BitVec.toNat_setWidth, bits]
      have := rep.isLt
      omega))
  intro args args' v rest v' rest' related run run'
  cases related with
  | nil => cases run
  | @cons a a' args args' one others =>
      cases one with
      | refl =>
          -- no argument is a real of both builds
          cases a with
          | int bits value | ptr address memory => cases run
          | double rep | longDouble rep => simp [vaReal, single] at run
          | npfFloat rep => cases run'
      | @double rep alike =>
          rw [vaReal, if_pos single] at run
          rw [vaReal] at run'
          split_ifs at run'
          obtain ⟨rfl, rfl⟩ := Prod.mk.inj (Except.ok.inj run)
          obtain ⟨rfl, rfl⟩ := Prod.mk.inj (Except.ok.inj run')
          exact ⟨⟨rep, alike, rfl, (BitVec.setWidth_eq _).trans (back rep).symm⟩, others⟩
      | @longDouble rep alike =>
          rw [vaReal, if_pos single] at run
          rw [vaReal] at run'
          split_ifs at run'
          obtain ⟨rfl, rfl⟩ := Prod.mk.inj (Except.ok.inj run)
          obtain ⟨rfl, rfl⟩ := Prod.mk.inj (Except.ok.inj run')
          exact ⟨⟨rep, alike, rfl, (BitVec.setWidth_eq _).trans (back rep).symm⟩, others⟩

/-- A request is answered alike. -/
theorem agree_answer [cfg.RepExact] {digits : Prop} {r : Request}
    (compiled : Compiled cfg r.convSpec) (alt : r.alt = true → cfg.altForm = true)
    (prec : r.precision ≠ none → cfg.precision = true)
    (asked : r.convSpec = .floatSci ∨ r.convSpec = .floatShortest → digits) :
    Agree (Arg.Widens (PrintsAlike cfg digits)) Eq
      (fun args => (answer cfg r args).map Formatted.split)
      (fun args => (answer cfg.doubled r args).map Formatted.split) := by
  by_cases real : r.convSpec.IsReal
  · have kind : IsReal cfg r.convSpec := compiled.real (by
      simpa [ConvSpec.IsReal] using real)
    have texts : ∀ (v : RealBits cfg) (v' : RealBits cfg.doubled),
        (∃ rep, PrintsAlike cfg digits rep ∧ v = rep.setWidth _ ∧ v' = widened v) →
        Agree (Arg.Widens (PrintsAlike cfg digits)) Eq
          (fun rest => (realText cfg r v).map fun text => ((text, ([] : List Slot)), rest))
          (fun rest => (realText cfg.doubled r v').map fun text => ((text, []), rest)) := by
      rintro _ _ ⟨rep, alike, rfl, rfl⟩
      rw [realText_alike (sameFormats_doubled cfg) (realAlike_widened single alike) alt prec kind
        asked]
      exact @agree_of_takes cfg _ _ _ _ (takes_answered _ _) fun _ => List.not_mem_nil
    exact ((agree_vaReal single r.lengthModifier).bind texts).congr
      (fun args => answer_real args real) fun args => answer_real args real
  · have plain : ∀ lm, .real lm ∉ valueTypes cfg r.lengthModifier r.convSpec := by
      intro lm
      cases kind : r.convSpec <;> simp [valueTypes, kind, ConvSpec.IsReal] at real ⊢
    have same : ∀ args, answer cfg.doubled r args = answer cfg r args := fun args => by
      rw [answer, answer]
      cases kind : r.convSpec <;> simp [kind, ConvSpec.IsReal] at real ⊢ <;> rfl
    exact (agree_of_takes (takes_answer r) plain).congr (fun _ => rfl) fun args =>
      congrArg _ (same args)

omit single in
theorem resolve_doubled (d : Directive) : resolve cfg.doubled d = resolve cfg d := by
  have literal : ∀ n ds, literalFrom cfg.doubled n ds = literalFrom cfg n ds := by
    intro n ds
    induction ds generalizing n with
    | nil => rfl
    | cons d ds ih =>
        rw [literalFrom, literalFrom, ih]
        rfl
  have width : ∀ args, resolveWidth cfg.doubled d.width args = resolveWidth cfg d.width args := by
    intro args
    cases d.width with
    | star => rfl
    | digits ds =>
        rw [resolveWidth, literalNumber, literal]
        rfl
  have precision : resolvePrecision cfg.doubled d.precision = resolvePrecision cfg d.precision := by
    funext args
    rcases d.precision with - | - | ⟨- | -, ds⟩
    · rfl
    · rfl
    · rw [resolvePrecision, literalNumber, literal]
      rfl
    · rfl
  funext args
  rw [resolve, resolve, width, precision]
  rfl

/-- A directive is formatted alike. -/
theorem agree_directive [cfg.RepExact] {digits : Prop} {d : Directive} (on : d.enabled cfg = true)
    (asked : d.conversion.convSpec = .floatSci ∨ d.conversion.convSpec = .floatShortest → digits) :
    Agree (Arg.Widens (PrintsAlike cfg digits)) Eq
      (fun args => ((Piece.directive d).format cfg args).map Formatted.split)
      (fun args => ((Piece.directive d).format cfg.doubled args).map Formatted.split) := by
  have stars : ∀ lm, .real lm ∉ d.width.argTypes cfg ++ d.precision.argTypes cfg := by
    intro lm
    cases d.width <;> cases d.precision <;> simp [WidthPart.argTypes, PrecisionPart.argTypes]
  have requests : Agree (Arg.Widens (PrintsAlike cfg digits))
      (fun r r' => r = r' ∧ ∃ width negative precision, r = d.request cfg width negative precision ∧
        (precision ≠ none → cfg.precision = true)) (resolve cfg d) (resolve cfg.doubled d) :=
    ((agree_of_takes (takes_resolve d) stars).and fun _ _ _ run => resolve_request on run).congr
      (fun _ => rfl) (congrFun (resolve_doubled d))
  have answers : ∀ r r', (r = r' ∧ ∃ width negative precision,
      r = d.request cfg width negative precision ∧ (precision ≠ none → cfg.precision = true)) →
      Agree (Arg.Widens (PrintsAlike cfg digits)) Eq
        (fun rest => (answer cfg r rest).map Formatted.split)
        (fun rest => (answer cfg.doubled r' rest).map Formatted.split) := by
    rintro r _ ⟨rfl, width, negative, precision, rfl, prec⟩
    refine agree_answer single (Directive.compiled on) (fun hash => ?_) prec asked
    by_contra off
    exact Directive.enabled_alt on (Bool.not_eq_true _ ▸ off) (of_decide_eq_true hash)
  exact (requests.bind answers).congr (fun args => format_directive args d)
    fun args => format_directive args d

/-- The outputs of pieces are the same. -/
theorem output_widened [cfg.RepExact] {digits : Prop} {ps : List Piece}
    (on : ∀ d, .directive d ∈ ps → d.enabled cfg = true)
    (asked : ∀ d, .directive d ∈ ps → d.conversion.convSpec = .floatSci ∨
      d.conversion.convSpec = .floatShortest → digits) {args args' : List Arg}
    (related : List.Forall₂ (Arg.Widens (PrintsAlike cfg digits)) args args') {o o' : Output}
    (run : output cfg ps args = .ok o) (run' : output cfg.doubled ps args' = .ok o') :
    o.text = o'.text ∧ o.marks = o'.marks := by
  induction ps generalizing args args' o o' with
  | nil =>
      cases run
      cases run'
      exact ⟨rfl, rfl⟩
  | cons p ps ih =>
      have head : Agree (Arg.Widens (PrintsAlike cfg digits)) Eq
          (fun args => (p.format cfg args).map Formatted.split)
          (fun args => (p.format cfg.doubled args).map Formatted.split) := by
        cases p with
        | literal c => exact agree_of_takes (takes_piece (.literal c)) nofun
        | directive d =>
            exact agree_directive single (on d List.mem_cons_self) (asked d List.mem_cons_self)
      obtain ⟨f, first, run⟩ := bind_eq_ok.mp run
      obtain ⟨f', first', run'⟩ := bind_eq_ok.mp run'
      obtain ⟨tail, others, rfl⟩ := map_eq_ok.mp run
      obtain ⟨tail', others', rfl⟩ := map_eq_ok.mp run'
      obtain ⟨same, left⟩ := head args args' _ f.args _ f'.args related
        (map_eq_ok.mpr ⟨f, first, rfl⟩) (map_eq_ok.mpr ⟨f', first', rfl⟩)
      obtain ⟨text, slots⟩ := Prod.mk.inj same
      obtain ⟨texts, marks⟩ := ih (fun d member => on d (List.mem_cons_of_mem _ member))
        (fun d member => asked d (List.mem_cons_of_mem _ member)) left others others'
      simp only [Output.after, text, slots, texts, marks, and_self]

/-! ## Calls -/

omit single in
theorem Scans.doubled {s : List Char} {ps : List Piece} (scan : Scans cfg s ps) :
    Scans cfg.doubled s ps := by
  induction scan with
  | done junk => exact .done junk
  | literal char literal rest ih => exact .literal char literal ih
  | directive on greedy rest ih => exact .directive on greedy ih

/-- The engine sends, counts and stores the same. -/
theorem npfVpprintf_widened [cfg.RepExact] {digits : Prop} {format : Cursor} {ps : List Piece}
    (scan : Scans cfg format ps)
    (asked : ∀ d, .directive d ∈ ps → d.conversion.convSpec = .floatSci ∨
      d.conversion.convSpec = .floatShortest → digits) {args args' : List Arg}
    (related : List.Forall₂ (Arg.Widens (PrintsAlike cfg digits)) args args') {pc : κ → Char → κ}
    {ctx : κ} {fs fs' : NpfFormatSpec} {out out' : ℤ × κ × List Store}
    (run : npfVpprintf cfg pc ctx format args fs = .ok out)
    (run' : npfVpprintf cfg.doubled pc ctx format args' fs' = .ok out') : out = out' := by
  rw [npfVpprintf_eq pc ctx scan args fs] at run
  rw [npfVpprintf_eq pc ctx scan.doubled args' fs'] at run'
  obtain ⟨o, sent, rfl⟩ := map_eq_ok.mp run
  obtain ⟨o', sent', rfl⟩ := map_eq_ok.mp run'
  obtain ⟨text, marks⟩ := output_widened single (fun d => scan.enabled) asked related sent sent'
  rw [text, marks]
  rfl

end

/-- The argument prints alike in both builds: a real has the value of a `float`. -/
def CArg.Alike (cfg : Config) (digits : Prop) : CArg cfg.toTarget → Prop
  | float f => PrintsAlike cfg digits f
  | double d => widen (narrow d) = d ∧ PrintsAlike cfg digits (narrow d)
  | longDouble d f => widen f = d ∧ PrintsAlike cfg digits f
  | _ => True

section

variable (single : cfg.singlePrecision = true) {digits : Prop}
include single

theorem CArg.Alike.widens {a : CArg cfg.toTarget} (alike : a.Alike cfg digits) (dialect : Dialect) :
    Arg.Widens (PrintsAlike cfg digits) (passed cfg dialect a).promote
      (passed cfg.doubled dialect a).promote := by
  have double : passed cfg.doubled dialect a = a := rfl
  rw [passed, if_pos single, double]
  cases a with
  | integer type value =>
      rw [packed_plain dialect id]
      exact .refl _
  | pointer target address memory =>
      rw [packed_plain dialect id]
      exact .refl _
  | float f => cases dialect <;> exact .double alike
  | double d =>
      have widens : Arg.Widens (PrintsAlike cfg digits) (.npfFloat (narrow d)) (.double d) := by
        have := Arg.Widens.double alike.2
        rwa [alike.1] at this
      cases dialect <;> exact widens
  | longDouble d f =>
      have widens : Arg.Widens (PrintsAlike cfg digits) (.npfFloat f) (.longDouble d) := by
        have := Arg.Widens.longDouble alike.2
        rwa [alike.1] at this
      cases dialect with
      | cpp | gnu => exact .refl _
      | c11 => exact widens
  | npfFloat f => cases dialect <;> exact .refl _

omit single in
theorem CTyped.doubled {ps : List Piece} {args : List (CArg cfg.toTarget)}
    (typed : CTyped cfg ps args) : CTyped cfg.doubled ps args := by
  induction typed with
  | done unused => exact @CTyped.done cfg.doubled unused
  | @piece p ps taken args one rest ih =>
      refine @CTyped.piece cfg.doubled p ps taken args ?_ ih
      cases p with
      | literal c => exact one
      | directive d =>
          refine ⟨one.1, ?_⟩
          rw [Directive.PointersUsable, resolve_doubled]
          exact one.2

theorem npfVpprintf_passed [cfg.RepExact] [cfg.FixedCarried] {format : Cursor} {ps : List Piece}
    (scan : Scans cfg format ps)
    (asked : ∀ d, .directive d ∈ ps → d.conversion.convSpec = .floatSci ∨
      d.conversion.convSpec = .floatShortest → digits) {args : List (CArg cfg.toTarget)}
    (typed : CTyped cfg ps args) (alike : ∀ a ∈ args, a.Alike cfg digits) {dialect : Dialect}
    (wraps : Wraps dialect ps args) (pc : κ → Char → κ) (ctx : κ) (fs fs' : NpfFormatSpec) :
    npfVpprintf cfg pc ctx format ((args.map (passed cfg dialect)).map CArg.promote) fs =
      npfVpprintf cfg.doubled pc ctx format
        ((args.map (passed cfg.doubled dialect)).map CArg.promote) fs' := by
  obtain ⟨out, run⟩ := (npfVpprintf_ok_iff scan _ fs pc ctx).mpr
    ((typed.typed_passed dialect).mpr fun _ => wraps.noL)
  obtain ⟨out', run'⟩ := (npfVpprintf_ok_iff scan.doubled _ fs' pc ctx).mpr
    ((typed.doubled.typed_passed dialect).mpr nofun)
  have related : List.Forall₂ (Arg.Widens (PrintsAlike cfg digits))
      ((args.map (passed cfg dialect)).map CArg.promote)
      ((args.map (passed cfg.doubled dialect)).map CArg.promote) := by
    refine List.forall₂_map_left_iff.mpr (List.forall₂_map_left_iff.mpr ?_)
    refine List.forall₂_map_right_iff.mpr (List.forall₂_map_right_iff.mpr ?_)
    exact List.forall₂_same.mpr fun a member => (alike a member).widens single dialect
  rw [run, run', npfVpprintf_widened single scan asked related run run']

/-- **Single precision prints the same**: a call that is defined in single precision, with reals
that are floats, gives what it gives in double precision. -/
theorem npfPprintf_single [cfg.RepExact] [cfg.FixedCarried] {format : Cursor} {ps : List Piece}
    (scan : Scans cfg format ps)
    (asked : ∀ d, .directive d ∈ ps → d.conversion.convSpec = .floatSci ∨
      d.conversion.convSpec = .floatShortest → digits) {args : List (CArg cfg.toTarget)}
    (typed : CTyped cfg ps args) (alike : ∀ a ∈ args, a.Alike cfg digits) {dialect : Dialect}
    (wraps : Wraps dialect ps args) {target : Pointee} (string : target.IsString) (address : ℕ)
    (fs fs' : NpfFormatSpec) :
    (∀ (pc : κ → Char → κ) (ctx : κ),
      npfPprintf cfg dialect pc ctx (.pointer target address format :: args) fs =
        npfPprintf cfg.doubled dialect pc ctx (.pointer target address format :: args) fs') ∧
    ∀ (memory : Memory) (buffer : Bool) (bufsz : ℕ),
      npfSnprintf cfg dialect memory buffer bufsz (.pointer target address format :: args) fs =
        npfSnprintf cfg.doubled dialect memory buffer bufsz
          (.pointer target address format :: args) fs' := by
  have compiles : Compiles cfg dialect args := fun _ => ⟨wraps.few, wraps.listed⟩
  have compiles' : Compiles cfg.doubled dialect args := nofun
  refine ⟨fun pc ctx => ?_, fun memory buffer bufsz => ?_⟩
  · rw [npfPprintf_eq compiles string, npfPprintf_eq compiles' string,
      npfVpprintf_passed single scan asked typed alike wraps pc ctx fs fs']
  · rw [npfSnprintf_eq compiles string, npfSnprintf_eq compiles' string, npfVsnprintf, npfVsnprintf,
      npfVpprintf_passed single scan asked typed alike wraps _ _ fs fs']
    rfl

end

/-- `%g` prints a half alike, which is passed as a `double`. -/
theorem npfPprintf_single_half :
    (npfSnprintf .single .gnu (fun _ => 'z') true 8
        [.pointer .char 1 ("%g".toList ++ [NUL]), .double 0x3FE0000000000000] .zeroed).map
          (fun run => run.map fun out => (out.1, (List.range 5).map out.2.1)) =
        some (.ok (3, ['0', '.', '5', NUL, 'z'])) ∧
      npfSnprintf .single .gnu (fun _ => 'z') true 8
          [.pointer .char 1 ("%g".toList ++ [NUL]), .double 0x3FE0000000000000] .zeroed =
        npfSnprintf Config.single.doubled .gnu (fun _ => 'z') true 8
          [.pointer .char 1 ("%g".toList ++ [NUL]), .double 0x3FE0000000000000] .zeroed := by
  have scan : Scans .single ("%g".toList ++ [NUL]) [.directive ⟨[], .digits [], .absent, .none,
      .letter .g false⟩] :=
    .directive (d := ⟨[], .digits [], .absent, .none, .letter .g false⟩) rfl (by decide) (.done [])
  have typed : CTyped .single [.directive ⟨[], .digits [], .absent, .none, .letter .g false⟩]
      [.double 0x3FE0000000000000] :=
    @CTyped.piece _ _ _ [.double 0x3FE0000000000000] _
      ⟨.cons (mt LengthToken.modifier_eq_longDouble.mp (by decide)) .nil, fun r a memory rest _ =>
        ⟨fun string => absurd string (by decide), fun store => absurd store (by decide)⟩⟩ (.done [])
  have alike : PrintsAlike .single True (narrow 0x3FE0000000000000) := fun _ =>
    ⟨.inl (by decide), fun _ => .inl (by rw [magnitude]; decide +kernel)⟩
  have wraps : Wraps .gnu [.directive ⟨[], .digits [], .absent, .none, .letter .g false⟩]
      ([.double 0x3FE0000000000000] : List (CArg Config.single.toTarget)) :=
    ⟨by decide, fun c11 => absurd c11 (by decide), fun _ d member _ => by
      obtain rfl := Piece.directive.inj (List.mem_singleton.mp member)
      decide⟩
  exact ⟨by decide +kernel, (npfPprintf_single (κ := ℕ) rfl scan (fun _ _ _ => trivial) typed
    (List.forall_mem_singleton.mpr ⟨by decide, alike⟩) wraps
    (show Pointee.IsString .char from trivial) 1 .zeroed .zeroed).2 _ true 8⟩

end Nanoprintf
