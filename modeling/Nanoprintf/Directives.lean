import Nanoprintf.Formatting

/-!
# What a directive asks for

The request of a directive: its stars take one `int` each, the width before the
precision; a negative width asks for left justification and a negative precision
for none; both have a ceiling. `formatted_eq` says that the engine answers this
request, whatever the record held before.
-/

set_option autoImplicit false

namespace Nanoprintf

open Foundations

variable {cfg : Config}

/-! ## Resolving stars -/

/-- The width in effect, and whether it came with a minus sign. -/
def resolveWidth (cfg : Config) (w : WidthPart) (args : List Arg) : Run (ℕ × Bool × List Arg) :=
  match w with
  | .digits ds => .ok (min (literalNumber cfg ds) cfg.fmtNumMax.toNat, false, args)
  | .star => do
    let (v, args) ← vaInt cfg.intBits args
    pure (min v.toInt.natAbs cfg.fmtNumMax.toNat, decide (v.toInt < 0), args)

/-- The precision in effect. -/
def resolvePrecision (cfg : Config) (p : PrecisionPart) (args : List Arg) :
    Run (Option ℕ × List Arg) :=
  match p with
  | .absent => .ok (none, args)
  | .literal true _ => .ok (none, args)
  | .literal false ds => .ok (some (min (literalNumber cfg ds) cfg.fmtNumMax.toNat), args)
  | .star => do
    let (v, args) ← vaInt cfg.intBits args
    pure (if v.toInt < 0 then none else some (min v.toInt.toNat cfg.fmtNumMax.toNat), args)

/-- The request of a directive with a width and a precision in effect. -/
def Directive.request (cfg : Config) (d : Directive) (width : ℕ) (negative : Bool)
    (precision : Option ℕ) : Request where
  width := width
  left := decide (Flag.minus ∈ d.flags) || negative
  zero := decide (Flag.zero ∈ d.flags)
  precision := precision
  prepend := d.prepend
  alt := decide (Flag.hash ∈ d.flags)
  caseAdjust := d.conversion.caseAdjust
  lengthModifier := d.length.modifier cfg
  convSpec := d.conversion.convSpec

/-- The request of a directive with its arguments. -/
def resolve (cfg : Config) (d : Directive) (args : List Arg) : Run (Request × List Arg) := do
  let (width, negative, args) ← resolveWidth cfg d.width args
  let (precision, args) ← resolvePrecision cfg d.precision args
  pure (d.request cfg width negative precision, args)

/-! ## The star arguments of the engine -/

theorem fmtNumMax_bounds (cfg : Config) : 8192 ≤ cfg.fmtNumMax ∧ cfg.fmtNumMax ≤ cfg.intMax := by
  have large := cfg.intMax_ge
  have buffer := cfg.cbuf_le
  unfold Config.fmtNumMax
  split_ifs <;> omega

/-- The part of `starArgs` about the width. -/
def starWidth (cfg : Config) (fs : NpfFormatSpec) (args : List Arg) :
    Run (NpfFormatSpec × List Arg) :=
  if cfg.fieldWidth then do
    let (fs, args) ←
      if fs.fieldWidthOpt = .star then do
        let (v, args) ← vaInt cfg.intBits args
        let (w, fs) :=
          if v.toInt < 0 then (-v, { fs with leftJustified := true }) else (v, fs)
        pure ({ fs with
          fieldWidth := if cfg.intMax < w.toNat then cfg.fmtNumMax else w.toNat }, args)
      else pure (fs, args)
    pure (if cfg.fmtNumMax < fs.fieldWidth then { fs with fieldWidth := cfg.fmtNumMax } else fs,
      args)
  else pure (fs, args)

/-- The part of `starArgs` about the precision. -/
def starPrecision (cfg : Config) (fs : NpfFormatSpec) (args : List Arg) :
    Run (NpfFormatSpec × List Arg) :=
  if cfg.precision then do
    let (fs, args) ←
      if fs.precOpt = .star then do
        let (v, args) ← vaInt cfg.intBits args
        let fs : NpfFormatSpec := { fs with prec := v.toInt }
        pure (if fs.prec < 0 then { fs with precOpt := .none } else fs, args)
      else pure (fs, args)
    pure (if cfg.fmtNumMax < fs.prec then { fs with prec := cfg.fmtNumMax } else fs, args)
  else pure (fs, args)

theorem starArgs_eq (fs : NpfFormatSpec) (args : List Arg) :
    starArgs cfg fs args = (do
      let (fs, args) ← starWidth cfg fs args
      starPrecision cfg fs args) := by
  unfold starArgs starWidth starPrecision
  by_cases width : cfg.fieldWidth = true
  · by_cases star : fs.fieldWidthOpt = .star
    · simp only [if_pos width, if_pos star]
      rcases vaInt cfg.intBits args with e | ⟨v, rest⟩
      · rfl
      · rfl
    · simp only [if_pos width, if_neg star]
      rfl
  · simp only [if_neg width]

/-- The magnitude of an `int`, whose least value has no negative. -/
theorem magnitude_int {n : ℕ} (v : BitVec n) :
    (if v.toInt < 0 then (-v).toNat else v.toNat) = v.toInt.natAbs := by
  have small := v.isLt
  rw [BitVec.toInt_eq_toNat_cond, BitVec.toNat_neg]
  by_cases lower : 2 * v.toNat < 2 ^ n
  · rw [if_pos lower, if_neg (by omega), Int.natAbs_natCast]
  · rw [if_neg lower, if_pos (by omega), Nat.mod_eq_of_lt (by omega)]
    omega

/-- A value under the ceiling. -/
theorem clamp_eq (n : ℕ) : (if cfg.fmtNumMax < (n : ℤ) then cfg.fmtNumMax else n) =
    ((min n cfg.fmtNumMax.toNat : ℕ) : ℤ) := by
  have bounds := fmtNumMax_bounds cfg
  split_ifs <;> omega

theorem starWidth_star {fs : NpfFormatSpec} (compiled : cfg.fieldWidth = true)
    (star : fs.fieldWidthOpt = .star) (args : List Arg) :
    starWidth cfg fs args = (vaInt cfg.intBits args).map fun (v, rest) =>
      ({ fs with
          fieldWidth := ((min v.toInt.natAbs cfg.fmtNumMax.toNat : ℕ) : ℤ)
          leftJustified := fs.leftJustified || decide (v.toInt < 0) }, rest) := by
  obtain ⟨lower, upper⟩ := fmtNumMax_bounds cfg
  unfold starWidth
  simp only [if_pos compiled, if_pos star]
  rcases vaInt cfg.intBits args with e | ⟨v, rest⟩
  · rfl
  · have magnitude := magnitude_int v
    simp only [bind, Except.bind, pure, Except.pure, Except.map]
    -- the magnitude of `INT_MIN` is the one that the signed comparison cannot hold
    have pinned : ∀ n : ℕ,
        (if cfg.fmtNumMax < (if cfg.intMax < (n : ℤ) then cfg.fmtNumMax else n) then
        cfg.fmtNumMax else (if cfg.intMax < (n : ℤ) then cfg.fmtNumMax else (n : ℤ))) =
        ((min n cfg.fmtNumMax.toNat : ℕ) : ℤ) := by
      intro n
      split_ifs <;> omega
    by_cases negative : v.toInt < 0
    · rw [if_pos negative] at magnitude
      rw [← magnitude, ← pinned (-v).toNat]
      simp only [if_pos negative, decide_eq_true negative, Bool.or_true]
      split_ifs <;> rfl
    · rw [if_neg negative] at magnitude
      rw [← magnitude, ← pinned v.toNat]
      simp only [if_neg negative, decide_eq_false negative, Bool.or_false]
      split_ifs <;> rfl

theorem starWidth_literal {fs : NpfFormatSpec} (compiled : cfg.fieldWidth = true)
    (literal : fs.fieldWidthOpt ≠ .star) {n : ℕ} (value : fs.fieldWidth = n) (args : List Arg) :
    starWidth cfg fs args =
      .ok ({ fs with fieldWidth := ((min n cfg.fmtNumMax.toNat : ℕ) : ℤ) }, args) := by
  unfold starWidth
  simp only [if_pos compiled, if_neg literal, bind, Except.bind, pure, Except.pure, ← clamp_eq,
    value]
  split_ifs
  · rfl
  · rw [← value]

theorem starPrecision_star {fs : NpfFormatSpec} (compiled : cfg.precision = true)
    (star : fs.precOpt = .star) (args : List Arg) :
    starPrecision cfg fs args = (vaInt cfg.intBits args).map fun (v, rest) =>
      ({ fs with
          prec := min v.toInt cfg.fmtNumMax
          precOpt := if v.toInt < 0 then .none else .star }, rest) := by
  unfold starPrecision
  simp only [if_pos compiled, if_pos star]
  rcases vaInt cfg.intBits args with e | ⟨v, rest⟩
  · rfl
  · simp only [bind, Except.bind, pure, Except.pure, Except.map]
    split_ifs with negative large large
    · rw [min_eq_right large.le]
    · rw [min_eq_left (not_lt.mp large)]
    · rw [min_eq_right large.le, ← star]
    · rw [min_eq_left (not_lt.mp large), ← star]

theorem starPrecision_literal {fs : NpfFormatSpec} (compiled : cfg.precision = true)
    (literal : fs.precOpt ≠ .star) (args : List Arg) :
    starPrecision cfg fs args = .ok ({ fs with prec := min fs.prec cfg.fmtNumMax }, args) := by
  unfold starPrecision
  simp only [if_pos compiled, if_neg literal, bind, Except.bind, pure, Except.pure]
  split_ifs with large
  · rw [min_eq_right large.le]
  · rw [min_eq_left (not_lt.mp large)]

section

variable {d : Directive} {old : NpfFormatSpec} {args rest : List Arg}

theorem Directive.enabled_width (on : d.enabled cfg = true) (off : cfg.fieldWidth = false) :
    d.width = .digits [] ∧ Flag.minus ∉ d.flags ∧ Flag.zero ∉ d.flags := by
  simp only [Directive.enabled, Bool.and_eq_true, List.all_eq_true] at on
  obtain ⟨⟨⟨⟨flags, width⟩, -⟩, -⟩, -⟩ := on
  refine ⟨?_, fun minus => Bool.false_ne_true (off.symm.trans (flags _ minus)),
    fun zero => Bool.false_ne_true (off.symm.trans (flags _ zero))⟩
  rcases shape : d.width with - | ⟨- | ⟨digit, ds⟩⟩
  · rw [shape] at width
    exact absurd (off.symm.trans width) Bool.false_ne_true
  · rfl
  · rw [shape] at width
    exact absurd (off.symm.trans width) Bool.false_ne_true

theorem Directive.enabled_precision (on : d.enabled cfg = true) (off : cfg.precision = false) :
    d.precision = .absent := by
  simp only [Directive.enabled, Bool.and_eq_true] at on
  obtain ⟨⟨⟨-, precision⟩, -⟩, -⟩ := on
  rcases shape : d.precision with - | - | ⟨minus, ds⟩
  · rfl
  · rw [shape] at precision
    exact absurd (off.symm.trans precision) Bool.false_ne_true
  · rw [shape] at precision
    exact absurd (off.symm.trans precision) Bool.false_ne_true

theorem Directive.enabled_alt (on : d.enabled cfg = true) (off : cfg.altForm = false) :
    Flag.hash ∉ d.flags := by
  simp only [Directive.enabled, Bool.and_eq_true, List.all_eq_true] at on
  exact fun hash => Bool.false_ne_true (off.symm.trans (on.1.1.1.1 _ hash))

/-- The record of a directive after the star of its width. -/
theorem starWidth_eq (on : d.enabled cfg = true) :
    starWidth cfg (d.denote cfg old) args =
      (resolveWidth cfg d.width args).map fun (width, negative, rest) =>
        ({ d.denote cfg old with
            fieldWidth := if cfg.fieldWidth then (width : ℤ) else old.fieldWidth
            leftJustified := if cfg.fieldWidth then decide (Flag.minus ∈ d.flags) || negative
              else old.leftJustified }, rest) := by
  rcases compiled : cfg.fieldWidth
  · rw [(Directive.enabled_width on compiled).1, starWidth, if_neg (by simp [compiled])]
    simp [resolveWidth, Directive.denote, compiled, pure, Except.pure, Except.map]
  · rcases shape : d.width with - | ds
    · rw [starWidth_star compiled (by simp [Directive.denote, compiled, shape])]
      simp only [Directive.denote, compiled, if_true, resolveWidth]
      rcases vaInt cfg.intBits args with e | ⟨v, rest⟩ <;> rfl
    · rw [starWidth_literal compiled (by simp [Directive.denote, compiled, shape])
        (n := literalNumber cfg ds) (by simp [Directive.denote, compiled, shape])]
      simp [Directive.denote, compiled, resolveWidth, Except.map]

/-- The record of a directive once its stars are resolved. -/
def Directive.resolved (cfg : Config) (d : Directive) (old : NpfFormatSpec) (width : ℕ)
    (negative : Bool) (prec : ℤ) (precOpt : SpecOpt) : NpfFormatSpec :=
  { d.denote cfg old with
    fieldWidth := if cfg.fieldWidth then (width : ℤ) else old.fieldWidth
    leftJustified := if cfg.fieldWidth then decide (Flag.minus ∈ d.flags) || negative
      else old.leftJustified
    prec := prec
    precOpt := precOpt }

theorem request_resolved (on : d.enabled cfg = true) {width : ℕ} {negative : Bool}
    (off : cfg.fieldWidth = false → width = 0 ∧ negative = false) (prec : ℤ) (precOpt : SpecOpt) :
    request cfg (d.resolved cfg old width negative prec precOpt) =
      d.request cfg width negative
        (if cfg.precision && precOpt != .none then some prec.toNat else none) := by
  have alt : (cfg.altForm && if cfg.altForm then decide (Flag.hash ∈ d.flags) else old.altForm) =
      decide (Flag.hash ∈ d.flags) := by
    rcases compiled : cfg.altForm
    · simp [Directive.enabled_alt on compiled]
    · rfl
  simp only [request, Directive.request, Directive.resolved, Directive.denote, widthOf, alt]
  rcases compiled : cfg.fieldWidth
  · obtain ⟨-, minus, zero⟩ := Directive.enabled_width on compiled
    obtain ⟨rfl, rfl⟩ := off compiled
    simp [minus, zero]
  · simp

theorem resolveWidth_off (on : d.enabled cfg = true) (off : cfg.fieldWidth = false) {width : ℕ}
    {negative : Bool} (run : resolveWidth cfg d.width args = .ok (width, negative, rest)) :
    width = 0 ∧ negative = false := by
  rw [(Directive.enabled_width on off).1] at run
  simp only [resolveWidth, Except.ok.injEq, Prod.mk.injEq] at run
  exact ⟨run.1.symm.trans (Nat.zero_min _), run.2.1.symm⟩

theorem Conversion.compiled {conv : Conversion} (on : conv.enabled cfg = true) :
    Compiled cfg conv.convSpec := by
  rcases conv with - | ⟨l, isUpper⟩
  · trivial
  · cases l <;> first | exact on | trivial

theorem Directive.compiled (on : d.enabled cfg = true) : Compiled cfg d.conversion.convSpec := by
  simp only [Directive.enabled, Bool.and_eq_true] at on
  exact Conversion.compiled on.2

/-- The answer to a directive once its stars are resolved. -/
theorem converted_resolved (on : d.enabled cfg = true) {width : ℕ} {negative : Bool}
    (off : cfg.fieldWidth = false → width = 0 ∧ negative = false) {prec : ℤ} {precOpt : SpecOpt}
    (nonneg : cfg.precision = true → precOpt ≠ .none → 0 ≤ prec) (args : List Arg) :
    converted cfg (d.resolved cfg old width negative prec precOpt) args =
      answer cfg (d.request cfg width negative
        (if cfg.precision && precOpt != .none then some prec.toNat else none)) args := by
  have compiled := Directive.compiled on
  rw [@converted_eq cfg (d.resolved cfg old width negative prec precOpt) compiled nonneg,
    request_resolved on off]

/-- What the star arguments make of the record of a directive. -/
structure Stars (cfg : Config) (d : Directive) (old : NpfFormatSpec) (args rest : List Arg)
    (fs : NpfFormatSpec) where
  width : ℕ
  negative : Bool
  prec : ℤ
  precOpt : SpecOpt
  record : fs = d.resolved cfg old width negative prec precOpt
  off : cfg.fieldWidth = false → width = 0 ∧ negative = false
  nonneg : cfg.precision = true → precOpt ≠ .none → 0 ≤ prec
  below : cfg.precision = true → prec ≤ cfg.fmtNumMax
  middle : List Arg
  widthRun : resolveWidth cfg d.width args = .ok (width, negative, middle)
  precisionRun : resolvePrecision cfg d.precision middle =
    .ok (if cfg.precision && precOpt != .none then some prec.toNat else none, rest)

/-- The precision that the engine has after the star is the one that is asked for. -/
theorem starPrecision_eq (on : d.enabled cfg = true) (old : NpfFormatSpec) (width : ℕ)
    (negative : Bool) (args : List Arg) :
    (∃ e, starPrecision cfg (d.resolved cfg old width negative (d.denote cfg old).prec
        (d.denote cfg old).precOpt) args = .error e ∧
      resolvePrecision cfg d.precision args = .error e) ∨
    ∃ (prec : ℤ) (precOpt : SpecOpt) (rest : List Arg),
      starPrecision cfg (d.resolved cfg old width negative (d.denote cfg old).prec
        (d.denote cfg old).precOpt) args =
          .ok (d.resolved cfg old width negative prec precOpt, rest) ∧
      resolvePrecision cfg d.precision args =
        .ok (if cfg.precision && precOpt != .none then some prec.toNat else none, rest) ∧
      (cfg.precision = true → precOpt ≠ .none → 0 ≤ prec) ∧
      (cfg.precision = true → prec ≤ cfg.fmtNumMax) := by
  obtain ⟨lower, upper⟩ := fmtNumMax_bounds cfg
  rcases compiled : cfg.precision
  · refine .inr ⟨_, _, args, by rw [starPrecision, if_neg (by simp [compiled])]; rfl, ?_,
      (absurd · Bool.false_ne_true), (absurd · Bool.false_ne_true)⟩
    rw [Directive.enabled_precision on compiled]
    rfl
  rcases shape : d.precision with - | - | ⟨_ | _, ds⟩
  · have none : (d.denote cfg old).precOpt = .none := by simp [Directive.denote, compiled, shape]
    refine .inr ⟨_, _, args, starPrecision_literal compiled (by simp [Directive.resolved, none]) _,
      ?_, fun _ given => absurd none given, fun _ => min_le_right _ _⟩
    rw [none]
    rfl
  · have star : (d.denote cfg old).precOpt = .star := by simp [Directive.denote, compiled, shape]
    rw [starPrecision_star compiled (by simp only [Directive.resolved, star])]
    simp only [resolvePrecision]
    rcases vaInt cfg.intBits args with e | ⟨v, left⟩
    · exact .inl ⟨e, rfl, rfl⟩
    · refine .inr ⟨_, _, left, rfl, ?_, fun _ given => ?_, fun _ => min_le_right _ _⟩
      · by_cases below : v.toInt < 0
        · simp [below, bind, Except.bind, pure, Except.pure]
        · simp [below, bind, Except.bind, pure, Except.pure]
          omega
      · have nonneg : ¬ v.toInt < 0 := fun negative => given (if_pos negative)
        exact le_min (not_lt.mp nonneg) (by omega)
  · have literal : (d.denote cfg old).precOpt = .literal := by
      simp [Directive.denote, compiled, shape]
    have value : (d.denote cfg old).prec = literalNumber cfg ds := by
      simp [Directive.denote, compiled, shape]
    refine .inr ⟨_, _, args,
      starPrecision_literal compiled (by simp [Directive.resolved, literal]) _, ?_,
      fun _ _ => ?_, fun _ => min_le_right _ _⟩
    · simp [literal, resolvePrecision, Directive.resolved, value]
      omega
    · simp only [Directive.resolved, value]
      omega
  · have none : (d.denote cfg old).precOpt = .none := by simp [Directive.denote, compiled, shape]
    refine .inr ⟨_, _, args, starPrecision_literal compiled (by simp [Directive.resolved, none]) _,
      ?_, fun _ given => absurd none given, fun _ => min_le_right _ _⟩
    rw [none]
    rfl

/-- The engine resolves the stars of a directive as they are meant. -/
theorem starArgs_stars (on : d.enabled cfg = true) (old : NpfFormatSpec) (args : List Arg) :
    (∃ e, starArgs cfg (d.denote cfg old) args = .error e ∧ resolve cfg d args = .error e) ∨
    ∃ fs rest, starArgs cfg (d.denote cfg old) args = .ok (fs, rest) ∧
      Nonempty (Stars cfg d old args rest fs) := by
  rw [starArgs_eq, starWidth_eq on, resolve]
  rcases run : resolveWidth cfg d.width args with e | ⟨width, negative, middle⟩
  · exact .inl ⟨e, rfl, rfl⟩
  simp only [Except.map, bind, Except.bind]
  rcases starPrecision_eq on old width negative middle with
    ⟨e, engine, meant⟩ | ⟨prec, precOpt, rest, engine, meant, nonneg, below⟩
  · rw [meant]
    exact .inl ⟨e, engine, rfl⟩
  · exact .inr ⟨_, rest, engine, ⟨⟨width, negative, prec, precOpt, rfl,
      fun off => resolveWidth_off on off run, nonneg, below, middle, run, meant⟩⟩⟩

theorem Stars.prec_eq {fs : NpfFormatSpec} (stars : Stars cfg d old args rest fs) :
    fs.prec = stars.prec :=
  congrArg NpfFormatSpec.prec stars.record

theorem Stars.precOpt_eq {fs : NpfFormatSpec} (stars : Stars cfg d old args rest fs) :
    fs.precOpt = stars.precOpt :=
  congrArg NpfFormatSpec.precOpt stars.record

theorem Stars.resolve {fs : NpfFormatSpec} (stars : Stars cfg d old args rest fs) :
    resolve cfg d args = .ok (d.request cfg stars.width stars.negative
      (if cfg.precision && stars.precOpt != .none then some stars.prec.toNat else none), rest) := by
  simp only [Nanoprintf.resolve, stars.widthRun, stars.precisionRun, bind, Except.bind, pure,
    Except.pure]

/-- **A directive is answered what it asks for**, whatever the record held before. -/
theorem formatted_eq (on : d.enabled cfg = true) (old : NpfFormatSpec) (args : List Arg) :
    formatted cfg (d.denote cfg old) args = (do
      let (r, args) ← resolve cfg d args
      answer cfg r args) := by
  rw [formatted]
  rcases starArgs_stars on old args with ⟨e, engine, meant⟩ | ⟨fs, rest, engine, ⟨stars⟩⟩
  · rw [engine, meant]
    rfl
  · rw [engine, stars.resolve]
    exact (congrArg (fun fs => converted cfg fs rest) stars.record).trans
      (converted_resolved on stars.off stars.nonneg rest)

end

end Nanoprintf
