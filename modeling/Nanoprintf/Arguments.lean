import Nanoprintf.Foundations.Readers
import Nanoprintf.Pieces

/-!
# The arguments of a directive

A directive takes one `int` for each star, the width before the precision, and
then an argument whose type its length modifier and its conversion name. It
takes no other argument and looks at none, so that formats may be put behind
each other with their arguments.
-/

set_option autoImplicit false

namespace Nanoprintf

open Foundations

variable {cfg : Config}

/-- The types of arguments, an integer type by its width. -/
inductive ArgType where
  | int (bits : ℕ)
  | pointer
  | real (lm : LengthModifier)
  deriving DecidableEq, Repr

/-- An argument of a type. The real types are the one that the build computes
with, and else `long double` for `L` and `double` for the other modifiers. -/
def Arg.HasType (cfg : Config) : Arg → ArgType → Prop
  | .int bits _, .int bits' => bits = bits'
  | .ptr _ _, .pointer => True
  | .npfFloat _, .real _ => cfg.singlePrecision = true
  | .double _, .real lm =>
    cfg.singlePrecision = false ∧ (cfg.longDoubleIsDouble = true ∨ lm ≠ .longDouble)
  | .longDouble _, .real lm =>
    cfg.singlePrecision = false ∧ (cfg.longDoubleIsDouble = true ∨ lm = .longDouble)
  | _, _ => False

/-! ## Widths -/

/-- A `wN` type is not wider than `long`, unless the `ll` modifier can carry it. -/
theorem LengthToken.carried [cfg.FixedCarried] {fast : Bool} {w : Width}
    (on : LengthToken.enabled cfg (.w fast w) = true)
    (off : cfg.large = false) :
    (if fast then cfg.fastBits w else cfg.leastBits w) ≤ cfg.longBits := by
  have least := (cfg.least_le_fast w).2
  have fixed := LengthToken.fixedWidth_of_enabled on
  have fits : cfg.fastBits w ≤ cfg.longBits := by
    by_cases widest : w = .w64
    · subst widest
      simp only [LengthToken.enabled, Bool.and_eq_true, beq_iff_eq, Config.wBitsMax, off,
        Bool.false_eq_true, if_false] at on
      by_contra long
      rw [if_neg fun both => long both.2] at on
      exact absurd on.2 (by decide)
    · exact Config.FixedCarried.carried fixed off w widest
  split_ifs
  · exact fits
  · exact least.trans fits

/-- The build reads the modifier as it is meant. -/
def Supported (cfg : Config) : LengthModifier → Prop
  | .short | .char => cfg.small = true
  | .largeLongLong | .largeIntmax | .largeSizet | .largePtrdifft => cfg.large = true
  | .none | .long | .longDouble => True

theorem LengthToken.supported {m : LengthToken} (on : m.enabled cfg = true) :
    Supported cfg (m.modifier cfg) := by
  cases m with
  | none | l | L => trivial
  | hh | h | ll | j | z | t => exact on
  | w fast w =>
      have small := cfg.fixed_small (LengthToken.fixedWidth_of_enabled on)
      have widest : Supported cfg (lmWidest cfg) := by
        rw [lmWidest]
        split_ifs with large
        · exact large
        · trivial
      have resolved : ∀ bits, Supported cfg (lmOf cfg bits) := by
        intro bits
        rw [lmOf]
        split_ifs
        · exact small
        · exact small
        · trivial
        · trivial
        · exact widest
      cases fast <;> exact resolved _

/-- The width of the integer type that a length modifier names; `L` is ignored. -/
def LengthToken.bits (cfg : Config) : LengthToken → ℕ
  | none | L => cfg.intBits
  | hh => cfg.charBits
  | h => cfg.shortBits
  | l => cfg.longBits
  | ll | j => 64
  | z => cfg.sizeBits
  | t => cfg.ptrdiffBits
  | w fast width => if fast then cfg.fastBits width else cfg.leastBits width

/-- Where `z` shares a `va_arg` with another type, that has its width. -/
theorem foldZ_width (cfg : Config) : (foldZ cfg).width cfg cfg.sizeBits = cfg.sizeBits := by
  unfold foldZ
  split_ifs with int long
  · exact int.symm
  · exact long.1.symm
  · rfl

theorem foldT_width (cfg : Config) : (foldT cfg).width cfg cfg.ptrdiffBits = cfg.ptrdiffBits := by
  unfold foldT
  split_ifs with int long
  · exact int.symm
  · exact long.1.symm
  · rfl

theorem argWidth_long (cfg : Config) : argWidth cfg .long = cfg.longBits := by
  rw [argWidth, longIsInt]
  split_ifs with same
  · exact (of_decide_eq_true same).symm
  · rfl

theorem argWidth_sizet (large : cfg.large = true) : argWidth cfg .largeSizet = cfg.sizeBits := by
  rw [argWidth, if_pos large, foldZ_width]

theorem argWidth_ptrdifft (large : cfg.large = true) :
    argWidth cfg .largePtrdifft = cfg.ptrdiffBits := by
  rw [argWidth, if_pos large, foldT_width]

/-- The width of the modifier for a standard type. -/
theorem lmOf_width (small : cfg.small = true) {bits : ℕ}
    (standard : bits ∈ [cfg.charBits, cfg.shortBits, cfg.intBits, cfg.longBits, 64])
    (carried : bits ≤ cfg.longBits ∨ cfg.large = true) :
    narrowWidth cfg (lmOf cfg bits) = bits ∧
      argWidth cfg (lmOf cfg bits) = max cfg.intBits bits ∧
      writebackWidth cfg (lmOf cfg bits) = some bits := by
  have char := cfg.char_le_short
  have short := cfg.short_le_int
  have int := cfg.int_le_long
  have long := cfg.longBits_le
  simp only [List.mem_cons, List.not_mem_nil, or_false] at standard
  rw [lmOf]
  split_ifs with isChar isShort isInt isLong
  · obtain rfl : bits = cfg.charBits := by omega
    simp [narrowWidth, argWidth, writebackWidth, small, char.trans short]
  · obtain rfl : bits = cfg.shortBits := by omega
    simp [narrowWidth, argWidth, writebackWidth, small, short]
  · obtain rfl : bits = cfg.intBits := by omega
    simp [narrowWidth, argWidth, writebackWidth]
  · obtain rfl : bits = cfg.longBits := by omega
    simp [narrowWidth, argWidth_long, writebackWidth, int]
  · obtain rfl : bits = 64 := by omega
    have large := carried.resolve_left isLong
    simp [narrowWidth, argWidth, writebackWidth, lmWidest, large, int.trans long]

section

variable {m : LengthToken} (on : m.enabled cfg = true)
include on

theorem LengthToken.lmOf_bits [cfg.FixedCarried] {fast : Bool} {width : Width}
    (kind : m = .w fast width) :
    m.modifier cfg = lmOf cfg (m.bits cfg) ∧ cfg.small = true ∧
      m.bits cfg ∈ [cfg.charBits, cfg.shortBits, cfg.intBits, cfg.longBits, 64] ∧
      (m.bits cfg ≤ cfg.longBits ∨ cfg.large = true) := by
  subst kind
  refine ⟨?_, cfg.fixed_small (LengthToken.fixedWidth_of_enabled on), ?_, ?_⟩
  · cases fast <;> rfl
  · cases fast
    · exact cfg.least_standard width
    · exact cfg.fast_standard width
  · rcases off : cfg.large
    · exact .inl (LengthToken.carried on off)
    · exact .inr rfl

/-- An integer is narrowed to the type that its modifier names. -/
theorem LengthToken.narrowWidth_modifier [cfg.FixedCarried] :
    narrowWidth cfg (m.modifier cfg) = m.bits cfg := by
  cases m with
  | none | L => rfl
  | hh | h => exact if_pos on
  | l => exact argWidth_long cfg
  | ll | j => exact if_pos on
  | z => exact argWidth_sizet on
  | t => exact argWidth_ptrdifft on
  | w fast width =>
      obtain ⟨same, small, standard, fits⟩ := LengthToken.lmOf_bits on rfl
      rw [same, (lmOf_width small standard fits).1]

/-- An integer argument has the type that its modifier names, promoted. -/
theorem LengthToken.argWidth_modifier [cfg.FixedCarried] :
    argWidth cfg (m.modifier cfg) = max cfg.intBits (m.bits cfg) := by
  have char := cfg.char_le_short
  have short := cfg.short_le_int
  have int := cfg.int_le_long
  have long := cfg.longBits_le
  have size := cfg.int_le_size
  have ptrdiff := cfg.ptrdiff_eq_size
  cases m with
  | none | L => exact (max_self _).symm
  | hh => exact (max_eq_left (char.trans short)).symm
  | h => exact (max_eq_left short).symm
  | l => exact (argWidth_long cfg).trans (max_eq_right int).symm
  | ll | j => exact (if_pos on).trans (max_eq_right (int.trans long)).symm
  | z => exact (argWidth_sizet on).trans (max_eq_right size).symm
  | t => exact (argWidth_ptrdifft on).trans (max_eq_right (ptrdiff ▸ size)).symm
  | w fast width =>
      obtain ⟨same, small, standard, fits⟩ := LengthToken.lmOf_bits on rfl
      rw [same, (lmOf_width small standard fits).2.1]

/-- `%n` stores an integer of the type that its modifier names. -/
theorem LengthToken.writebackWidth_modifier [cfg.FixedCarried] (integer : m ≠ .L) :
    writebackWidth cfg (m.modifier cfg) = some (m.bits cfg) := by
  cases m with
  | none | l => rfl
  | L => exact absurd rfl integer
  | hh | h | ll | j => exact if_pos on
  | z => exact (if_pos on).trans (congrArg some (foldZ_width cfg))
  | t => exact (if_pos on).trans (congrArg some (foldT_width cfg))
  | w fast width =>
      obtain ⟨same, small, standard, fits⟩ := LengthToken.lmOf_bits on rfl
      rw [same, (lmOf_width small standard fits).2.2]

end

/-! ## Reading -/

theorem takes_vaInt (bits : ℕ) : Takes (Arg.HasType cfg) [.int bits] (vaInt bits) := by
  intro args v rest run
  rcases args with _ | ⟨⟨b, w⟩ | _ | _ | _ | _, args⟩
  case cons.int =>
    rw [vaInt] at run
    split_ifs at run with same
    obtain ⟨rfl, rfl⟩ := Prod.mk.inj (Except.ok.inj run)
    refine ⟨[.int b w], .cons same .nil, rfl, fun more => ?_⟩
    rw [List.cons_append, vaInt, if_pos same]
    rfl
  all_goals cases run

/-- A pointer with what it points to. -/
def vaString (args : List Arg) : Run ((ℕ × List Char) × List Arg) :=
  (vaPtr args).map fun p => ((p.1, p.2.1), p.2.2)

theorem takes_vaString : Takes (Arg.HasType cfg) [.pointer] vaString := by
  intro args p rest run
  rcases args with _ | ⟨_ | ⟨a, m⟩ | _ | _ | _, args⟩
  case cons.ptr =>
    obtain ⟨rfl, rfl⟩ := Prod.mk.inj (Except.ok.inj run)
    exact ⟨[.ptr a m], .cons trivial .nil, rfl, fun _ => rfl⟩
  all_goals cases run

theorem takes_vaReal (lm : LengthModifier) :
    Takes (Arg.HasType cfg) [.real lm] (vaReal cfg lm) := by
  intro args v rest run
  rcases args with _ | ⟨_ | _ | rep | rep | rep, args⟩
  case cons.double =>
    rw [vaReal] at run
    split_ifs at run with matching
    obtain ⟨rfl, rfl⟩ := Prod.mk.inj (Except.ok.inj run)
    refine ⟨[.double rep], .cons ?_ .nil, rfl, fun more => ?_⟩
    · simpa [Arg.HasType] using matching
    · rw [List.cons_append, vaReal, if_pos matching]
      rfl
  case cons.longDouble =>
    rw [vaReal] at run
    split_ifs at run with matching
    obtain ⟨rfl, rfl⟩ := Prod.mk.inj (Except.ok.inj run)
    refine ⟨[.longDouble rep], .cons ?_ .nil, rfl, fun more => ?_⟩
    · simpa [Arg.HasType] using matching
    · rw [List.cons_append, vaReal, if_pos matching]
      rfl
  case cons.npfFloat =>
    rw [vaReal] at run
    split_ifs at run with matching
    obtain ⟨rfl, rfl⟩ := Prod.mk.inj (Except.ok.inj run)
    refine ⟨[.npfFloat rep], .cons matching .nil, rfl, fun more => ?_⟩
    rw [List.cons_append, vaReal, if_pos matching]
    rfl
  all_goals cases run

/-! ## Requests -/

/-- The types of the argument that a conversion takes. -/
def valueTypes (cfg : Config) (lm : LengthModifier) : ConvSpec → List ArgType
  | .none | .percent => []
  | .char => [.int cfg.intBits]
  | .string | .pointer | .writeback => [.pointer]
  | .signedInt | .binary | .octal | .hexInt | .unsignedInt => [.int (argWidth cfg lm)]
  | .floatDec | .floatHex | .floatSci | .floatShortest => [.real lm]

/-- A result and the arguments that are left. -/
def Formatted.split (f : Formatted) : (List Char × List Slot) × List Arg :=
  ((f.text, f.slots), f.args)

section

variable {r : Request} (args : List Arg)

theorem answer_percent (kind : r.convSpec = .percent) :
    (answer cfg r args).map Formatted.split =
      .ok ((r.plain (Request.zeroExtend (r.precision.getD 0) ['%']), []), args) := by
  rw [answer, kind]
  rfl

theorem answer_char (kind : r.convSpec = .char) :
    (answer cfg r args).map Formatted.split =
      (vaInt cfg.intBits args).map (Prod.map (fun v =>
        (r.plain (Request.zeroExtend (r.precision.getD 0)
          [Char.ofNat (v.toNat % 2 ^ cfg.charBits)]), [])) id) := by
  rw [answer, kind]
  rcases vaInt cfg.intBits args with e | ⟨v, rest⟩ <;> rfl

theorem answer_signedInt (kind : r.convSpec = .signedInt) :
    (answer cfg r args).map Formatted.split =
      (extractSigned cfg r.lengthModifier args).map (Prod.map (fun sval =>
        (r.integer 1 (if sval < 0 then '-' else r.prepend) sval.natAbs, [])) id) := by
  rw [answer, kind]
  rcases extractSigned cfg r.lengthModifier args with e | ⟨v, rest⟩ <;> rfl

theorem answer_unsigned
    (kind : r.convSpec ∈ [ConvSpec.binary, .octal, .hexInt, .unsignedInt]) :
    (answer cfg r args).map Formatted.split =
      (extractUnsigned cfg r.lengthModifier args).map
        (Prod.map (fun v => (r.integer 1 NUL v, [])) id) := by
  rw [answer]
  cases conv : r.convSpec with
  | binary | octal | hexInt | unsignedInt =>
      rcases extractUnsigned cfg r.lengthModifier args with e | ⟨v, rest⟩ <;> rfl
  | _ => simp [conv] at kind

theorem answer_pointer (kind : r.convSpec = .pointer) :
    (answer cfg r args).map Formatted.split =
      (vaString args).map (Prod.map (fun p =>
        (r.integer (pointerDigits cfg) NUL (p.1 % 2 ^ cfg.uintBits), [])) id) := by
  rw [answer, kind, vaString]
  rcases vaPtr args with e | ⟨a, memory, rest⟩ <;> rfl

theorem answer_string (kind : r.convSpec = .string) :
    (answer cfg r args).map Formatted.split =
      vaString args >>= fun p =>
        (if p.1.1 = 0 then pure 0 else strLen (r.precision.map Int.ofNat) p.1.2 0 : Run ℕ).map
          fun len => ((r.plain (p.1.2.take len), []), p.2) := by
  rw [answer, kind, vaString]
  rcases vaPtr args with e | ⟨a, memory, rest⟩
  · rfl
  · simp only [bind, Except.bind, Except.map]
    split_ifs
    · rfl
    · rcases strLen (r.precision.map Int.ofNat) memory 0 with e | len <;> rfl

theorem answer_writeback (kind : r.convSpec = .writeback) :
    (answer cfg r args).map Formatted.split =
      vaString args >>= fun p =>
        ((writebackWidth cfg r.lengthModifier).elim (.ok []) fun bits =>
          if p.1.1 = 0 then .error .bounds else .ok [⟨p.1.1, bits⟩] : Run (List Slot)).map
            fun slots => ((r.plain (Request.zeroExtend (r.precision.getD 0) []), slots), p.2) := by
  rw [answer, kind, vaString]
  rcases vaPtr args with e | ⟨a, memory, rest⟩
  · rfl
  · simp only [bind, Except.bind, Except.map]
    rcases writebackWidth cfg r.lengthModifier with - | bits
    · rfl
    · split_ifs <;> rfl

theorem answer_real
    (kind : r.convSpec ∈ [ConvSpec.floatDec, .floatHex, .floatSci, .floatShortest]) :
    (answer cfg r args).map Formatted.split =
      vaReal cfg r.lengthModifier args >>= fun p =>
        (realText cfg r p.1).map fun text => ((text, []), p.2) := by
  rw [answer]
  cases conv : r.convSpec with
  | floatDec | floatHex | floatSci | floatShortest =>
      rcases vaReal cfg r.lengthModifier args with e | ⟨v, rest⟩
      · rfl
      · simp only [bind, Except.bind]
        rcases realText cfg r v with e | text <;> rfl
  | _ => simp [conv] at kind

end

section

variable (r : Request)

theorem takes_extractSigned (lm : LengthModifier) :
    Takes (Arg.HasType cfg) [.int (argWidth cfg lm)] (extractSigned cfg lm) :=
  ((takes_vaInt (argWidth cfg lm)).map fun v => (v.setWidth (narrowWidth cfg lm)).toInt).congr
    fun _ => rfl

theorem takes_extractUnsigned (lm : LengthModifier) :
    Takes (Arg.HasType cfg) [.int (argWidth cfg lm)] (extractUnsigned cfg lm) :=
  ((takes_vaInt (argWidth cfg lm)).map fun v => (v.setWidth (narrowWidth cfg lm)).toNat).congr
    fun _ => rfl

/-- What follows the reading of an argument takes none. -/
theorem takes_answered {α : Type} (x : Run α) (f : α → List Char × List Slot) :
    Takes (Arg.HasType cfg) [] fun rest => x.map fun a => (f a, rest) := by
  rcases x with e | a
  · exact Takes.error [] e
  · exact Takes.pure (f a)

/-- **A request takes the argument of its conversion.** -/
theorem takes_answer :
    Takes (Arg.HasType cfg) (valueTypes cfg r.lengthModifier r.convSpec) fun args =>
      (answer cfg r args).map Formatted.split := by
  cases kind : r.convSpec with
  | none =>
      refine (Takes.error _ .bounds).congr fun args => ?_
      rw [answer, kind]
      rfl
  | percent => exact (Takes.pure _).congr fun args => answer_percent args kind
  | char =>
      refine Takes.congr ?_ fun args => answer_char args kind
      exact (takes_vaInt cfg.intBits).map _
  | string =>
      refine Takes.congr ?_ fun args => answer_string args kind
      exact takes_vaString.bind fun p => takes_answered
        (if p.1 = 0 then pure 0 else strLen (r.precision.map Int.ofNat) p.2 0)
        fun len => (r.plain (p.2.take len), [])
  | signedInt =>
      refine Takes.congr ?_ fun args => answer_signedInt args kind
      exact (takes_extractSigned r.lengthModifier).map _
  | pointer =>
      refine Takes.congr ?_ fun args => answer_pointer args kind
      exact takes_vaString.map _
  | writeback =>
      refine Takes.congr ?_ fun args => answer_writeback args kind
      exact takes_vaString.bind fun p => takes_answered
        ((writebackWidth cfg r.lengthModifier).elim (.ok []) fun bits =>
          if p.1 = 0 then .error .bounds else .ok [⟨p.1, bits⟩])
        fun slots => (r.plain (Request.zeroExtend (r.precision.getD 0) []), slots)
  | binary | octal | hexInt | unsignedInt =>
      refine Takes.congr ?_ fun args => answer_unsigned args (by simp [kind])
      exact (takes_extractUnsigned r.lengthModifier).map _
  | floatDec | floatHex | floatSci | floatShortest =>
      refine Takes.congr ?_ fun args => answer_real args (by simp [kind])
      exact (takes_vaReal r.lengthModifier).bind fun v =>
        takes_answered (realText cfg r v) fun text => (text, [])

end

/-! ## Directives -/

/-- A star takes an `int`. -/
def WidthPart.argTypes (cfg : Config) : WidthPart → List ArgType
  | star => [.int cfg.intBits]
  | digits _ => []

def PrecisionPart.argTypes (cfg : Config) : PrecisionPart → List ArgType
  | star => [.int cfg.intBits]
  | absent => []
  | literal _ _ => []

/-- The types of the arguments of a directive, in order. -/
def Directive.argTypes (cfg : Config) (d : Directive) : List ArgType :=
  d.width.argTypes cfg ++ (d.precision.argTypes cfg ++
    valueTypes cfg (d.length.modifier cfg) d.conversion.convSpec)

section

variable (args : List Arg)

theorem resolveWidth_star :
    (resolveWidth cfg .star args).map (fun p => ((p.1, p.2.1), p.2.2)) =
      (vaInt cfg.intBits args).map (Prod.map (fun v =>
        (min v.toInt.natAbs cfg.fmtNumMax.toNat, decide (v.toInt < 0))) id) := by
  rw [resolveWidth]
  rcases vaInt cfg.intBits args with e | ⟨v, rest⟩ <;> rfl

theorem resolvePrecision_star :
    resolvePrecision cfg .star args =
      (vaInt cfg.intBits args).map (Prod.map (fun v =>
        if v.toInt < 0 then none else some (min v.toInt.toNat cfg.fmtNumMax.toNat)) id) := by
  rw [resolvePrecision]
  rcases vaInt cfg.intBits args with e | ⟨v, rest⟩ <;> rfl

/-- The width and then the precision. -/
theorem resolve_stars (d : Directive) :
    resolve cfg d args =
      (resolveWidth cfg d.width args).map (fun p => ((p.1, p.2.1), p.2.2)) >>= fun width =>
        (resolvePrecision cfg d.precision width.2).map (Prod.map (fun precision =>
          d.request cfg width.1.1 width.1.2 precision) id) := by
  rw [resolve]
  rcases resolveWidth cfg d.width args with e | ⟨width, negative, rest⟩
  · rfl
  · simp only [bind, Except.bind, Except.map]
    rcases resolvePrecision cfg d.precision rest with e | ⟨precision, left⟩ <;> rfl

/-- The request and then the answer. -/
theorem format_directive (d : Directive) :
    ((Piece.directive d).format cfg args).map Formatted.split =
      resolve cfg d args >>= fun request =>
        (answer cfg request.1 request.2).map Formatted.split := by
  rw [Piece.format]
  rcases resolve cfg d args with e | ⟨r, rest⟩ <;> rfl

end

theorem takes_resolveWidth (w : WidthPart) :
    Takes (Arg.HasType cfg) (w.argTypes cfg) fun args =>
      (resolveWidth cfg w args).map fun p => ((p.1, p.2.1), p.2.2) := by
  rcases w with - | ds
  · exact Takes.congr ((takes_vaInt cfg.intBits).map _) resolveWidth_star
  · exact Takes.pure (min (literalNumber cfg ds) cfg.fmtNumMax.toNat, false)

theorem takes_resolvePrecision (p : PrecisionPart) :
    Takes (Arg.HasType cfg) (p.argTypes cfg) (resolvePrecision cfg p) := by
  rcases p with - | - | ⟨_ | _, ds⟩
  · exact Takes.pure none
  · exact Takes.congr ((takes_vaInt cfg.intBits).map _) resolvePrecision_star
  · exact Takes.pure _
  · exact Takes.pure none

/-- The stars of a directive take the arguments for a width and a precision. -/
theorem takes_resolve (d : Directive) :
    Takes (Arg.HasType cfg) (d.width.argTypes cfg ++ d.precision.argTypes cfg) (resolve cfg d) :=
  ((takes_resolveWidth d.width).bind fun width =>
    (takes_resolvePrecision d.precision).map fun precision =>
      d.request cfg width.1 width.2 precision).congr fun args => resolve_stars args d

/-- **A directive takes the arguments of its stars and of its conversion.** -/
theorem takes_directive (d : Directive) :
    Takes (Arg.HasType cfg) (d.argTypes cfg) fun args =>
      ((Piece.directive d).format cfg args).map Formatted.split := by
  refine ((takes_resolveWidth d.width).bind fun width =>
    (takes_resolvePrecision d.precision).bind fun precision =>
      takes_answer (d.request cfg width.1 width.2 precision)).congr fun args => ?_
  rw [Piece.format, resolve]
  rcases resolveWidth cfg d.width args with e | ⟨width, negative, rest⟩
  · rfl
  · simp only [bind, Except.bind, Except.map]
    rcases resolvePrecision cfg d.precision rest with e | ⟨precision, left⟩ <;> rfl

/-- The types of the arguments of a piece. -/
def Piece.argTypes (cfg : Config) : Piece → List ArgType
  | literal _ => []
  | directive d => d.argTypes cfg

/-- The engine passes over arguments from the front. -/
theorem Stars.suffix {d : Directive} {old fs : NpfFormatSpec} {args rest : List Arg}
    (stars : Stars cfg d old args rest fs) : rest <:+ args :=
  ((takes_resolvePrecision d.precision).suffix stars.precisionRun).trans
    ((takes_resolveWidth d.width).suffix (by rw [stars.widthRun]; rfl))

theorem formatOne_suffix {κ : Type} {pc : κ → Char → κ} {d : Directive} (on : d.enabled cfg = true)
    (old : NpfFormatSpec) {st st' : PrintState κ}
    (run : formatOne cfg pc { st with fs := d.denote cfg old } = .ok st') :
    st'.args <:+ st.args := by
  have one := @formatOne_eq cfg κ pc { st with fs := d.denote cfg old }
  simp only at one
  rw [formatted_eq on, run] at one
  obtain ⟨f, format, progress⟩ := map_eq_ok.mp one.symm
  have left : f.args = st'.args := congrArg Progress.args progress
  exact left ▸ (takes_directive d).suffix (by rw [Piece.format, format]; rfl)

theorem takes_piece (p : Piece) :
    Takes (Arg.HasType cfg) (p.argTypes cfg) fun args =>
      (p.format cfg args).map Formatted.split := by
  rcases p with c | d
  · exact Takes.pure ([c], [])
  · exact takes_directive d

/-- A list of pieces takes the arguments of its pieces, one after the other. -/
theorem takes_output (ps : List Piece) :
    Takes (Arg.HasType cfg) (ps.flatMap (Piece.argTypes cfg)) fun args =>
      (output cfg ps args).map fun o => ((o.text, o.marks), o.args) := by
  induction ps with
  | nil => exact Takes.pure ([], [])
  | cons p ps ih =>
      rw [List.flatMap_cons]
      refine ((takes_piece p).bind fun f => ih.map fun o => ((⟨o.1, o.2, []⟩ : Output).after
        ⟨f.1, f.2, []⟩ |> fun o => (o.text, o.marks))).congr fun args => ?_
      rw [output]
      rcases p.format cfg args with e | f
      · rfl
      simp only [bind, Except.bind, Except.map, Formatted.split]
      rcases output cfg ps f.args with e | o <;> rfl

end Nanoprintf
