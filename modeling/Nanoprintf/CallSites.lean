import Nanoprintf.Independence
import Nanoprintf.Overflow

/-!
# Calls

`npf_pprintf` and `npf_snprintf` are macros: in single-precision mode every argument, the
format included, goes through `NPF__WRAP`, which packs a real into an `npf_float_t` before
the promotions of a variadic call would make it a `double`. There are three versions of
`NPF__WRAP`, and `NPF__MAP` applies it to 64 arguments at most. A call that does not
compile has no meaning here, and is `none`.

Arguments that suit the format, as the C standard wants it, are what the engine reads,
unless the macros are in the way: `npfPprintf_defined_iff` says when, and that an `int`
has to count the text.
-/

set_option autoImplicit false

namespace Nanoprintf

open Foundations

variable {cfg : Config} {t : Target} {κ : Type}

/-! ## Arguments as they are written -/

inductive CInteger where
  | bool | char | signedChar | unsignedChar | short | unsignedShort
  | int | unsigned | long | unsignedLong | longLong | unsignedLongLong
  deriving DecidableEq, Repr

namespace CInteger

def bits (t : Target) : CInteger → ℕ
  | bool => 1
  | char | signedChar | unsignedChar => t.charBits
  | short | unsignedShort => t.shortBits
  | int | unsigned => t.intBits
  | long | unsignedLong => t.longBits
  | longLong | unsignedLongLong => 64

def signed (t : Target) : CInteger → Bool
  | char => t.charSigned
  | signedChar | short | int | long | longLong => true
  | bool | unsignedChar | unsignedShort | unsigned | unsignedLong | unsignedLongLong => false

end CInteger

/-- What a pointer points to: a type that `NPF__WRAP` lists in C11, or another. -/
inductive Pointee where
  | char | constChar | void | constVoid | int | short | long | longLong | signedChar | other
  deriving DecidableEq, Repr

/-- The functions take a pointer to it for their format. -/
def Pointee.IsString : Pointee → Prop
  | char | constChar => True
  | _ => False

/-- An argument of a call, with its type. -/
inductive CArg (t : Target) where
  | integer (type : CInteger) (value : BitVec (type.bits t))
  | float (rep : BitVec 32)
  | double (rep : BitVec 64)
  /-- by its conversions to `double` and to `float` -/
  | longDouble (asReal : BitVec 64) (asFloat : BitVec 32)
  | npfFloat (rep : BitVec 32)
  | pointer (target : Pointee) (address : ℕ) (memory : List Char)
  deriving DecidableEq, Repr

/-- The default argument promotions. -/
def CArg.promote : CArg t → Arg
  | integer type value => .int (max t.intBits (type.bits t))
      (if type.signed t then value.signExtend _ else value.setWidth _)
  | float rep => .double (widen rep)
  | double rep => .double rep
  | longDouble asReal _ => .longDouble asReal
  | npfFloat rep => .npfFloat rep
  | pointer _ address memory => .ptr address memory

/-- `n / 2 ^ k`, a half going to the even neighbour. -/
def halfToEven (n k : ℕ) : ℕ :=
  n / 2 ^ k + if 2 ^ k < 2 * (n % 2 ^ k) ∨ 2 ^ k = 2 * (n % 2 ^ k) ∧ n / 2 ^ k % 2 = 1 then 1 else 0

/-- `(float)d` -/
def narrow (d : BitVec 64) : BitVec 32 :=
  let sign := d.toNat >>> 63
  let exp := d.toNat >>> 52 % 2048
  let man := d.toNat % 2 ^ 52
  let fields :=
    if exp = 2047 then 255 * 2 ^ 23 + if man = 0 then 0 else (1 <<< 22 ||| man >>> 29)
    else
      let bin := if exp ≠ 0 then 2 ^ 52 + man else man
      min (255 * 2 ^ 23) ((exp - 897) * 2 ^ 23 + halfToEven bin (29 + (897 - max exp 1)))
  BitVec.ofNat 32 (sign * 2 ^ 31 + fields)

/-! ## Wrapping -/

/-- The languages that `NPF__WRAP` has a version for. -/
inductive Dialect where
  | cpp | gnu | c11
  deriving DecidableEq, Repr

/-- A C11 selection has the type. -/
def CArg.Listed : CArg t → Prop
  | integer type _ => type ≠ .bool
  | pointer target _ _ => target ≠ .other
  | npfFloat _ => False
  | float _ | double _ | longDouble _ _ => True

instance : DecidablePred (@CArg.Listed t)
  | .integer type _ => inferInstanceAs (Decidable (type ≠ .bool))
  | .pointer target _ _ => inferInstanceAs (Decidable (target ≠ .other))
  | .npfFloat _ => inferInstanceAs (Decidable False)
  | .float _ | .double _ | .longDouble _ _ => inferInstanceAs (Decidable True)

/-- `NPF__WRAP` -/
def npfWrap : Dialect → CArg t → Option (CArg t)
  | .cpp, .float f => some (.npfFloat f)
  | .cpp, .double d => some (.npfFloat (narrow d))
  | .cpp, a => some a
  | .gnu, .float f => some (.npfFloat f)
  | .gnu, .double d => some (.npfFloat (narrow d))
  | .gnu, a => some a
  | .c11, .float f => some (.npfFloat f)
  | .c11, .double d => some (.npfFloat (narrow d))
  | .c11, .longDouble _ f => some (.npfFloat f)
  | .c11, a => if a.Listed then some a else none

/-- What the preprocessor counts with: arguments of a macro and the numbers behind them. -/
inductive Token (α : Type) where
  | arg (a : α)
  | number (n : ℕ)

section

variable {α β : Type}

/-- `NPF__RSEQ` -/
def npfRseq : List (Token α) := (List.range 65).reverse.map .number

/-- `NPF__ARG_N`: the parameter behind 64 others. -/
def npfArgN (tokens : List (Token α)) : Option (Token α) := tokens[64]?

/-- `NPF__NARG` -/
def npfNarg (args : List α) : Option (Token α) := npfArgN (args.map .arg ++ npfRseq)

/-- `NPF__MAP_1` to `NPF__MAP_64` -/
def npfMapN (f : α → Option β) : ℕ → List α → Option (List β)
  | 1, [a] => (f a).map fun x => [x]
  | n + 2, a :: b :: rest => do
    let x ← f a
    let xs ← npfMapN f (n + 1) (b :: rest)
    pure (x :: xs)
  | _, _ => none

/-- `NPF__MAP`: a macro whose name ends in the number of arguments, if there is one. -/
def npfMap (f : α → Option β) (args : List α) : Option (List β) :=
  match npfNarg args with
  | some (.number n) => if n ≤ 64 then npfMapN f n args else none
  | _ => none

end

/-- `NPF_MAP_ARGS` -/
def npfMapArgs (cfg : Config) (dialect : Dialect) (args : List (CArg cfg.toTarget)) :
    Option (List (CArg cfg.toTarget)) :=
  if cfg.singlePrecision then npfMap (npfWrap dialect) args else some args

section

variable {α β : Type} (f : α → Option β)

theorem npfNarg_eq (args : List α) :
    npfNarg args =
      if args.length ≤ 64 then some (.number args.length) else args[64]?.map .arg := by
  rw [npfNarg, npfArgN, npfRseq]
  split_ifs with short
  · rw [List.getElem?_append_right (by simpa using short), List.getElem?_map, List.length_map,
      List.getElem?_reverse (by simp; omega), List.getElem?_range (by simp; omega)]
    simp
    omega
  · rw [List.getElem?_append_left (by simp; omega), List.getElem?_map]

theorem npfMapN_eq {args : List α} (nonempty : args ≠ []) :
    npfMapN f args.length args = args.mapM f := by
  induction args with
  | nil => exact absurd rfl nonempty
  | cons a args ih =>
      cases args with
      | nil =>
          rw [List.length_singleton, npfMapN, List.mapM_cons, List.mapM_nil]
          cases f a <;> rfl
      | cons b rest =>
          rw [List.mapM_cons, ← ih (List.cons_ne_nil b rest)]
          rfl

/-- **The macro maps up to 64 arguments**, and at least one. -/
theorem npfMap_eq (args : List α) :
    npfMap f args = if args ≠ [] ∧ args.length ≤ 64 then args.mapM f else none := by
  rw [npfMap, npfNarg_eq]
  by_cases short : args.length ≤ 64
  · rw [if_pos short]
    by_cases empty : args = []
    · rw [if_neg fun both => both.1 empty, empty]
      rfl
    · rw [if_pos ⟨empty, short⟩, ← npfMapN_eq f empty]
      exact if_pos short
  · rw [if_neg short, if_neg fun both => short both.2]
    cases args[64]? <;> rfl

end

/-! ## The functions -/

/-- `npf_pprintf_`: the variable arguments are behind the format. -/
def npfPprintf_ (cfg : Config) (pc : κ → Char → κ) (ctx : κ) (args : List (CArg cfg.toTarget))
    (fs : NpfFormatSpec) : Option (Run (ℤ × κ × List Store)) :=
  match args with
  | .pointer .char _ format :: rest | .pointer .constChar _ format :: rest =>
    some (npfVpprintf cfg pc ctx format (rest.map CArg.promote) fs)
  | _ => none

/-- `npf_snprintf_` -/
def npfSnprintf_ (cfg : Config) (memory : Memory) (buffer : Bool) (bufsz : ℕ)
    (args : List (CArg cfg.toTarget)) (fs : NpfFormatSpec) :
    Option (Run (ℤ × Memory × List Store)) :=
  match args with
  | .pointer .char _ format :: rest | .pointer .constChar _ format :: rest =>
    some (npfVsnprintf cfg memory buffer bufsz format (rest.map CArg.promote) fs)
  | _ => none

/-- `npf_pprintf` -/
def npfPprintf (cfg : Config) (dialect : Dialect) (pc : κ → Char → κ) (ctx : κ)
    (args : List (CArg cfg.toTarget)) (fs : NpfFormatSpec) : Option (Run (ℤ × κ × List Store)) := do
  npfPprintf_ cfg pc ctx (← npfMapArgs cfg dialect args) fs

/-- `npf_snprintf` -/
def npfSnprintf (cfg : Config) (dialect : Dialect) (memory : Memory) (buffer : Bool) (bufsz : ℕ)
    (args : List (CArg cfg.toTarget)) (fs : NpfFormatSpec) :
    Option (Run (ℤ × Memory × List Store)) := do
  npfSnprintf_ cfg memory buffer bufsz (← npfMapArgs cfg dialect args) fs

/-- `npf_pprintf`, undefined where an `int` overflows. -/
def npfPprintfChecked (cfg : Config) (dialect : Dialect) (pc : κ → Char → κ) (ctx : κ)
    (args : List (CArg cfg.toTarget)) (fs : NpfFormatSpec) : Option (Run (ℤ × κ × List Store)) := do
  match ← npfMapArgs cfg dialect args with
  | .pointer .char _ format :: rest | .pointer .constChar _ format :: rest =>
    some (npfVpprintfChecked cfg pc ctx format (rest.map CArg.promote) fs)
  | _ => none

/-- `npf_snprintf`, undefined where an `int` overflows. -/
def npfSnprintfChecked (cfg : Config) (dialect : Dialect) (memory : Memory) (buffer : Bool)
    (bufsz : ℕ) (args : List (CArg cfg.toTarget)) (fs : NpfFormatSpec) :
    Option (Run (ℤ × Memory × List Store)) := do
  match ← npfMapArgs cfg dialect args with
  | .pointer .char _ format :: rest | .pointer .constChar _ format :: rest =>
    some (npfVsnprintfChecked cfg memory buffer bufsz format (rest.map CArg.promote) fs)
  | _ => none

/-! ## Types -/

/-- The argument suits a type that a format asks for. -/
def CArg.Suits : CArg t → ArgType → Prop
  | integer type _, .int bits => max t.intBits (type.bits t) = bits
  | pointer _ _ _, .pointer => True
  | float _, .real lm | double _, .real lm => lm ≠ .longDouble
  | longDouble _ _, .real lm => lm = .longDouble
  | _, _ => False

/-- The arguments of a piece: pointers that are used are usable. -/
def Piece.CTyped (cfg : Config) : Piece → List (CArg cfg.toTarget) → Prop
  | literal _, taken => taken = []
  | directive d, taken =>
    List.Forall₂ CArg.Suits taken (d.argTypes cfg) ∧
      d.PointersUsable cfg (taken.map CArg.promote)

/-- The arguments of a call suit its format, and some may be left. -/
inductive CTyped (cfg : Config) : List Piece → List (CArg cfg.toTarget) → Prop
  | done (unused : List (CArg cfg.toTarget)) : CTyped cfg [] unused
  | piece {p : Piece} {ps : List Piece} {taken args : List (CArg cfg.toTarget)}
      (one : p.CTyped cfg taken) (rest : CTyped cfg ps args) : CTyped cfg (p :: ps) (taken ++ args)

/-- The argument is a real. -/
def CArg.IsReal : CArg t → Prop
  | float _ | double _ | longDouble _ _ | npfFloat _ => True
  | integer _ _ | pointer _ _ _ => False

def ConvSpec.IsReal (conv : ConvSpec) : Prop :=
  conv ∈ [ConvSpec.floatDec, .floatHex, .floatSci, .floatShortest]

instance : DecidablePred ConvSpec.IsReal := fun conv =>
  inferInstanceAs (Decidable (conv ∈ [ConvSpec.floatDec, .floatHex, .floatSci, .floatShortest]))

theorem real_mem_argTypes {d : Directive} {lm : LengthModifier} :
    .real lm ∈ d.argTypes cfg ↔ d.conversion.convSpec.IsReal ∧ lm = d.length.modifier cfg := by
  have width : .real lm ∉ d.width.argTypes cfg := by
    cases d.width <;> simp [WidthPart.argTypes]
  have precision : .real lm ∉ d.precision.argTypes cfg := by
    cases d.precision <;> simp [PrecisionPart.argTypes]
  rw [Directive.argTypes, List.mem_append, List.mem_append, or_iff_right width,
    or_iff_right precision]
  cases d.conversion.convSpec <;> simp [valueTypes, ConvSpec.IsReal]

theorem Piece.CTyped.length {p : Piece} {taken : List (CArg cfg.toTarget)}
    (typed : p.CTyped cfg taken) : taken.length = (p.argTypes cfg).length := by
  cases p with
  | literal c => exact congrArg List.length (show taken = [] from typed)
  | directive d => exact typed.1.length_eq

theorem Piece.Typed.length {p : Piece} {taken : List Arg} (typed : p.Typed cfg taken) :
    taken.length = (p.argTypes cfg).length := by
  cases p with
  | literal c => exact congrArg List.length (show taken = [] from typed)
  | directive d => exact typed.1.length_eq

theorem Typed.cons {p : Piece} {ps : List Piece} {xs : List Arg} (typed : Typed cfg (p :: ps) xs) :
    ∃ taken args, xs = taken ++ args ∧ p.Typed cfg taken ∧ Typed cfg ps args := by
  cases typed with
  | piece one rest => exact ⟨_, _, rfl, one, rest⟩

section

variable {g : CArg cfg.toTarget → Arg} {Q : LengthModifier → Prop}
  (plain : ∀ a, ¬ a.IsReal → g a = a.promote)
  (real : ∀ lm a, a.Suits (.real lm) → ((g a).HasType cfg (.real lm) ↔ Q lm))

include plain real

/-- Passed one by one, suitable arguments have the types that are asked for if the reals have. -/
theorem hasTypes_iff {taken : List (CArg cfg.toTarget)} {types : List ArgType}
    (suits : List.Forall₂ CArg.Suits taken types) :
    List.Forall₂ (Arg.HasType cfg) (taken.map g) types ↔ ∀ lm, .real lm ∈ types → Q lm := by
  induction suits with
  | nil => simp
  | @cons a type taken types one rest ih =>
      rw [List.map_cons, List.forall₂_cons, ih]
      cases type with
      | real lm =>
          rw [real lm a one]
          simp only [List.mem_cons, ArgType.real.injEq, forall_eq_or_imp]
      | int bits =>
          have typed : (g a).HasType cfg (.int bits) := by
            cases a <;> first | exact one.elim | skip
            rw [plain _ id]
            exact one
          simp [typed]
      | pointer =>
          have typed : (g a).HasType cfg .pointer := by
            cases a <;> first | exact one.elim | skip
            rw [plain _ id]
            exact trivial
          simp [typed]

omit real in
/-- Arguments that are no reals are passed as they are. -/
theorem map_eq_promote {taken : List (CArg cfg.toTarget)} {types : List ArgType}
    (suits : List.Forall₂ CArg.Suits taken types) (noReal : ∀ lm, .real lm ∉ types) :
    taken.map g = taken.map CArg.promote := by
  induction suits with
  | nil => rfl
  | @cons a type taken types one rest ih =>
      have head : g a = a.promote := by
        refine plain a fun isReal => ?_
        cases type with
        | real lm => exact noReal lm List.mem_cons_self
        | int bits | pointer => cases a <;> first | exact one | exact isReal
      rw [List.map_cons, List.map_cons, head, ih fun lm member =>
        noReal lm (List.mem_cons_of_mem _ member)]

/-- A piece finds what it asks for if the reals have the right type. -/
theorem Piece.typed_iff {d : Directive} {taken : List (CArg cfg.toTarget)}
    (typed : (Piece.directive d).CTyped cfg taken) :
    (Piece.directive d).Typed cfg (taken.map g) ↔
      (d.conversion.convSpec.IsReal → Q (d.length.modifier cfg)) := by
  obtain ⟨suits, usable⟩ := typed
  have types : (∀ lm, .real lm ∈ d.argTypes cfg → Q lm) ↔
      (d.conversion.convSpec.IsReal → Q (d.length.modifier cfg)) := by
    simp only [real_mem_argTypes, and_imp]
    exact ⟨fun all isReal => all _ isReal rfl, fun one lm isReal same => same ▸ one isReal⟩
  rw [Piece.Typed, hasTypes_iff plain real suits, types, and_iff_left_iff_imp]
  intro one r a memory rest resolved
  by_cases isReal : d.conversion.convSpec.IsReal
  · refine ⟨fun kind => ?_, fun kind => ?_⟩ <;>
      · rw [kind] at isReal
        simp [ConvSpec.IsReal] at isReal
  · rw [map_eq_promote plain suits fun lm member => isReal (real_mem_argTypes.mp member).1]
      at resolved
    exact usable r a memory rest resolved

/-- The reals decide whether suitable arguments are what the engine reads. -/
theorem CTyped.typed_iff {ps : List Piece} {args : List (CArg cfg.toTarget)}
    (typed : CTyped cfg ps args) : Typed cfg ps (args.map g) ↔
      ∀ d, .directive d ∈ ps → d.conversion.convSpec.IsReal → Q (d.length.modifier cfg) := by
  induction typed with
  | done unused => simpa using Typed.done _
  | @piece p ps taken args one rest ih =>
      have head : p.Typed cfg (taken.map g) ↔
          ∀ d, .directive d = p → d.conversion.convSpec.IsReal → Q (d.length.modifier cfg) := by
        cases p with
        | literal c =>
            obtain rfl : taken = [] := one
            exact ⟨fun _ d same => (Piece.noConfusion same), fun _ => rfl⟩
        | directive d =>
            rw [Piece.typed_iff plain real one]
            exact ⟨fun one d' same => Piece.directive.inj same ▸ one, fun all => all d rfl⟩
      have parts : Typed cfg (p :: ps) ((taken ++ args).map g) ↔
          p.Typed cfg (taken.map g) ∧ Typed cfg ps (args.map g) := by
        rw [List.map_append]
        refine ⟨fun both => ?_, fun ⟨first, later⟩ => .piece first later⟩
        obtain ⟨taken', args', split, first, later⟩ := both.cons
        have lengths : (taken.map g).length = taken'.length := by
          rw [List.length_map, one.length, first.length]
        obtain ⟨same, same'⟩ := List.append_inj split lengths
        exact ⟨same ▸ first, same' ▸ later⟩
      rw [parts, head, ih]
      simp only [List.mem_cons, forall_and, or_imp]

end

/-! ## Calls that are defined -/

/-- `longDouble` is the modifier of `L` alone. -/
theorem LengthToken.modifier_eq_longDouble {m : LengthToken} :
    m.modifier cfg = .longDouble ↔ m = .L := by
  cases m with
  | w fast width =>
      cases fast <;>
        · simp only [modifier, lmOfW, lmOf, lmWidest]
          split_ifs <;> simp
  | _ => simp [modifier]

/-- What `NPF__WRAP` makes of an argument that it takes. -/
def packed (dialect : Dialect) (a : CArg t) : CArg t := (npfWrap dialect a).getD a

theorem npfWrap_eq (dialect : Dialect) (a : CArg cfg.toTarget) :
    npfWrap dialect a =
      if dialect = .c11 → a.Listed then some (packed dialect a) else none := by
  have taken : (dialect = .c11 → a.Listed) ↔ npfWrap dialect a ≠ none := by
    have kept : ∀ b : CArg cfg.toTarget, b.Listed ↔ (if b.Listed then some b else none) ≠ none :=
      fun b => by by_cases listed : b.Listed <;> simp [listed]
    cases dialect with
    | cpp | gnu => cases a <;> simp [npfWrap]
    | c11 =>
        cases a with
        | integer _ _ | pointer _ _ _ | npfFloat _ => exact (forall_prop_of_true rfl).trans (kept _)
        | float _ | double _ | longDouble _ _ => exact iff_of_true (fun _ => trivial) nofun
  rw [packed]
  split_ifs with listed
  · obtain ⟨b, same⟩ := Option.ne_none_iff_exists'.mp (taken.mp listed)
    rw [same]
    rfl
  · exact not_not.mp (taken.not.mp listed)

/-- A call in single precision compiles if C11 lists all types. -/
theorem mapM_npfWrap (dialect : Dialect) (args : List (CArg cfg.toTarget)) :
    args.mapM (npfWrap dialect) =
      if dialect = .c11 → ∀ a ∈ args, a.Listed then some (args.map (packed dialect)) else none := by
  induction args with
  | nil => simp
  | cons a args ih =>
      rw [List.mapM_cons, ih, npfWrap_eq]
      have both : (dialect = .c11 → ∀ b ∈ a :: args, b.Listed) ↔
          (dialect = .c11 → a.Listed) ∧ (dialect = .c11 → ∀ b ∈ args, b.Listed) := by
        rw [List.forall_mem_cons, imp_and]
      simp only [both]
      by_cases head : dialect = .c11 → a.Listed
      · by_cases tail : dialect = .c11 → ∀ b ∈ args, b.Listed
        · rw [if_pos head, if_pos tail, if_pos ⟨head, tail⟩]
          rfl
        · rw [if_pos head, if_neg tail, if_neg (not_and_of_not_right _ tail)]
          rfl
      · rw [if_neg head, if_neg (not_and_of_not_left _ head)]
        rfl

theorem packed_plain (dialect : Dialect) {a : CArg cfg.toTarget} (plain : ¬ a.IsReal) :
    packed dialect a = a := by
  have kept : npfWrap dialect a = some a ∨ npfWrap dialect a = none := by
    cases a <;> first | exact absurd trivial plain | skip
    all_goals
      cases dialect with
      | cpp | gnu => exact .inl rfl
      | c11 => simp only [npfWrap]; split_ifs <;> simp
  rcases kept with kept | kept <;>
    · rw [packed, kept]
      rfl

/-- In single precision the engine finds the reals, but not behind `L` unless C11 packs them. -/
theorem packed_hasType (single : cfg.singlePrecision = true) (dialect : Dialect)
    (lm : LengthModifier) (a : CArg cfg.toTarget) (suits : a.Suits (.real lm)) :
    (packed dialect a).promote.HasType cfg (.real lm) ↔ dialect ≠ .c11 → lm ≠ .longDouble := by
  cases a with
  | float rep | double rep =>
      exact ⟨fun _ _ => suits, fun _ => by cases dialect <;> exact single⟩
  | longDouble asReal asFloat =>
      obtain rfl : lm = .longDouble := suits
      cases dialect with
      | cpp | gnu => simp [packed, npfWrap, CArg.promote, Arg.HasType, single]
      | c11 => simp [packed, npfWrap, CArg.promote, Arg.HasType, single]
  | integer type value => exact suits.elim
  | npfFloat rep => exact suits.elim
  | pointer target address memory => exact suits.elim

/-- In double precision the engine finds every real. -/
theorem promote_hasType (double : cfg.singlePrecision = false) (lm : LengthModifier)
    (a : CArg cfg.toTarget) (suits : a.Suits (.real lm)) : a.promote.HasType cfg (.real lm) := by
  cases a with
  | float rep | double rep => exact ⟨double, .inr suits⟩
  | longDouble asReal asFloat => exact ⟨double, .inr suits⟩
  | integer type value => exact suits.elim
  | npfFloat rep => exact suits.elim
  | pointer target address memory => exact suits.elim

/-- The argument that a function gets for one of a call. -/
def passed (cfg : Config) (dialect : Dialect) (a : CArg cfg.toTarget) : CArg cfg.toTarget :=
  if cfg.singlePrecision then packed dialect a else a

/-- The macros take the arguments. -/
def Compiles (cfg : Config) (dialect : Dialect) (args : List (CArg cfg.toTarget)) : Prop :=
  cfg.singlePrecision = true → args.length ≤ 63 ∧ (dialect = .c11 → ∀ a ∈ args, a.Listed)

instance (dialect : Dialect) (args : List (CArg cfg.toTarget)) :
    Decidable (Compiles cfg dialect args) :=
  inferInstanceAs (Decidable (_ → _))

theorem npfMapArgs_eq (dialect : Dialect) {target : Pointee} (string : target.IsString)
    (address : ℕ) (format : Cursor) (args : List (CArg cfg.toTarget)) :
    npfMapArgs cfg dialect (.pointer target address format :: args) =
      if Compiles cfg dialect args then
        some (.pointer target address format :: args.map (passed cfg dialect))
      else none := by
  have known : target ≠ .other := by
    rintro rfl
    exact string
  rw [npfMapArgs]
  by_cases single : cfg.singlePrecision = true
  · have few : CArg.pointer target address format :: args ≠ [] ∧
        (CArg.pointer target address format :: args).length ≤ 64 ↔ args.length ≤ 63 := by
      rw [List.length_cons]
      exact ⟨fun both => by omega, fun short => ⟨List.cons_ne_nil _ _, by omega⟩⟩
    have listed : (dialect = .c11 →
          ∀ a ∈ CArg.pointer target address format :: args, a.Listed) ↔
        (dialect = .c11 → ∀ a ∈ args, a.Listed) := by
      simp [CArg.Listed, known]
    have compiles : Compiles cfg dialect args ↔
        args.length ≤ 63 ∧ (dialect = .c11 → ∀ a ∈ args, a.Listed) :=
      ⟨fun asked => asked single, fun both _ => both⟩
    have each : args.map (passed cfg dialect) = args.map (packed dialect) :=
      List.map_congr_left fun a _ => if_pos single
    rw [if_pos single, npfMap_eq, mapM_npfWrap, List.map_cons, packed_plain dialect id, each]
    simp only [few, listed, compiles, ite_and]
  · have each : args.map (passed cfg dialect) = args :=
      (List.map_congr_left fun a _ => if_neg single).trans (List.map_id args)
    have compiles : Compiles cfg dialect args := fun wrapped => absurd wrapped single
    rw [if_neg single, if_pos compiles, each]

section

variable {dialect : Dialect} {args : List (CArg cfg.toTarget)}
  (compiles : Compiles cfg dialect args) {target : Pointee} (string : target.IsString)
  (address : ℕ) (format : Cursor) (fs : NpfFormatSpec) (pc : κ → Char → κ) (ctx : κ)
  (memory : Memory) (buffer : Bool) (bufsz : ℕ)
include compiles string

theorem npfPprintf_eq :
    npfPprintf cfg dialect pc ctx (.pointer target address format :: args) fs =
      some (npfVpprintf cfg pc ctx format
        ((args.map (passed cfg dialect)).map CArg.promote) fs) := by
  rw [npfPprintf, npfMapArgs_eq dialect string, if_pos compiles]
  cases target <;> first | rfl | exact string.elim

theorem npfSnprintf_eq :
    npfSnprintf cfg dialect memory buffer bufsz (.pointer target address format :: args) fs =
      some (npfVsnprintf cfg memory buffer bufsz format
        ((args.map (passed cfg dialect)).map CArg.promote) fs) := by
  rw [npfSnprintf, npfMapArgs_eq dialect string, if_pos compiles]
  cases target <;> first | rfl | exact string.elim

theorem npfPprintfChecked_eq :
    npfPprintfChecked cfg dialect pc ctx (.pointer target address format :: args) fs =
      some (npfVpprintfChecked cfg pc ctx format
        ((args.map (passed cfg dialect)).map CArg.promote) fs) := by
  rw [npfPprintfChecked, npfMapArgs_eq dialect string, if_pos compiles]
  cases target <;> first | rfl | exact string.elim

theorem npfSnprintfChecked_eq :
    npfSnprintfChecked cfg dialect memory buffer bufsz (.pointer target address format :: args) fs =
      some (npfVsnprintfChecked cfg memory buffer bufsz format
        ((args.map (passed cfg dialect)).map CArg.promote) fs) := by
  rw [npfSnprintfChecked, npfMapArgs_eq dialect string, if_pos compiles]
  cases target <;> first | rfl | exact string.elim

end

/-- A call that is defined does what the function does. -/
theorem npfPprintf_of_checked {dialect : Dialect} {args : List (CArg cfg.toTarget)}
    {fs : NpfFormatSpec} {pc : κ → Char → κ} {ctx : κ} {out : ℤ × κ × List Store}
    (run : npfPprintfChecked cfg dialect pc ctx args fs = some (.ok out)) :
    npfPprintf cfg dialect pc ctx args fs = some (.ok out) := by
  obtain ⟨args', mapped, run⟩ := Option.bind_eq_some_iff.mp run
  rw [npfPprintf, mapped]
  show npfPprintf_ cfg pc ctx args' fs = _
  unfold npfPprintf_
  split at run
  · exact congrArg some (npfVpprintf_of_checked (Option.some.inj run))
  · exact congrArg some (npfVpprintf_of_checked (Option.some.inj run))
  · cases run

theorem npfSnprintf_of_checked {dialect : Dialect} {args : List (CArg cfg.toTarget)}
    {fs : NpfFormatSpec} {memory : Memory} {buffer : Bool} {bufsz : ℕ}
    {out : ℤ × Memory × List Store}
    (run : npfSnprintfChecked cfg dialect memory buffer bufsz args fs = some (.ok out)) :
    npfSnprintf cfg dialect memory buffer bufsz args fs = some (.ok out) := by
  obtain ⟨args', mapped, run⟩ := Option.bind_eq_some_iff.mp run
  rw [npfSnprintf, mapped]
  show npfSnprintf_ cfg memory buffer bufsz args' fs = _
  unfold npfSnprintf_
  split at run
  · exact congrArg some (bind_eq_ok.mp (Option.some.inj run)).choose_spec.2
  · exact congrArg some (bind_eq_ok.mp (Option.some.inj run)).choose_spec.2
  · cases run

/-- What single precision asks of a call whose arguments suit its format. -/
structure Wraps (dialect : Dialect) (ps : List Piece) (args : List (CArg t)) : Prop where
  few : args.length ≤ 63
  listed : dialect = .c11 → ∀ a ∈ args, a.Listed
  noL : dialect ≠ .c11 → ∀ d, .directive d ∈ ps → d.conversion.convSpec.IsReal → d.length ≠ .L

/-- The engine finds the arguments it asks for. -/
theorem CTyped.typed_passed (dialect : Dialect) {ps : List Piece} {args : List (CArg cfg.toTarget)}
    (typed : CTyped cfg ps args) :
    Typed cfg ps ((args.map (passed cfg dialect)).map CArg.promote) ↔
      (cfg.singlePrecision = true → dialect ≠ .c11 →
        ∀ d, .directive d ∈ ps → d.conversion.convSpec.IsReal → d.length ≠ .L) := by
  rw [List.map_map]
  rcases single : cfg.singlePrecision
  · have same : CArg.promote ∘ passed cfg dialect = CArg.promote := by
      funext a
      simp [passed, single]
    rw [same]
    simp only [Bool.false_eq_true, false_implies, iff_true]
    exact (typed.typed_iff (fun _ _ => rfl)
      fun lm a suits => iff_of_true (promote_hasType single lm a suits) trivial).mpr
        fun _ _ _ => trivial
  · have same : CArg.promote ∘ passed cfg dialect = CArg.promote ∘ packed dialect := by
      funext a
      simp [passed, single]
    have reals := typed.typed_iff (g := CArg.promote ∘ packed dialect)
      (fun a plain => congrArg CArg.promote (packed_plain dialect plain))
      (packed_hasType single dialect)
    rw [same, reals]
    simp only [ne_eq, LengthToken.modifier_eq_longDouble]
    exact ⟨fun h _ other d member real => h d member real other,
      fun h d member real other => h trivial other d member real⟩

/-- **A call is defined** if its arguments suit the format and an `int` counts its text: always in
double precision, and in single precision up to 63 arguments behind the format, of types that C11
lists where it is C11, and without `L` where it is not. -/
theorem npfPprintf_defined_iff [cfg.FixedCarried] (stops : StopsInTime cfg)
    (dialect : Dialect) (pc : κ → Char → κ) (ctx : κ) (memory : Memory) (buffer : Bool) (bufsz : ℕ)
    {format : Cursor} {ps : List Piece} (scan : Scans cfg format ps)
    {args : List (CArg cfg.toTarget)} (typed : CTyped cfg ps args) {target : Pointee}
    (string : target.IsString) (address : ℕ) (fs : NpfFormatSpec) :
    ((∃ out, npfPprintfChecked cfg dialect pc ctx (.pointer target address format :: args) fs =
        some (.ok out)) ↔
      (cfg.singlePrecision = true → Wraps dialect ps args) ∧
        Countable cfg ps ((args.map (passed cfg dialect)).map CArg.promote)) ∧
    ((∃ out, npfSnprintfChecked cfg dialect memory buffer bufsz
        (.pointer target address format :: args) fs = some (.ok out)) ↔
      (cfg.singlePrecision = true → Wraps dialect ps args) ∧
        Countable cfg ps ((args.map (passed cfg dialect)).map CArg.promote)) := by
  by_cases compiles : Compiles cfg dialect args
  · have conditions : Typed cfg ps ((args.map (passed cfg dialect)).map CArg.promote) ↔
        (cfg.singlePrecision = true → Wraps dialect ps args) := by
      rw [typed.typed_passed dialect]
      exact ⟨fun noL single => ⟨(compiles single).1, (compiles single).2, noL single⟩,
        fun wraps single => (wraps single).noL⟩
    rw [npfPprintfChecked_eq compiles string, npfSnprintfChecked_eq compiles string, ← conditions]
    simp only [Option.some_inj]
    exact ⟨npfVpprintfChecked_iff_typed stops scan _ fs pc ctx,
      npfVsnprintfChecked_iff_typed stops scan _ fs memory buffer bufsz⟩
  · have conditions : ¬ (cfg.singlePrecision = true → Wraps dialect ps args) := fun wraps =>
      compiles fun single => ⟨(wraps single).few, (wraps single).listed⟩
    rw [npfPprintfChecked, npfSnprintfChecked, npfMapArgs_eq dialect string, if_neg compiles]
    exact ⟨iff_of_false nofun fun both => conditions both.1,
      iff_of_false nofun fun both => conditions both.1⟩

/-- `%Lf` takes a `long double` where C11 packs it, and nowhere else in single precision. -/
theorem npfPprintf_defined_iff_longDouble :
    (npfSnprintfChecked .single .c11 (fun _ => 'z') true 4
        [.pointer .char 1 ("%Lf".toList ++ [NUL]), .longDouble 0 0] .zeroed).map
          (fun run => run.map fun out => (out.1, (List.range 5).map out.2.1)) =
        some (.ok (8, ['0', '.', '0', NUL, 'z'])) ∧
      ¬ ∃ out, npfPprintfChecked .single .gnu record []
        [.pointer .char 1 ("%Lf".toList ++ [NUL]), .longDouble 0 0] .zeroed =
          some (.ok out) := by
  have scan : Scans .single ("%Lf".toList ++ [NUL]) [.directive ⟨[], .digits [], .absent, .L,
      .letter .f false⟩] :=
    .directive (d := ⟨[], .digits [], .absent, .L, .letter .f false⟩) rfl (by decide) (.done [])
  have typed : CTyped .single [.directive ⟨[], .digits [], .absent, .L, .letter .f false⟩]
      [.longDouble 0 0] :=
    @CTyped.piece _ _ _ [.longDouble 0 0] _
      ⟨.cons rfl .nil, fun r a memory rest _ => ⟨nofun, nofun⟩⟩ (.done [])
  have stops : StopsInTime .single := .inr (by decide)
  have c11 := (npfPprintf_defined_iff stops .c11 record [] (fun _ => 'z') true 4 scan typed
    (show Pointee.IsString .char from trivial) 1 .zeroed).2
  have gnu := (npfPprintf_defined_iff stops .gnu record [] (fun _ => 'z') true 4 scan typed
    (show Pointee.IsString .char from trivial) 1 .zeroed).1
  have wraps : Wraps .c11 [.directive ⟨[], .digits [], .absent, .L, .letter .f false⟩]
      ([.longDouble 0 0] : List (CArg Config.single.toTarget)) :=
    ⟨by decide, fun _ => by decide, fun other => absurd rfl other⟩
  have text : output .single [.directive ⟨[], .digits [], .absent, .L, .letter .f false⟩]
      [.npfFloat 0] = .ok ⟨"0.000000".toList, [], []⟩ := by decide +kernel
  constructor
  · obtain ⟨out, run⟩ := c11.mpr ⟨fun _ => wraps,
      fun o run => Except.ok.inj (text.symm.trans run) ▸ by decide⟩
    have printed : (npfSnprintf .single .c11 (fun _ => 'z') true 4
        [.pointer .char 1 ("%Lf".toList ++ [NUL]), .longDouble 0 0] .zeroed).map
          (fun run => run.map fun out => (out.1, (List.range 5).map out.2.1)) =
        some (.ok (8, ['0', '.', '0', NUL, 'z'])) := by decide +kernel
    rwa [npfSnprintf_of_checked run, ← run] at printed
  · exact fun defined => (gnu.mp defined).1 rfl |>.noL nofun _ (List.mem_singleton_self _)
      (by decide) rfl

end Nanoprintf
