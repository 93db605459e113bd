import Nanoprintf.Atoa
import Nanoprintf.Etoa
import Nanoprintf.Ftoa

/-!
# The formatting engine

`npf_vpprintf` walks the format, sends every character to a callback, and keeps
one `npf_format_spec_t` for all conversions. The model is parametric in the
callback: it acts on a context of any type.

An argument is modelled by the class the calling convention gives it: an integer
of some width, a pointer with the characters that can be read through it, or a
real. Reading an argument as something else is undefined in C and ends the run.
The objects that `%n` writes to are taken not to be among those `%s` reads; their
new values are recorded as stores.
-/

set_option autoImplicit false

namespace Nanoprintf

open Foundations

/-- An argument in a `va_list`. -/
inductive Arg where
  | int (bits : ℕ) (value : BitVec bits)
  | ptr (address : ℕ) (memory : List Char)
  | double (rep : BitVec 64)
  /-- a `long double`, by its value converted to `double` -/
  | longDouble (asReal : BitVec 64)
  /-- `npf_float_t` -/
  | npfFloat (rep : BitVec 32)
  deriving DecidableEq, Repr

/-- An integer of `bits` bits stored through a pointer. -/
structure Store where
  address : ℕ
  bits : ℕ
  value : ℤ
  deriving DecidableEq, Repr

/-! ## Reading arguments -/

/-- `va_arg(args, T)` for an integer type of `bits` bits, signed or not. -/
def vaInt (bits : ℕ) : List Arg → Run (BitVec bits × List Arg)
  | .int b v :: args => if b = bits then .ok (v.setWidth bits, args) else .error (.leave .vaArg)
  | _ => .error (.leave .vaArg)

/-- `va_arg(args, T *)` -/
def vaPtr : List Arg → Run (ℕ × List Char × List Arg)
  | .ptr a m :: args => .ok (a, m, args)
  | _ => .error (.leave .vaArg)

/-- The argument of a float conversion. Where `long double` is `double` the two
are read alike. -/
def vaReal (cfg : Config) (lm : LengthModifier) : List Arg → Run (RealBits cfg × List Arg)
  | .npfFloat rep :: args =>
    if cfg.singlePrecision then .ok (rep.setWidth _, args) else .error (.leave .vaArg)
  | .double rep :: args =>
    if !cfg.singlePrecision && (cfg.longDoubleIsDouble || lm != .longDouble) then
      .ok (rep.setWidth _, args)
    else .error (.leave .vaArg)
  | .longDouble rep :: args =>
    if !cfg.singlePrecision && (cfg.longDoubleIsDouble || lm == .longDouble) then
      .ok (rep.setWidth _, args)
    else .error (.leave .vaArg)
  | _ => .error (.leave .vaArg)

/-- `NPF_LONG_IS_INT` -/
def longIsInt (cfg : Config) : Bool := cfg.longBits = cfg.intBits

/-- Which `va_arg` site serves a modifier of a type that often has the width of
another one. -/
inductive Fold where
  | int | long | own
  deriving DecidableEq, Repr

/-- `NPF_LM_Z_*` -/
def foldZ (cfg : Config) : Fold :=
  if cfg.sizeBits = cfg.intBits then .int
  else if cfg.sizeBits = cfg.longBits ∧ !longIsInt cfg then .long
  else .own

/-- `NPF_LM_T_*` -/
def foldT (cfg : Config) : Fold :=
  if cfg.ptrdiffBits = cfg.intBits then .int
  else if cfg.ptrdiffBits = cfg.longBits ∧ !longIsInt cfg then .long
  else .own

/-- The width a folded modifier reads. -/
def Fold.width (cfg : Config) (own : ℕ) : Fold → ℕ
  | .int => cfg.intBits
  | .long => cfg.longBits
  | .own => own

/-- The width of the integer argument a length modifier reads. -/
def argWidth (cfg : Config) : LengthModifier → ℕ
  | .long => if longIsInt cfg then cfg.intBits else cfg.longBits
  | .largeLongLong => if cfg.large then 64 else cfg.intBits
  | .largeIntmax => if cfg.large then 64 else cfg.intBits
  | .largeSizet => if cfg.large then (foldZ cfg).width cfg cfg.sizeBits else cfg.intBits
  | .largePtrdifft => if cfg.large then (foldT cfg).width cfg cfg.ptrdiffBits else cfg.intBits
  | .none | .short | .char | .longDouble => cfg.intBits

/-- The width `h` and `hh` narrow an `int` to. -/
def narrowWidth (cfg : Config) : LengthModifier → ℕ
  | .short => if cfg.small then cfg.shortBits else cfg.intBits
  | .char => if cfg.small then cfg.charBits else cfg.intBits
  | lm => argWidth cfg lm

/-- `sval` -/
def extractSigned (cfg : Config) (lm : LengthModifier) (args : List Arg) : Run (ℤ × List Arg) := do
  let (v, args) ← vaInt (argWidth cfg lm) args
  pure ((v.setWidth (narrowWidth cfg lm)).toInt, args)

/-- `val` of an unsigned conversion. -/
def extractUnsigned (cfg : Config) (lm : LengthModifier) (args : List Arg) :
    Run (ℕ × List Arg) := do
  let (v, args) ← vaInt (argWidth cfg lm) args
  pure ((v.setWidth (narrowWidth cfg lm)).toNat, args)

/-! ## Width and precision -/

/-- Extract the star arguments and apply the ceiling. -/
def starArgs (cfg : Config) (fs : NpfFormatSpec) (args : List Arg) :
    Run (NpfFormatSpec × List Arg) := do
  let (fs, args) ←
    if cfg.fieldWidth then do
      let (fs, args) ←
        if fs.fieldWidthOpt = .star then do
          let (v, args) ← vaInt cfg.intBits args
          let (w, fs) :=
            if v.toInt < 0 then (-v, { fs with leftJustified := true }) else (v, fs)
          pure ({ fs with
            fieldWidth := if cfg.intMax < w.toNat then cfg.fmtNumMax else w.toNat }, args)
        else pure (fs, args)
      pure (if cfg.fmtNumMax < fs.fieldWidth then { fs with fieldWidth := cfg.fmtNumMax } else fs,
        args)
    else pure (fs, args)
  if cfg.precision then do
    let (fs, args) ←
      if fs.precOpt = .star then do
        let (v, args) ← vaInt cfg.intBits args
        let fs : NpfFormatSpec := { fs with prec := v.toInt }
        pure (if fs.prec < 0 then { fs with precOpt := .none } else fs, args)
      else pure (fs, args)
    pure (if cfg.fmtNumMax < fs.prec then { fs with prec := cfg.fmtNumMax } else fs, args)
  else pure (fs, args)

/-- The conversion is one of the float conversions, the last in the enumeration. -/
def isFloat (cfg : Config) (conv : ConvSpec) : Bool :=
  cfg.float && ConvSpec.floatDec.rank ≤ conv.rank

/-- The default precision, and the `'0'` flag that a precision overrides. -/
def defaults (cfg : Config) (fs : NpfFormatSpec) : NpfFormatSpec :=
  let fs :=
    if cfg.precision && fs.precOpt == .none then
      if fs.convSpec = .pointer then { fs with prec := (cfg.ptrBits + 3) / 4 }
      else if isFloat cfg fs.convSpec then
        { fs with prec := if cfg.floatHex && fs.convSpec == .floatHex then (52 + 3) / 4 else 6 }
      else { fs with prec := 0 }
    else fs
  if cfg.precision && cfg.fieldWidth && fs.precOpt != .none &&
      ConvSpec.signedInt.rank ≤ fs.convSpec.rank && fs.convSpec.rank ≤ ConvSpec.unsignedInt.rank &&
      !(cfg.binary && fs.convSpec == .binary) then
    { fs with leadingZeroPad := false }
  else fs

/-! ## Conversion -/

/-- The text of a conversion, in the order in which the source holds it. -/
inductive Payload (cfg : Config) where
  | reversed (buf : ConvBuffer cfg) (len : ℕ)
  | string (memory : List Char) (len : ℕ)
  | binary (val len : ℕ)

def Payload.len {cfg : Config} : Payload cfg → ℕ
  | reversed _ len => len
  | string _ len => len
  | binary _ len => len

/-- What the extraction leaves for the output: `NUL` for no sign and no `0x`. -/
structure Converted (cfg : Config) where
  fs : NpfFormatSpec
  signC : Char
  need0x : Char
  zero : Bool
  payload : Payload cfg

/-- `npf_bin_len`, the number of binary digits. -/
def npfBinLen (u : ℕ) : ℕ := if u = 0 then 1 else u.log2 + 1

/-- A float conversion. -/
def convertFloat (cfg : Config) (fs : NpfFormatSpec) (args : List Arg) :
    Run (Converted cfg × List Arg) := do
  let (val, args) ← vaReal cfg fs.lengthModifier args
  let signC := if npfRealToIntRep cfg val >>> (cfg.realBits - 1) ≠ 0 then '-' else fs.prepend
  let (hexLen, buf) ←
    if cfg.floatHex && fs.convSpec == .floatHex then
      npfAtoaRev cfg .blank fs
        (if cfg.singlePrecision then widen (val.setWidth 32) else val.setWidth 64)
    else pure (0, Buffer.blank)
  if hexLen ≠ 0 then
    pure (⟨fs, signC, Char.ofNat ('X'.toNat + fs.caseAdjust), false, .reversed buf hexLen⟩, args)
  else
    let (len, buf) ←
      if cfg.useSci then npfEtoaRev cfg buf fs val
      else npfFtoaRev cfg buf fs (npfDecPrec cfg fs) val
    let fs :=
      if len < 0 ∧ cfg.fieldWidth then { fs with leadingZeroPad := false } else fs
    pure (⟨fs, signC, NUL, false, .reversed buf len.natAbs⟩, args)

/-- The width `%n` stores with a length modifier; none for a modifier the switch
leaves to its default. -/
def writebackWidth (cfg : Config) : LengthModifier → Option ℕ
  | .none => some cfg.intBits
  | .short => if cfg.small then some cfg.shortBits else none
  | .char => if cfg.small then some cfg.charBits else none
  | .long => some cfg.longBits
  | .longDouble => none
  | .largeLongLong => if cfg.large then some 64 else none
  | .largeIntmax => if cfg.large then some 64 else none
  | .largeSizet => if cfg.large then some ((foldZ cfg).width cfg cfg.sizeBits) else none
  | .largePtrdifft => if cfg.large then some ((foldT cfg).width cfg cfg.ptrdiffBits) else none

/-- `%n` -/
def writeback (cfg : Config) (fs : NpfFormatSpec) (npfN : ℤ) (args : List Arg) :
    Run (List Store × List Arg) := do
  let (wb, _, args) ← vaPtr args
  match writebackWidth cfg fs.lengthModifier with
  | none => pure ([], args)
  | some bits =>
    if wb = 0 then .error .bounds else pure ([⟨wb, bits, npfN.bmod (2 ^ bits)⟩], args)

/-- The value of an integer or pointer conversion and its sign character. -/
def extractInt (cfg : Config) (fs : NpfFormatSpec) (args : List Arg) :
    Run (ℕ × Char × List Arg) :=
  if fs.convSpec = .signedInt then do
    let (sval, args) ← extractSigned cfg fs.lengthModifier args
    let val := (sval % 2 ^ cfg.uintBits).toNat
    let val := if sval < 0 then (2 ^ cfg.uintBits - val) % 2 ^ cfg.uintBits else val
    pure (val, if sval < 0 then '-' else fs.prepend, args)
  else if fs.convSpec = .pointer then do
    let (p, _, args) ← vaPtr args
    pure (p % 2 ^ cfg.uintBits, NUL, args)
  else do
    let (val, args) ← extractUnsigned cfg fs.lengthModifier args
    pure (val % 2 ^ cfg.uintBits, NUL, args)

/-- `base` -/
def baseOf : ConvSpec → ℕ
  | .octal => 8
  | .hexInt => 16
  | .pointer => 16
  | _ => 10

/-- An integer or pointer conversion. -/
def convertInt (cfg : Config) (fs : NpfFormatSpec) (args : List Arg) :
    Run (Converted cfg × List Arg) := do
  let (val, signC, args) ← extractInt cfg fs args
  let base := baseOf fs.convSpec
  let alt := cfg.altForm && fs.altForm
  if cfg.precision && val == 0 && fs.precOpt != .none && fs.prec == 0 then
    -- octal '#' asks for the one digit that a zero without precision does not print
    let fs := if base = 8 ∧ alt then { fs with prec := 1 } else fs
    pure (⟨fs, signC, NUL, true, .reversed .blank 0⟩, args)
  else if cfg.binary && fs.convSpec == .binary then
    let need0x := if val ≠ 0 ∧ alt then Char.ofNat ('B'.toNat + fs.caseAdjust) else NUL
    pure (⟨fs, signC, need0x, val = 0, .binary val (npfBinLen val)⟩, args)
  else
    let (len, buf) ← npfUtoaRev cfg val .blank base fs.caseAdjust
    if val ≠ 0 ∧ alt ∧ base = 8 then
      let buf ← buf.write len '0'
      pure (⟨fs, signC, NUL, val = 0, .reversed buf (len + 1)⟩, args)
    else
      let need0x :=
        if val ≠ 0 ∧ alt ∧ base = 16 then Char.ofNat ('X'.toNat + fs.caseAdjust) else NUL
      pure (⟨fs, signC, need0x, val = 0, .reversed buf len⟩, args)

/-- The length of a string, which a precision bounds before the terminator is
looked for. -/
def strLen (bound : Option ℤ) : List Char → ℕ → Run ℕ
  | memory, len =>
    if bound.all ((len : ℤ) < ·) then
      match memory with
      | [] => .error .bounds
      | c :: memory => if c = NUL then .ok len else strLen bound memory (len + 1)
    else .ok len

/-- `%s` -/
def convertString (cfg : Config) (fs : NpfFormatSpec) (args : List Arg) :
    Run (Converted cfg × List Arg) := do
  let (a, memory, args) ← vaPtr args
  let bound := if cfg.precision && fs.precOpt != .none then some fs.prec else none
  let len ← if a = 0 then pure 0 else strLen bound memory 0
  pure (⟨fs, NUL, NUL, false, .string memory len⟩, args)

/-- `%c` and `%%` -/
def convertChar (cfg : Config) (fs : NpfFormatSpec) (args : List Arg) :
    Run (Converted cfg × List Arg) := do
  let (c, args) ←
    if fs.convSpec = .char then do
      let (v, args) ← vaInt cfg.intBits args
      pure (Char.ofNat (v.toNat % 2 ^ cfg.charBits), args)
    else pure ('%', args)
  let buf ← Buffer.write Buffer.blank 0 c
  pure (⟨fs, NUL, NUL, false, .reversed buf 1⟩, args)

/-- Extract and convert the argument of a conversion, after `npfN` characters. -/
def convert (cfg : Config) (fs : NpfFormatSpec) (npfN : ℤ) (args : List Arg) :
    Run (Converted cfg × List Store × List Arg) :=
  if isFloat cfg fs.convSpec then do
    let (conv, args) ← convertFloat cfg fs args
    pure (conv, [], args)
  else if cfg.writeback && fs.convSpec == .writeback then do
    let (stores, args) ← writeback cfg fs npfN args
    pure (⟨fs, NUL, NUL, false, .reversed .blank 0⟩, stores, args)
  else if ConvSpec.signedInt.rank ≤ fs.convSpec.rank then do
    let (conv, args) ← convertInt cfg fs args
    pure (conv, [], args)
  else if fs.convSpec = .string then do
    let (conv, args) ← convertString cfg fs args
    pure (conv, [], args)
  else do
    let (conv, args) ← convertChar cfg fs args
    pure (conv, [], args)

/-! ## Output -/

variable {κ : Type}

/-- Send `n` copies of a character. -/
def putN (pc : κ → Char → κ) (c : Char) : ℕ → κ → κ
  | 0, ctx => ctx
  | n + 1, ctx => putN pc c n (pc ctx c)

/-- Send a character unless it is `NUL`. -/
def putSign (pc : κ → Char → κ) (signC : Char) (ctx : κ) : κ :=
  if signC ≠ NUL then pc ctx signC else ctx

/-- Send `0x`, or the prefix with another letter, unless the letter is `NUL`. -/
def put0x (pc : κ → Char → κ) (need0x : Char) (ctx : κ) : κ :=
  if need0x ≠ NUL then pc (pc ctx '0') need0x else ctx

/-- Send the reversed text below an index. -/
def putReversed {cfg : Config} (pc : κ → Char → κ) (buf : ConvBuffer cfg) : ℕ → κ → Run κ
  | 0, ctx => .ok ctx
  | n + 1, ctx => do putReversed pc buf n (pc ctx (← buf.read n))

/-- Send the binary digits below a position. -/
def putBinary (pc : κ → Char → κ) (val : ℕ) : ℕ → κ → κ
  | 0, ctx => ctx
  | n + 1, ctx => putBinary pc val n (pc ctx (Char.ofNat ('0'.toNat + (val >>> n &&& 1))))

/-- Send the payload. -/
def putPayload {cfg : Config} (pc : κ → Char → κ) : Payload cfg → κ → Run κ
  | .reversed buf len, ctx => putReversed pc buf len ctx
  | .string memory len, ctx => .ok ((memory.take len).foldl pc ctx)
  | .binary val len, ctx => .ok (putBinary pc val len ctx)

/-- The padding character. -/
def padChar (cfg : Config) (conv : Converted cfg) : Char :=
  if conv.fs.leadingZeroPad ∧ ¬ conv.fs.leftJustified ∧
      ¬ (cfg.precision ∧ conv.fs.precOpt ≠ .none ∧ conv.fs.prec = 0 ∧ conv.zero) then '0'
  else ' '

/-- The zeros the precision asks for. -/
def precPad (cfg : Config) (conv : Converted cfg) : ℤ :=
  if cfg.precision ∧ conv.fs.convSpec ≠ .string ∧ ¬ isFloat cfg conv.fs.convSpec then
    max 0 (conv.fs.prec - conv.payload.len)
  else 0

/-- The bytes a conversion emits before the field is padded. -/
def bodyLen (cfg : Config) (conv : Converted cfg) : ℤ :=
  conv.payload.len + (if conv.signC ≠ NUL then 1 else 0) + (if conv.need0x ≠ NUL then 2 else 0) +
    precPad cfg conv

/-- The padding of the field. -/
def fieldPad (cfg : Config) (conv : Converted cfg) : ℤ :=
  if cfg.fieldWidth then
    let pad := conv.fs.fieldWidth - bodyLen cfg conv
    if pad < 0 then 0 else pad
  else 0

/-- Emit a conversion. The result counts the bytes as `spec_len` does, before any
is sent. -/
def emit (cfg : Config) (pc : κ → Char → κ) (conv : Converted cfg) (ctx : κ) : Run (ℤ × κ) := do
  let padC := padChar cfg conv
  let specLen := bodyLen cfg conv + fieldPad cfg conv
  -- right-justified padding, and the variables it rewrites
  let (signC, need0x, zeros, pad, ctx) :=
    if cfg.fieldWidth then
      let (signC, need0x, zeros, pad, ctx) :=
        if cfg.precision then
          if padC = '0' then
            (conv.signC, conv.need0x, precPad cfg conv + fieldPad cfg conv, 0, ctx)
          else (conv.signC, conv.need0x, precPad cfg conv, fieldPad cfg conv, ctx)
        else if padC = '0' then
          (NUL, NUL, 0, fieldPad cfg conv, put0x pc conv.need0x (putSign pc conv.signC ctx))
        else (conv.signC, conv.need0x, 0, fieldPad cfg conv, ctx)
      if ¬ conv.fs.leftJustified then
        (signC, need0x, zeros, -1, putN pc padC pad.toNat ctx)
      else (signC, need0x, zeros, pad, ctx)
    else (conv.signC, conv.need0x, precPad cfg conv, 0, ctx)
  let ctx := put0x pc need0x (putSign pc signC ctx)
  let ctx := putN pc '0' zeros.toNat ctx
  let ctx ← putPayload pc conv.payload ctx
  let ctx := if cfg.fieldWidth then putN pc padC pad.toNat ctx else ctx
  pure (specLen, ctx)

/-! ## The loop -/

/-- The variables of `npf_vpprintf`, the callback's context and the stores made
so far among them. -/
structure PrintState (κ : Type) where
  ctx : κ
  npfN : ℤ
  args : List Arg
  stores : List Store
  fs : NpfFormatSpec

/-- One conversion, its specification parsed. -/
def formatOne (cfg : Config) (pc : κ → Char → κ) (st : PrintState κ) : Run (PrintState κ) := do
  let (fs, args) ← starArgs cfg st.fs st.args
  let fs := defaults cfg fs
  let (conv, stores, args) ← convert cfg fs st.npfN args
  let (specLen, ctx) ← emit cfg pc conv st.ctx
  pure { ctx := ctx, npfN := cfg.wrapInt (st.npfN + specLen), args := args,
         stores := st.stores ++ stores, fs := conv.fs }

/-- The loop over the format. Every turn moves the cursor, so that the length of
the format is fuel enough. -/
def vpprintfLoop (cfg : Config) (pc : κ → Char → κ) :
    ℕ → Cursor → PrintState κ → Run (PrintState κ)
  | 0, _, _ => .error .bounds
  | fuel + 1, cur, st => do
    let c ← cur.deref
    if c = NUL then pure st
    else
      let (fsEnd, fs) ←
        if c ≠ '%' then pure (none, st.fs) else npfParseFormatSpecEnd cfg cur st.fs
      match fsEnd with
      | none =>
        vpprintfLoop cfg pc fuel (← cur.next)
          { st with ctx := pc st.ctx c, npfN := cfg.wrapInt (st.npfN + 1), fs := fs }
      | some cur =>
        let st ← formatOne cfg pc { st with fs := fs }
        vpprintfLoop cfg pc fuel cur st

/-- `npf_vpprintf`: the returned length, the context the callback leaves, and the
stores of `%n`. The specification record starts out with arbitrary contents. -/
def npfVpprintf (cfg : Config) (pc : κ → Char → κ) (ctx : κ) (format : Cursor) (args : List Arg)
    (fs : NpfFormatSpec) : Run (ℤ × κ × List Store) := do
  let st ← vpprintfLoop cfg pc format.length format
    { ctx := ctx, npfN := 0, args := args, stores := [], fs := fs }
  pure (st.npfN, st.ctx, st.stores)

end Nanoprintf
