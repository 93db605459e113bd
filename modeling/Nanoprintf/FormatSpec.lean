import Nanoprintf.Config
import Nanoprintf.Foundations.Buffer

/-!
# The format specification and its parser

`NpfFormatSpec` is the record `npf_parse_format_spec_end` fills from a conversion
specification. The parser walks a cursor over a NUL-terminated string; the cursor
is modelled as the characters from it up to and including the terminator, so
that reading or stepping past the terminator is an observable fault and not a
junk value.

The parser is cut where the source has its five stages (flags, width,
precision, length modifier, conversion). A field the source does not write keeps
its value, as it does in the record `npf_vpprintf` reuses for every conversion.
-/

set_option autoImplicit false

namespace Nanoprintf

open Foundations

/-- The ways the modelled code leaves a computation: the label `exit` of the float
conversions, and what C leaves undefined, a `va_arg` that does not fit the argument it
meets and arithmetic outside the range of `int`. -/
inductive Leave where
  | gotoExit
  | vaArg
  | overflow
  deriving DecidableEq, Repr

/-- A computation of the modelled code. -/
abbrev Run := Except (Stop Leave)

/-- The terminator of a C string. -/
abbrev NUL : Char := '\x00'

/-! ## The record -/

/-- `NPF_FMT_SPEC_OPT_*` -/
inductive SpecOpt where
  | none | literal | star
  deriving DecidableEq, Repr

/-- `NPF_FMT_SPEC_LEN_MOD_*` -/
inductive LengthModifier where
  | none | short | char | long | longDouble
  | largeLongLong | largeIntmax | largeSizet | largePtrdifft
  deriving DecidableEq, Repr

/-- `NPF_FMT_SPEC_CONV_*`, in the order of the enumeration. -/
inductive ConvSpec where
  | none | percent | char | string | signedInt | binary | octal | hexInt | unsignedInt
  | pointer | writeback | floatDec | floatHex | floatSci | floatShortest
  deriving DecidableEq, Repr

/-- The position in the enumeration, which the source compares. A build that
leaves constants out keeps the order of the others. -/
def ConvSpec.rank (c : ConvSpec) : ℕ := c.ctorIdx

/-- `npf_format_spec_t` -/
structure NpfFormatSpec where
  fieldWidth : ℤ
  prec : ℤ
  precOpt : SpecOpt
  fieldWidthOpt : SpecOpt
  leftJustified : Bool
  leadingZeroPad : Bool
  prepend : Char
  altForm : Bool
  caseAdjust : ℕ
  lengthModifier : LengthModifier
  convSpec : ConvSpec
  deriving DecidableEq, Repr

/-- The record with every byte zero. -/
def NpfFormatSpec.zeroed : NpfFormatSpec where
  fieldWidth := 0
  prec := 0
  precOpt := .none
  fieldWidthOpt := .none
  leftJustified := false
  leadingZeroPad := false
  prepend := NUL
  altForm := false
  caseAdjust := 0
  lengthModifier := .none
  convSpec := .none

/-- A lower-case conversion with a precision. -/
def NpfFormatSpec.lower (conv : ConvSpec) (prec : ℤ) : NpfFormatSpec :=
  { NpfFormatSpec.zeroed with prec := prec, caseAdjust := 32, convSpec := conv }

/-! ## Characters -/

/-- The value of a `char`, which is negative in the upper half when plain `char`
is signed. -/
def Config.charValue (cfg : Config) (code : ℕ) : ℤ :=
  if cfg.charSigned ∧ 2 ^ (cfg.charBits - 1) ≤ code ∧ code < 2 ^ cfg.charBits then
    (code : ℤ) - 2 ^ cfg.charBits
  else code

/-- `(unsigned)z` for an `int` value. -/
def Config.toUnsigned (cfg : Config) (z : ℤ) : ℕ :=
  if z < 0 then (z + 2 ^ cfg.intBits).toNat else z.toNat

/-- `(unsigned)(*cur - '0') < 10u` -/
def Config.isDigit (cfg : Config) (c : Char) : Bool :=
  cfg.toUnsigned (cfg.charValue c.toNat - '0'.toNat) < 10

/-! ## The cursor -/

/-- The string from the cursor on, terminator included. -/
abbrev Cursor := List Char

/-- `*cur` -/
def Cursor.deref : Cursor → Run Char
  | [] => .error .bounds
  | c :: _ => .ok c

/-- `++cur` -/
def Cursor.next : Cursor → Run Cursor
  | [] => .error .bounds
  | _ :: cur => .ok cur

/-! ## The parser -/

/-- `npf_fmt_num`, from an accumulator `n`. -/
def npfFmtNum (cfg : Config) : Cursor → ℕ → Run (Cursor × ℕ)
  | [], _ => .error .bounds
  | c :: cur, n =>
    if cfg.isDigit c then
      npfFmtNum cfg cur (if cfg.fmtNumBig n then n else n * 10 + (c.toNat - '0'.toNat))
    else .ok (c :: cur, n)

/-- The flag loop; the cursor is at the character before the next flag. -/
def parseFlags (cfg : Config) : Cursor → NpfFormatSpec → Run (Cursor × NpfFormatSpec)
  | [], _ => .error .bounds
  | _ :: cur, spec =>
    match cur with
    | [] => .error .bounds
    | c :: rest =>
      if cfg.fieldWidth && c == '-' then
        parseFlags cfg (c :: rest) { spec with leftJustified := true }
      else if cfg.fieldWidth && c == '0' then
        parseFlags cfg (c :: rest) { spec with leadingZeroPad := true }
      else if c == '+' || c == ' ' then
        parseFlags cfg (c :: rest)
          (if spec.prepend ≠ '+' then { spec with prepend := c } else spec)
      else if cfg.altForm && c == '#' then
        parseFlags cfg (c :: rest) { spec with altForm := true }
      else .ok (c :: rest, spec)

/-- The field width. A width absent from the string is the empty digit run. -/
def parseFieldWidth (cfg : Config) (cur : Cursor) (spec : NpfFormatSpec) :
    Run (Cursor × NpfFormatSpec) :=
  if cfg.fieldWidth then do
    let spec := { spec with fieldWidthOpt := .none }
    if (← cur.deref) == '*' then
      pure (← cur.next, { spec with fieldWidthOpt := .star })
    else
      let (cur, n) ← npfFmtNum cfg cur 0
      pure (cur, { spec with fieldWidth := n })
  else pure (cur, spec)

/-- The precision. `.-` consumes digits and leaves the precision absent. -/
def parsePrecision (cfg : Config) (cur : Cursor) (spec : NpfFormatSpec) :
    Run (Cursor × NpfFormatSpec) :=
  if cfg.precision then do
    let spec := { spec with prec := 0, precOpt := .none }
    if (← cur.deref) == '.' then
      let cur ← cur.next
      if (← cur.deref) == '*' then
        pure (← cur.next, { spec with precOpt := .star })
      else
        let (cur, spec) ←
          if (← cur.deref) == '-' then pure (← cur.next, spec)
          else pure (cur, { spec with precOpt := .literal })
        let (cur, n) ← npfFmtNum cfg cur 0
        pure (cur, { spec with prec := n })
    else pure (cur, spec)
  else pure (cur, spec)

/-- `NPF_LM_WIDEST` -/
def lmWidest (cfg : Config) : LengthModifier := if cfg.large then .largeLongLong else .long

/-- `NPF_LM_OF`, on the width of the type whose maximum the macro is given. -/
def lmOf (cfg : Config) (bits : ℕ) : LengthModifier :=
  if bits ≤ cfg.charBits then .char
  else if bits ≤ cfg.shortBits then .short
  else if bits ≤ cfg.intBits then .none
  else if bits ≤ cfg.longBits then .long
  else lmWidest cfg

/-- `NPF_LM_OF_W` -/
def lmOfW (cfg : Config) (fast : Bool) (w : Width) : LengthModifier :=
  if fast then lmOf cfg (cfg.fastBits w) else lmOf cfg (cfg.leastBits w)

/-- The width a first digit announces and the second digit it demands. -/
def widthOfDigit (cfg : Config) (c : Char) : Option (Width × Option Char) :=
  if c == '1' then some (.w16, some '6')
  else if c == '3' then some (.w32, some '2')
  else if c == '6' && cfg.wBitsMax == 64 then some (.w64, some '4')
  else if c == '8' then some (.w8, none)
  else none

/-- The `w` and `wf` modifiers; the cursor is past the `w`. -/
def parseFixedWidth (cfg : Config) (cur : Cursor) (spec : NpfFormatSpec) :
    Run (Option Cursor × NpfFormatSpec) := do
  let (fast, cur) ← if (← cur.deref) == 'f' then pure (true, ← cur.next) else pure (false, cur)
  let c ← cur.deref
  let cur ← cur.next
  match widthOfDigit cfg c with
  | none => pure (none, spec)
  | some (w, d2) =>
    let spec := { spec with lengthModifier := lmOfW cfg fast w }
    match d2 with
    | none => pure (some cur, spec)
    | some d2 => if (← cur.deref) ≠ d2 then pure (none, spec) else pure (some (← cur.next), spec)

/-- The length modifier. The source's default case steps back over the
character it has just consumed; that is the cursor before the step. -/
def parseLengthModifier (cfg : Config) (cur : Cursor) (spec : NpfFormatSpec) :
    Run (Option Cursor × NpfFormatSpec) := do
  let spec := { spec with lengthModifier := .none }
  let c ← cur.deref
  let past ← cur.next
  if cfg.fixedWidth && c == 'w' then
    parseFixedWidth cfg past spec
  else if cfg.small && c == 'h' then
    if (← past.deref) == 'h' then
      pure (some (← past.next), { spec with lengthModifier := .char })
    else pure (some past, { spec with lengthModifier := .short })
  else if c == 'l' then
    if cfg.large then
      if (← past.deref) == 'l' then
        pure (some (← past.next), { spec with lengthModifier := .largeLongLong })
      else pure (some past, { spec with lengthModifier := .long })
    else pure (some past, { spec with lengthModifier := .long })
  else if cfg.float && c == 'L' then
    pure (some past, { spec with lengthModifier := .longDouble })
  else if cfg.large && c == 'j' then
    pure (some past, { spec with lengthModifier := .largeIntmax })
  else if cfg.large && c == 'z' then
    pure (some past, { spec with lengthModifier := .largeSizet })
  else if cfg.large && c == 't' then
    pure (some past, { spec with lengthModifier := .largePtrdifft })
  else pure (some cur, spec)

/-- The table the conversion letter indexes, from `'a'` on. -/
def lookup (cfg : Config) : List ConvSpec :=
  [ if cfg.float && cfg.floatHex then .floatHex else .none,
    if cfg.binary then .binary else .none,
    .char,
    .signedInt,
    if cfg.floatSci then .floatSci else .none,
    if cfg.float then .floatDec else .none,
    if cfg.floatShortest then .floatShortest else .none,
    .none,
    .signedInt,
    .none, .none, .none, .none,
    if cfg.writeback then .writeback else .none,
    .octal,
    .pointer,
    .none, .none,
    .string,
    .none,
    .unsignedInt,
    .none, .none,
    .hexInt ]

/-- The conversion a character selects: `'%'`, or the entry of the table at its
case-folded distance from `'a'`. -/
def convOf (cfg : Config) (c : Char) : ConvSpec :=
  if c == '%' then .percent
  else
    let idx := cfg.toUnsigned (cfg.charValue (c.toNat ||| 32) - 'a'.toNat)
    (lookup cfg).getD idx .none

/-- The conversion specifier. -/
def parseConversion (cfg : Config) (cur : Cursor) (spec : NpfFormatSpec) :
    Run (Option Cursor × NpfFormatSpec) := do
  let c ← cur.deref
  let cur ← cur.next
  if convOf cfg c = .none then pure (none, spec)
  else pure (some cur, { spec with convSpec := convOf cfg c, caseAdjust := c.toNat &&& 32 })

/-- `npf_parse_format_spec_end`: one past the specification at the cursor, or
nothing, and the record as the attempt leaves it. -/
def npfParseFormatSpecEnd (cfg : Config) (format : Cursor) (outSpec : NpfFormatSpec) :
    Run (Option Cursor × NpfFormatSpec) := do
  let spec := if cfg.fieldWidth then
    { outSpec with leftJustified := false, leadingZeroPad := false } else outSpec
  let spec := { spec with prepend := NUL }
  let spec := if cfg.altForm then { spec with altForm := false } else spec
  let (cur, spec) ← parseFlags cfg format spec
  let (cur, spec) ← parseFieldWidth cfg cur spec
  let (cur, spec) ← parsePrecision cfg cur spec
  match ← parseLengthModifier cfg cur spec with
  | (none, spec) => pure (none, spec)
  | (some cur, spec) => parseConversion cfg cur spec

end Nanoprintf
