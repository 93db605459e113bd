import Nanoprintf.FormatSpec

/-!
# The grammar of conversion specifications

What the parser is for, stated without it. A `Directive` is a derivation of

    '%' [-0+ #]* ('*' | digit*) ('.' ('*' | '-'? digit*))? lengthmod? conv

as data; `Directive.text` is its string, `Directive.Enabled` says that a build
has every feature it uses, and `Directive.denote` is the record it stands for.
A leading `0` of the width is a flag, so two directives can have one string;
`Directive.Greedy` picks the one whose width does not start with `0`.
-/

set_option autoImplicit false

namespace Nanoprintf

inductive Flag where
  | minus | zero | plus | space | hash
  deriving DecidableEq, Repr

namespace Flag

def char : Flag → Char
  | minus => '-'
  | zero => '0'
  | plus => '+'
  | space => ' '
  | hash => '#'

/-- `-` and `0` come with field widths, `#` with the alternate form. -/
def enabled (cfg : Config) : Flag → Bool
  | minus | zero => cfg.fieldWidth
  | plus | space => true
  | hash => cfg.altForm

end Flag

/-- The character of a decimal digit. -/
def decimalChar (d : Fin 10) : Char := Char.ofNat ('0'.toNat + d)

/-- The number a run of digits denotes, from an accumulator. -/
def decimalFrom : ℕ → List (Fin 10) → ℕ
  | n, [] => n
  | n, d :: ds => decimalFrom (10 * n + d) ds

/-- The number a run of digits denotes. -/
def decimalValue (ds : List (Fin 10)) : ℕ := decimalFrom 0 ds

/-- The number an `int` field receives for a run of digits, from an accumulator:
digits that follow one at which the value is already big are ignored. -/
def literalFrom (cfg : Config) : ℕ → List (Fin 10) → ℕ
  | n, [] => n
  | n, d :: ds => if cfg.fmtNumBig n then n else literalFrom cfg (10 * n + d) ds

/-- The number an `int` field receives for a run of digits. -/
def literalNumber (cfg : Config) (ds : List (Fin 10)) : ℕ := literalFrom cfg 0 ds

inductive WidthPart where
  | star
  | digits (ds : List (Fin 10))
  deriving DecidableEq, Repr

namespace WidthPart

def text : WidthPart → List Char
  | star => ['*']
  | digits ds => ds.map decimalChar

def enabled (cfg : Config) : WidthPart → Bool
  | digits [] => true
  | _ => cfg.fieldWidth

end WidthPart

inductive PrecisionPart where
  | absent
  | star
  | literal (minus : Bool) (ds : List (Fin 10))
  deriving DecidableEq, Repr

namespace PrecisionPart

def text : PrecisionPart → List Char
  | absent => []
  | star => ['.', '*']
  | literal true ds => '.' :: '-' :: ds.map decimalChar
  | literal false ds => '.' :: ds.map decimalChar

def enabled (cfg : Config) : PrecisionPart → Bool
  | absent => true
  | _ => cfg.precision

end PrecisionPart

/-- The length modifiers as they are written. -/
inductive LengthToken where
  | none | hh | h | l | ll | j | z | t | L
  | w (fast : Bool) (width : Width)
  deriving DecidableEq, Repr

namespace LengthToken

def widthText : Width → List Char
  | .w8 => ['8']
  | .w16 => ['1', '6']
  | .w32 => ['3', '2']
  | .w64 => ['6', '4']

def text : LengthToken → List Char
  | none => []
  | hh => ['h', 'h']
  | h => ['h']
  | l => ['l']
  | ll => ['l', 'l']
  | j => ['j']
  | z => ['z']
  | t => ['t']
  | L => ['L']
  | w true width => 'w' :: 'f' :: widthText width
  | w false width => 'w' :: widthText width

def enabled (cfg : Config) : LengthToken → Bool
  | none | l => true
  | hh | h => cfg.small
  | ll | j | z | t => cfg.large
  | L => cfg.float
  | w _ .w64 => cfg.fixedWidth && cfg.wBitsMax == 64
  | w _ _ => cfg.fixedWidth

/-- The modifier a token resolves to. -/
def modifier (cfg : Config) : LengthToken → LengthModifier
  | none => .none
  | hh => .char
  | h => .short
  | l => .long
  | ll => .largeLongLong
  | j => .largeIntmax
  | z => .largeSizet
  | t => .largePtrdifft
  | L => .longDouble
  | w fast width => lmOfW cfg fast width

end LengthToken

/-- The conversion letters. -/
inductive Letter where
  | a | b | c | d | e | f | g | i | n | o | p | s | u | x
  deriving DecidableEq, Repr

namespace Letter

def lower : Letter → Char
  | a => 'a' | b => 'b' | c => 'c' | d => 'd' | e => 'e' | f => 'f' | g => 'g'
  | i => 'i' | n => 'n' | o => 'o' | p => 'p' | s => 's' | u => 'u' | x => 'x'

def upper : Letter → Char
  | a => 'A' | b => 'B' | c => 'C' | d => 'D' | e => 'E' | f => 'F' | g => 'G'
  | i => 'I' | n => 'N' | o => 'O' | p => 'P' | s => 'S' | u => 'U' | x => 'X'

def enabled (cfg : Config) : Letter → Bool
  | a => cfg.floatHex
  | b => cfg.binary
  | e => cfg.floatSci
  | f => cfg.float
  | g => cfg.floatShortest
  | n => cfg.writeback
  | c | d | i | o | p | s | u | x => true

def convSpec : Letter → ConvSpec
  | a => .floatHex
  | b => .binary
  | c => .char
  | d | i => .signedInt
  | e => .floatSci
  | f => .floatDec
  | g => .floatShortest
  | n => .writeback
  | o => .octal
  | p => .pointer
  | s => .string
  | u => .unsignedInt
  | x => .hexInt

end Letter

inductive Conversion where
  | percent
  | letter (l : Letter) (isUpper : Bool)
  deriving DecidableEq, Repr

namespace Conversion

def char : Conversion → Char
  | percent => '%'
  | letter l true => l.upper
  | letter l false => l.lower

def enabled (cfg : Config) : Conversion → Bool
  | percent => true
  | letter l _ => l.enabled cfg

def convSpec : Conversion → ConvSpec
  | percent => .percent
  | letter l _ => l.convSpec

/-- Bit 5 of the character: set in a lower-case letter, and in `%`. -/
def caseAdjust : Conversion → ℕ
  | letter _ true => 0
  | _ => 32

end Conversion

/-- A conversion specification as a derivation of the grammar. -/
structure Directive where
  flags : List Flag
  width : WidthPart
  precision : PrecisionPart
  length : LengthToken
  conversion : Conversion
  deriving DecidableEq, Repr

namespace Directive

variable (cfg : Config) (d : Directive)

/-- The string between `%` and the end of the specification. -/
def body : List Char :=
  d.flags.map Flag.char ++ (d.width.text ++ (d.precision.text ++ (d.length.text ++
    [d.conversion.char])))

def text : List Char := '%' :: d.body

/-- The build has every feature the directive uses. -/
def enabled : Bool :=
  d.flags.all (Flag.enabled cfg) && d.width.enabled cfg && d.precision.enabled cfg &&
    d.length.enabled cfg && d.conversion.enabled cfg

/-- Leading zeros are flags and not part of the width. -/
def Greedy : Prop := ∀ ds, d.width = .digits ds → ds.head? ≠ some 0

instance : Decidable d.Greedy :=
  match width : d.width with
  | .star => isTrue fun _ same => by cases width.symm.trans same
  | .digits ds =>
    decidable_of_iff (ds.head? ≠ some 0)
      ⟨fun head _ same => WidthPart.digits.inj (width.symm.trans same) ▸ head,
        fun greedy => greedy ds width⟩

/-- The sign or space a flag list asks for: `+` wins in any order. -/
def prepend : Char :=
  if Flag.plus ∈ d.flags then '+' else if Flag.space ∈ d.flags then ' ' else NUL

/-- The record a directive stands for. A field whose feature is compiled out
does not exist, and a `*` width is filled in later; both keep the old value. -/
def denote (old : NpfFormatSpec) : NpfFormatSpec where
  fieldWidth :=
    match cfg.fieldWidth, d.width with
    | true, .digits ds => literalNumber cfg ds
    | _, _ => old.fieldWidth
  prec :=
    match cfg.precision, d.precision with
    | true, .literal _ ds => literalNumber cfg ds
    | true, _ => 0
    | false, _ => old.prec
  precOpt :=
    match cfg.precision, d.precision with
    | true, .star => .star
    | true, .literal false _ => .literal
    | true, _ => .none
    | false, _ => old.precOpt
  fieldWidthOpt :=
    match cfg.fieldWidth, d.width with
    | true, .star => .star
    | true, _ => .none
    | false, _ => old.fieldWidthOpt
  leftJustified := if cfg.fieldWidth then Flag.minus ∈ d.flags else old.leftJustified
  leadingZeroPad := if cfg.fieldWidth then Flag.zero ∈ d.flags else old.leadingZeroPad
  prepend := d.prepend
  altForm := if cfg.altForm then Flag.hash ∈ d.flags else old.altForm
  caseAdjust := d.conversion.caseAdjust
  lengthModifier := d.length.modifier cfg
  convSpec := d.conversion.convSpec

end Directive

end Nanoprintf
