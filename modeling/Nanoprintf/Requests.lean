import Nanoprintf.ConversionBounds
import Nanoprintf.Emission
import Nanoprintf.Grammar

/-!
# Requests and answers

What the formatting functions of the C standard are about, stated without the
record and its defaults, without the conversion buffer, and without the builds
that leave a feature out. A `Request` is a specification whose stars are
resolved, a feature that a build leaves out being one that is not asked for.
`answer` is the text a request gets: the digits or characters, extended by the
precision, behind a sign and a prefix, in a field.
-/

set_option autoImplicit false

namespace Nanoprintf

open Foundations

/-! ## Objects of `%n` -/

/-- An integer object that a `%n` stores to. -/
structure Slot where
  address : ℕ
  bits : ℕ
  deriving DecidableEq, Repr

/-- The store of a number, converted to the type of the object. -/
def Slot.store (slot : Slot) (n : ℤ) : Store :=
  ⟨slot.address, slot.bits, n.bmod (2 ^ slot.bits)⟩

def Store.slot (s : Store) : Slot := ⟨s.address, s.bits⟩

/-- What a specification makes of its arguments: the characters, the objects to
store to, and the arguments it leaves. -/
structure Formatted where
  text : List Char
  slots : List Slot
  args : List Arg
  deriving DecidableEq, Repr

/-! ## Requests -/

structure Request where
  width : ℕ
  left : Bool
  zero : Bool
  /-- the precision, if one is in effect -/
  precision : Option ℕ
  /-- the character in front of a number without `-`, or `NUL` -/
  prepend : Char
  alt : Bool
  caseAdjust : ℕ
  lengthModifier : LengthModifier
  convSpec : ConvSpec
  deriving DecidableEq, Repr

/-- What a record whose stars are resolved asks a build for. -/
def request (cfg : Config) (fs : NpfFormatSpec) : Request where
  width := widthOf cfg fs
  left := cfg.fieldWidth && fs.leftJustified
  zero := cfg.fieldWidth && fs.leadingZeroPad
  precision := if cfg.precision && fs.precOpt != .none then some fs.prec.toNat else none
  prepend := fs.prepend
  alt := cfg.altForm && fs.altForm
  caseAdjust := fs.caseAdjust
  lengthModifier := fs.lengthModifier
  convSpec := fs.convSpec

/-- The conversions a build has. -/
def Compiled (cfg : Config) : ConvSpec → Prop
  | .none => False
  | .binary => cfg.binary = true
  | .writeback => cfg.writeback = true
  | .floatDec => cfg.float = true
  | .floatHex => cfg.floatHex = true
  | .floatSci => cfg.floatSci = true
  | .floatShortest => cfg.floatShortest = true
  | _ => True

namespace Request

variable (r : Request)

/-! ## Integers -/

/-- Digits extended by zeros to a length. -/
def zeroExtend (n : ℕ) (ds : List Char) : List Char := List.replicate (n - ds.length) '0' ++ ds

def base : ℕ :=
  match r.convSpec with
  | .binary => 2
  | .octal => 8
  | .hexInt => 16
  | .pointer => 16
  | _ => 10

/-- The digits of a magnitude: at least as many as the precision, none for a zero
with precision zero, and a leading `0` in the alternate octal form. -/
def digits (default : ℕ) (v : ℕ) : List Char :=
  let ds := if v = 0 ∧ r.precision = some 0 then [] else (numeralText r.base r.caseAdjust v).reverse
  let ds := zeroExtend (r.precision.getD default) ds
  if r.convSpec = .octal ∧ r.alt = true ∧ ds.head? ≠ some '0' then '0' :: ds else ds

/-- The letter of the prefix, which the alternate form puts before a nonzero
number. -/
def prefixLetter (v : ℕ) : Char :=
  if v ≠ 0 ∧ r.alt = true then
    match r.convSpec with
    | .binary => Char.ofNat ('B'.toNat + r.caseAdjust)
    | .hexInt => Char.ofNat ('X'.toNat + r.caseAdjust)
    | .pointer => Char.ofNat ('X'.toNat + r.caseAdjust)
    | _ => NUL
  else NUL

/-- The field is filled with zeros: a precision stands in the way for `d`, `o`,
`u` and `x`, for the others only the blank result of a zero. -/
def zeroFills (v : ℕ) : Bool :=
  r.zero &&
    match r.convSpec with
    | .binary => !(decide (v = 0) && r.precision == some 0)
    | .pointer => !(decide (v = 0) && r.precision == some 0)
    | _ => r.precision.isNone

/-- The text of an integer. -/
def integer (default : ℕ) (signC : Char) (v : ℕ) : List Char :=
  padField r.width r.left (r.zeroFills v) (signText signC ++ prefixText (r.prefixLetter v))
    (r.digits default v)

/-- The text of something without a sign. -/
def plain (body : List Char) : List Char := padField r.width r.left r.zero [] body

/-! ## Reals -/

/-- The precision a real is printed with. -/
def realPrecision : ℕ := r.precision.getD (if r.convSpec = .floatHex then 13 else 6)

/-- The record the float conversions read. -/
def realSpec : NpfFormatSpec :=
  { NpfFormatSpec.zeroed with
    prec := r.realPrecision
    altForm := r.alt
    caseAdjust := r.caseAdjust
    convSpec := r.convSpec }

end Request

/-- A float conversion: the letter of the prefix, the length, negative for a text
that is no number, and the buffer. -/
def floatRun (cfg : Config) (fs : NpfFormatSpec) (val : RealBits cfg) :
    Run (Char × ℤ × ConvBuffer cfg) := do
  let (hexLen, buf) ←
    if cfg.floatHex && fs.convSpec == .floatHex then
      npfAtoaRev cfg .blank fs
        (if cfg.singlePrecision then widen (val.setWidth 32) else val.setWidth 64)
    else pure (0, Buffer.blank)
  if hexLen ≠ 0 then pure (Char.ofNat ('X'.toNat + fs.caseAdjust), (hexLen : ℤ), buf)
  else do
    let (len, buf) ←
      if cfg.useSci then npfEtoaRev cfg buf fs val
      else npfFtoaRev cfg buf fs (npfDecPrec cfg fs) val
    pure (NUL, len, buf)

/-- The text of a real: a word is not extended by zeros. -/
def realText (cfg : Config) (r : Request) (val : RealBits cfg) : Run (List Char) := do
  let (need0x, len, buf) ← floatRun cfg r.realSpec val
  let digits ← readDown buf len.natAbs
  let signC := if npfRealToIntRep cfg val >>> (cfg.realBits - 1) ≠ 0 then '-' else r.prepend
  pure (padField r.width r.left (r.zero && decide (0 ≤ len)) (signText signC ++ prefixText need0x)
    digits)

/-! ## Answers -/

/-- The digits of a pointer without a precision, where precisions are compiled. -/
def pointerDigits (cfg : Config) : ℕ := if cfg.precision then (cfg.ptrBits + 3) / 4 else 1

/-- What a request is answered with. -/
def answer (cfg : Config) (r : Request) (args : List Arg) : Run Formatted :=
  match r.convSpec with
  | .none => .error .bounds
  | .percent => .ok ⟨r.plain (Request.zeroExtend (r.precision.getD 0) ['%']), [], args⟩
  | .char => do
    let (v, args) ← vaInt cfg.intBits args
    let c := Char.ofNat (v.toNat % 2 ^ cfg.charBits)
    pure ⟨r.plain (Request.zeroExtend (r.precision.getD 0) [c]), [], args⟩
  | .string => do
    let (a, memory, args) ← vaPtr args
    let len ← if a = 0 then pure 0 else strLen (r.precision.map Int.ofNat) memory 0
    pure ⟨r.plain (memory.take len), [], args⟩
  | .signedInt => do
    let (sval, args) ← extractSigned cfg r.lengthModifier args
    pure ⟨r.integer 1 (if sval < 0 then '-' else r.prepend) sval.natAbs, [], args⟩
  | .pointer => do
    let (p, _, args) ← vaPtr args
    pure ⟨r.integer (pointerDigits cfg) NUL (p % 2 ^ cfg.uintBits), [], args⟩
  | .writeback => do
    let (wb, _, args) ← vaPtr args
    let text := r.plain (Request.zeroExtend (r.precision.getD 0) [])
    match writebackWidth cfg r.lengthModifier with
    | none => pure ⟨text, [], args⟩
    | some bits => if wb = 0 then .error .bounds else pure ⟨text, [⟨wb, bits⟩], args⟩
  | .binary | .octal | .hexInt | .unsignedInt => do
    let (v, args) ← extractUnsigned cfg r.lengthModifier args
    pure ⟨r.integer 1 NUL v, [], args⟩
  | .floatDec | .floatHex | .floatSci | .floatShortest => do
    let (val, args) ← vaReal cfg r.lengthModifier args
    let text ← realText cfg r val
    pure ⟨text, [], args⟩

end Nanoprintf
