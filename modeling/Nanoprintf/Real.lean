import Nanoprintf.Utoa

/-!
# Reals and their scaling from base two to base ten

What `npf_ftoa_rev` and `npf_etoa_rev` share: reading the bit pattern of a real,
the text of a value that is no number, and the arithmetic on an integer of
`manBits` bits that turns a binary exponent into decimal digits. The two
functions spell this arithmetic out in the same way; they differ in what they do
with the digits, which is in their own modules.
-/

set_option autoImplicit false

namespace Nanoprintf

open Foundations

/-- The bit pattern of an `npf_real_t`. -/
abbrev RealBits (cfg : Config) := BitVec cfg.realBits

/-- The real with a bit pattern. -/
def pattern (cfg : Config) (rep : ℕ) : RealBits cfg := BitVec.ofNat _ rep

/-! ## The bit pattern -/

/-- The bytes of an integer object in the order of their addresses. -/
def objectBytes (order : ByteOrder) (radix n v : ℕ) : List ℕ :=
  match order with
  | .little => lowDigits radix n v
  | .big => (lowDigits radix n v).reverse

/-- The integer an object with these bytes holds. -/
def objectValue (order : ByteOrder) (radix : ℕ) (bytes : List ℕ) : ℕ :=
  match order with
  | .little => Nat.ofDigits radix bytes
  | .big => Nat.ofDigits radix bytes.reverse

/-- The copy loop of `npf_real_to_int_rep`: the `n` bytes of a real over the
first bytes of a zero of `m` bytes. -/
def copyRep (order : ByteOrder) (radix n m rep : ℕ) : ℕ :=
  let src := objectBytes order radix n rep
  let dst := objectBytes order radix m 0
  objectValue order radix (src ++ dst.drop src.length)

/-- `npf_real_to_int_rep` -/
def npfRealToIntRep (cfg : Config) (f : RealBits cfg) : ℕ :=
  copyRep cfg.byteOrder (2 ^ cfg.charBits) (cfg.realBits / cfg.charBits)
    (cfg.binBits / cfg.charBits) f.toNat

/-- The biased exponent: `(bin >> NPF_REAL_MAN_BITS) & NPF_REAL_EXP_MASK`. -/
def expField (cfg : Config) (bin : ℕ) : ℕ := bin >>> cfg.realManBits &&& cfg.realExpMask

/-- `bin & ((1 << NPF_REAL_MAN_BITS) - 1)` -/
def manField (cfg : Config) (bin : ℕ) : ℕ := bin &&& (1 <<< cfg.realManBits - 1)

/-- `!((unsigned)(exp + 1) & NPF_REAL_EXP_MASK)` -/
def isSpecial (cfg : Config) (exp : ℕ) : Bool := (exp + 1) &&& cfg.realExpMask == 0

/-- `npf_bin_shr`: bit by bit where the division-free build has no word for a wide shift. -/
def npfBinShr (cfg : Config) (v s : ℕ) : ℕ :=
  if cfg.divisionFree && 32 < cfg.binBits then (fun v => v >>> 1)^[s] v else v >>> s

/-- `npf_bin_shl` -/
def npfBinShl (cfg : Config) (v s : ℕ) : ℕ :=
  if cfg.divisionFree && 32 < cfg.binBits then (fun v => v <<< 1 % 2 ^ cfg.binBits)^[s] v
  else v <<< s % 2 ^ cfg.binBits

/-- The mantissa with its implicit bit and the unbiased exponent. -/
def normalize (cfg : Config) (exp bin : ℕ) : ℕ × ℤ :=
  if exp ≠ 0 then (bin ||| 1 <<< cfg.realManBits, (exp : ℤ) - cfg.realExpBias)
  else (bin, 1 - cfg.realExpBias)

/-! ## Special values -/

/-- `specials`, with the terminator of the literal. -/
def specials : List Char := "NAN\x00FNI\x00RRE\x00".toList

/-- The copy loop from `s + i` on. -/
def specialLoop {cfg : Config} (caseAdj : ℕ) :
    List Char → ℕ → ConvBuffer cfg → Run (ℕ × ConvBuffer cfg)
  | [], _, _ => .error .bounds
  | c :: s, i, buf => do
    let buf ← buf.write i (Char.ofNat (c.toNat + caseAdj))
    match s with
    | [] => .error .bounds
    | next :: _ => if next ≠ NUL then specialLoop caseAdj s (i + 1) buf else pure (i + 1, buf)

/-- `npf_ftoa_special` -/
def npfFtoaSpecial {cfg : Config} (buf : ConvBuffer cfg) (caseAdj off : ℕ) :
    Run (ℤ × ConvBuffer cfg) := do
  let (i, buf) ← specialLoop caseAdj (specials.drop off) 0 buf
  pure (-i, buf)

/-- `NPF_FTOA_NAN` -/
def npfFtoaNan : ℕ := 0

/-- `NPF_FTOA_INF` -/
def npfFtoaInf : ℕ := 4

/-- `NPF_FTOA_ERR` -/
def npfFtoaErr : ℕ := 8

/-- `goto exit` -/
def gotoExit {α : Type} : Run α := .error (.leave .gotoExit)

/-- Run a conversion that may leave through its label `exit`, where the text of
`ERR` replaces whatever has been written. -/
def orErr {cfg : Config} (buf : ConvBuffer cfg) (caseAdj : ℕ)
    (run : Run (ℤ × ConvBuffer cfg)) : Run (ℤ × ConvBuffer cfg) :=
  match run with
  | .error (.leave .gotoExit) => npfFtoaSpecial buf caseAdj npfFtoaErr
  | other => other

/-! ## The integer part -/

/-- The mantissa of the integer part, the bit below it, and the binary exponent
that is left to be scaled away; the exponent is not negative. -/
def intStart (cfg : Config) (bin : ℕ) (exp : ℤ) : ℕ × ℕ × ℕ :=
  let shift := if exp > cfg.shiftBits then cfg.shiftBits else exp.toNat
  let expI := (exp - shift).toNat
  let shift := cfg.realManBits - shift
  if shift ≠ 0 then
    let binI := npfBinShr cfg bin (shift - 1)
    ((binI >>> 1) % 2 ^ cfg.manBits, binI &&& 1, expI)
  else (bin % 2 ^ cfg.manBits, 0, expI)

/-- Quotient and remainder by five. In the division-free build they come from a
tenth: `n/5 = 2*(n/10) + (n%10 >= 5)`. -/
def div5 (cfg : Config) (man : ℕ) : ℕ × ℕ :=
  if cfg.divisionFree && cfg.manBits ≤ 32 then
    let q := npfDiv10 man
    let r := man - q * 10
    if 5 ≤ r then (q * 2 + 1, r - 5) else (q * 2, r)
  else (man / 5, man % 5)

/-- The top bit of the mantissa is set, so that a doubling would lose it. -/
def isFull (cfg : Config) (man : ℕ) : Bool := man >>> (cfg.manBits - 1) ≠ 0

/-- `(man_i << 1) | carry` -/
def doubleUp (cfg : Config) (man carry : ℕ) : ℕ := (man <<< 1 ||| carry) % 2 ^ cfg.manBits

/-- A fifth of the mantissa and the carry that remembers the remainder. -/
def fifth (cfg : Config) (man carry : ℕ) : ℕ × ℕ :=
  let (q, r) := div5 cfg man
  (q, (r + carry + 1) >>> 2)

/-- The digits, from index `i` on, of a mantissa that may be wider than
`npf_uint_t`; `room` is what is left of the buffer. -/
def emitWide (cfg : Config) : (room i man : ℕ) → ConvBuffer cfg → Run (ℕ × ConvBuffer cfg)
  | 0, _, _, _ => gotoExit
  | room + 1, i, man, buf => do
    let buf ← buf.write i (Char.ofNat ('0'.toNat + man % 10))
    if man / 10 ≠ 0 then emitWide cfg room (i + 1) (man / 10) buf else pure (i + 1, buf)

/-- The mantissa fits the shared integer emitter. -/
def usesUtoa (cfg : Config) : Bool := cfg.manBits ≤ 32 && 32 ≤ cfg.uintBits

/-! ## The fraction part -/

/-- The mantissa of the fraction, the bit below it, and how many steps the binary
exponent is from 4, where the scaling ends. -/
def fracStart (cfg : Config) (bin : ℕ) (exp : ℤ) : ℕ × ℕ × ℕ :=
  let shiftF := if exp < 0 then -1 else exp
  let left := (4 - (exp - shiftF)).toNat
  let binF := npfBinShl cfg bin (cfg.binBits - cfg.realManBits + shiftF).toNat
  if cfg.manBits < cfg.binBits then
    (binF >>> (cfg.binBits - cfg.manBits) % 2 ^ cfg.manBits,
      binF >>> (cfg.binBits - cfg.manBits - 1) &&& 1, left)
  else (binF <<< ((cfg.manBits - cfg.binBits) % cfg.manBits) % 2 ^ cfg.manBits, 0, left)

/-- The mantissa is too large for a multiplication by five. -/
def isLarge (cfg : Config) (man : ℕ) : Bool := cfg.fiveLimit < man

/-- `man_f * 5`, and 3 more when a carry is pending. -/
def timesFive (cfg : Config) (man carry : ℕ) : ℕ :=
  let man := man * 5 % 2 ^ cfg.manBits
  if carry ≠ 0 then (man + 3) % 2 ^ cfg.manBits else man

/-- The digit above the low `manBits - 4` bits. -/
def topDigit (cfg : Config) (man : ℕ) : Char :=
  Char.ofNat ('0'.toNat + man >>> (cfg.manBits - 4))

/-- The mantissa without that digit. -/
def belowDigit (cfg : Config) (man : ℕ) : ℕ := man % 2 ^ (cfg.manBits - 4)

end Nanoprintf
