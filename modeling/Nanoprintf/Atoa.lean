import Nanoprintf.Real

/-!
# The hexadecimal float conversion

`npf_atoa_rev` always works on a binary64; a build whose real type is `float`
converts its argument first (`widen`).
-/

set_option autoImplicit false

namespace Nanoprintf

open Foundations

/-- `(double)val` for a `float`, on bit patterns; a NaN stays a NaN. -/
def widen (f : BitVec 32) : BitVec 64 :=
  let sign := f.toNat >>> 31
  let exp := f.toNat >>> 23 % 256
  let man := f.toNat % 2 ^ 23
  let (exp, man) :=
    if exp = 255 then (2047, man <<< 29)
    else if exp ≠ 0 then (exp + 896, man <<< 29)
    else if man = 0 then (0, 0)
    else (man.log2 + 874, man <<< (52 - man.log2) % 2 ^ 52)
  BitVec.ofNat 64 (sign <<< 63 ||| exp <<< 52 ||| man)

/-- `npf_double_to_int_rep` -/
def npfDoubleToIntRep (cfg : Config) (f : BitVec 64) : ℕ :=
  copyRep cfg.byteOrder (2 ^ cfg.charBits) (64 / cfg.charBits) (64 / cfg.charBits) f.toNat

/-- Discard low nibbles and round: the mantissa and the last bit shifted out. -/
def atoaDiscard : ℕ → ℕ → ℕ → ℕ × ℕ
  | 0, bin, carry => (bin, carry)
  | n + 1, bin, _ => atoaDiscard n (bin >>> 4) (bin >>> 3 &&& 1)

/-- The `prec` low nibbles, units first; the rest of the mantissa. -/
def atoaNibbles {cfg : Config} (caseAdj : ℕ) :
    (prec end_ bin : ℕ) → ConvBuffer cfg → Run (ℕ × ℕ × ConvBuffer cfg)
  | 0, end_, bin, buf => .ok (end_, bin, buf)
  | n + 1, end_, bin, buf => do
    let buf ← buf.write end_ (digitChar caseAdj (bin &&& 0xF))
    atoaNibbles caseAdj n (end_ + 1) (bin >>> 4) buf

/-- `NPF_HEX_PREC` -/
def npfHexPrec (cfg : Config) (spec : NpfFormatSpec) : ℤ :=
  if cfg.precision then spec.prec else cfg.intMax

/-- `npf_atoa_rev`: 0 for a special value, which the caller prints otherwise. -/
def npfAtoaRev (cfg : Config) (buf : ConvBuffer cfg) (spec : NpfFormatSpec) (f : BitVec 64) :
    Run (ℕ × ConvBuffer cfg) :=
  let bin := npfDoubleToIntRep cfg f
  let exp := bin >>> 52 &&& 2047
  let bin := bin &&& (1 <<< 52 - 1)
  if exp = 2047 then pure (0, buf)
  else do
    let (bin, exp) : ℕ × ℤ :=
      if exp ≠ 0 then (bin ||| 1 <<< 52, exp - 1023)
      else if bin ≠ 0 then (bin, 1 - 1023) else (bin, exp)
    let nFracDig := (52 + 3) / 4
    let prec := min (npfHexPrec cfg spec) nFracDig
    let (bin, carry) := atoaDiscard (nFracDig - prec).toNat bin 0
    let bin := bin + carry
    let (end_, buf) ← npfUtoaRev cfg exp.natAbs buf 10 0
    let buf ← buf.write end_ (if exp < 0 then '-' else '+')
    let buf ← buf.write (end_ + 1) (Char.ofNat ('P'.toNat + spec.caseAdjust))
    let (end_, bin, buf) ← atoaNibbles spec.caseAdjust prec.toNat (end_ + 2) bin buf
    let (end_, buf) ←
      if 0 < prec ∨ (cfg.altForm && spec.altForm) then pure (end_ + 1, ← buf.write end_ '.')
      else pure (end_, buf)
    let buf ← buf.write end_ (Char.ofNat ('0'.toNat + (bin &&& 0xF)))
    pure (end_ + 1, buf)

end Nanoprintf
