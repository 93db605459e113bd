import Nanoprintf.Real

/-!
# The fused fixed-point conversion

`npf_ftoa_rev`, the conversion a build without `%e` and `%g` compiles. It knows
where the decimal point goes before it starts and places each digit when it
generates it: the integer part upwards from the point, the fraction downwards.
-/

set_option autoImplicit false

namespace Nanoprintf

open Foundations

/-- The integer scaling loop: every zero the decimal exponent gains is stored at
`dec`. -/
def ftoaIntScale (cfg : Config) :
    (expI dec man carry : ℕ) → ConvBuffer cfg → Run (ℕ × ℕ × ℕ × ConvBuffer cfg)
  | 0, dec, man, carry, buf => .ok (dec, man, carry, buf)
  | expI + 1, dec, man, carry, buf =>
    if !isFull cfg man then ftoaIntScale cfg expI dec (doubleUp cfg man carry) 0 buf
    else if cfg.cbuf ≤ dec then gotoExit
    else do
      let buf ← buf.write dec '0'
      let (man, carry) := fifth cfg man carry
      ftoaIntScale cfg expI (dec + 1) man carry buf

/-- Print the integer. -/
def ftoaPrintInt (cfg : Config) (end_ man : ℕ) (buf : ConvBuffer cfg) :
    Run (ℕ × ConvBuffer cfg) :=
  if usesUtoa cfg then
    if cfg.cbuf < end_ + 10 then gotoExit
    else npfUtoaRevEnd cfg man buf end_ 10 0
  else emitWide cfg (cfg.cbuf - end_) end_ man buf

/-- The fraction scaling loop with `left` steps to go and `decF` fraction digits
to store; a step below exponent zero that multiplies stores a leading zero. -/
def ftoaFracScale (cfg : Config) :
    (left digit man carry decF : ℕ) → ConvBuffer cfg → Run (ℕ × ℕ × ℕ × ℕ × ConvBuffer cfg)
  | 0, _, man, carry, decF, buf => .ok (0, man, carry, decF, buf)
  | left + 1, digit, man, carry, decF, buf =>
    if decF = 0 then .ok (left + 1, man, carry, decF, buf)
    else if isLarge cfg man || digit ≠ 0 then
      ftoaFracScale cfg left digit (man >>> 1) (man &&& 1) decF buf
    else if 4 < left + 1 then do
      let buf ← buf.write (decF - 1) '0'
      ftoaFracScale cfg left digit (timesFive cfg man carry) 0 (decF - 1) buf
    else ftoaFracScale cfg left (digit + 1) (timesFive cfg man carry) 0 decF buf

/-- Print the fraction: `decF` digits downwards. -/
def ftoaPrintFrac (cfg : Config) : (decF man : ℕ) → ConvBuffer cfg → Run (ℕ × ConvBuffer cfg)
  | 0, man, buf => .ok (man, buf)
  | decF + 1, man, buf => do
    let buf ← buf.write decF (topDigit cfg man)
    if decF = 0 then pure (belowDigit cfg man, buf)
    else ftoaPrintFrac cfg decF (belowDigit cfg man * 10 % 2 ^ cfg.manBits) buf

/-- Round the number: propagate a carry from `dec = NPF_CBUF - room` on. -/
def ftoaRound (cfg : Config) : (room end_ : ℕ) → ConvBuffer cfg → Run (ℕ × ConvBuffer cfg)
  | 0, _, _ => gotoExit
  | room + 1, end_, buf => do
    let dec := cfg.cbuf - (room + 1)
    let (end_, buf) ← if end_ ≤ dec then pure (end_ + 1, ← buf.write end_ '0') else pure (end_, buf)
    let c ← buf.read dec
    if c == '.' then ftoaRound cfg room end_ buf
    else if c == '9' then do
      let buf ← buf.write dec '0'
      ftoaRound cfg room end_ buf
    else do
      let buf ← buf.write dec (Char.ofNat (c.toNat + 1))
      pure (end_, buf)

/-- The least significant digit kept, which a tie looks at. -/
def ftoaLsd (cfg : Config) (buf : ConvBuffer cfg) : Run Char := do
  let lsd ← buf.read 0
  if cfg.altForm && lsd == '.' then buf.read 1 else pure lsd

/-- The body of `npf_ftoa_rev` for a finite real, up to its label `exit`. -/
def ftoaFinite (cfg : Config) (buf : ConvBuffer cfg) (spec : NpfFormatSpec) (prec bin : ℕ)
    (exp : ℤ) : Run (ℤ × ConvBuffer cfg) := do
  let (dec, buf) ←
    if prec ≠ 0 ∨ (cfg.altForm && spec.altForm) then pure (prec + 1, ← buf.write prec '.')
    else pure (prec, buf)
  -- Integer part
  let (invalid, dec, man, carry, buf) ←
    if 0 ≤ exp then do
      let (man, carry, expI) := intStart cfg bin exp
      let (dec, man, carry, buf) ← ftoaIntScale cfg expI dec man carry buf
      pure (expI != 0, dec, man, carry, buf)
    else pure (false, dec, 0, 0, buf)
  let exp := if invalid then (cfg.realManBits : ℤ) else exp
  let (end_, buf) ← ftoaPrintInt cfg dec man buf
  -- Fraction part
  let (dec, man, carry, decF, buf) ←
    if exp < cfg.realManBits then do
      let (man, carry, left) := fracStart cfg bin exp
      let (left, man, carry, decF, buf) ← ftoaFracScale cfg left 0 man carry prec buf
      -- a mantissa that is all ones must not wrap
      let man := if man ≠ 2 ^ cfg.manBits - 1 then (man + carry) % 2 ^ cfg.manBits else man
      pure (0, man, if left ≤ 4 then 1 else 0, decF, buf)
    else pure (dec, 0, carry, prec, buf)
  let (man, buf) ←
    if decF ≠ 0 then do
      let (man, buf) ← ftoaPrintFrac cfg decF man buf
      pure (man <<< 4 % 2 ^ cfg.manBits, buf)
    else pure (man, buf)
  let carry ←
    if exp < cfg.realManBits then do
      let carry := carry &&& man >>> (cfg.manBits - 1)
      -- Ties to even
      if man = 1 <<< (cfg.manBits - 1) then pure (carry &&& ((← ftoaLsd cfg buf).toNat &&& 1))
      else pure carry
    else pure carry
  let (end_, buf) ← if carry ≠ 0 then ftoaRound cfg (cfg.cbuf - dec) end_ buf else pure (end_, buf)
  pure (end_, buf)

/-- `npf_ftoa_rev`: the length of the text in the buffer, reversed from index 0;
negative when the text is no number. -/
def npfFtoaRev (cfg : Config) (buf : ConvBuffer cfg) (spec : NpfFormatSpec) (prec : ℤ)
    (f : RealBits cfg) : Run (ℤ × ConvBuffer cfg) :=
  let bin := npfRealToIntRep cfg f
  let exp := expField cfg bin
  let bin := manField cfg bin
  if isSpecial cfg exp then
    npfFtoaSpecial buf spec.caseAdjust (if bin ≠ 0 then npfFtoaNan else npfFtoaInf)
  else
    orErr buf spec.caseAdjust (
      if prec > cfg.cbuf - 2 then gotoExit
      else
        let (bin, exp) := normalize cfg exp bin
        ftoaFinite cfg buf spec prec.toNat bin exp)

end Nanoprintf
