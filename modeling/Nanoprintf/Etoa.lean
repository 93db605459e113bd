import Nanoprintf.Real

/-!
# The conversion by digits and exponent

`npf_etoa_rev`, which serves `%e` and `%g` and, in a build that has either, `%f`
too. One pass (`etoaGenerate`) leaves the significant digits right-aligned at the
top of the buffer together with `dec`, the decimal exponent of the last one;
the text is composed from the bottom of the buffer afterwards. `%g` may need a
second pass, for which it switches from a bound on the number of digits to a
bound on their position.
-/

set_option autoImplicit false

namespace Nanoprintf

open Foundations

/-- What bounds a pass. -/
structure EtoaMode where
  prec : ℤ
  nsigMax : ℤ
  fmode : Bool
  dstop : ℤ
  deriving DecidableEq, Repr

/-- `'f'` needs every digit down to `10^-prec`; the count only keeps the digits
inside the buffer. -/
def EtoaMode.fixed (cfg : Config) (prec : ℤ) : EtoaMode where
  prec := prec
  nsigMax := cfg.cbuf - 1
  fmode := true
  dstop := -prec - 1

@[simp] theorem EtoaMode.fixed_prec (cfg : Config) (prec : ℤ) :
    (EtoaMode.fixed cfg prec).prec = prec := rfl

/-- `'e'` and `'g'` need a number of digits; `INT_MIN` disables the position. -/
def EtoaMode.significant (cfg : Config) (prec nsigMax : ℤ) : EtoaMode where
  prec := prec
  nsigMax := nsigMax
  fmode := false
  dstop := -cfg.intMax - 1

/-- The integer scaling loop, which counts in `dec` the zeros it would emit. -/
def etoaIntScale (cfg : Config) : (expI dec man carry : ℕ) → ℕ × ℕ × ℕ
  | 0, dec, man, carry => (dec, man, carry)
  | expI + 1, dec, man, carry =>
    if !isFull cfg man then etoaIntScale cfg expI dec (doubleUp cfg man carry) 0
    else
      let (man, carry) := fifth cfg man carry
      etoaIntScale cfg expI (dec + 1) man carry

/-- Emit the integer digits at `buf[0]` and move them to the top of the buffer.
The result is where they start there. -/
def etoaPrintInt (cfg : Config) (man : ℕ) (buf : ConvBuffer cfg) : Run (ℕ × ConvBuffer cfg) := do
  let (k, buf) ←
    if usesUtoa cfg then npfUtoaRev cfg man buf 10 0 else emitWide cfg cfg.cbuf 0 man buf
  let buf ← buf.copyDown 0 (cfg.cbuf - k) k
  pure (cfg.cbuf - k, buf)

/-- `buf[--end] = c` -/
def pushDown {cfg : Config} (buf : ConvBuffer cfg) (end_ : ℕ) (c : Char) :
    Run (ℕ × ConvBuffer cfg) :=
  match end_ with
  | 0 => .error .bounds
  | e + 1 => do pure (e, ← buf.write e c)

/-- The fraction scaling loop with `left` steps to go. -/
def etoaFracScale (cfg : Config) (lo dstop : ℤ) (lead : Bool) :
    (left digit man carry end_ : ℕ) → ℤ → ConvBuffer cfg → Run (ℕ × ℕ × ℕ × ℕ × ℤ × ConvBuffer cfg)
  | 0, _, man, carry, end_, dec, buf => .ok (0, man, carry, end_, dec, buf)
  | left + 1, digit, man, carry, end_, dec, buf =>
    if ¬ (lo < end_ ∧ dstop < dec) then .ok (left + 1, man, carry, end_, dec, buf)
    else if isLarge cfg man || digit ≠ 0 then
      etoaFracScale cfg lo dstop lead left digit (man >>> 1) (man &&& 1) end_ dec buf
    else if 4 < left + 1 then do
      let (end_, buf) ← if lead then pure (end_, buf) else pushDown buf end_ '0'
      etoaFracScale cfg lo dstop lead left digit (timesFive cfg man carry) 0 end_ (dec - 1) buf
    else etoaFracScale cfg lo dstop lead left (digit + 1) (timesFive cfg man carry) 0 end_ dec buf

/-- Print the fraction, until a bound is reached or the mantissa is exhausted. -/
def etoaPrintFrac (cfg : Config) (lo dstop : ℤ) :
    (end_ man : ℕ) → ℤ → ConvBuffer cfg → Run (ℕ × ℕ × ℤ × ConvBuffer cfg)
  | 0, _, _, _ => .error .bounds
  | e + 1, man, dec, buf => do
    let buf ← buf.write e (topDigit cfg man)
    let dec := dec - 1
    let man := belowDigit cfg man
    if man = 0 ∨ e ≤ lo ∨ dec ≤ dstop then pure (e, man, dec, buf)
    else etoaPrintFrac cfg lo dstop e (man * 10 % 2 ^ cfg.manBits) dec buf

/-- The scan for a nonzero digit under a dropped `'5'`. -/
def allZero {cfg : Config} (buf : ConvBuffer cfg) (i : ℕ) : ℕ → Run Bool
  | 0 => .ok true
  | n + 1 => do if (← buf.read i) == '0' then allZero buf (i + 1) n else pure false

/-- Round the number from index `NPF_CBUF - room` on; past the top every digit
was `'9'`. -/
def etoaRound (cfg : Config) : ℕ → ℤ → ConvBuffer cfg → Run (ℤ × ConvBuffer cfg)
  | 0, dec, buf => do pure (dec + 1, ← buf.write (cfg.cbuf - 1) '1')
  | room + 1, dec, buf => do
    let i := cfg.cbuf - (room + 1)
    let c ← buf.read i
    if c == '9' then
      let buf ← buf.write i '0'
      etoaRound cfg room dec buf
    else
      let buf ← buf.write i (Char.ofNat (c.toNat + 1))
      pure (dec, buf)

/-- The digits of a pass: where they start, the exponent of the last one, and
what they leave for the rounding. -/
structure Digits (cfg : Config) where
  end_ : ℕ
  dec : ℤ
  carry : ℕ
  tail : Bool
  buf : ConvBuffer cfg

/-- The integer part: the exponent, which a scaled integer invalidates for the
fraction part, the exponent of the integer's last digit, and the integer with the
bit below it. -/
def etoaInteger (cfg : Config) (bin : ℕ) (exp : ℤ) : ℤ × ℕ × ℕ × ℕ :=
  if 0 ≤ exp then
    let (man, carry, expI) := intStart cfg bin exp
    let (dec, man, carry) := etoaIntScale cfg expI 0 man carry
    (if expI ≠ 0 then cfg.realManBits else exp, dec, man, carry)
  else (exp, 0, 0, 0)

/-- The path of a nonzero fraction: what is left of the mantissa, whether the
scaling got far enough for its top bit to mean one half, and the digits. -/
def etoaExpand (cfg : Config) (mode : EtoaMode) (lead : Bool) (left man carry end_ : ℕ) (dec : ℤ)
    (buf : ConvBuffer cfg) : Run (ℕ × ℕ × ℕ × ℤ × ConvBuffer cfg) := do
  let lo : ℤ := cfg.cbuf - mode.nsigMax - 1
  let (left, man, carry, end_, dec, buf) ←
    etoaFracScale cfg lo mode.dstop lead left 0 man carry end_ dec buf
  let man := (man + carry) % 2 ^ cfg.manBits
  let carry := if left ≤ 4 then 1 else 0
  if lo < end_ ∧ mode.dstop < dec then do
    let (end_, man, dec, buf) ← etoaPrintFrac cfg lo mode.dstop end_ man dec buf
    pure (man <<< 4 % 2 ^ cfg.manBits, carry, end_, dec, buf)
  else pure (man, carry, end_, dec, buf)

/-- The fraction part, behind an integer part that has been printed. -/
def etoaFraction (cfg : Config) (mode : EtoaMode) (bin : ℕ) (exp : ℤ) (d : Digits cfg) :
    Run (Digits cfg) :=
  if exp < cfg.realManBits then do
    let (man, carry, left) := fracStart cfg bin exp
    let (man, carry, end_, dec, buf) ←
      if man ≠ 0 ∨ carry ≠ 0 then
        etoaExpand cfg mode (d.end_ = cfg.cbuf) left man carry d.end_ d.dec d.buf
      else pure (man, carry, d.end_, d.dec, d.buf)
    pure ⟨end_, dec, carry &&& man >>> (cfg.manBits - 1), man = 0, buf⟩
  else pure d

/-- The generation of digits, before any is dropped. -/
def etoaDigits (cfg : Config) (mode : EtoaMode) (bin : ℕ) (exp0 : ℤ) (buf : ConvBuffer cfg) :
    Run (Digits cfg) := do
  let tail : Bool := exp0 ≤ cfg.shiftBits
  let (exp, dec, man, carry) := etoaInteger cfg bin exp0
  let (end_, buf) ←
    if man ≠ 0 ∨ mode.fmode then etoaPrintInt cfg man buf else pure (cfg.cbuf, buf)
  etoaFraction cfg mode bin exp ⟨end_, dec, carry, tail, buf⟩

/-- A value without digits is zero: one `'0'` at exponent 0. -/
def etoaZero {cfg : Config} (d : Digits cfg) : Run (Digits cfg) :=
  if d.end_ = cfg.cbuf then do
    let (end_, buf) ← pushDown d.buf d.end_ '0'
    pure { d with end_ := end_, buf := buf, dec := 0, carry := 0 }
  else pure d

/-- Drop the digits past what the conversion asked for and round on the first of
them. -/
def etoaDrop {cfg : Config} (mode : EtoaMode) (d : Digits cfg) : Run (Digits cfg) :=
  let nsig : ℤ := cfg.cbuf - d.end_
  let drop := if mode.fmode then -mode.prec - d.dec else nsig - mode.nsigMax
  if 0 < drop then do
    let end_ := d.end_ + drop.toNat
    let first ← d.buf.read (end_ - 1)
    let carry := if '5' ≤ first then 1 else 0
    let carry ←
      if first == '5' then
        let tail ← if d.tail then allZero d.buf d.end_ (drop.toNat - 1) else pure false
        if tail then pure ((← d.buf.read end_).toNat &&& 1) else pure carry
      else pure carry
    pure { d with end_ := end_, dec := d.dec + drop, carry := carry }
  else pure d

/-- One pass: the rounded digits. -/
def etoaGenerate (cfg : Config) (mode : EtoaMode) (bin : ℕ) (exp0 : ℤ) (buf : ConvBuffer cfg) :
    Run (ℕ × ℤ × ConvBuffer cfg) := do
  let d ← etoaDigits cfg mode bin exp0 buf
  let d ← etoaZero d
  let d ← etoaDrop mode d
  let (dec, buf) ←
    if d.carry ≠ 0 then etoaRound cfg (cfg.cbuf - d.end_) d.dec d.buf else pure (d.dec, d.buf)
  pure (d.end_, dec, buf)

/-- Strip trailing zeros, of which `nsig` digits keep at least one. -/
def etoaStrip {cfg : Config} (buf : ConvBuffer cfg) : (nsig end_ : ℕ) → ℤ → Run (ℕ × ℤ)
  | n + 2, end_, dec => do
    if (← buf.read end_) == '0' then etoaStrip buf (n + 1) (end_ + 1) (dec + 1)
    else pure (end_, dec)
  | _, end_, dec => pure (end_, dec)

/-- The runs of the `'f'` layout, least significant first: fraction zeros, fraction
digits, point, integer zeros, integer digits. -/
def layFixed {cfg : Config} (end_ fz fd dp iz id : ℕ) (buf : ConvBuffer cfg) :
    Run (ℤ × ConvBuffer cfg) := do
  let buf ← buf.fill 0 '0' fz
  let o := fz
  let buf ← buf.copyUp end_ o fd
  let o := o + fd
  let buf ← buf.write o '.'
  let o := o + dp
  let buf ← buf.fill o '0' iz
  let o := o + iz
  let buf ← buf.copyUp (end_ + fd) o id
  pure ((o + id : ℕ), buf)

/-- Compose `"<int>.<frac>"` reversed from `buf[0]` up. -/
def composeFixed (cfg : Config) (alt : Bool) (prec : ℤ) (end_ : ℕ) (dec : ℤ)
    (buf : ConvBuffer cfg) : Run (ℤ × ConvBuffer cfg) :=
  let nsig : ℤ := cfg.cbuf - end_
  let above := nsig + (if 0 < dec then 0 else dec)
  let id := if above < 0 then 0 else above
  let iz := if 0 < dec then dec else 0
  let fd := nsig - id
  let fz := prec - fd
  let dp : ℕ := if 0 < prec ∨ alt then 1 else 0
  if id + iz + dp + prec > cfg.cbuf then gotoExit
  else layFixed end_ fz.toNat fd.toNat dp iz.toNat id.toNat buf

/-- The fraction digits of the `'e'` layout: `n` to go, `i` done, `pad` zeros
before the generated ones. -/
def composeFraction (cfg : Config) (nsig pad : ℤ) :
    (n i o : ℕ) → ConvBuffer cfg → Run (ℕ × ConvBuffer cfg)
  | 0, _, o, buf => .ok (o, buf)
  | n + 1, i, o, buf => do
    let c ← if (i : ℤ) < pad then pure '0' else buf.read (cfg.cbuf - nsig + (i - pad)).toNat
    let buf ← buf.write o c
    composeFraction cfg nsig pad n (i + 1) (o + 1) buf

/-- The standard mandates at least two digits. -/
def twoDigits {cfg : Config} (o : ℕ) (buf : ConvBuffer cfg) : Run (ℕ × ConvBuffer cfg) :=
  if o < 2 then do pure (o + 1, ← buf.write o '0') else pure (o, buf)

/-- The exponent of the `'e'` layout. -/
def composeExponent (cfg : Config) (caseAdj : ℕ) (x : ℤ) (buf : ConvBuffer cfg) :
    Run (ℕ × ConvBuffer cfg) := do
  let (o, buf) ← npfUtoaRev cfg x.natAbs buf 10 0
  let (o, buf) ← twoDigits o buf
  let buf ← buf.write o (if x < 0 then '-' else '+')
  let buf ← buf.write (o + 1) (Char.ofNat ('E'.toNat + caseAdj))
  pure (o + 2, buf)

/-- Compose `"d.<frac>e<sign><exp>"` reversed from `buf[0]` up. -/
def composeScientific (cfg : Config) (alt : Bool) (caseAdj : ℕ) (pe x : ℤ) (end_ : ℕ)
    (buf : ConvBuffer cfg) : Run (ℤ × ConvBuffer cfg) := do
  let nsig : ℤ := cfg.cbuf - end_
  let (o, buf) ← composeExponent cfg caseAdj x buf
  let (o, buf) ← composeFraction cfg nsig (pe - (nsig - 1)) pe.toNat 0 o buf
  let buf ← buf.write o '.'
  let o := o + if 0 < pe ∨ alt then 1 else 0
  let buf ← buf.write o (← buf.read (cfg.cbuf - 1))
  pure ((o + 1 : ℕ), buf)

/-- The body of `npf_etoa_rev` from the first pass on, `g` telling whether the
conversion is `%g`. -/
def etoaFinite (cfg : Config) (buf : ConvBuffer cfg) (alt : Bool) (caseAdj : ℕ) (g : Bool)
    (mode : EtoaMode) (bin : ℕ) (exp : ℤ) : Run (ℤ × ConvBuffer cfg) := do
  let (end_, dec, buf) ← etoaGenerate cfg mode bin exp buf
  let x := dec + (cfg.cbuf - end_ : ℤ) - 1
  if g then
    let strip := !alt
    let (end_, _) ← if strip then etoaStrip buf (cfg.cbuf - end_) end_ dec else pure (end_, dec)
    let nsig : ℤ := cfg.cbuf - end_
    if -4 ≤ x ∧ x < mode.prec then
      let fp := (if strip then nsig else mode.prec) - 1 - x
      let mode := EtoaMode.fixed cfg (if 0 < fp then fp else 0)
      let (end_, dec, buf) ← etoaGenerate cfg mode bin exp buf
      composeFixed cfg alt mode.prec end_ dec buf
    else composeScientific cfg alt caseAdj ((if strip then nsig else mode.prec) - 1) x end_ buf
  else if mode.fmode then composeFixed cfg alt mode.prec end_ dec buf
  else composeScientific cfg alt caseAdj mode.prec x end_ buf

/-- `NPF_DEC_PREC` -/
def npfDecPrec (cfg : Config) (spec : NpfFormatSpec) : ℤ := if cfg.precision then spec.prec else 6

/-- The conversion is `%g`. With `%e` compiled out, whatever is not `%f` is. -/
def isShortest (cfg : Config) (spec : NpfFormatSpec) : Bool :=
  cfg.floatShortest &&
    if cfg.floatSci then spec.convSpec == .floatShortest else spec.convSpec != .floatDec

/-- `npf_etoa_rev`: the length of the text in the buffer, reversed from index 0;
negative when the text is no number. -/
def npfEtoaRev (cfg : Config) (buf : ConvBuffer cfg) (spec : NpfFormatSpec) (f : RealBits cfg) :
    Run (ℤ × ConvBuffer cfg) :=
  let bin := npfRealToIntRep cfg f
  let exp := expField cfg bin
  let bin := manField cfg bin
  if isSpecial cfg exp then
    npfFtoaSpecial buf spec.caseAdjust (if bin ≠ 0 then npfFtoaNan else npfFtoaInf)
  else
    orErr buf spec.caseAdjust (
      let prec := npfDecPrec cfg spec
      if prec > cfg.cbuf - 2 then gotoExit
      else
        let fmode := spec.convSpec == .floatDec
        let g := isShortest cfg spec
        let alt := cfg.altForm && spec.altForm
        -- a precision of 0 means 1 in 'g', where it counts significant digits
        let (prec, nsigMax) := if g then (if prec ≠ 0 then prec else 1,
          if prec ≠ 0 then prec else 1) else (prec, prec + 1)
        let (bin, exp) := normalize cfg exp bin
        if fmode then etoaFinite cfg buf alt spec.caseAdjust g (.fixed cfg prec) bin exp
        else if nsigMax > cfg.cbuf - 7 then gotoExit
        else etoaFinite cfg buf alt spec.caseAdjust g (.significant cfg prec nsigMax) bin exp)

end Nanoprintf
