import Mathlib.Tactic

/-!
# Targets and configurations

nanoprintf is configured by preprocessor flags and compiled for a target whose
integer types have implementation-defined widths. A `Target` records what the
source reads from `<limits.h>`, `<stdint.h>` and `<float.h>`; a `Config` is a
target with the feature flags, the conversion buffer size and the width of the
integer the float conversions compute in. The combinations the source rejects
with `#error` are not configurations: the conditions are fields.

The macros the source derives from these (`NPF_FMT_NUM_MAX`, `NPF_REAL_*`,
`NPF_FTOA_*`, the width of `npf_uint_t`) are functions of a configuration.
-/

set_option autoImplicit false

namespace Nanoprintf

/-- The widths for which C23 names `wN` and `wfN` length modifiers. -/
inductive Width where
  | w8 | w16 | w32 | w64
  deriving DecidableEq, Repr

def Width.bits : Width → ℕ
  | .w8 => 8
  | .w16 => 16
  | .w32 => 32
  | .w64 => 64

/-- The order in which an object's bytes represent an integer. -/
inductive ByteOrder where
  | little | big
  deriving DecidableEq, Repr

/-- The implementation-defined properties of the target, widths in bits.
`long long` and `intmax_t` have 64 bits, the size the conversion buffer's lower
bound provides for. -/
structure Target where
  /-- `CHAR_BIT` -/
  charBits : ℕ
  shortBits : ℕ
  intBits : ℕ
  longBits : ℕ
  /-- the width of `size_t` -/
  sizeBits : ℕ
  ptrdiffBits : ℕ
  /-- the width of `uintptr_t` -/
  ptrBits : ℕ
  /-- the width of `wint_t` as an argument -/
  wintBits : ℕ
  leastBits : Width → ℕ
  fastBits : Width → ℕ
  /-- whether plain `char` is signed -/
  charSigned : Bool
  byteOrder : ByteOrder
  /-- `LDBL_MANT_DIG == DBL_MANT_DIG` -/
  longDoubleIsDouble : Bool
  /-- `uint8_t` exists -/
  charBits_eq : charBits = 8
  char_le_short : charBits ≤ shortBits
  shortBits_ge : 16 ≤ shortBits
  short_le_int : shortBits ≤ intBits
  int_le_long : intBits ≤ longBits
  longBits_ge : 32 ≤ longBits
  longBits_le : longBits ≤ 64
  int_le_size : intBits ≤ sizeBits
  sizeBits_le : sizeBits ≤ 64
  ptrdiff_eq_size : ptrdiffBits = sizeBits
  ptrBits_le : ptrBits ≤ 64
  int_le_wint : intBits ≤ wintBits
  /-- every `int_leastN_t` and `int_fastN_t` is a typedef for a standard type -/
  least_standard : ∀ w, leastBits w ∈ [charBits, shortBits, intBits, longBits, 64]
  fast_standard : ∀ w, fastBits w ∈ [charBits, shortBits, intBits, longBits, 64]
  least_le_fast : ∀ w, w.bits ≤ leastBits w ∧ leastBits w ≤ fastBits w
  /-- `uint_fast64_t` has 64 bits -/
  fast64 : fastBits .w64 = 64

namespace Target

variable (t : Target)

theorem charBits_ge : 8 ≤ t.charBits := t.charBits_eq.ge

/-- `INT_MAX` -/
def intMax : ℤ := 2 ^ (t.intBits - 1) - 1

theorem intMax_ge : 32767 ≤ t.intMax := by
  have bits := t.shortBits_ge.trans t.short_le_int
  have power : (2 : ℤ) ^ 15 ≤ 2 ^ (t.intBits - 1) := pow_le_pow_right₀ (by norm_num) (by omega)
  rw [intMax]
  omega

/-- The value an `int` holds after arithmetic that leaves its range. Signed overflow
is undefined in C, and this is what two's complement hardware leaves. It is the
identity in the range; when a call leaves it is the subject of `Overflow`. -/
def wrapInt (n : ℤ) : ℤ := n.bmod (2 ^ t.intBits)

end Target

/-- A build: the target, the feature flags, `NPF_CBUF` and the width of
`NANOPRINTF_CONVERSION_FLOAT_TYPE`. -/
structure Config extends Target where
  fieldWidth : Bool
  precision : Bool
  altForm : Bool
  small : Bool
  large : Bool
  binary : Bool
  writeback : Bool
  fixedWidth : Bool
  float : Bool
  floatHex : Bool
  floatSci : Bool
  floatShortest : Bool
  singlePrecision : Bool
  divisionFree : Bool
  /-- `NANOPRINTF_SNPRINTF_SAFE_EMPTY_STRING_ON_OVERFLOW` -/
  safeEmptyString : Bool
  /-- `NPF_CBUF` -/
  cbuf : ℕ
  /-- `NPF_FTOA_MAN_BITS` -/
  manBits : ℕ
  cbuf_ge : 23 ≤ cbuf
  cbuf_le : (cbuf : ℤ) ≤ toTarget.intMax
  manBits_ge : 8 ≤ manBits
  manBits_le : manBits ≤ 64
  hex_float : floatHex = true → float = true
  sci_float : floatSci = true → float = true
  shortest_float : floatShortest = true → float = true
  single_float : singlePrecision = true → float = true
  fixed_small : fixedWidth = true → small = true

namespace Config

variable (cfg : Config)

/-- `NPF_USE_SCI` -/
def useSci : Bool := cfg.floatSci || cfg.floatShortest

/-- `NPF_FMT_NUM_MAX` -/
def fmtNumMax : ℤ :=
  if cfg.intMax < 65280 then 8192
  else if 65280 < cfg.cbuf then cfg.cbuf
  else 65280

/-- `NPF_FMT_NUM_BIG`, on the nonnegative accumulator of `npf_fmt_num`. -/
def fmtNumBig (n : ℕ) : Bool :=
  if cfg.intMax / 2 ^ 27 ≠ 0 then n / 2 ^ 27 ≠ 0 else 2 ^ 11 ≤ n

/-- The width of `npf_uint_t`. -/
def uintBits : ℕ :=
  if cfg.large then 64
  else if cfg.ptrBits < cfg.longBits then cfg.longBits
  else cfg.ptrBits

theorem uintBits_ge : 32 ≤ cfg.uintBits := by
  have long := cfg.longBits_ge
  unfold uintBits
  split_ifs <;> omega

/-- `NPF_UINT_IS_WIDE` -/
def uintIsWide : Bool := 32 < cfg.uintBits

/-- `NPF_W_BITS_MAX` -/
def wBitsMax : ℕ :=
  if cfg.large then 64
  else if cfg.leastBits .w64 ≤ cfg.longBits ∧ cfg.fastBits .w64 ≤ cfg.longBits then 64
  else 32

/-! ## The real type -/

/-- `NPF_REAL_MANT_DIG` -/
def realMantDig : ℕ := if cfg.singlePrecision then 24 else 53

/-- `NPF_REAL_MAX_EXP` -/
def realMaxExp : ℕ := if cfg.singlePrecision then 128 else 1024

/-- The width of `npf_real_t`. -/
def realBits : ℕ := if cfg.singlePrecision then 32 else 64

/-- `NPF_REAL_BIN_BITS`, the width of `npf_real_bin_t`. -/
def binBits : ℕ := if cfg.singlePrecision then cfg.fastBits .w32 else 64

/-- `NPF_REAL_EXP_MASK` -/
def realExpMask : ℕ := cfg.realMaxExp * 2 - 1

/-- `NPF_REAL_EXP_BIAS` -/
def realExpBias : ℤ := (cfg.realMaxExp : ℤ) - 1

/-- `NPF_REAL_MAN_BITS` -/
def realManBits : ℕ := cfg.realMantDig - 1

/-- `NPF_FTOA_SHIFT_BITS` -/
def shiftBits : ℕ := (if cfg.manBits < cfg.realMantDig then cfg.manBits else cfg.realMantDig) - 1

/-- `(npf_ftoa_man_t)-4 / 5`, the largest mantissa that a multiplication by five
and the carry of three keep inside the type. -/
def fiveLimit : ℕ := (2 ^ cfg.manBits - 4) / 5

/-! ## What the source relies on without asking for it -/

/-- The bytes of a real are the low-order bytes of an `npf_real_bin_t`, or all of them. Only in
single precision is there another case, which `npf_real_to_int_rep` misreads: the integer is wider
and has its high-order bytes first. -/
class RepExact : Prop where
  exact : cfg.byteOrder = .little ∨ cfg.realBits = cfg.binBits

theorem binBits_of_double (double : cfg.singlePrecision = false) : cfg.realBits = cfg.binBits := by
  rw [realBits, binBits, double]
  rfl

theorem RepExact.of_double (double : cfg.singlePrecision = false) : cfg.RepExact :=
  ⟨.inr (cfg.binBits_of_double double)⟩

/-- A `wN` type that is wider than `long` has the `ll` modifier to carry it. `NPF_W_BITS_MAX` sees
to it where `N` is 64. -/
class FixedCarried : Prop where
  carried : cfg.fixedWidth = true → cfg.large = false →
    ∀ w, w ≠ .w64 → cfg.fastBits w ≤ cfg.longBits

theorem FixedCarried.of_large (large : cfg.large = true) : cfg.FixedCarried :=
  ⟨fun _ off => absurd (large.symm.trans off) (by decide)⟩

end Config

/-! ## Two targets -/

/-- A 64-bit target with the widths of x86-64 Linux. -/
def Target.lp64 : Target where
  charBits := 8
  shortBits := 16
  intBits := 32
  longBits := 64
  sizeBits := 64
  ptrdiffBits := 64
  ptrBits := 64
  wintBits := 32
  leastBits := Width.bits
  fastBits w := match w with | .w8 => 8 | .w16 | .w32 | .w64 => 64
  charSigned := true
  byteOrder := .little
  longDoubleIsDouble := false
  charBits_eq := rfl
  char_le_short := by decide
  shortBits_ge := by decide
  short_le_int := by decide
  int_le_long := by decide
  longBits_ge := by decide
  longBits_le := by decide
  int_le_size := by decide
  sizeBits_le := by decide
  ptrdiff_eq_size := rfl
  ptrBits_le := by decide
  int_le_wint := by decide
  least_standard w := by cases w <;> decide
  fast_standard w := by cases w <;> decide
  least_le_fast w := by cases w <;> decide
  fast64 := rfl

/-- A microcontroller with a 16-bit `int`. -/
def Target.avr : Target where
  charBits := 8
  shortBits := 16
  intBits := 16
  longBits := 32
  sizeBits := 16
  ptrdiffBits := 16
  ptrBits := 16
  wintBits := 16
  leastBits := Width.bits
  fastBits := Width.bits
  charSigned := true
  byteOrder := .little
  longDoubleIsDouble := true
  charBits_eq := rfl
  char_le_short := by decide
  shortBits_ge := by decide
  short_le_int := by decide
  int_le_long := by decide
  longBits_ge := by decide
  longBits_le := by decide
  int_le_size := by decide
  sizeBits_le := by decide
  ptrdiff_eq_size := rfl
  ptrBits_le := by decide
  int_le_wint := by decide
  least_standard w := by cases w <;> decide
  fast_standard w := by cases w <;> decide
  least_le_fast w := by cases w <;> decide
  fast64 := rfl

/-- Every feature on a target, the float conversions on demand and computing in
an integer of `manBits` bits. -/
def Config.full (t : Target) (floats : Bool) (manBits : ℕ) (large : 64 ≤ t.intMax)
    (lower : 8 ≤ manBits) (upper : manBits ≤ 64) : Config where
  toTarget := t
  fieldWidth := true
  precision := true
  altForm := true
  small := true
  large := true
  binary := true
  writeback := true
  fixedWidth := true
  float := floats
  floatHex := floats
  floatSci := floats
  floatShortest := floats
  singlePrecision := false
  divisionFree := false
  safeEmptyString := false
  cbuf := 64
  manBits := manBits
  cbuf_ge := by decide
  cbuf_le := large
  manBits_ge := lower
  manBits_le := upper
  hex_float := id
  sci_float := id
  shortest_float := id
  single_float := nofun
  fixed_small _ := rfl

section

variable (t : Target) (floats : Bool) (manBits : ℕ) (large : 64 ≤ t.intMax) (lower : 8 ≤ manBits)
  (upper : manBits ≤ 64)

instance : (Config.full t floats manBits large lower upper).RepExact :=
  .of_double _ rfl

instance : (Config.full t floats manBits large lower upper).FixedCarried := .of_large _ rfl

end

/-- The full build on the 64-bit target with the default intermediate. -/
def Config.standard : Config := .full .lp64 true 32 (by decide) (by decide) (by decide)

/-- The same build without the conversions by digits and exponent. -/
def Config.standardFixed : Config :=
  { Config.standard with
    floatSci := false
    floatShortest := false
    sci_float := nofun
    shortest_float := nofun }

instance : Config.standard.RepExact := inferInstanceAs (Config.full ..).RepExact

instance : Config.standard.FixedCarried := inferInstanceAs (Config.full ..).FixedCarried

instance : Config.standardFixed.RepExact := .of_double _ rfl

instance : Config.standardFixed.FixedCarried := .of_large _ rfl

/-- The same build computing in 64 bits. -/
def Config.standard64 : Config := .full .lp64 true 64 (by decide) (by decide) (by decide)

instance : Config.standard64.RepExact := inferInstanceAs (Config.full ..).RepExact

instance : Config.standard64.FixedCarried := inferInstanceAs (Config.full ..).FixedCarried

/-- The microcontroller with every feature but the float conversions. -/
def Config.avr : Config :=
  { Config.full .avr false 32 (by decide) (by decide) (by decide) with
    cbuf := 23
    cbuf_ge := by decide
    cbuf_le := by decide }

instance : Config.avr.RepExact := .of_double _ rfl

instance : Config.avr.FixedCarried := .of_large _ rfl

end Nanoprintf
