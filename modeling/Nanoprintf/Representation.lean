import Nanoprintf.RealValue

/-!
# Extracting the bit pattern on every platform

`npf_real_to_int_rep` copies the bytes of a real over the first bytes of an integer
that may be wider: a `float` goes into a `uint_fast32_t`, which has 64 bits on some
platforms. The callers take the fields from the low-order bits. A `RealPlatform` is
what the copy depends on, with no assumption on how byte order and width go
together; the builds of `Config.RepExact` are those on which the copy is right.
-/

set_option autoImplicit false

namespace Nanoprintf

open Foundations

/-! ## The copy -/

theorem objectBytes_zero (order : ByteOrder) (radix n : ℕ) :
    objectBytes order radix n 0 = List.replicate n 0 := by
  cases order with
  | little => exact lowDigits_of_zero radix n
  | big => rw [objectBytes, lowDigits_of_zero, List.reverse_replicate]

theorem length_objectBytes (order : ByteOrder) (radix n v : ℕ) :
    (objectBytes order radix n v).length = n := by
  cases order with
  | little => exact length_lowDigits radix n v
  | big => rw [objectBytes, List.length_reverse, length_lowDigits]

/-- With the high-order bytes first, the copy fills the integer from the top. -/
theorem copyRep_big {radix n m rep : ℕ} (small : rep < radix ^ n) :
    copyRep .big radix n m rep = rep * radix ^ (m - n) := by
  rw [copyRep, objectBytes_zero, length_objectBytes, List.drop_replicate]
  simp only [objectBytes, objectValue]
  rw [List.reverse_append, List.reverse_reverse, List.reverse_replicate, Nat.ofDigits_append,
    Nat.ofDigits_replicate_zero, List.length_replicate, ofDigits_lowDigits,
    Nat.mod_eq_of_lt small, Nat.zero_add, Nat.mul_comm]

/-- A pattern without a bit set is copied as such. -/
theorem copyRep_zero (order : ByteOrder) (radix n m : ℕ) : copyRep order radix n m 0 = 0 := by
  rw [copyRep, objectBytes_zero, objectBytes_zero, List.length_replicate, List.drop_replicate]
  cases order with
  | little => simp [objectValue]
  | big => simp [objectValue]

/-! ## Platforms -/

/-- What the extraction of a bit pattern depends on: IEEE reals and bytes of eight
bits. -/
structure RealPlatform where
  byteOrder : ByteOrder
  singlePrecision : Bool
  /-- the width of `uint_fast32_t` -/
  fast32Bits : ℕ
  fast32_allowed : fast32Bits = 32 ∨ fast32Bits = 64

namespace RealPlatform

variable (p : RealPlatform)

/-- The width of `npf_real_t`. -/
def realBits : ℕ := if p.singlePrecision then 32 else 64

/-- The width of `npf_real_bin_t`. -/
def binBits : ℕ := if p.singlePrecision then p.fast32Bits else 64

/-- `NPF_REAL_MAN_BITS` -/
def realManBits : ℕ := if p.singlePrecision then 23 else 52

/-- `NPF_REAL_EXP_MASK` -/
def realExpMask : ℕ := (if p.singlePrecision then 128 else 1024) * 2 - 1

/-- `NPF_REAL_SIGN_POS` -/
def realSignPos : ℕ := p.realBits - 1

/-- `npf_real_to_int_rep` -/
def realToIntRep (f : BitVec p.realBits) : ℕ :=
  copyRep p.byteOrder (2 ^ 8) (p.realBits / 8) (p.binBits / 8) f.toNat

/-- `bin >> NPF_REAL_SIGN_POS`, the sign test. -/
def signField (bin : ℕ) : ℕ := bin >>> p.realSignPos

/-- `(bin >> NPF_REAL_MAN_BITS) & NPF_REAL_EXP_MASK` -/
def expField (bin : ℕ) : ℕ := bin >>> p.realManBits &&& p.realExpMask

/-- `bin & ((1 << NPF_REAL_MAN_BITS) - 1)` -/
def manField (bin : ℕ) : ℕ := bin &&& (1 <<< p.realManBits - 1)

/-- The width of the exponent of the real. -/
def realExpBits : ℕ := if p.singlePrecision then 8 else 11

/-- The integer is the pattern, and the fields taken from it are those of the real:
the top bit, the exponent below it and the fraction. -/
structure Extracts (f : BitVec p.realBits) : Prop where
  value : p.realToIntRep f = f.toNat
  sign : p.signField (p.realToIntRep f) ≠ 0 ↔ f.msb = true
  exponent : p.expField (p.realToIntRep f) =
    (f.extractLsb' p.realManBits p.realExpBits).toNat
  mantissa : p.manField (p.realToIntRep f) = (f.extractLsb' 0 p.realManBits).toNat

end RealPlatform

/-- A build extracts the pattern as its platform does. -/
theorem npfRealToIntRep_platform (cfg : Config) (p : RealPlatform)
    (order : p.byteOrder = cfg.byteOrder) (real : p.realBits = cfg.realBits)
    (bin : p.binBits = cfg.binBits) (f : RealBits cfg) :
    npfRealToIntRep cfg f = p.realToIntRep (f.cast real.symm) := by
  have bytes : p.realBits / 8 = cfg.realBits / 8 := congrArg (· / 8) real
  rw [npfRealToIntRep, RealPlatform.realToIntRep, cfg.charBits_eq, order, bytes, bin,
    BitVec.toNat_cast]

namespace RealPlatform

variable (p : RealPlatform)

theorem realExpMask_eq : p.realExpMask = 2 ^ p.realExpBits - 1 := by
  unfold realExpMask realExpBits
  cases p.singlePrecision with
  | false => rfl
  | true => rfl

theorem realBits_pos : 0 < p.realBits := by
  unfold realBits
  split <;> decide

theorem toNat_lt (f : BitVec p.realBits) : f.toNat < (2 ^ 8) ^ (p.realBits / 8) := by
  have bytes : 8 * (p.realBits / 8) = p.realBits := by
    unfold realBits
    split <;> rfl
  rw [← pow_mul, bytes]
  exact f.isLt

/-- The callers take the fields of an integer that is the pattern. -/
theorem extracts_of_value {f : BitVec p.realBits} (value : p.realToIntRep f = f.toNat) :
    p.Extracts f where
  value := value
  sign := by
    have size : 2 ^ p.realBits = 2 * 2 ^ (p.realBits - 1) := by
      rw [← pow_succ', Nat.sub_add_cancel p.realBits_pos]
    rw [value, signField, realSignPos, Nat.shiftRight_eq_div_pow, BitVec.msb_eq_decide,
      decide_eq_true_iff, Nat.div_ne_zero_iff]
    exact ⟨fun top => top.2, fun top => ⟨by positivity, top⟩⟩
  exponent := by
    rw [value, expField, realExpMask_eq, Nat.and_two_pow_sub_one_eq_mod,
      BitVec.extractLsb'_toNat]
  mantissa := by
    rw [value, manField, Nat.one_shiftLeft, Nat.and_two_pow_sub_one_eq_mod,
      BitVec.extractLsb'_toNat, Nat.shiftRight_zero]

/-- The integer is wider than the real only where `uint_fast32_t` has 64 bits. -/
theorem widths (wide : p.binBits ≠ p.realBits) :
    p.singlePrecision = true ∧ p.realBits = 32 ∧ p.binBits = 64 := by
  have allowed := p.fast32_allowed
  unfold binBits realBits at wide ⊢
  cases single : p.singlePrecision with
  | false => simp [single] at wide
  | true =>
      rw [single, if_pos rfl, if_pos rfl] at wide
      exact ⟨rfl, if_pos rfl, (if_pos rfl).trans (allowed.resolve_left wide)⟩

/-- A wide integer whose high-order bytes come first gets the pattern in its upper half. -/
theorem realToIntRep_wide (order : p.byteOrder = .big) (wide : p.binBits ≠ p.realBits)
    (f : BitVec p.realBits) : p.realToIntRep f = f.toNat * 2 ^ 32 := by
  obtain ⟨-, real, bin⟩ := p.widths wide
  have behind : p.binBits / 8 - p.realBits / 8 = 4 := by
    rw [bin, real]
  rw [realToIntRep, order, copyRep_big (p.toNat_lt f), behind, ← pow_mul]

/-- The fields taken from the lower half of such an integer are those of a negative zero,
whatever the real, unless no bit is set. -/
theorem fields_wide (order : p.byteOrder = .big) (wide : p.binBits ≠ p.realBits)
    {f : BitVec p.realBits} (nonzero : f.toNat ≠ 0) :
    p.signField (p.realToIntRep f) ≠ 0 ∧ p.expField (p.realToIntRep f) = 0 ∧
      p.manField (p.realToIntRep f) = 0 := by
  obtain ⟨single, real, -⟩ := p.widths wide
  rw [p.realToIntRep_wide order wide]
  refine ⟨?_, ?_, ?_⟩
  · have sign : p.realSignPos = 31 := by
      rw [realSignPos, real]
    rw [signField, sign, Nat.shiftRight_eq_div_pow]
    omega
  · rw [expField, realManBits, realExpMask, if_pos single, if_pos single,
      Nat.and_two_pow_sub_one_eq_mod _ 8, Nat.shiftRight_eq_div_pow]
    omega
  · rw [manField, realManBits, if_pos single, Nat.one_shiftLeft, Nat.and_two_pow_sub_one_eq_mod]
    omega

/-- **The extraction is right exactly where the first bytes of the integer are its
low-order bytes, or there are no others.** The pattern zero is right everywhere. -/
theorem extracts_iff (f : BitVec p.realBits) :
    p.Extracts f ↔ p.byteOrder = .little ∨ p.binBits = p.realBits ∨ f = 0 := by
  constructor
  · intro extracts
    by_contra wrong
    obtain ⟨notLittle, wide, nonzero⟩ := by simpa only [not_or] using wrong
    have order : p.byteOrder = .big := by
      cases order : p.byteOrder with
      | little => exact absurd order notLittle
      | big => rfl
    have moved := p.realToIntRep_wide order wide f
    have positive : f.toNat ≠ 0 := fun zero => nonzero (BitVec.eq_of_toNat_eq zero)
    rw [extracts.value] at moved
    omega
  · intro right
    apply p.extracts_of_value
    rcases right with little | same | zero
    · exact copyRep_eq (.inl little) (p.toNat_lt f)
    · exact copyRep_eq (.inr (congrArg (· / 8) same.symm)) (p.toNat_lt f)
    · rw [realToIntRep, zero]
      exact copyRep_zero _ _ _ _

/-- A big-endian platform with a `uint_fast32_t` of 64 bits, computing with `float`. -/
def bigEndian64 : RealPlatform where
  byteOrder := .big
  singlePrecision := true
  fast32Bits := 64
  fast32_allowed := .inr rfl

/-- The representation of `1.0f` there. -/
theorem extracts_one_big :
    bigEndian64.realToIntRep 0x3f800000#32 = 0x3f80000000000000 ∧
      ¬ bigEndian64.Extracts 0x3f800000#32 := by
  have moved : bigEndian64.realToIntRep 0x3f800000#32 = 0x3f80000000000000 := by decide
  refine ⟨moved, fun extracts => ?_⟩
  have value := extracts.value
  rw [moved] at value
  exact absurd value (by decide)

end RealPlatform

end Nanoprintf
