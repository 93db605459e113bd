import Nanoprintf.FormatSpec
import Nanoprintf.Foundations.Digits

/-!
# The integer emitter

`npf_utoa_rev_end` writes the digits of an unsigned value, units first. It has
three ways of dividing: by shift and subtract while the value is wider than 32
bits, by a shift-and-mask approximation of a tenth in the division-free build,
and by the machine's division. `npfUtoaRevEnd_eq` shows that all of them write
the numeral, for each base the conversions use.
-/

set_option autoImplicit false

namespace Nanoprintf

open Foundations

/-- The conversion buffer. -/
abbrev ConvBuffer (cfg : Config) := Buffer Char cfg.cbuf

/-- `npf_div10`, on 32-bit words. -/
def npfDiv10 (n : ℕ) : ℕ :=
  let q := n >>> 1 + n >>> 2
  let q := q + q >>> 4
  let q := q + q >>> 8
  let q := q + q >>> 16
  let q := q >>> 3
  q + ((n + 2 ^ 32 - q * 10 + 6) % 2 ^ 32) >>> 4

/-- The character of a digit: `((d < 10) ? '0' : ('A' - 10 + case_adj)) + d`. -/
def digitChar (caseAdj d : ℕ) : Char :=
  Char.ofNat ((if d < 10 then '0'.toNat else 'A'.toNat - 10 + caseAdj) + d)

/-- Division by shift and subtract: the quotient and remainder after the bits of
`val` from the top down to bit `i`. -/
def shiftSubtract (base val : ℕ) : ℕ → ℕ × ℕ → ℕ × ℕ
  | 0, qr => qr
  | i + 1, (q, r) =>
    let r := r <<< 1 ||| (val >>> i &&& 1)
    shiftSubtract base val i (if base ≤ r then (q ||| 1 <<< i, r - base) else (q, r))

/-- The digits above the low 32 bits of the value; `room` is what is left of the
buffer above `i`, so that a store is possible as long as it is positive. -/
def utoaWide (cfg : Config) (base caseAdj : ℕ) :
    (room i val : ℕ) → ConvBuffer cfg → Run (ℕ × ℕ × ConvBuffer cfg)
  | 0, i, val, buf => if 0xFFFFFFFF < val then .error .bounds else .ok (i, val, buf)
  | room + 1, i, val, buf =>
    if 0xFFFFFFFF < val then do
      let (q, r) := shiftSubtract base val cfg.uintBits (0, 0)
      let buf ← buf.write i (digitChar caseAdj r)
      utoaWide cfg base caseAdj room (i + 1) q buf
    else .ok (i, val, buf)

/-- One division of the narrow loop: the digit and what remains. -/
def utoaDigit (cfg : Config) (base v32 : ℕ) : ℕ × ℕ :=
  if cfg.divisionFree then
    if base = 10 then
      let q := npfDiv10 (v32 % 2 ^ 32)
      (v32 % 2 ^ 32 - q * 10, q)
    else (v32 &&& (base - 1), v32 >>> ((base + 16) >>> 3))
  else (v32 % base, v32 / base)

/-- The digits of the value below. -/
def utoaNarrow (cfg : Config) (base caseAdj : ℕ) :
    (room i v32 : ℕ) → ConvBuffer cfg → Run (ℕ × ConvBuffer cfg)
  | 0, _, _, _ => .error .bounds
  | room + 1, i, v32, buf => do
    let (d, v32) := utoaDigit cfg base v32
    let buf ← buf.write i (digitChar caseAdj d)
    if v32 ≠ 0 then utoaNarrow cfg base caseAdj room (i + 1) v32 buf else pure (i + 1, buf)

/-- `npf_utoa_rev_end`: the digits of `val` from index `i` on, and the index one
past the last. -/
def npfUtoaRevEnd (cfg : Config) (val : ℕ) (buf : ConvBuffer cfg) (i base caseAdj : ℕ) :
    Run (ℕ × ConvBuffer cfg) := do
  let (i, v32, buf) ←
    if cfg.large || (cfg.divisionFree && cfg.uintIsWide) then
      utoaWide cfg base caseAdj (cfg.cbuf - i) i val buf
    else pure (i, val, buf)
  utoaNarrow cfg base caseAdj (cfg.cbuf - i) i v32 buf

/-- `npf_utoa_rev` -/
def npfUtoaRev (cfg : Config) (val : ℕ) (buf : ConvBuffer cfg) (base caseAdj : ℕ) :
    Run (ℕ × ConvBuffer cfg) :=
  npfUtoaRevEnd cfg val buf 0 base caseAdj

/-! ## The divisions -/

/-- The approximation of a tenth is below it, and by less than two. -/
theorem tenth_bounds {n a b c d q : ℕ} (word : n < 2 ^ 32)
    (quarters : 4 * a ≤ 3 * n ∧ 3 * n ≤ 4 * a + 5)
    (sixteenth : 16 * b ≤ 17 * a ∧ 17 * a ≤ 16 * b + 15)
    (byte : 256 * c ≤ 257 * b ∧ 257 * b ≤ 256 * c + 255)
    (half : 65536 * d ≤ 65537 * c ∧ 65537 * c ≤ 65536 * d + 65535)
    (eighth : 8 * q ≤ d ∧ d ≤ 8 * q + 7) : q * 10 ≤ n ∧ n ≤ q * 10 + 19 := by
  norm_num at word
  constructor <;> linarith

theorem npfDiv10_eq {n : ℕ} (word : n < 2 ^ 32) : npfDiv10 n = n / 10 := by
  unfold npfDiv10
  simp only [Nat.shiftRight_eq_div_pow]
  generalize ha : n / 2 ^ 1 + n / 2 ^ 2 = a
  generalize hb : a + a / 2 ^ 4 = b
  generalize hc : b + b / 2 ^ 8 = c
  generalize hd : c + c / 2 ^ 16 = d
  generalize hq : d / 2 ^ 3 = q
  obtain ⟨below, above⟩ := tenth_bounds (n := n) (a := a) (b := b) (c := c) (d := d) (q := q) word
    (by constructor <;> omega) (by constructor <;> omega) (by constructor <;> omega)
    (by constructor <;> omega) (by constructor <;> omega)
  clear ha hb hc hd hq
  have rest : (n + 2 ^ 32 - q * 10 + 6) % 2 ^ 32 = (n - q * 10 + 6) % 2 ^ 32 := by
    rw [show n + 2 ^ 32 - q * 10 + 6 = n - q * 10 + 6 + 2 ^ 32 by omega, Nat.add_mod_right]
  rw [rest, Nat.mod_eq_of_lt (by omega)]
  omega

/-- The loop invariant: the bits scanned so far have the quotient above the
scanned position and the remainder in hand. -/
theorem shiftSubtract_eq {base val q r : ℕ} (i : ℕ) (below : r < base)
    (scanned : val / 2 ^ i = base * q + r) :
    shiftSubtract base val i (q * 2 ^ i, r) = (val / base, val % base) := by
  induction i generalizing q r with
  | zero =>
      rw [pow_zero, Nat.div_one] at scanned
      rw [shiftSubtract, pow_zero, Nat.mul_one, scanned, Nat.mul_add_div (by omega),
        Nat.div_eq_of_lt below, Nat.mul_add_mod, Nat.mod_eq_of_lt below, Nat.add_zero]
  | succ i ih =>
      obtain ⟨bit, bit_eq, small⟩ : ∃ bit, val / 2 ^ i % 2 = bit ∧ bit < 2 :=
        ⟨_, rfl, Nat.mod_lt _ two_pos⟩
      have next : val / 2 ^ i = 2 * (base * q + r) + bit := by
        rw [pow_succ, ← Nat.div_div_eq_div_mul] at scanned
        omega
      have appended : r <<< 1 ||| (val >>> i &&& 1) = 2 * r + bit := by
        rw [Nat.shiftRight_eq_div_pow, Nat.and_one_is_mod, bit_eq,
          ← Nat.shiftLeft_add_eq_or_of_lt small, Nat.shiftLeft_eq]
        omega
      have stored : q * 2 ^ (i + 1) ||| 1 <<< i = (2 * q + 1) * 2 ^ i := by
        rw [← Nat.shiftLeft_eq, Nat.one_shiftLeft,
          ← Nat.shiftLeft_add_eq_or_of_lt (Nat.pow_lt_pow_right one_lt_two (Nat.lt_succ_self i)),
          Nat.shiftLeft_eq, pow_succ]
        ring
      rw [shiftSubtract, appended]
      by_cases subtracts : base ≤ 2 * r + bit
      · rw [if_pos subtracts, stored]
        refine ih (by omega) ?_
        have split : base * (2 * q + 1) = 2 * (base * q) + base := by ring
        omega
      · rw [if_neg subtracts, pow_succ', ← mul_assoc, mul_comm q 2]
        refine ih (by omega) ?_
        have split : base * (2 * q) = 2 * (base * q) := by ring
        omega

theorem utoaDigit_eq {cfg : Config} {base v : ℕ} (radix : base = 8 ∨ base = 10 ∨ base = 16)
    (word : cfg.divisionFree = true → v < 2 ^ 32) :
    utoaDigit cfg base v = (v % base, v / base) := by
  unfold utoaDigit
  by_cases free : cfg.divisionFree = true
  · have small := word free
    rw [if_pos free]
    rcases radix with rfl | rfl | rfl
    · rw [if_neg (by decide), show 8 - 1 = 2 ^ 3 - 1 from rfl, Nat.and_two_pow_sub_one_eq_mod,
        show (8 + 16) >>> 3 = 3 from rfl, Nat.shiftRight_eq_div_pow]
    · rw [if_pos rfl, Nat.mod_eq_of_lt small, npfDiv10_eq small]
      simp only
      rw [show v - v / 10 * 10 = v % 10 by omega]
    · rw [if_neg (by decide), show 16 - 1 = 2 ^ 4 - 1 from rfl, Nat.and_two_pow_sub_one_eq_mod,
        show (16 + 16) >>> 3 = 4 from rfl, Nat.shiftRight_eq_div_pow]
  · rw [if_neg free]

/-! ## The digits -/

/-- The characters of a numeral, units first. -/
def numeralText (base caseAdj V : ℕ) : List Char := (numeral base V).map (digitChar caseAdj)

@[simp] theorem length_numeralText (base caseAdj V : ℕ) :
    (numeralText base caseAdj V).length = numeralLength base V := List.length_map ..

theorem numeralText_of_lt {base caseAdj V : ℕ} (small : V < base) :
    numeralText base caseAdj V = [digitChar caseAdj V] := by
  rw [numeralText, numeral_of_lt small, List.map_singleton]

theorem numeralText_of_le {base caseAdj V : ℕ} (radix : 1 < base) (large : base ≤ V) :
    numeralText base caseAdj V =
      digitChar caseAdj (V % base) :: numeralText base caseAdj (V / base) := by
  rw [numeralText, numeral_of_le radix large, List.map_cons, numeralText]

theorem utoaNarrow_eq {cfg : Config} {base : ℕ} (caseAdj : ℕ)
    (radix : base = 8 ∨ base = 10 ∨ base = 16) (room : ℕ) {i v : ℕ}
    (word : cfg.divisionFree = true → v < 2 ^ 32) (inside : i + room = cfg.cbuf)
    (fits : numeralLength base v ≤ room) (buf : ConvBuffer cfg) :
    ∃ c, utoaNarrow cfg base caseAdj room i v buf = .ok (i + numeralLength base v, c) ∧
      c.Holds i (numeralText base caseAdj v) ∧
      ∀ j, j < i ∨ i + numeralLength base v ≤ j → c.cell j = buf.cell j := by
  have large : 1 < base := by omega
  induction room generalizing i v buf with
  | zero =>
      have := numeralLength_pos base v
      omega
  | succ room ih =>
      rw [utoaNarrow, utoaDigit_eq radix word]
      simp only [bind, Except.bind, buf.write_eq (digitChar caseAdj (v % base))
        (show i < cfg.cbuf by omega)]
      by_cases last : v / base = 0
      · have small : v < base := (Nat.div_eq_zero_iff_lt (by omega)).mp last
        rw [if_neg (not_not.mpr last), numeralText_of_lt small, numeralLength,
          numeral_of_lt small, Nat.mod_eq_of_lt small]
        refine ⟨_, rfl, ⟨Function.update_self .., trivial⟩, fun j outside => ?_⟩
        exact Function.update_of_ne (by simp only [List.length_singleton] at outside; omega) _ _
      · have more : base ≤ v := by
          by_contra less
          exact last (Nat.div_eq_of_lt (by omega))
        have length : numeralLength base v = numeralLength base (v / base) + 1 := by
          rw [numeralLength, numeral_of_le large more, List.length_cons, numeralLength]
        obtain ⟨c, run, holds, frame⟩ := ih (i := i + 1) (v := v / base)
          (fun free => (Nat.div_le_self v base).trans_lt (word free)) (by omega) (by omega)
          ⟨Function.update buf.cell i (some (digitChar caseAdj (v % base)))⟩
        refine ⟨c, ?_, ?_, fun j outside => ?_⟩
        · rw [if_pos last, run, length]
          congr 2
          omega
        · rw [numeralText_of_le large more]
          refine ⟨?_, holds⟩
          rw [frame i (.inl (by omega))]
          exact Function.update_self ..
        · rw [frame j (by omega)]
          exact Function.update_of_ne (by omega) _ _

/-- The wide loop takes digits off until 32 bits are left. -/
theorem utoaWide_eq {cfg : Config} {base : ℕ} (caseAdj : ℕ) (radix : 1 < base)
    (narrow : base ≤ 2 ^ 32) (room : ℕ) {i v : ℕ} (word : v < 2 ^ cfg.uintBits)
    (inside : i + room = cfg.cbuf)
    (fits : numeralLength base v ≤ room) (buf : ConvBuffer cfg) :
    ∃ (ds : List ℕ) (low : ℕ) (c : ConvBuffer cfg),
      utoaWide cfg base caseAdj room i v buf = .ok (i + ds.length, low, c) ∧ low < 2 ^ 32 ∧
        numeral base v = ds ++ numeral base low ∧ c.Holds i (ds.map (digitChar caseAdj)) ∧
        ∀ j, j < i ∨ i + ds.length ≤ j → c.cell j = buf.cell j := by
  induction room generalizing i v buf with
  | zero =>
      have := numeralLength_pos base v
      omega
  | succ room ih =>
      by_cases wide : 0xFFFFFFFF < v
      swap
      · refine ⟨[], v, buf, ?_, by omega, rfl, trivial, fun _ _ => rfl⟩
        rw [utoaWide, if_neg wide, List.length_nil, Nat.add_zero]
      have divided := shiftSubtract_eq (q := 0) (r := 0) cfg.uintBits (show 0 < base by omega)
        (Nat.div_eq_of_lt word)
      rw [Nat.zero_mul] at divided
      have more : base ≤ v := by omega
      have length : numeralLength base v = numeralLength base (v / base) + 1 := by
        rw [numeralLength, numeral_of_le radix more, List.length_cons, numeralLength]
      obtain ⟨ds, low, c, run, small, digits, holds, frame⟩ := ih (i := i + 1) (v := v / base)
        ((Nat.div_le_self v base).trans_lt word) (by omega) (by omega)
        ⟨Function.update buf.cell i (some (digitChar caseAdj (v % base)))⟩
      refine ⟨v % base :: ds, low, c, ?_, small, ?_, ?_, fun j outside => ?_⟩
      · rw [utoaWide, if_pos wide, divided]
        simp only [bind, Except.bind, buf.write_eq (digitChar caseAdj (v % base))
          (show i < cfg.cbuf by omega)]
        rw [run, List.length_cons]
        congr 2
        omega
      · rw [numeral_of_le radix more, digits, List.cons_append]
      · refine ⟨?_, holds⟩
        rw [frame i (.inl (by omega))]
        exact Function.update_self ..
      · rw [List.length_cons] at outside
        rw [frame j (by omega)]
        exact Function.update_of_ne (by omega) _ _

/-- **The integer emitter writes the numeral**, units first, and nothing else. -/
theorem npfUtoaRevEnd_eq {cfg : Config} {base : ℕ} (caseAdj : ℕ)
    (radix : base = 8 ∨ base = 10 ∨ base = 16) {i v : ℕ} (word : v < 2 ^ cfg.uintBits)
    (fits : i + numeralLength base v ≤ cfg.cbuf) (buf : ConvBuffer cfg) :
    ∃ c, npfUtoaRevEnd cfg v buf i base caseAdj = .ok (i + numeralLength base v, c) ∧
      c.Holds i (numeralText base caseAdj v) ∧
      ∀ j, j < i ∨ i + numeralLength base v ≤ j → c.cell j = buf.cell j := by
  unfold npfUtoaRevEnd
  by_cases wide : (cfg.large || (cfg.divisionFree && cfg.uintIsWide)) = true
  · rw [if_pos wide]
    obtain ⟨ds, low, b, run, small, digits, upper, frame⟩ := utoaWide_eq caseAdj
      (show 1 < base by omega) (show base ≤ 2 ^ 32 by omega) (cfg.cbuf - i) (i := i) word
      (by omega) (by omega) buf
    have length : numeralLength base v = ds.length + numeralLength base low := by
      rw [numeralLength, digits, List.length_append, numeralLength]
    obtain ⟨c, rest, lower, frame'⟩ := utoaNarrow_eq caseAdj radix (cfg.cbuf - (i + ds.length))
      (i := i + ds.length) (fun _ => small) (by omega) (by omega) b
    refine ⟨c, ?_, ?_, fun j outside => ?_⟩
    · simp only [run, bind, Except.bind]
      rw [rest, length, Nat.add_assoc]
    · rw [numeralText, digits, List.map_append, Buffer.holds_append, List.length_map]
      refine ⟨upper.congr fun j _ below => ?_, lower⟩
      rw [List.length_map] at below
      exact frame' j (.inl below)
    · rw [frame' j (by omega), frame j (by omega)]
  · rw [if_neg wide]
    refine utoaNarrow_eq caseAdj radix (cfg.cbuf - i) (fun free => ?_) (by omega) (by omega) buf
    simp only [Config.uintIsWide, Bool.or_eq_true, Bool.and_eq_true, decide_eq_true_eq, not_or,
      not_and] at wide
    have narrow := wide.2 free
    exact word.trans_le (Nat.pow_le_pow_right two_pos (by omega))

end Nanoprintf
