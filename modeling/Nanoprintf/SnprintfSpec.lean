import Nanoprintf.Pieces
import Nanoprintf.Snprintf

/-!
# The buffer contract

The callback of `npf_vsnprintf` is the engine's trace cut to the capacity: the
cursor and the remaining capacity move together, and no write is behind the
capacity that was given. The terminator then goes where the count says.
-/

set_option autoImplicit false

namespace Nanoprintf

open Foundations

variable {cfg : Config}

/-! ## The cursor -/

/-- The memory with characters stored from an offset on. -/
def Memory.put (memory : Memory) (i : ℕ) (s : List Char) : Memory := fun j =>
  if i ≤ j then s[j - i]?.getD (memory j) else memory j

theorem Memory.put_nil (memory : Memory) (i : ℕ) : memory.put i [] = memory := by
  funext j
  simp [Memory.put]

/-- A character and then the others. -/
theorem Memory.put_cons (memory : Memory) (i : ℕ) (c : Char) (s : List Char) :
    Memory.put (Function.update memory i c) (i + 1) s = memory.put i (c :: s) := by
  funext j
  simp only [Memory.put]
  rcases lt_trichotomy j i with below | rfl | above
  · rw [if_neg (by omega), if_neg (by omega), Function.update_of_ne (by omega)]
  · rw [if_neg (by omega), if_pos le_rfl, Function.update_self, Nat.sub_self]
    rfl
  · rw [if_pos (by omega), if_pos (by omega), Function.update_of_ne (by omega),
      show j - i = j - (i + 1) + 1 by omega, List.getElem?_cons_succ]

theorem foldl_npfBufputc_null (s : List Char) (memory : Memory) (len : ℕ) :
    s.foldl npfBufputc ⟨memory, none, len⟩ = ⟨memory, none, len⟩ := by
  induction s with
  | nil => rfl
  | cons c s ih => exact ih

/-- What is sent through the cursor is stored as far as the capacity goes. -/
theorem foldl_npfBufputc (s : List Char) (memory : Memory) (dst len : ℕ) :
    s.foldl npfBufputc ⟨memory, some dst, len⟩ =
      ⟨memory.put dst (s.take len), some (dst + min len s.length), len - s.length⟩ := by
  induction s generalizing memory dst len with
  | nil => simp [Memory.put_nil]
  | cons c s ih =>
      rw [List.foldl_cons]
      cases len with
      | zero =>
          have idle : npfBufputc ⟨memory, some dst, 0⟩ c = ⟨memory, some dst, 0⟩ := rfl
          rw [idle, ih]
          simp [Memory.put_nil]
      | succ len =>
          have stored : npfBufputc ⟨memory, some dst, len + 1⟩ c =
              ⟨Function.update memory dst c, some (dst + 1), len⟩ := rfl
          rw [stored, ih, Memory.put_cons, List.take_succ_cons, List.length_cons,
            Nat.add_sub_add_right, Nat.add_min_add_right, Nat.add_assoc, Nat.add_comm 1]

/-! ## The contract -/

theorem Memory.put_zero_of_le (memory : Memory) {s : List Char} {j : ℕ} (behind : s.length ≤ j) :
    memory.put 0 s j = memory j := by
  rw [Memory.put, if_pos (Nat.zero_le j), Nat.sub_zero, List.getElem?_eq_none behind]
  rfl

theorem Memory.put_zero_of_lt (memory : Memory) {s : List Char} {j : ℕ} (inside : j < s.length) :
    s[j]? = some (memory.put 0 s j) := by
  rw [Memory.put, if_pos (Nat.zero_le j), Nat.sub_zero, List.getElem?_eq_getElem inside]
  rfl

/-- The place of the terminator. -/
def terminatorOf (cfg : Config) (n bufsz : ℕ) : ℕ :=
  if cfg.safeEmptyString then (if bufsz ≤ n then 0 else n) else min n (bufsz - 1)

/-- The memory that a trace leaves. -/
theorem npfVsnprintf_eq {format : Cursor} (terminated : NUL ∈ format) {args : List Arg}
    {fs : NpfFormatSpec} {n : ℤ} {S : List Char} {stores : List Store}
    (run : npfVpprintf cfg record [] format args fs = .ok (n, S, stores))
    (fits : (S.length : ℤ) ≤ cfg.intMax) (memory : Memory) (buffer : Bool) (bufsz : ℕ)
    (fs' : NpfFormatSpec) :
    npfVsnprintf cfg memory buffer bufsz format args fs' = .ok ((S.length : ℤ),
      if buffer = true ∧ bufsz ≠ 0 then
        Function.update (memory.put 0 (S.take bufsz)) (terminatorOf cfg S.length bufsz) NUL
      else memory, stores) := by
  obtain ⟨sent, count⟩ := npfVpprintf_trace terminated run npfBufputc
    ⟨memory, if buffer then some 0 else none, bufsz⟩ fs'
  rw [wrapInt_of_le fits] at count
  have small : (S.length : ℤ) < 2 ^ cfg.intBits := by
    have half : (2 : ℤ) ^ (cfg.intBits - 1) ≤ 2 ^ cfg.intBits :=
      pow_le_pow_right₀ one_le_two (Nat.sub_le _ 1)
    rw [Target.intMax] at fits
    omega
  have unsigned : ((S.length : ℤ) % 2 ^ cfg.intBits).toNat = S.length := by
    rw [Int.emod_eq_of_lt (by omega) small, Int.toNat_natCast]
  subst count
  simp only [npfVsnprintf, sent, bind, Except.bind, unsigned]
  rw [← terminatorOf]
  rcases buffer
  · simp only [Bool.false_eq_true, false_and, if_false, foldl_npfBufputc_null]
    rfl
  · simp only [if_true, foldl_npfBufputc, true_and]
    by_cases empty : bufsz = 0
    · rw [if_neg (not_not.mpr empty), if_neg (not_not.mpr empty), empty, List.take_zero,
        Memory.put_nil]
      rfl
    · rw [if_pos empty, if_pos empty]
      rfl

/-- **The buffer contract.** `S` is what the engine sends for the format. The
length of `S` is returned and the same numbers are stored whatever the buffer
is; without a buffer nothing is written; with one, nothing is written behind
byte `m`, and before it stand the first `m` characters of `S`, unless the build
is one that leaves an empty string when `S` does not fit. -/
theorem npfVsnprintf_contract (cfg : Config) {format : Cursor} (terminated : NUL ∈ format)
    {args : List Arg} {fs : NpfFormatSpec} {n : ℤ} {S : List Char} {stores : List Store}
    (run : npfVpprintf cfg record [] format args fs = .ok (n, S, stores))
    (fits : (S.length : ℤ) ≤ cfg.intMax) (memory : Memory) (buffer : Bool) (bufsz : ℕ)
    (fs' : NpfFormatSpec) :
    ∃ memory' : Memory, npfVsnprintf cfg memory buffer bufsz format args fs' =
        .ok ((S.length : ℤ), memory', stores) ∧
      (buffer = false ∨ bufsz = 0 → memory' = memory) ∧
      (buffer = true → bufsz ≠ 0 →
        (∀ i, min S.length (bufsz - 1) < i → memory' i = memory i) ∧
        (cfg.safeEmptyString = false ∨ S.length < bufsz →
          (∀ i < min S.length (bufsz - 1), S[i]? = some (memory' i)) ∧
          memory' (min S.length (bufsz - 1)) = NUL) ∧
        (cfg.safeEmptyString = true → bufsz ≤ S.length → memory' 0 = NUL)) := by
  refine ⟨_, npfVsnprintf_eq terminated run fits memory buffer bufsz fs', fun noRoom => ?_,
    fun given room => ?_⟩
  · rw [if_neg fun both => noRoom.elim (fun off => by simp [off] at both) both.2]
  rw [if_pos ⟨given, room⟩]
  have cut : (S.take bufsz).length = min bufsz S.length := List.length_take
  refine ⟨fun i behind => ?_, fun whole => ?_, fun safe long => ?_⟩
  · have terminator : terminatorOf cfg S.length bufsz ≤ min S.length (bufsz - 1) := by
      rw [terminatorOf]
      split_ifs <;> omega
    rw [Function.update_of_ne (by omega), Memory.put_zero_of_le _ (by omega)]
  · have terminator : terminatorOf cfg S.length bufsz = min S.length (bufsz - 1) := by
      rw [terminatorOf]
      rcases safe : cfg.safeEmptyString
      · simp
      · have short := whole.resolve_left (by simp [safe])
        rw [if_pos rfl, if_neg (by omega)]
        omega
    rw [terminator]
    refine ⟨fun i inside => ?_, Function.update_self ..⟩
    rw [Function.update_of_ne (by omega), ← Memory.put_zero_of_lt _ (by omega),
      List.getElem?_take_of_lt (by omega)]
  · rw [terminatorOf, if_pos safe, if_pos long, Function.update_self]

/-- Three bytes for a text of four. -/
theorem npfVsnprintf_contract_cut : ∃ memory' : Memory,
    npfVsnprintf .standard (fun _ => '?') true 3 ("a%d".toList ++ [NUL]) [.int 32 123] .zeroed =
        .ok (4, memory', []) ∧
      (true = false ∨ 3 = 0 → memory' = fun _ => '?') ∧
      (true = true → 3 ≠ 0 →
        (∀ i, 2 < i → memory' i = '?') ∧
        (Config.standard.safeEmptyString = false ∨ 4 < 3 →
          (∀ i < 2, ['a', '1', '2', '3'][i]? = some (memory' i)) ∧ memory' 2 = NUL) ∧
        (Config.standard.safeEmptyString = true → 3 ≤ 4 → memory' 0 = NUL)) :=
  @npfVsnprintf_contract .standard _ (by decide) _ .zeroed 4 ['a', '1', '2', '3'] _ rfl (by decide)
    _ true 3 .zeroed

end Nanoprintf
