import Nanoprintf.Independence
import Nanoprintf.SnprintfSpec
import Nanoprintf.Soundness

/-!
# Appending to a buffer

A text is written into a buffer piece by piece: the number that one call returns is where the
next one begins, and what it takes from the capacity, which is never less than nothing.
`npfVsnprintf_append` says that two such calls are one call with both formats, also where the
buffer ends in the middle of either.
-/

set_option autoImplicit false

namespace Nanoprintf

open Foundations

variable {cfg : Config}

/-! ## Memory in two parts -/

/-- The memory from an offset on. -/
def Memory.behind (memory : Memory) (n : ℕ) : Memory := fun i => memory (n + i)

/-- The memory in front of an offset, and another one from there on. -/
def Memory.joined (memory : Memory) (n : ℕ) (rest : Memory) : Memory := fun i =>
  if i < n then memory i else rest (i - n)

theorem Memory.joined_behind (memory : Memory) (n : ℕ) :
    memory.joined n (memory.behind n) = memory := by
  funext i
  rw [Memory.joined, Memory.behind]
  split_ifs with front
  · rfl
  · rw [Nat.add_sub_of_le (Nat.le_of_not_lt front)]

theorem Memory.put_zero (memory : Memory) (s : List Char) (i : ℕ) :
    memory.put 0 s i = s[i]?.getD (memory i) := rfl

/-- What a call leaves in a buffer of `k` bytes, the terminator where the text ends or the last
byte is. -/
def Memory.write (memory : Memory) (k : ℕ) (s : List Char) : Memory :=
  if k = 0 then memory
  else Function.update (memory.put 0 (s.take k)) (min s.length (k - 1)) NUL

theorem Memory.write_zero (memory : Memory) (s : List Char) : memory.write 0 s = memory :=
  if_pos rfl

theorem Memory.write_apply (memory : Memory) {k : ℕ} (room : k ≠ 0) (s : List Char) (i : ℕ) :
    memory.write k s i =
      if i = min s.length (k - 1) then NUL
      else if i < k then s[i]?.getD (memory i) else memory i := by
  rw [Memory.write, if_neg room, Function.update_apply, Memory.put_zero, List.getElem?_take]
  split_ifs <;> rfl

/-- A text in two parts is the second part behind the first, with what is left of the capacity. -/
theorem Memory.write_append (memory : Memory) {k : ℕ} {s : List Char} (short : s.length < k)
    (t : List Char) :
    memory.write k (s ++ t) =
      (memory.write k s).joined s.length
        (((memory.write k s).behind s.length).write (k - s.length) t) := by
  have room : k ≠ 0 := by omega
  have left : k - s.length ≠ 0 := by omega
  -- the first terminator is where the second part begins
  have first : min s.length (k - 1) = s.length := by omega
  funext i
  rw [Memory.joined]
  by_cases front : i < s.length
  · have inside : i ≠ min (s ++ t).length (k - 1) := by
      rw [List.length_append]
      omega
    rw [if_pos front, Memory.write_apply _ room, Memory.write_apply _ room, first,
      if_neg inside, if_neg front.ne, List.getElem?_append_left front]
  · obtain ⟨j, rfl⟩ := Nat.exists_eq_add_of_le (Nat.le_of_not_lt front)
    have last : s.length + j = min (s ++ t).length (k - 1) ↔
        j = min t.length (k - s.length - 1) := by
      rw [List.length_append]
      omega
    have capacity : s.length + j < k ↔ j < k - s.length := by omega
    rw [if_neg front, Nat.add_sub_cancel_left, Memory.write_apply _ room,
      Memory.write_apply _ left, Memory.behind, Memory.write_apply _ room, first,
      List.getElem?_append_right (Nat.le_add_right _ j), Nat.add_sub_cancel_left,
      List.getElem?_eq_none (Nat.le_add_right s.length j)]
    simp only [last, capacity]
    split_ifs with terminator inside start
    · rfl
    · -- the terminator of an empty second part is here
      have within : j < t.length := by omega
      rw [List.getElem?_eq_getElem within]
      rfl
    all_goals first | rfl | omega

/-! ## Formats in two parts -/

theorem Scans.back {s : List Char} {front back : List Piece} (scan : Scans cfg s (front ++ back)) :
    Scans cfg (piecesText back ++ [NUL]) back := by
  induction front generalizing s with
  | nil =>
      rw [List.nil_append, ← List.append_nil back] at scan
      exact scan.front
  | cons p front ih =>
      cases scan with
      | literal char literal rest => exact ih rest
      | directive on greedy rest => exact ih rest

/-- Arguments behind those that are taken are left. -/
theorem output_more {ps : List Piece} {args : List Arg} {o : Output}
    (run : output cfg ps args = .ok o) (more : List Arg) :
    output cfg ps (args ++ more) = .ok { o with args := o.args ++ more } := by
  have read : (output cfg ps args).map (fun o => ((o.text, o.marks), o.args)) =
      .ok ((o.text, o.marks), o.args) := by
    rw [run]
    rfl
  obtain ⟨o', longer, same⟩ := map_eq_ok.mp ((takes_output ps).append read more)
  obtain ⟨texts, left⟩ := Prod.mk.inj same
  obtain ⟨text, marks⟩ := Prod.mk.inj texts
  rw [longer, ← text, ← marks, ← left]

/-! ## Calls -/

/-- The memory that a call leaves. -/
def written (cfg : Config) (memory : Memory) (buffer : Bool) (k : ℕ) (s : List Char) : Memory :=
  if buffer = true ∧ k ≠ 0 then
    Function.update (memory.put 0 (s.take k)) (terminatorOf cfg s.length k) NUL
  else memory

theorem written_none (memory : Memory) {buffer : Bool} {k : ℕ} (noRoom : buffer = false ∨ k = 0)
    (s : List Char) : written cfg memory buffer k s = memory := by
  refine if_neg fun both => ?_
  cases noRoom with
  | inl null => exact absurd (null.symm.trans both.1) (by decide)
  | inr empty => exact both.2 empty

/-- A call that does not empty the buffer. -/
theorem written_eq {k : ℕ} {s : List Char} (fits : cfg.safeEmptyString = true → s.length < k)
    (memory : Memory) : written cfg memory true k s = memory.write k s := by
  have terminator : terminatorOf cfg s.length k = min s.length (k - 1) := by
    rw [terminatorOf]
    by_cases safe : cfg.safeEmptyString = true
    · have short := fits safe
      rw [if_pos safe, if_neg (by omega)]
      omega
    · rw [if_neg safe]
  by_cases room : k = 0
  · rw [written_none memory (.inr room), room, Memory.write_zero]
  · rw [written, if_pos ⟨rfl, room⟩, terminator, Memory.write, if_neg room]

theorem written_of_full (memory : Memory) (buffer : Bool) {k : ℕ} {s : List Char}
    (full : k ≤ s.length) (t : List Char) :
    written cfg memory buffer k (s ++ t) = written cfg memory buffer k s := by
  have longer : k ≤ s.length + t.length := full.trans (Nat.le_add_right _ _)
  have terminator : terminatorOf cfg (s ++ t).length k = terminatorOf cfg s.length k := by
    rw [List.length_append, terminatorOf, terminatorOf]
    split_ifs
    · rfl
    · omega
  rw [written, written, List.take_append_of_le_length full, terminator]

theorem written_append (memory : Memory) (buffer : Bool) {k : ℕ} {s t : List Char}
    (whole : cfg.safeEmptyString = true → s.length < k → (s ++ t).length < k) :
    written cfg memory buffer k (s ++ t) =
      (written cfg memory buffer k s).joined s.length
        (written cfg ((written cfg memory buffer k s).behind s.length) buffer (k - s.length)
          t) := by
  by_cases full : k ≤ s.length
  · rw [written_of_full memory buffer full, written_none _ (.inr (Nat.sub_eq_zero_of_le full)),
      Memory.joined_behind]
  cases buffer with
  | false =>
      rw [written_none _ (.inl rfl), written_none _ (.inl rfl), written_none _ (.inl rfl),
        Memory.joined_behind]
  | true =>
      have short := Nat.lt_of_not_le full
      have rest : cfg.safeEmptyString = true → t.length < k - s.length := by
        intro safe
        have := whole safe short
        rw [List.length_append] at this
        omega
      rw [written_eq fun safe => whole safe short, written_eq fun _ => short, written_eq rest,
        memory.write_append short]

section

variable {format : Cursor} {front back : List Piece} (scan : Scans cfg format (front ++ back))
  {first second : List Arg} {fs : NpfFormatSpec} {n m : ℤ} {S T : List Char}
  {stores stores' : List Store}
  (run : npfVpprintf cfg record [] (piecesText front ++ [NUL]) first fs = .ok (n, S, stores))
  (taken : argumentsLeft cfg (piecesText front ++ [NUL]) first fs = .ok [])
  (run' : npfVpprintf cfg record [] (piecesText back ++ [NUL]) second fs = .ok (m, T, stores'))
include scan run taken run'

/-- The engine sends both texts, and stores what it would store behind the first. -/
theorem npfVpprintf_append :
    npfVpprintf cfg record [] format (first ++ second) fs =
      .ok (cfg.wrapInt (S ++ T).length, S ++ T,
        stores ++ stores'.map (Store.shift cfg S.length)) := by
  rw [npfVpprintf_record scan.front] at run
  rw [argumentsLeft_eq scan.front] at taken
  rw [npfVpprintf_record scan.back] at run'
  obtain ⟨o, sent, same⟩ := map_eq_ok.mp run
  obtain ⟨o', sent', same'⟩ := map_eq_ok.mp run'
  obtain ⟨-, rfl, rfl⟩ := same
  obtain ⟨-, rfl, rfl⟩ := same'
  rw [sent] at taken
  have noneLeft : o.args = [] := Except.ok.inj taken
  have whole : output cfg (front ++ back) (first ++ second) = .ok (o.append o') := by
    rw [output_append, output_more sent second, noneLeft]
    simp only [bind, Except.bind, List.nil_append, sent']
    rfl
  rw [npfVpprintf_record scan, whole]
  simp only [Except.map, Output.append, List.map_append, List.map_map, Function.comp_def,
    Slot.shift_store]

/-- **Two calls are one**: where a format is cut between directives, a call with the first part and
one with the second part and the rest of the buffer leave what one call leaves. In a build that
leaves an empty string where a text does not fit, the buffer does not end in the second part. -/
theorem npfVsnprintf_append (fits : ((S ++ T).length : ℤ) ≤ cfg.intMax) (memory : Memory)
    (buffer : Bool) (bufsz : ℕ)
    (whole : cfg.safeEmptyString = true → S.length < bufsz → (S ++ T).length < bufsz)
    (fs' : NpfFormatSpec) :
    ∃ memory₁ memory₂ : Memory,
      npfVsnprintf cfg memory buffer bufsz (piecesText front ++ [NUL]) first fs' =
          .ok ((S.length : ℤ), memory₁, stores) ∧
        npfVsnprintf cfg (memory₁.behind S.length) buffer (bufsz - S.length)
            (piecesText back ++ [NUL]) second fs' = .ok ((T.length : ℤ), memory₂, stores') ∧
        npfVsnprintf cfg memory buffer bufsz format (first ++ second) fs' =
          .ok ((S.length + T.length : ℤ), memory₁.joined S.length memory₂,
            stores ++ stores'.map (Store.shift cfg S.length)) := by
  have both := npfVpprintf_append scan run taken run'
  have lengths : ((S ++ T).length : ℤ) = S.length + T.length := by
    rw [List.length_append, Nat.cast_add]
  refine ⟨_, _, npfVsnprintf_eq scan.front.mem run (by omega) memory buffer bufsz fs',
    npfVsnprintf_eq scan.back.mem run' (by omega) _ buffer (bufsz - S.length) fs', ?_⟩
  have left := written_append memory buffer whole
  rw [written] at left
  rw [npfVsnprintf_eq scan.mem both fits memory buffer bufsz fs', lengths, left]
  rfl

end

/-- Four bytes for `a12` and the beginning of `b345`. -/
theorem npfVsnprintf_append_cut : ∃ memory₁ memory₂ : Memory,
    npfVsnprintf .standard (fun _ => '?') true 4 ("a%d".toList ++ [NUL]) [.int 32 12] .zeroed =
        .ok (3, memory₁, []) ∧
      npfVsnprintf .standard (memory₁.behind 3) true 1 ("b%d".toList ++ [NUL]) [.int 32 345]
          .zeroed = .ok (4, memory₂, []) ∧
      npfVsnprintf .standard (fun _ => '?') true 4 ("a%db%d".toList ++ [NUL])
          [.int 32 12, .int 32 345] .zeroed = .ok (7, memory₁.joined 3 memory₂, []) := by
  have scan : Scans .standard ("a%db%d".toList ++ [NUL])
      ([.literal 'a', .directive ⟨[], .digits [], .absent, .none, .letter .d false⟩] ++
        [.literal 'b', .directive ⟨[], .digits [], .absent, .none, .letter .d false⟩]) :=
    .literal (by decide) (.inl (by decide)) <|
      .directive (d := ⟨[], .digits [], .absent, .none, .letter .d false⟩) rfl (by decide) <|
        .literal (by decide) (.inl (by decide)) <|
          .directive (d := ⟨[], .digits [], .absent, .none, .letter .d false⟩) rfl (by decide) <|
            .done []
  exact @npfVsnprintf_append _ _ _ _ scan [.int 32 12] [.int 32 345] .zeroed 3 4
    ['a', '1', '2'] ['b', '3', '4', '5'] [] [] rfl rfl rfl (by decide) (fun _ => '?') true 4
    (fun safe => absurd safe (by decide)) .zeroed

end Nanoprintf
