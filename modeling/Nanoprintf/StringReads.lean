import Nanoprintf.Saturation

/-!
# What `%s` reads

One loop measures a string: it tests the bound, the pointer and the character in
this order, so that no character at the bound is looked at. Another loop sends as
many characters, and does not test the pointer. Both loops are given here once
more with the places they read; `stringReads_text` says that they are the ones of
the engine. `npfVpprintf_string_iff` says that the places are within the bounds that
the precision, the array and the terminator set, and that the characters that are
due are sent exactly if no number of the format is cut short where it matters.
-/

set_option autoImplicit false

namespace Nanoprintf

open Foundations

variable {cfg : Config}

/-! ## The loops and the places they read -/

/-- The loop that measures a string. The last place may be outside the array. -/
def strLenReads (bound : Option ℤ) : List Char → ℕ → List ℕ × Run ℕ
  | memory, len =>
    if bound.all ((len : ℤ) < ·) then
      match memory with
      | [] => ([len], .error .bounds)
      | c :: memory =>
        if c = NUL then ([len], .ok len)
        else
          let (reads, run) := strLenReads bound memory (len + 1)
          (len :: reads, run)
    else ([], .ok len)

/-- The loop that sends `n` characters of a string, behind `i` others. -/
def sendReads : ℕ → List Char → ℕ → List ℕ × Run (List Char)
  | 0, _, _ => ([], .ok [])
  | _ + 1, [], i => ([i], .error .bounds)
  | n + 1, c :: memory, i =>
    let (reads, run) := sendReads n memory (i + 1)
    (i :: reads, run.map (c :: ·))

/-- The number of characters that the measuring loop stops at. -/
def stringBound (cfg : Config) (fs : NpfFormatSpec) : Option ℤ :=
  if cfg.precision && fs.precOpt != .none then some fs.prec else none

/-- Both loops of `%s`, for a pointer and what can be read through it. -/
def stringReads (bound : Option ℤ) (a : ℕ) (memory : List Char) : List ℕ × Run (List Char) :=
  let (measured, run) := if a = 0 then ([], .ok 0) else strLenReads bound memory 0
  match run with
  | .error e => (measured, .error e)
  | .ok len =>
    let (sent, text) := sendReads len memory 0
    (measured ++ sent, text)

theorem strLenReads_run (bound : Option ℤ) (memory : List Char) (start : ℕ) :
    (strLenReads bound memory start).2 = strLen bound memory start := by
  induction memory generalizing start with
  | nil =>
      rw [strLenReads, strLen]
      split_ifs <;> rfl
  | cons c memory ih =>
      rw [strLenReads, strLen]
      split_ifs
      · rfl
      · exact ih (start + 1)
      · rfl

/-- The second loop reads what it sends. -/
theorem sendReads_eq {memory : List Char} {n : ℕ} (inside : n ≤ memory.length) (i : ℕ) :
    sendReads n memory i = (List.range' i n, .ok (memory.take n)) := by
  induction n generalizing memory i with
  | zero => rfl
  | succ n ih =>
      cases memory with
      | nil => exact absurd inside (Nat.not_succ_le_zero n)
      | cons c memory =>
          rw [sendReads, ih (Nat.le_of_succ_le_succ inside), List.range'_succ, List.take_succ_cons]
          rfl

/-- **The loops are those of the engine**, whatever the pointer points to. -/
theorem stringReads_text (fs : NpfFormatSpec) (a : ℕ) (memory : List Char) (rest : List Arg) :
    (stringReads (stringBound cfg fs) a memory).2 = (do
      let (conv, _) ← convertString cfg fs (.ptr a memory :: rest)
      payloadText conv.payload) := by
  simp only [stringReads, convertString, stringBound, vaPtr, bind, Except.bind, pure, Except.pure]
  by_cases null : a = 0
  · simp only [if_pos null]
    rfl
  · simp only [if_neg null]
    rw [← strLenReads_run]
    rcases measured : strLenReads (if cfg.precision && fs.precOpt != .none then some fs.prec
      else none) memory 0 with ⟨reads, e | len⟩
    · rfl
    · have run := strLenReads_run (if cfg.precision && fs.precOpt != .none then some fs.prec
        else none) memory 0
      rw [measured] at run
      have inside := strLen_le run.symm
      rw [Nat.zero_add] at inside
      simp only [sendReads_eq inside, payloadText]

/-! ## Strings in an array -/

/-- The characters of an array in front of the first terminator. -/
def beforeNul (memory : List Char) : List Char := memory.takeWhile (· != NUL)

/-- The length of a string; a null pointer is an empty one. -/
def stringLength (a : ℕ) (memory : List Char) : ℕ := if a = 0 then 0 else (beforeNul memory).length

/-- A length under a precision. -/
def lengthUnder (precision : Option ℕ) (n : ℕ) : ℕ := precision.elim n (min · n)

/-- A precision bounds what is read of an array, or else a terminator does; through a null
pointer nothing is. -/
def Readable (precision : Option ℕ) (a : ℕ) (memory : List Char) : Prop :=
  a = 0 ∨ NUL ∈ memory ∨ ∃ p, precision = some p ∧ p ≤ memory.length

theorem lengthUnder_le (precision : Option ℕ) (n : ℕ) : lengthUnder precision n ≤ n := by
  cases precision with
  | none => exact le_rfl
  | some p => exact min_le_right p n

theorem lengthUnder_some_le (p n : ℕ) : lengthUnder (some p) n ≤ p := min_le_left p n

theorem beforeNul_cons_nul (memory : List Char) : beforeNul (NUL :: memory) = [] := rfl

theorem beforeNul_cons {c : Char} (char : c ≠ NUL) (memory : List Char) :
    beforeNul (c :: memory) = c :: beforeNul memory := by
  simp [beforeNul, char]

theorem length_beforeNul_le (memory : List Char) : (beforeNul memory).length ≤ memory.length :=
  (List.takeWhile_sublist _).length_le

/-- A terminator is behind what is in front of it. -/
theorem length_beforeNul_lt {memory : List Char} (terminated : NUL ∈ memory) :
    (beforeNul memory).length < memory.length := by
  induction memory with
  | nil => cases terminated
  | cons c memory ih =>
      by_cases char : c = NUL
      · rw [char, beforeNul_cons_nul]
        exact Nat.succ_pos _
      · have later := (List.mem_cons.mp terminated).resolve_left (Ne.symm char)
        rw [beforeNul_cons char]
        exact Nat.succ_lt_succ (ih later)

/-- No terminator is in front of the first one. -/
theorem nul_not_mem_take {memory : List Char} {i : ℕ} (early : i ≤ (beforeNul memory).length) :
    NUL ∉ memory.take i := by
  induction memory generalizing i with
  | nil => simp
  | cons c memory ih =>
      by_cases char : c = NUL
      · rw [char, beforeNul_cons_nul] at early
        rw [Nat.le_zero.mp early, List.take_zero]
        exact List.not_mem_nil
      · rw [beforeNul_cons char, List.length_cons] at early
        cases i with
        | zero => exact List.not_mem_nil
        | succ i =>
            rw [List.take_succ_cons, List.mem_cons, not_or]
            exact ⟨Ne.symm char, ih (Nat.le_of_succ_le_succ early)⟩

section

variable {bound : Option ℤ} {start : ℕ}

theorem strLenReads_stop (stop : bound.all ((start : ℤ) < ·) = false) (memory : List Char) :
    strLenReads bound memory start = ([], .ok start) := by
  cases memory <;> rw [strLenReads, if_neg (Bool.eq_false_iff.mp stop)]

theorem strLenReads_nul (more : bound.all ((start : ℤ) < ·) = true) (memory : List Char) :
    strLenReads bound (NUL :: memory) start = ([start], .ok start) := by
  rw [strLenReads, if_pos more]
  rfl

theorem strLenReads_cons (more : bound.all ((start : ℤ) < ·) = true) {c : Char} (char : c ≠ NUL)
    {memory : List Char} {reads : List ℕ} {run : Run ℕ}
    (next : strLenReads bound memory (start + 1) = (reads, run)) :
    strLenReads bound (c :: memory) start = (start :: reads, run) := by
  rw [strLenReads, if_pos more]
  simp only [if_neg char, next]

end

/-- **The first loop reads up to the bound or the terminator**, whichever comes first. -/
theorem strLenReads_eq {precision : Option ℕ} {memory : List Char}
    (readable : NUL ∈ memory ∨ ∃ p, precision = some p ∧ p ≤ memory.length) (start : ℕ) :
    strLenReads (precision.map fun p => ((start + p : ℕ) : ℤ)) memory start =
      (List.range' start (lengthUnder precision ((beforeNul memory).length + 1)),
        .ok (start + lengthUnder precision (beforeNul memory).length)) := by
  induction memory generalizing start precision with
  | nil =>
      obtain ⟨p, rfl, inside⟩ := readable.resolve_left List.not_mem_nil
      obtain rfl := Nat.le_zero.mp inside
      exact strLenReads_stop (by simp) []
  | cons c memory ih =>
      rcases precision with - | - | p
      case some.zero => exact (strLenReads_stop (by simp) _).trans (by simp [lengthUnder])
      case none =>
        by_cases char : c = NUL
        · subst char
          exact strLenReads_nul rfl memory
        · have later : NUL ∈ memory := by
            rcases readable with terminated | ⟨p, bounded, -⟩
            · exact (List.mem_cons.mp terminated).resolve_left (Ne.symm char)
            · cases bounded
          have next := @ih none (.inl later) (start + 1)
          simp only [Option.map_none] at next ⊢
          rw [strLenReads_cons rfl char next, beforeNul_cons char, List.length_cons,
            ← List.range'_succ, Nat.add_right_comm start 1]
          rfl
      case some.succ =>
        have more : (Option.map (fun p => ((start + p : ℕ) : ℤ)) (some (p + 1))).all
            ((start : ℤ) < ·) = true := by
          simp only [Option.map_some, Option.all_some, decide_eq_true_eq]
          omega
        by_cases char : c = NUL
        · subst char
          rw [strLenReads_nul more]
          simp [lengthUnder, beforeNul_cons_nul]
        · have later : NUL ∈ memory ∨ ∃ q, some p = some q ∧ q ≤ memory.length := by
            rcases readable with terminated | ⟨q, bounded, inside⟩
            · exact .inl ((List.mem_cons.mp terminated).resolve_left (Ne.symm char))
            · obtain rfl := Option.some.inj bounded
              exact .inr ⟨p, rfl, Nat.le_of_succ_le_succ inside⟩
          have next := @ih (some p) later (start + 1)
          have shift : start + 1 + p = start + (p + 1) := by omega
          simp only [Option.map_some, shift] at next more ⊢
          rw [strLenReads_cons more char next, beforeNul_cons char, List.length_cons,
            ← List.range'_succ, Nat.add_right_comm start 1, Nat.add_assoc]
          simp only [lengthUnder, Option.elim_some, Nat.add_min_add_right]

/-! ## The conversion -/

section

variable {a : ℕ} {memory : List Char} {used wanted : Option ℕ}

theorem lengthUnder_null (null : a = 0) : lengthUnder used (stringLength a memory) = 0 := by
  rw [stringLength, if_pos null]
  exact Nat.le_zero.mp (lengthUnder_le used 0)

/-- Both loops of a conversion that stops in time. -/
theorem stringReads_eq (readable : Readable used a memory) :
    stringReads (used.map Int.ofNat) a memory =
      (if a = 0 then [] else
          List.range (lengthUnder used (stringLength a memory + 1)) ++
            List.range (lengthUnder used (stringLength a memory)),
        .ok (memory.take (lengthUnder used (stringLength a memory)))) := by
  by_cases null : a = 0
  · simp only [stringReads, lengthUnder_null null, if_pos null, sendReads, List.nil_append,
      List.take_zero]
  · have array := readable.resolve_left null
    have measured := strLenReads_eq array 0
    have inside : lengthUnder used (beforeNul memory).length ≤ memory.length :=
      (lengthUnder_le used _).trans (length_beforeNul_le memory)
    simp only [Nat.zero_add] at measured
    have run : strLenReads (used.map Int.ofNat) memory 0 = _ := measured
    simp only [stringReads, stringLength, if_neg null, run, sendReads_eq inside,
      List.range_eq_range']

/-- What a conversion may read: only what is below the precision, inside the array and not behind
a terminator, and nothing through a null pointer. Without a precision it reads everything up to
the terminator, and the terminator too. -/
structure ReadsWithin (precision : Option ℕ) (a : ℕ) (memory : List Char) (reads : List ℕ) :
    Prop where
  below : ∀ i ∈ reads, ∀ p, precision = some p → i < p
  before : ∀ i ∈ reads, NUL ∉ memory.take i
  inside : ∀ i ∈ reads, i < memory.length
  null : a = 0 → reads = []
  whole : a ≠ 0 → precision = none → ∀ i, i ∈ reads ↔ i ≤ stringLength a memory

/-- **A conversion stays inside the bounds of every precision that its own one does not exceed.** -/
theorem readsWithin (readable : Readable used a memory)
    (unbounded : wanted = none → used = none)
    (le : ∀ p, wanted = some p → ∃ q ≤ p, used = some q) :
    ReadsWithin wanted a memory (stringReads (used.map Int.ofNat) a memory).1 := by
  rw [stringReads_eq readable]
  by_cases null : a = 0
  · rw [if_pos null]
    exact ⟨nofun, nofun, nofun, fun _ => rfl, fun given => absurd null given⟩
  · have array := readable.resolve_left null
    have length : stringLength a memory = (beforeNul memory).length := if_neg null
    -- the second loop reads nothing that the first one has not read
    have read : ∀ i, i ∈ List.range (lengthUnder used (stringLength a memory + 1)) ++
        List.range (lengthUnder used (stringLength a memory)) ↔
          i < lengthUnder used ((beforeNul memory).length + 1) := by
      intro i
      rw [List.mem_append, List.mem_range, List.mem_range, length]
      rcases used with - | p
      · simp only [lengthUnder, Option.elim_none]
        omega
      · simp only [lengthUnder, Option.elim_some]
        omega
    have early : ∀ i, i < lengthUnder used ((beforeNul memory).length + 1) →
        i ≤ (beforeNul memory).length := by
      intro i less
      exact Nat.le_of_lt_succ (less.trans_le (lengthUnder_le used _))
    rw [if_neg null]
    refine ⟨fun i member p bound => ?_, fun i member => ?_, fun i member => ?_,
      fun zero => absurd zero null, fun _ absent i => ?_⟩
    · obtain ⟨q, order, rfl⟩ := le p bound
      have less := (read i).mp member
      exact (less.trans_le (lengthUnder_some_le q _)).trans_le order
    · exact nul_not_mem_take (early i ((read i).mp member))
    · have less := (read i).mp member
      rcases array with terminated | ⟨p, rfl, inside⟩
      · exact (early i less).trans_lt (length_beforeNul_lt terminated)
      · exact (less.trans_le (lengthUnder_some_le p _)).trans_le inside
    · rw [read, unbounded absent, length]
      exact Nat.lt_succ_iff

/-- The length of a string in an array. -/
theorem strLen_eq (array : NUL ∈ memory ∨ ∃ p, used = some p ∧ p ≤ memory.length) :
    strLen (used.map Int.ofNat) memory 0 = .ok (lengthUnder used (beforeNul memory).length) := by
  have measured := strLenReads_eq array 0
  simp only [Nat.zero_add] at measured
  rw [← strLenReads_run]
  exact congrArg Prod.snd measured

theorem convertString_eq {fs : NpfFormatSpec} (bound : stringBound cfg fs = used.map Int.ofNat)
    (readable : Readable used a memory) (rest : List Arg) :
    convertString cfg fs (.ptr a memory :: rest) =
      .ok (⟨fs, NUL, NUL, false, .string memory (lengthUnder used (stringLength a memory))⟩,
        rest) := by
  simp only [stringBound] at bound
  simp only [convertString, vaPtr, bind, Except.bind, bound]
  by_cases null : a = 0
  · rw [if_pos null, lengthUnder_null null]
    rfl
  · rw [if_neg null, strLen_eq (readable.resolve_left null), stringLength, if_neg null]
    rfl

/-- A conversion sends no more than the array has. -/
theorem lengthUnder_le_length (used : Option ℕ) (a : ℕ) (memory : List Char) :
    lengthUnder used (stringLength a memory) ≤ memory.length := by
  refine (lengthUnder_le used _).trans ?_
  unfold stringLength
  split_ifs
  · exact Nat.zero_le _
  · exact length_beforeNul_le memory

end

/-! ## Widths and precisions -/

/-- Fields of two widths are equal if the widths are or the text fills both. -/
theorem padField_eq_iff {u w : ℕ} (le : u ≤ w) (left zero : Bool) (t : List Char) :
    padField u left zero [] t = padField w left zero [] t ↔ u = w ∨ w ≤ t.length := by
  constructor
  · intro same
    have lengths := congrArg List.length same
    rw [length_padField, length_padField, List.length_nil, Nat.zero_add] at lengths
    omega
  · rintro (rfl | full)
    · rfl
    · have wide : w ≤ ([] : List Char).length + t.length := by
        rwa [List.length_nil, Nat.zero_add]
      rw [padField_of_le (le.trans wide), padField_of_le wide]

/-- The precision that the engine uses for the one that is meant. -/
structure PrecisionUsed (cfg : Config) (part : PrecisionPart) (used wanted : Option ℕ) : Prop where
  absent : wanted = none → used = none
  le : ∀ p, wanted = some p → ∃ q ≤ p, used = some q
  below : ∀ p, wanted = some p → (p : ℤ) ≤ cfg.fmtNumMax
  same_iff : ∀ n, lengthUnder used n = lengthUnder wanted n ↔
    ∀ ds, part = .literal false ds → UnderCuts cfg ds n

theorem exists_precisionUsed {part : PrecisionPart} {args rest : List Arg} {wanted : Option ℕ}
    (meant : wantedPrecision cfg part args = .ok (wanted, rest)) :
    ∃ used, resolvePrecision cfg part args = .ok (used, rest) ∧
      PrecisionUsed cfg part used wanted := by
  have ceiling := (fmtNumMax_bounds cfg).1
  have same (below : ∀ p, wanted = some p → (p : ℤ) ≤ cfg.fmtNumMax)
      (other : ∀ ds, part ≠ .literal false ds) : PrecisionUsed cfg part wanted wanted :=
    ⟨id, fun p is => ⟨p, le_rfl, is⟩, below,
      fun _ => iff_of_true rfl fun ds shape => absurd shape (other ds)⟩
  rcases part with - | - | ⟨_ | _, ds⟩
  · obtain ⟨rfl, -⟩ := Prod.mk.inj (Except.ok.inj meant)
    exact ⟨none, meant, same nofun nofun⟩
  · obtain ⟨⟨v, left⟩, -, run⟩ := bind_eq_ok.mp meant
    obtain ⟨rfl, -⟩ := Prod.mk.inj (pure_eq_ok.mp run)
    refine ⟨_, meant, same (fun p is => ?_) nofun⟩
    split_ifs at is with negative
    obtain rfl := Option.some.inj is
    omega
  · obtain ⟨rfl, rfl⟩ := Prod.mk.inj (Except.ok.inj meant)
    have order := literalNumber_le cfg ds
    refine ⟨_, rfl, nofun, fun p is => ?_, fun p is => ?_, fun n => ?_⟩
    · obtain rfl := Option.some.inj is
      exact ⟨_, min_le_min_right _ order, rfl⟩
    · obtain rfl := Option.some.inj is
      omega
    · simp only [PrecisionPart.literal.injEq, true_and, forall_eq', underCuts_iff, lengthUnder,
        Option.elim_some]
      by_cases short : CutShort cfg ds
      · have less := short.literalNumber_lt
        simp only [short, true_imp_iff]
        omega
      · have saturates := (literalNumber_saturates_iff ds).mpr short
        exact iff_of_true (by rw [saturates]) fun cut => absurd cut short
  · obtain ⟨rfl, -⟩ := Prod.mk.inj (Except.ok.inj meant)
    exact ⟨none, meant, same nofun nofun⟩

/-- A shorter precision makes no array unreadable. -/
theorem PrecisionUsed.readable {part : PrecisionPart} {used wanted : Option ℕ}
    (prec : PrecisionUsed cfg part used wanted) {a : ℕ} {memory : List Char}
    (readable : Readable wanted a memory) : Readable used a memory := by
  rcases readable with null | terminated | ⟨p, is, inside⟩
  · exact .inl null
  · exact .inr (.inl terminated)
  · obtain ⟨q, order, same⟩ := prec.le p is
    exact .inr (.inr ⟨q, same, order.trans inside⟩)

/-- An `int` holds a length under a precision; without one it holds the length of a string that is
not too long. -/
theorem PrecisionUsed.fits_iff {part : PrecisionPart} {used wanted : Option ℕ}
    (prec : PrecisionUsed cfg part used wanted) (n : ℕ) :
    (lengthUnder wanted n : ℤ) ≤ cfg.intMax ↔ (wanted = none → (n : ℤ) ≤ cfg.intMax) := by
  cases wanted with
  | none => exact ⟨fun short _ => short, fun short => short rfl⟩
  | some p =>
      have ceiling := (prec.below p rfl).trans (fmtNumMax_bounds cfg).2
      have short := lengthUnder_some_le p n
      exact iff_of_true (by omega) fun absent => by cases absent

/-- The width that the engine uses is the one that is meant, or a text of `n` characters fills that
anyway. -/
theorem exists_widthUsed {part : WidthPart} {args rest : List Arg} {wanted : ℕ} {negative : Bool}
    (meant : wantedWidth cfg part args = .ok (wanted, negative, rest)) :
    ∃ used ≤ wanted, resolveWidth cfg part args = .ok (used, negative, rest) ∧
      ∀ n, used = wanted ∨ wanted ≤ n ↔
        ∀ ds, part = .digits ds → CutShort cfg ds →
          min (decimalValue ds) cfg.fmtNumMax.toNat ≤ n := by
  obtain ⟨used, le, run, same_iff⟩ := exists_resolveWidth meant
  have literal : ∀ ds, part = .digits ds →
      wanted = min (decimalValue ds) cfg.fmtNumMax.toNat := by
    intro ds shape
    rw [shape] at meant
    exact (congrArg Prod.fst (Except.ok.inj meant)).symm
  refine ⟨used, le, run, fun n => ?_⟩
  constructor
  · rintro (same | full) ds shape short
    · exact absurd short (same_iff.mp same ds shape)
    · exact literal ds shape ▸ full
  · intro full
    by_cases kept : ∀ ds, part = .digits ds → ¬ CutShort cfg ds
    · exact .inl (same_iff.mpr kept)
    · push Not at kept
      obtain ⟨ds, shape, short⟩ := kept
      exact .inr (literal ds shape ▸ full ds shape short)

/-! ## The engine -/

section

variable {d : Directive} {args middle rest : List Arg} {u : ℕ} {negative : Bool}
  {used : Option ℕ} {a : ℕ} {memory : List Char}

/-- The record behind the stars bounds the string by the precision in effect. -/
theorem exists_stringBound (on : d.enabled cfg = true)
    (width : resolveWidth cfg d.width args = .ok (u, negative, middle))
    (precision : resolvePrecision cfg d.precision middle = .ok (used, rest)) (old : NpfFormatSpec) :
    ∃ fs, starArgs cfg (d.denote cfg old) args = .ok (fs, rest) ∧
      stringBound cfg (defaults cfg fs) = used.map Int.ofNat := by
  rcases starArgs_stars on old args with ⟨e, -, fails⟩ | ⟨fs, rest', run, ⟨stars⟩⟩
  · simp [resolve, width, precision, bind, Except.bind, pure, Except.pure] at fails
  · obtain ⟨-, -, rfl⟩ : _ ∧ _ ∧ middle = stars.middle := by
      simpa only [Except.ok.injEq, Prod.mk.injEq] using width.symm.trans stars.widthRun
    obtain ⟨rfl, rfl⟩ : used = _ ∧ rest = rest' := by
      simpa only [Except.ok.injEq, Prod.mk.injEq] using precision.symm.trans stars.precisionRun
    refine ⟨fs, run, (bound_eq fun compiled given => ?_).trans ?_⟩
    · rw [stars.prec_eq]
      exact stars.nonneg compiled (stars.precOpt_eq ▸ given)
    · rw [request, stars.prec_eq, stars.precOpt_eq]

/-- The text that the engine sends for a string. -/
theorem npfVpprintf_string (on : d.enabled cfg = true) (greedy : d.Greedy)
    (kind : d.conversion.convSpec = .string)
    (width : resolveWidth cfg d.width args = .ok (u, negative, middle))
    (precision : resolvePrecision cfg d.precision middle = .ok (used, .ptr a memory :: rest))
    (readable : Readable used a memory) (fs : NpfFormatSpec) :
    (npfVpprintf cfg record [] (d.text ++ [NUL]) args fs).map (fun out => out.2.1) =
      .ok (padField u (decide (Flag.minus ∈ d.flags) || negative) (decide (Flag.zero ∈ d.flags)) []
        (memory.take (lengthUnder used (stringLength a memory)))) := by
  have answered : answer cfg (d.request cfg u negative used) (.ptr a memory :: rest) =
      .ok ⟨(d.request cfg u negative used).plain
        (memory.take (lengthUnder used (stringLength a memory))), [], rest⟩ := by
    rw [answer, show (d.request cfg u negative used).convSpec = .string from kind]
    simp only [vaPtr, bind, Except.bind]
    by_cases null : a = 0
    · rw [if_pos null, lengthUnder_null null]
      rfl
    · have bound : (d.request cfg u negative used).precision = used := rfl
      rw [if_neg null, bound, strLen_eq (readable.resolve_left null), stringLength, if_neg null]
      rfl
  rw [npfVpprintf_directive on greedy, Piece.format, resolve]
  simp only [width, precision, bind, Except.bind, pure, Except.pure, answered, Except.map]
  rfl

end

/-- What is due of a string: the places that are read are within the bounds, the characters in
front of the terminator, as many as the precision leaves, are those that the second loop sends, and
an `int` holds their number. -/
structure TakesString (cfg : Config) (precision : Option ℕ) (a : ℕ) (memory : List Char)
    (fs : NpfFormatSpec) (conv : Converted cfg) : Prop where
  reads : ReadsWithin precision a memory (stringReads (stringBound cfg fs) a memory).1
  payload : conv.payload = .string memory (lengthUnder precision (stringLength a memory))
  fits : (conv.payload.len : ℤ) ≤ cfg.intMax

/-- **Strings are read and sent as they are meant, exactly if** the string is not longer than a
beginning of the precision at which it is cut short, a width that is cut short is filled anyway, and
an `int` can count a string without a precision. -/
theorem npfVpprintf_string_iff {d : Directive} (on : d.enabled cfg = true) (greedy : d.Greedy)
    (kind : d.conversion.convSpec = .string) {args middle rest : List Arg} {w : ℕ} {negative : Bool}
    {P : Option ℕ} {a : ℕ} {memory : List Char}
    (width : wantedWidth cfg d.width args = .ok (w, negative, middle))
    (precision : wantedPrecision cfg d.precision middle = .ok (P, .ptr a memory :: rest))
    (readable : Readable P a memory) {s : Cursor} {old parsed : NpfFormatSpec}
    (parse : npfParseFormatSpecEnd cfg (d.text ++ s) old = .ok (some s, parsed))
    (fs₀ : NpfFormatSpec) :
    (∃ fs conv, starArgs cfg parsed args = .ok (fs, .ptr a memory :: rest) ∧
      convertString cfg (defaults cfg fs) (.ptr a memory :: rest) = .ok (conv, rest) ∧
      TakesString cfg P a memory (defaults cfg fs) conv ∧
      (npfVpprintf cfg record [] (d.text ++ [NUL]) args fs₀).map (fun out => out.2.1) =
        .ok (padField w (decide (Flag.minus ∈ d.flags) || negative)
          (decide (Flag.zero ∈ d.flags)) []
          (memory.take (lengthUnder P (stringLength a memory))))) ↔
      (∀ ds, d.precision = .literal false ds → UnderCuts cfg ds (stringLength a memory)) ∧
      (∀ ds, d.width = .digits ds → CutShort cfg ds →
        min (decimalValue ds) cfg.fmtNumMax.toNat ≤ lengthUnder P (stringLength a memory)) ∧
      (P = none → (stringLength a memory : ℤ) ≤ cfg.intMax) := by
  obtain ⟨-, rfl⟩ := Prod.mk.inj
    (Except.ok.inj (parse.symm.trans (npfParseFormatSpecEnd_text on greedy s old)))
  obtain ⟨u, le, widthRun, fills⟩ := exists_widthUsed width
  obtain ⟨used, precisionRun, prec⟩ := exists_precisionUsed precision
  have readable' := prec.readable readable
  obtain ⟨fs, run, bound⟩ := exists_stringBound on widthRun precisionRun old
  have converts := convertString_eq bound readable' rest
  have text := npfVpprintf_string on greedy kind widthRun precisionRun readable' fs₀
  have reads := readsWithin readable' prec.absent prec.le
  have length : (memory.take (lengthUnder P (stringLength a memory))).length =
      lengthUnder P (stringLength a memory) := by
    rw [List.length_take]
    exact min_eq_left (lengthUnder_le_length P a memory)
  rw [← prec.same_iff, ← fills, ← prec.fits_iff]
  constructor
  · rintro ⟨fs', conv, run', converts', takes, due⟩
    obtain ⟨rfl, -⟩ := Prod.mk.inj (Except.ok.inj (run.symm.trans run'))
    obtain ⟨rfl, -⟩ := Prod.mk.inj (Except.ok.inj (converts.symm.trans converts'))
    obtain ⟨-, same⟩ : memory = memory ∧ lengthUnder used (stringLength a memory) =
        lengthUnder P (stringLength a memory) := Payload.string.inj takes.payload
    rw [text, same] at due
    have fields := (padField_eq_iff le _ _ _).mp (Except.ok.inj due)
    rw [length] at fields
    have count := takes.fits
    rw [takes.payload] at count
    exact ⟨same, fields, count⟩
  · rintro ⟨same, fields, count⟩
    refine ⟨fs, _, run, converts, ⟨bound ▸ reads, by rw [same], by rwa [same]⟩, ?_⟩
    rw [text, same]
    refine congrArg Except.ok ((padField_eq_iff le _ _ _).mpr ?_)
    rwa [length]

/-- `%5.3s` with an array of three characters and no terminator. -/
theorem npfVpprintf_string_unterminated :
    (npfVpprintf .standard record [] ("%5.3s".toList ++ [NUL]) [.ptr 1 "abc".toList] .zeroed).map
      (fun out => out.2.1) = .ok "  abc".toList := by
  obtain ⟨-, -, -, -, -, text⟩ := (@npfVpprintf_string_iff .standard
    ⟨[], .digits [5], .literal false [3], .none, .letter .s false⟩ rfl (by decide) rfl
    [.ptr 1 "abc".toList] _ [] 5 false (some 3) 1 "abc".toList rfl rfl
    (.inr (.inr ⟨3, rfl, by decide⟩)) [NUL] .zeroed _ rfl .zeroed).mpr
      ⟨fun ds _ => underCuts_iff.mpr fun short =>
          absurd short (not_cutShort_of_wide (by decide) (by decide) ds),
        fun ds _ short => absurd short (not_cutShort_of_wide (by decide) (by decide) ds), nofun⟩
  exact text

/-- `%.30000s` where `int` has 16 bits: 3000 characters instead of 5000. -/
theorem npfVpprintf_string_cut : ∃ memory : List Char, NUL ∈ memory ∧
    (npfVpprintf .avr record [] ("%.30000s".toList ++ [NUL]) [.ptr 1 memory] .zeroed).map
      (fun out => out.2.1) = .ok (List.replicate 3000 'a') ∧
    wantedPrecision .avr (.literal false [3, 0, 0, 0, 0]) [.ptr 1 memory] =
      .ok (some 8192, [.ptr 1 memory]) ∧
    memory.take (lengthUnder (some 8192) (stringLength 1 memory)) = List.replicate 5000 'a' := by
  have terminated : NUL ∈ List.replicate 5000 'a' ++ [NUL] :=
    List.mem_append_right _ (List.mem_singleton_self NUL)
  have before : beforeNul (List.replicate 5000 'a' ++ [NUL]) = List.replicate 5000 'a' := by
    rw [beforeNul, List.takeWhile_append_of_pos fun c member => by
      rw [List.eq_of_mem_replicate member]
      decide]
    exact List.append_nil _
  have length : stringLength 1 (List.replicate 5000 'a' ++ [NUL]) = 5000 := by
    rw [stringLength, if_neg one_ne_zero, before, List.length_replicate]
  have start : ∀ n ≤ 5000, (List.replicate 5000 'a' ++ [NUL]).take n = List.replicate n 'a' := by
    intro n le
    rw [List.take_append_of_le_length (by rwa [List.length_replicate]), List.take_replicate,
      min_eq_left le]
  have text := @npfVpprintf_string .avr
    ⟨[], .digits [], .literal false [3, 0, 0, 0, 0], .none, .letter .s false⟩
    [.ptr 1 (List.replicate 5000 'a' ++ [NUL])] _ [] 0 false (some 3000) 1 _ rfl (by decide) rfl rfl
    rfl (.inr (.inl terminated)) .zeroed
  rw [length] at text
  refine ⟨_, terminated, text.trans (congrArg Except.ok ?_), rfl, ?_⟩
  · have used : lengthUnder (some 3000) 5000 = 3000 := by decide
    rw [padField_of_le (Nat.zero_le _), List.nil_append, used]
    exact start 3000 (by norm_num)
  · have wanted : lengthUnder (some 8192) 5000 = 5000 := by decide
    rw [length, wanted]
    exact start 5000 le_rfl

end Nanoprintf
