import Nanoprintf.Grammar

/-!
# The parser accepts its grammar

Each stage of the parser is described twice: what it does on a string that
starts with a token of its grammar and continues with a character the stage
cannot take (the `_text` lemmas), and that every string splits so (the `exists_`
lemmas). Chained, the first give completeness and the second soundness, and
`npfParseFormatSpecEnd_eq` states both for the whole parser: the outcome is
determined by the derivations of the string's prefixes, and no access leaves the
string.
-/

set_option autoImplicit false

namespace Nanoprintf

open Foundations

/-! ## Digits -/

/-- A character compared through `(unsigned)(c - base)`: a `char` that is
negative or below the base becomes a large unsigned value, never a small one. -/
theorem Config.toUnsigned_sub_lt_iff (cfg : Config) {base k : ℕ} (ascii : base + k ≤ 128)
    (m : ℕ) : cfg.toUnsigned (cfg.charValue m - base) < k ↔ base ≤ m ∧ m < base + k := by
  have charBits := cfg.charBits_ge
  have half : 2 ^ 7 ≤ 2 ^ (cfg.charBits - 1) := Nat.pow_le_pow_right (by omega) (by omega)
  have double : 2 ^ cfg.charBits = 2 * 2 ^ (cfg.charBits - 1) := by
    rw [← pow_succ', Nat.sub_add_cancel (by omega)]
  have wide : 2 ^ cfg.charBits ≤ 2 ^ cfg.intBits :=
    Nat.pow_le_pow_right (by omega) (cfg.char_le_short.trans cfg.short_le_int)
  have wideZ : (2 : ℤ) ^ cfg.charBits ≤ 2 ^ cfg.intBits := by exact_mod_cast wide
  have doubleZ : (2 : ℤ) ^ cfg.charBits = 2 * 2 ^ (cfg.charBits - 1) := by exact_mod_cast double
  have halfZ : (2 : ℤ) ^ 7 ≤ 2 ^ (cfg.charBits - 1) := by exact_mod_cast half
  unfold Config.toUnsigned Config.charValue
  split_ifs with upper negative negative
  · have lower : (2 : ℤ) ^ (cfg.charBits - 1) ≤ m := by exact_mod_cast upper.2.1
    have below : ¬ m < base + k := by omega
    constructor
    · intro small
      omega
    · omega
  · have : (m : ℤ) < 2 ^ cfg.charBits := by exact_mod_cast upper.2.2
    omega
  · constructor
    · intro small
      omega
    · omega
  · constructor
    · intro small
      omega
    · omega

theorem Config.toUnsigned_sub (cfg : Config) {base m : ℕ} (above : base ≤ m) (ascii : m < 128) :
    cfg.toUnsigned (cfg.charValue m - base) = m - base := by
  have charBits := cfg.charBits_ge
  have half : 2 ^ 7 ≤ 2 ^ (cfg.charBits - 1) := Nat.pow_le_pow_right (by omega) (by omega)
  unfold Config.toUnsigned Config.charValue
  rw [if_neg (by omega), if_neg (by omega)]
  omega

theorem Config.isDigit_iff (cfg : Config) (c : Char) :
    cfg.isDigit c = true ↔ 48 ≤ c.toNat ∧ c.toNat ≤ 57 := by
  have range := @Config.toUnsigned_sub_lt_iff cfg 48 10 (by omega) c.toNat
  unfold Config.isDigit
  rw [decide_eq_true_iff, show '0'.toNat = 48 from rfl, range]
  omega

theorem decimalChar_toNat (d : Fin 10) : (decimalChar d).toNat = 48 + d := by
  revert d
  decide

theorem Config.isDigit_decimalChar (cfg : Config) (d : Fin 10) :
    cfg.isDigit (decimalChar d) = true := by
  rw [cfg.isDigit_iff, decimalChar_toNat]
  omega

theorem Config.exists_of_isDigit {cfg : Config} {c : Char} (digit : cfg.isDigit c = true) :
    ∃ d : Fin 10, c = decimalChar d := by
  obtain ⟨lower, upper⟩ := (cfg.isDigit_iff c).mp digit
  refine ⟨⟨c.toNat - 48, by omega⟩, Char.toNat_inj.mp ?_⟩
  rw [decimalChar_toNat]
  simp only
  omega

theorem literalFrom_of_big {cfg : Config} {n : ℕ} (big : cfg.fmtNumBig n = true)
    (ds : List (Fin 10)) : literalFrom cfg n ds = n := by
  cases ds with
  | nil => rfl
  | cons d ds => rw [literalFrom, if_pos big]

/-- `npf_fmt_num` on a digit run. -/
theorem npfFmtNum_text {cfg : Config} (ds : List (Fin 10)) {c : Char}
    (stop : cfg.isDigit c = false) (rest : Cursor) (n : ℕ) :
    npfFmtNum cfg (ds.map decimalChar ++ c :: rest) n = .ok (c :: rest, literalFrom cfg n ds) := by
  induction ds generalizing n with
  | nil => simp [npfFmtNum, stop, literalFrom]
  | cons d ds ih =>
      rw [List.map_cons, List.cons_append, npfFmtNum, if_pos (cfg.isDigit_decimalChar d), ih,
        decimalChar_toNat, show '0'.toNat = 48 from rfl, Nat.add_sub_cancel_left]
      by_cases big : cfg.fmtNumBig n = true
      · rw [if_pos big, literalFrom_of_big big, literalFrom_of_big big]
      · rw [if_neg big, literalFrom, if_neg big, Nat.mul_comm]

/-- A string that contains something other than a digit splits at the first. -/
theorem exists_digits (cfg : Config) {c : Char} (stop : cfg.isDigit c = false) :
    ∀ s : List Char, c ∈ s → ∃ (ds : List (Fin 10)) (x : Char) (rest : List Char),
      s = ds.map decimalChar ++ x :: rest ∧ cfg.isDigit x = false ∧ c ∈ x :: rest
  | [], member => by simp at member
  | a :: s, member => by
      by_cases digit : cfg.isDigit a = true
      · obtain ⟨d, rfl⟩ := Config.exists_of_isDigit digit
        have later : c ∈ s := by
          rcases List.mem_cons.mp member with rfl | later
          · simp [stop] at digit
          · exact later
        obtain ⟨ds, x, rest, rfl, plain, inside⟩ := exists_digits cfg stop s later
        exact ⟨d :: ds, x, rest, rfl, plain, inside⟩
      · exact ⟨[], a, s, rfl, by simpa using digit, member⟩

/-! ## Flags -/

/-- What the flag loop does with one flag. -/
def applyFlag (spec : NpfFormatSpec) : Flag → NpfFormatSpec
  | .minus => { spec with leftJustified := true }
  | .zero => { spec with leadingZeroPad := true }
  | .plus => if spec.prepend ≠ '+' then { spec with prepend := '+' } else spec
  | .space => if spec.prepend ≠ '+' then { spec with prepend := ' ' } else spec
  | .hash => { spec with altForm := true }

/-- A character the flag loop takes. -/
def isFlagChar (cfg : Config) (c : Char) : Bool :=
  (cfg.fieldWidth && c == '-') || (cfg.fieldWidth && c == '0') || (c == '+' || c == ' ') ||
    (cfg.altForm && c == '#')

theorem isFlagChar_iff (cfg : Config) (c : Char) :
    isFlagChar cfg c = true ↔ ∃ f : Flag, f.enabled cfg = true ∧ f.char = c := by
  constructor
  · intro taken
    simp only [isFlagChar, Bool.or_eq_true, Bool.and_eq_true, beq_iff_eq] at taken
    rcases taken with ((⟨on, rfl⟩ | ⟨on, rfl⟩) | rfl | rfl) | ⟨on, rfl⟩
    · exact ⟨.minus, on, rfl⟩
    · exact ⟨.zero, on, rfl⟩
    · exact ⟨.plus, rfl, rfl⟩
    · exact ⟨.space, rfl, rfl⟩
    · exact ⟨.hash, on, rfl⟩
  · rintro ⟨f, on, rfl⟩
    cases f <;> simp_all [isFlagChar, Flag.enabled, Flag.char]

theorem parseFlags_cons {cfg : Config} {f : Flag} (on : f.enabled cfg = true) (x : Char)
    (rest : Cursor) (spec : NpfFormatSpec) :
    parseFlags cfg (x :: f.char :: rest) spec =
      parseFlags cfg (f.char :: rest) (applyFlag spec f) := by
  cases f <;> simp_all [parseFlags, Flag.char, Flag.enabled, applyFlag]

theorem parseFlags_stop {cfg : Config} {c : Char} (stop : isFlagChar cfg c = false) (x : Char)
    (rest : Cursor) (spec : NpfFormatSpec) :
    parseFlags cfg (x :: c :: rest) spec = .ok (c :: rest, spec) := by
  simp only [isFlagChar, Bool.or_eq_false_iff] at stop
  obtain ⟨⟨⟨minus, zero⟩, sign⟩, hash⟩ := stop
  simp [parseFlags, minus, zero, sign, hash]

/-- The flag loop on a run of flags. -/
theorem parseFlags_text {cfg : Config} (flags : List Flag)
    (on : flags.all (Flag.enabled cfg) = true) {c : Char} (stop : isFlagChar cfg c = false)
    (x : Char) (rest : Cursor) (spec : NpfFormatSpec) :
    parseFlags cfg (x :: (flags.map Flag.char ++ c :: rest)) spec =
      .ok (c :: rest, flags.foldl applyFlag spec) := by
  induction flags generalizing x spec with
  | nil => exact parseFlags_stop stop x rest spec
  | cons f flags ih =>
      rw [List.all_cons, Bool.and_eq_true] at on
      rw [List.map_cons, List.cons_append, parseFlags_cons on.1, ih on.2, List.foldl_cons]

theorem exists_flags (cfg : Config) {c : Char} (stop : isFlagChar cfg c = false) :
    ∀ s : List Char, c ∈ s → ∃ (flags : List Flag) (x : Char) (rest : List Char),
      s = flags.map Flag.char ++ x :: rest ∧ flags.all (Flag.enabled cfg) = true ∧
        isFlagChar cfg x = false ∧ c ∈ x :: rest
  | [], member => by simp at member
  | a :: s, member => by
      by_cases taken : isFlagChar cfg a = true
      · obtain ⟨f, on, rfl⟩ := (isFlagChar_iff cfg a).mp taken
        have later : c ∈ s := by
          rcases List.mem_cons.mp member with rfl | later
          · simp [stop] at taken
          · exact later
        obtain ⟨flags, x, rest, rfl, all, plain, inside⟩ := exists_flags cfg stop s later
        exact ⟨f :: flags, x, rest, rfl, by simp [on, all], plain, inside⟩
      · exact ⟨[], a, s, rfl, rfl, by simpa using taken, member⟩

/-- The record after a run of flags. -/
theorem foldl_applyFlag (flags : List Flag) (spec : NpfFormatSpec) :
    flags.foldl applyFlag spec =
      { spec with
        leftJustified := spec.leftJustified || decide (Flag.minus ∈ flags)
        leadingZeroPad := spec.leadingZeroPad || decide (Flag.zero ∈ flags)
        prepend :=
          if spec.prepend = '+' ∨ Flag.plus ∈ flags then '+'
          else if Flag.space ∈ flags then ' ' else spec.prepend
        altForm := spec.altForm || decide (Flag.hash ∈ flags) } := by
  induction flags generalizing spec with
  | nil =>
      by_cases plus : spec.prepend = '+'
      · cases spec
        simp_all
      · simp [plus]
  | cons f flags ih =>
      rw [List.foldl_cons, ih]
      cases f <;> by_cases plus : spec.prepend = '+' <;> simp [applyFlag, plus]

/-! ## Width -/

/-- The record after the width. -/
def applyWidth (cfg : Config) (w : WidthPart) (spec : NpfFormatSpec) : NpfFormatSpec :=
  if cfg.fieldWidth then
    match w with
    | .star => { spec with fieldWidthOpt := .star }
    | .digits ds => { spec with fieldWidthOpt := .none, fieldWidth := literalNumber cfg ds }
  else spec

/-- The character cannot continue the width. -/
def WidthStop (cfg : Config) (w : WidthPart) (c : Char) : Prop :=
  cfg.fieldWidth = true → ∀ ds, w = .digits ds → cfg.isDigit c = false ∧ (ds = [] → c ≠ '*')

theorem decimalChar_ne_star (d : Fin 10) : decimalChar d ≠ '*' := by
  revert d
  decide

theorem parseFieldWidth_text {cfg : Config} {w : WidthPart} (on : w.enabled cfg = true) {c : Char}
    (stop : WidthStop cfg w c) (rest : Cursor) (spec : NpfFormatSpec) :
    parseFieldWidth cfg (w.text ++ c :: rest) spec = .ok (c :: rest, applyWidth cfg w spec) := by
  unfold parseFieldWidth applyWidth
  by_cases width : cfg.fieldWidth = true
  · simp only [width, ↓reduceIte]
    rcases w with - | - | ⟨d, ds⟩
    · rfl
    · obtain ⟨plain, star⟩ := stop width [] rfl
      have run := npfFmtNum_text [] plain rest 0
      simp only [List.map_nil, List.nil_append] at run
      simp [WidthPart.text, Cursor.deref, star rfl, run, literalNumber, bind, Except.bind, pure,
        Except.pure]
    · have plain := (stop width _ rfl).1
      have run := npfFmtNum_text (d :: ds) plain rest 0
      simp only [List.map_cons, List.cons_append] at run
      simp [WidthPart.text, Cursor.deref, decimalChar_ne_star, run, literalNumber, bind,
        Except.bind, pure, Except.pure]
  · have absent : w = .digits [] := by
      rcases w with - | - | ⟨d, ds⟩
      · exact absurd on width
      · rfl
      · exact absurd on width
    subst absent
    simp [width, WidthPart.text, pure, Except.pure]

theorem exists_width (cfg : Config) {nul : Char} (plain : cfg.isDigit nul = false)
    (star : nul ≠ '*') (s : List Char) (member : nul ∈ s) :
    ∃ (w : WidthPart) (x : Char) (rest : List Char), s = w.text ++ x :: rest ∧
      w.enabled cfg = true ∧ WidthStop cfg w x ∧ nul ∈ x :: rest := by
  obtain ⟨a, s, rfl⟩ := List.exists_cons_of_ne_nil (List.ne_nil_of_mem member)
  by_cases width : cfg.fieldWidth = true
  · by_cases starred : a = '*'
    · subst starred
      have later : nul ∈ s := (List.mem_cons.mp member).resolve_left star
      obtain ⟨x, rest, rfl⟩ := List.exists_cons_of_ne_nil (List.ne_nil_of_mem later)
      exact ⟨.star, x, rest, rfl, width, fun _ _ same => by simp at same, later⟩
    · obtain ⟨ds, x, rest, split, stop, inside⟩ := exists_digits cfg plain (a :: s) member
      refine ⟨.digits ds, x, rest, split, ?_, fun _ ds' same => ?_, inside⟩
      · cases ds <;> simp [WidthPart.enabled, width]
      · obtain rfl := WidthPart.digits.inj same
        refine ⟨stop, ?_⟩
        rintro rfl
        rw [List.map_nil, List.nil_append] at split
        rwa [← (List.cons.inj split).1]
  · exact ⟨.digits [], a, s, rfl, rfl, fun on => absurd on width, member⟩

/-! ## Precision -/

/-- The record after the precision. -/
def applyPrecision (cfg : Config) (p : PrecisionPart) (spec : NpfFormatSpec) : NpfFormatSpec :=
  if cfg.precision then
    match p with
    | .absent => { spec with prec := 0, precOpt := .none }
    | .star => { spec with prec := 0, precOpt := .star }
    | .literal minus ds =>
        { spec with prec := literalNumber cfg ds, precOpt := if minus then .none else .literal }
  else spec

/-- The character cannot continue the precision. -/
def PrecisionStop (cfg : Config) (p : PrecisionPart) (c : Char) : Prop :=
  cfg.precision = true →
    match p with
    | .absent => c ≠ '.'
    | .star => True
    | .literal minus ds => cfg.isDigit c = false ∧ (minus = false → ds = [] → c ≠ '*' ∧ c ≠ '-')

theorem decimalChar_ne_minus (d : Fin 10) : decimalChar d ≠ '-' := by
  revert d
  decide

/-- The digit run of a literal precision, whatever its first character is. -/
theorem parsePrecision_digits {cfg : Config} (ds : List (Fin 10)) {c : Char}
    (plain : cfg.isDigit c = false) (bare : ds = [] → c ≠ '*' ∧ c ≠ '-') (rest : Cursor) :
    ∃ x tail, ds.map decimalChar ++ c :: rest = x :: tail ∧ x ≠ '*' ∧ x ≠ '-' ∧
      npfFmtNum cfg (x :: tail) 0 = .ok (c :: rest, literalNumber cfg ds) := by
  have run := npfFmtNum_text ds plain rest 0
  cases ds with
  | nil => exact ⟨c, rest, rfl, (bare rfl).1, (bare rfl).2, run⟩
  | cons d ds =>
      exact ⟨decimalChar d, ds.map decimalChar ++ c :: rest, rfl, decimalChar_ne_star d,
        decimalChar_ne_minus d, run⟩

theorem parsePrecision_text {cfg : Config} {p : PrecisionPart} (on : p.enabled cfg = true)
    {c : Char} (stop : PrecisionStop cfg p c) (rest : Cursor) (spec : NpfFormatSpec) :
    parsePrecision cfg (p.text ++ c :: rest) spec = .ok (c :: rest, applyPrecision cfg p spec) := by
  unfold parsePrecision applyPrecision
  by_cases precision : cfg.precision = true
  · simp only [precision, ↓reduceIte]
    have stop := stop precision
    match p with
    | .absent =>
        have dot : c ≠ '.' := stop
        simp [PrecisionPart.text, Cursor.deref, dot, bind, Except.bind, pure, Except.pure]
    | .star => rfl
    | .literal true ds =>
        have run := npfFmtNum_text ds stop.1 rest 0
        simp [PrecisionPart.text, Cursor.deref, Cursor.next, run, literalNumber, bind, Except.bind,
          pure, Except.pure]
    | .literal false ds =>
        obtain ⟨x, tail, split, star, minus, run⟩ :=
          parsePrecision_digits ds stop.1 (stop.2 rfl) rest
        simp [PrecisionPart.text, split, Cursor.deref, Cursor.next, star, minus, run, bind,
          Except.bind, pure, Except.pure]
  · have absent : p = .absent := by
      match p with
      | .absent => rfl
      | .star => exact absurd on precision
      | .literal _ _ => exact absurd on precision
    subst absent
    simp [precision, PrecisionPart.text, pure, Except.pure]

theorem exists_precision (cfg : Config) {nul : Char} (plain : cfg.isDigit nul = false)
    (special : nul ≠ '.' ∧ nul ≠ '*' ∧ nul ≠ '-') (s : List Char) (member : nul ∈ s) :
    ∃ (p : PrecisionPart) (x : Char) (rest : List Char), s = p.text ++ x :: rest ∧
      p.enabled cfg = true ∧ PrecisionStop cfg p x ∧ nul ∈ x :: rest := by
  obtain ⟨a, s, rfl⟩ := List.exists_cons_of_ne_nil (List.ne_nil_of_mem member)
  by_cases precision : cfg.precision = true
  swap
  · exact ⟨.absent, a, s, rfl, rfl, fun on => absurd on precision, member⟩
  by_cases dot : a = '.'
  swap
  · exact ⟨.absent, a, s, rfl, rfl, fun _ => dot, member⟩
  subst dot
  have inside : nul ∈ s := (List.mem_cons.mp member).resolve_left special.1
  obtain ⟨b, s, rfl⟩ := List.exists_cons_of_ne_nil (List.ne_nil_of_mem inside)
  by_cases star : b = '*'
  · subst star
    have later : nul ∈ s := (List.mem_cons.mp inside).resolve_left special.2.1
    obtain ⟨x, rest, rfl⟩ := List.exists_cons_of_ne_nil (List.ne_nil_of_mem later)
    exact ⟨.star, x, rest, rfl, precision, fun _ => trivial, later⟩
  by_cases minus : b = '-'
  · subst minus
    have later : nul ∈ s := (List.mem_cons.mp inside).resolve_left special.2.2
    obtain ⟨ds, x, rest, rfl, stop, last⟩ := exists_digits cfg plain s later
    exact ⟨.literal true ds, x, rest, rfl, precision, fun _ => ⟨stop, nofun⟩, last⟩
  · obtain ⟨ds, x, rest, split, stop, last⟩ := exists_digits cfg plain (b :: s) inside
    refine ⟨.literal false ds, x, rest, by rw [split]; rfl, precision, fun _ => ⟨stop, ?_⟩, last⟩
    rintro - rfl
    rw [List.map_nil, List.nil_append] at split
    rw [← (List.cons.inj split).1]
    exact ⟨star, minus⟩

/-! ## Length modifier -/

/-- The character cannot continue the length modifier. -/
def LengthStop (cfg : Config) : LengthToken → Char → Prop
  | .none, c =>
      ¬ (cfg.fixedWidth = true ∧ c = 'w') ∧ ¬ (cfg.small = true ∧ c = 'h') ∧ c ≠ 'l' ∧
        ¬ (cfg.float = true ∧ c = 'L') ∧
        ¬ (cfg.large = true ∧ (c = 'j' ∨ c = 'z' ∨ c = 't'))
  | .h, c => c ≠ 'h'
  | .l, c => cfg.large = true → c ≠ 'l'
  | _, _ => True

/-- A `wN` modifier comes with the fixed-width modifiers. -/
theorem LengthToken.fixedWidth_of_enabled {cfg : Config} {fast : Bool} {width : Width}
    (on : LengthToken.enabled cfg (.w fast width) = true) : cfg.fixedWidth = true := by
  cases width <;> simp_all [LengthToken.enabled]

theorem parseFixedWidth_text {cfg : Config} (fast : Bool) {width : Width}
    (on : LengthToken.enabled cfg (.w fast width) = true) (rest : Cursor) (spec : NpfFormatSpec) :
    parseFixedWidth cfg ((if fast then ['f'] else []) ++ LengthToken.widthText width ++ rest) spec =
      .ok (some rest, { spec with lengthModifier := lmOfW cfg fast width }) := by
  cases fast <;> cases width <;>
    simp_all [parseFixedWidth, LengthToken.widthText, LengthToken.enabled, Cursor.deref,
      Cursor.next, widthOfDigit, bind, Except.bind, pure, Except.pure]

theorem parseLengthModifier_text {cfg : Config} {m : LengthToken} (on : m.enabled cfg = true)
    {c : Char} (stop : LengthStop cfg m c) (rest : Cursor) (spec : NpfFormatSpec) :
    parseLengthModifier cfg (m.text ++ c :: rest) spec =
      .ok (some (c :: rest), { spec with lengthModifier := m.modifier cfg }) := by
  cases m with
  | none =>
      obtain ⟨wide, small, long, longDouble, large⟩ := stop
      have intmax : ¬ (cfg.large = true ∧ c = 'j') := fun both => large ⟨both.1, .inl both.2⟩
      have sizet : ¬ (cfg.large = true ∧ c = 'z') := fun both => large ⟨both.1, .inr (.inl both.2)⟩
      have ptrdiff : ¬ (cfg.large = true ∧ c = 't') :=
        fun both => large ⟨both.1, .inr (.inr both.2)⟩
      simp only [parseLengthModifier, LengthToken.text, LengthToken.modifier, List.nil_append,
        Cursor.deref, Cursor.next, bind, Except.bind, pure, Except.pure, Bool.and_eq_true,
        beq_iff_eq, if_neg wide, if_neg small, if_neg long, if_neg longDouble, if_neg intmax,
        if_neg sizet, if_neg ptrdiff]
  | w fast width =>
      have fixed := LengthToken.fixedWidth_of_enabled on
      have run := parseFixedWidth_text fast on (c :: rest) { spec with lengthModifier := .none }
      cases fast <;>
        simpa [parseLengthModifier, LengthToken.text, LengthToken.modifier, Cursor.deref,
          Cursor.next, fixed, bind, Except.bind] using run
  | l =>
      by_cases large : cfg.large = true
      · have next : c ≠ 'l' := stop large
        simp [parseLengthModifier, LengthToken.text, LengthToken.modifier, Cursor.deref,
          Cursor.next, large, next, bind, Except.bind, pure, Except.pure]
      · simp [parseLengthModifier, LengthToken.text, LengthToken.modifier, Cursor.deref,
          Cursor.next, large, bind, Except.bind, pure, Except.pure]
  | h =>
      have next : c ≠ 'h' := stop
      have small : cfg.small = true := on
      simp [parseLengthModifier, LengthToken.text, LengthToken.modifier, Cursor.deref,
        Cursor.next, small, next, bind, Except.bind, pure, Except.pure]
  | hh | ll | j | z | t | L =>
      have enabled := on
      simp only [LengthToken.enabled] at enabled
      simp [parseLengthModifier, LengthToken.text, LengthToken.modifier, Cursor.deref,
        Cursor.next, enabled, bind, Except.bind, pure, Except.pure]

theorem widthOfDigit_text {cfg : Config} {c : Char} {width : Width} {second : Option Char}
    (found : widthOfDigit cfg c = some (width, second)) :
    LengthToken.widthText width = c :: second.toList ∧ (width = .w64 → cfg.wBitsMax = 64) := by
  unfold widthOfDigit at found
  split_ifs at found with one three six eight
  · obtain ⟨rfl, rfl⟩ := Prod.mk.inj (Option.some.inj found)
    simpa [LengthToken.widthText] using (beq_iff_eq.mp one).symm
  · obtain ⟨rfl, rfl⟩ := Prod.mk.inj (Option.some.inj found)
    simpa [LengthToken.widthText] using (beq_iff_eq.mp three).symm
  · obtain ⟨rfl, rfl⟩ := Prod.mk.inj (Option.some.inj found)
    simp only [Bool.and_eq_true, beq_iff_eq] at six
    exact ⟨by simp [LengthToken.widthText, six.1], fun _ => six.2⟩
  · obtain ⟨rfl, rfl⟩ := Prod.mk.inj (Option.some.inj found)
    simpa [LengthToken.widthText] using (beq_iff_eq.mp eight).symm

/-- The `w` branch past the optional `f`. -/
theorem parseFixedWidth_cons {cfg : Config} (fast : Bool) {c : Char}
    (slow : fast = false → c ≠ 'f') (rest : Cursor) (spec : NpfFormatSpec) :
    parseFixedWidth cfg ((if fast then ['f'] else []) ++ c :: rest) spec =
      match widthOfDigit cfg c with
      | none => .ok (none, spec)
      | some (width, second) =>
        let spec := { spec with lengthModifier := lmOfW cfg fast width }
        match second with
        | none => .ok (some rest, spec)
        | some digit => rest.deref >>= fun c =>
            if c ≠ digit then pure (none, spec)
            else rest.next >>= fun cur => pure (some cur, spec) := by
  cases fast with
  | false =>
      have plain := slow rfl
      rcases found : widthOfDigit cfg c with - | ⟨width, - | digit⟩ <;>
        simp only [parseFixedWidth, Cursor.deref, Cursor.next, bind, Except.bind, pure,
          Except.pure, Bool.false_eq_true, ↓reduceIte, List.nil_append, beq_iff_eq, plain, found]
  | true =>
      rcases found : widthOfDigit cfg c with - | ⟨width, - | digit⟩ <;>
        simp only [parseFixedWidth, Cursor.deref, Cursor.next, bind, Except.bind, pure,
          Except.pure, ↓reduceIte, List.cons_append, List.nil_append, beq_self_eq_true, found]

theorem exists_fixedWidth (cfg : Config) (fixed : cfg.fixedWidth = true) (s : List Char)
    (member : NUL ∈ s) (spec : NpfFormatSpec) :
    (∃ (fast : Bool) (width : Width) (rest : List Char),
      s = (if fast then ['f'] else []) ++ LengthToken.widthText width ++ rest ∧
        LengthToken.enabled cfg (.w fast width) = true ∧ NUL ∈ rest) ∨
      ∃ spec', parseFixedWidth cfg s spec = .ok (none, spec') := by
  obtain ⟨fast, c, rest, rfl, slow, inside⟩ : ∃ (fast : Bool) (c : Char) (rest : List Char),
      s = (if fast then ['f'] else []) ++ c :: rest ∧ (fast = false → c ≠ 'f') ∧
        NUL ∈ c :: rest := by
    obtain ⟨a, s, rfl⟩ := List.exists_cons_of_ne_nil (List.ne_nil_of_mem member)
    by_cases f : a = 'f'
    · subst f
      have later : NUL ∈ s := (List.mem_cons.mp member).resolve_left (by decide)
      obtain ⟨c, rest, rfl⟩ := List.exists_cons_of_ne_nil (List.ne_nil_of_mem later)
      exact ⟨true, c, rest, rfl, nofun, later⟩
    · exact ⟨false, a, s, rfl, fun _ => f, member⟩
  rw [parseFixedWidth_cons fast slow]
  cases found : widthOfDigit cfg c with
  | none => exact .inr ⟨spec, rfl⟩
  | some pair =>
      obtain ⟨width, second⟩ := pair
      obtain ⟨text, wide⟩ := widthOfDigit_text found
      have on : LengthToken.enabled cfg (.w fast width) = true := by
        cases width <;> simp_all [LengthToken.enabled]
      have later : NUL ∈ rest := by
        refine (List.mem_cons.mp inside).resolve_left ?_
        rintro rfl
        simp [widthOfDigit, NUL] at found
      cases second with
      | none =>
          refine .inl ⟨fast, width, rest, ?_, on, later⟩
          rw [text, List.append_assoc]
          rfl
      | some digit =>
          obtain ⟨a, rest, rfl⟩ := List.exists_cons_of_ne_nil (List.ne_nil_of_mem later)
          by_cases same : a = digit
          · subst same
            have last : NUL ∈ rest := by
              refine (List.mem_cons.mp later).resolve_left ?_
              rintro rfl
              cases width <;> simp [LengthToken.widthText, NUL] at text
            refine .inl ⟨fast, width, rest, ?_, on, last⟩
            rw [text, List.append_assoc]
            rfl
          · refine .inr ⟨{ spec with lengthModifier := lmOfW cfg fast width }, ?_⟩
            simp [Cursor.deref, same, bind, Except.bind, pure, Except.pure]

theorem exists_length (cfg : Config) (s : List Char) (member : NUL ∈ s) (spec : NpfFormatSpec) :
    (∃ (m : LengthToken) (x : Char) (rest : List Char), s = m.text ++ x :: rest ∧
      m.enabled cfg = true ∧ LengthStop cfg m x ∧ NUL ∈ x :: rest) ∨
      ∃ spec', parseLengthModifier cfg s spec = .ok (none, spec') := by
  obtain ⟨a, s, rfl⟩ := List.exists_cons_of_ne_nil (List.ne_nil_of_mem member)
  -- a letter that is taken on its own leaves a nonempty rest
  have single : ∀ m : LengthToken, m.text = [a] → a ≠ NUL → m.enabled cfg = true →
      (∀ x, s.head? = some x → LengthStop cfg m x) →
      ∃ (m : LengthToken) (x : Char) (rest : List Char), a :: s = m.text ++ x :: rest ∧
        m.enabled cfg = true ∧ LengthStop cfg m x ∧ NUL ∈ x :: rest := by
    intro m text special on stop
    have later : NUL ∈ s := (List.mem_cons.mp member).resolve_left special.symm
    obtain ⟨x, rest, rfl⟩ := List.exists_cons_of_ne_nil (List.ne_nil_of_mem later)
    exact ⟨m, x, rest, by rw [text]; rfl, on, stop x rfl, later⟩
  -- a letter that is doubled
  have double : ∀ m : LengthToken, m.text = [a, a] → a ≠ NUL → m.enabled cfg = true →
      (∀ x, LengthStop cfg m x) → s.head? = some a →
      ∃ (m : LengthToken) (x : Char) (rest : List Char), a :: s = m.text ++ x :: rest ∧
        m.enabled cfg = true ∧ LengthStop cfg m x ∧ NUL ∈ x :: rest := by
    intro m text special on stop head
    have later : NUL ∈ s := (List.mem_cons.mp member).resolve_left special.symm
    obtain ⟨b, rest, rfl⟩ := List.exists_cons_of_ne_nil (List.ne_nil_of_mem later)
    obtain rfl : b = a := by simpa using head
    have last : NUL ∈ rest := (List.mem_cons.mp later).resolve_left special.symm
    obtain ⟨x, rest, rfl⟩ := List.exists_cons_of_ne_nil (List.ne_nil_of_mem last)
    exact ⟨m, x, rest, by rw [text]; rfl, on, stop x, last⟩
  by_cases wide : cfg.fixedWidth = true ∧ a = 'w'
  · obtain ⟨fixed, rfl⟩ := wide
    have later : NUL ∈ s := (List.mem_cons.mp member).resolve_left (by decide)
    rcases exists_fixedWidth cfg fixed s later { spec with lengthModifier := .none } with
      ⟨fast, width, rest, rfl, on, last⟩ | ⟨spec', run⟩
    · obtain ⟨x, rest, rfl⟩ := List.exists_cons_of_ne_nil (List.ne_nil_of_mem last)
      refine .inl ⟨.w fast width, x, rest, ?_, on, trivial, last⟩
      cases fast <;> simp [LengthToken.text]
    · refine .inr ⟨spec', ?_⟩
      simpa [parseLengthModifier, Cursor.deref, Cursor.next, fixed, bind, Except.bind] using run
  left
  by_cases small : cfg.small = true ∧ a = 'h'
  · obtain ⟨on, rfl⟩ := small
    by_cases twice : s.head? = some 'h'
    · exact double .hh rfl (by decide) on (fun _ => trivial) twice
    · exact single .h rfl (by decide) on fun x head same => twice (same ▸ head)
  by_cases long : a = 'l'
  · subst long
    by_cases twice : cfg.large = true ∧ s.head? = some 'l'
    · exact double .ll rfl (by decide) twice.1 (fun _ => trivial) twice.2
    · exact single .l rfl (by decide) rfl fun x head large same => twice ⟨large, same ▸ head⟩
  by_cases longDouble : cfg.float = true ∧ a = 'L'
  · obtain ⟨on, rfl⟩ := longDouble
    exact single .L rfl (by decide) on fun _ _ => trivial
  by_cases large : cfg.large = true ∧ (a = 'j' ∨ a = 'z' ∨ a = 't')
  · obtain ⟨on, rfl | rfl | rfl⟩ := large
    · exact single .j rfl (by decide) on fun _ _ => trivial
    · exact single .z rfl (by decide) on fun _ _ => trivial
    · exact single .t rfl (by decide) on fun _ _ => trivial
  exact ⟨.none, a, s, rfl, rfl, ⟨wide, small, long, longDouble, large⟩, member⟩

/-! ## Conversion -/

theorem or_thirtyTwo : ∀ c : Fin 128, 97 ≤ (c : ℕ) ||| 32 →
    (c : ℕ) ||| 32 = c ∨ (c : ℕ) ||| 32 = c + 32 := by
  decide

/-- The table is consulted for the letters `a` to `x` of either case. -/
theorem exists_letter_of_index (cfg : Config) {c : Char}
    (inside : cfg.toUnsigned (cfg.charValue (c.toNat ||| 32) - 'a'.toNat) < 24) :
    ∃ i < 24, cfg.toUnsigned (cfg.charValue (c.toNat ||| 32) - 'a'.toNat) = i ∧
      (c.toNat = 97 + i ∨ c.toNat = 65 + i) := by
  have range := (@Config.toUnsigned_sub_lt_iff cfg 97 24 (by omega) _).mp inside
  have below : c.toNat < 128 := by
    have grows : c.toNat ≤ c.toNat ||| 32 := Nat.left_le_or
    omega
  have index := @Config.toUnsigned_sub cfg 97 _ range.1 (by omega)
  refine ⟨(c.toNat ||| 32) - 97, by omega, index, ?_⟩
  rcases or_thirtyTwo ⟨c.toNat, below⟩ range.1 with same | upper
  · simp only at same
    omega
  · simp only at upper
    omega

theorem convOf_char {cfg : Config} {conv : Conversion} (on : conv.enabled cfg = true) :
    convOf cfg conv.char = conv.convSpec := by
  cases conv with
  | percent => rfl
  | letter l isUpper =>
      have index : ∀ m < 128, 97 ≤ m → cfg.toUnsigned (cfg.charValue m - 97) = m - 97 :=
        fun m below above => @Config.toUnsigned_sub cfg 97 m above below
      have hex := cfg.hex_float
      cases isUpper <;> cases l <;>
        simp_all [convOf, Conversion.char, Letter.lower, Letter.upper, lookup,
          Conversion.convSpec, Letter.convSpec, Conversion.enabled, Letter.enabled]

/-- The letters of the table, by their distance from `a`. -/
def letterTable : List (Option Letter) :=
  [some .a, some .b, some .c, some .d, some .e, some .f, some .g, none, some .i, none, none, none,
    none, some .n, some .o, some .p, none, none, some .s, none, some .u, none, none, some .x]

theorem letterTable_char : ∀ i : Fin 24, ∀ l : Letter, letterTable[(i : ℕ)]? = some (some l) →
    l.lower.toNat = 97 + i ∧ l.upper.toNat = 65 + i := by
  intro i l
  revert i
  cases l <;> decide

theorem lookup_eq (cfg : Config) :
    lookup cfg = letterTable.map fun
      | some l => if l.enabled cfg then l.convSpec else .none
      | none => .none := by
  have hex := cfg.hex_float
  cases float : cfg.float <;> cases floatHex : cfg.floatHex <;>
    simp_all [lookup, letterTable, Letter.enabled, Letter.convSpec]

theorem exists_conversion {cfg : Config} {c : Char} (found : convOf cfg c ≠ .none) :
    ∃ conv : Conversion, conv.enabled cfg = true ∧ conv.char = c := by
  unfold convOf at found
  split_ifs at found with percent
  · exact ⟨.percent, rfl, (beq_iff_eq.mp percent).symm⟩
  by_cases inside : cfg.toUnsigned (cfg.charValue (c.toNat ||| 32) - 'a'.toNat) < 24
  · obtain ⟨i, bound, index, letter⟩ := exists_letter_of_index cfg inside
    rw [index, lookup_eq, List.getD_eq_getElem?_getD, List.getElem?_map] at found
    obtain ⟨entry, stored⟩ : ∃ entry, letterTable[i]? = some entry :=
      ⟨_, List.getElem?_eq_getElem (show i < letterTable.length from bound)⟩
    rw [stored] at found
    cases entry with
    | none => exact absurd rfl found
    | some l =>
        have on : l.enabled cfg = true := by
          by_contra off
          simp [off] at found
        obtain ⟨lower, upper⟩ := letterTable_char ⟨i, bound⟩ l stored
        rcases letter with same | same
        · exact ⟨.letter l false, on, Char.toNat_inj.mp (lower.trans same.symm)⟩
        · exact ⟨.letter l true, on, Char.toNat_inj.mp (upper.trans same.symm)⟩
  · refine absurd ?_ found
    rw [List.getD_eq_getElem?_getD, List.getElem?_eq_none (by simpa [lookup] using inside)]
    rfl

theorem Conversion.char_land (conv : Conversion) :
    conv.char.toNat &&& 32 = conv.caseAdjust := by
  cases conv with
  | percent => rfl
  | letter l isUpper => cases isUpper <;> cases l <;> rfl

theorem Conversion.convSpec_ne_none (conv : Conversion) : conv.convSpec ≠ .none := by
  cases conv with
  | percent => decide
  | letter l isUpper => cases l <;> simp [convSpec, Letter.convSpec]

theorem parseConversion_text {cfg : Config} {conv : Conversion} (on : conv.enabled cfg = true)
    (rest : Cursor) (spec : NpfFormatSpec) :
    parseConversion cfg (conv.char :: rest) spec =
      .ok (some rest, { spec with convSpec := conv.convSpec, caseAdjust := conv.caseAdjust }) := by
  simp [parseConversion, Cursor.deref, Cursor.next, convOf_char on, conv.convSpec_ne_none,
    conv.char_land, bind, Except.bind, pure, Except.pure]

/-! ## Where one part ends and the next begins -/

/-- A character that starts no flag, no width and no precision. -/
def Plain (c : Char) : Prop :=
  ¬ (48 ≤ c.toNat ∧ c.toNat ≤ 57) ∧ c ∉ ['-', '+', ' ', '#', '*', '.']

instance (c : Char) : Decidable (Plain c) := inferInstanceAs (Decidable (_ ∧ _))

theorem Plain.isDigit {cfg : Config} {c : Char} (plain : Plain c) : cfg.isDigit c = false := by
  rw [Bool.eq_false_iff, Ne, cfg.isDigit_iff]
  exact plain.1

theorem Plain.isFlagChar {cfg : Config} {c : Char} (plain : Plain c) :
    isFlagChar cfg c = false := by
  rw [Bool.eq_false_iff, Ne, isFlagChar_iff]
  rintro ⟨f, -, rfl⟩
  revert plain
  cases f <;> decide

theorem Conversion.char_plain (conv : Conversion) : Plain conv.char := by
  cases conv with
  | percent => decide
  | letter l isUpper => cases isUpper <;> cases l <;> decide

theorem lengthStop_conversion (cfg : Config) (m : LengthToken) (conv : Conversion) :
    LengthStop cfg m conv.char := by
  have none_of : conv.char ∉ ['w', 'h', 'l', 'L', 'j', 'z', 't'] := by
    cases conv with
    | percent => decide
    | letter l isUpper => cases isUpper <;> cases l <;> decide
  simp only [List.mem_cons, List.not_mem_nil, or_false, not_or] at none_of
  cases m <;> simp_all [LengthStop]

theorem exists_head_length (m : LengthToken) (conv : Conversion) (rest : List Char) :
    ∃ c tail, m.text ++ conv.char :: rest = c :: tail ∧ Plain c := by
  cases m with
  | none => exact ⟨conv.char, rest, rfl, conv.char_plain⟩
  | w fast width => cases fast <;> exact ⟨'w', _, rfl, by decide⟩
  | hh | h | l | ll | j | z | t | L => exact ⟨_, _, rfl, by decide⟩

theorem exists_head_precision (p : PrecisionPart) {c : Char} (plain : Plain c)
    (rest : List Char) :
    ∃ x tail, p.text ++ c :: rest = x :: tail ∧ (x = '.' ∨ Plain x) := by
  match p with
  | .absent => exact ⟨c, rest, rfl, .inr plain⟩
  | .star => exact ⟨'.', _, rfl, .inl rfl⟩
  | .literal true _ => exact ⟨'.', _, rfl, .inl rfl⟩
  | .literal false _ => exact ⟨'.', _, rfl, .inl rfl⟩

theorem isFlagChar_dot (cfg : Config) : isFlagChar cfg '.' = false := by
  rw [Bool.eq_false_iff, Ne, isFlagChar_iff]
  rintro ⟨f, -, same⟩
  revert same
  cases f <;> decide

theorem isDigit_dot (cfg : Config) : cfg.isDigit '.' = false := by
  rw [Bool.eq_false_iff, Ne, cfg.isDigit_iff]
  decide

theorem decimalChar_ne_flag {d : Fin 10} (nonzero : d ≠ 0) (f : Flag) :
    f.char ≠ decimalChar d := by
  revert nonzero
  cases f <;> revert d <;> decide

/-- A width that does not start with `0` starts with no flag. -/
theorem exists_head_width {cfg : Config} {w : WidthPart}
    (greedy : ∀ ds, w = .digits ds → ds.head? ≠ some 0) {c : Char}
    (next : c = '.' ∨ Plain c) (rest : List Char) :
    ∃ x tail, w.text ++ c :: rest = x :: tail ∧ isFlagChar cfg x = false := by
  match w with
  | .star =>
      refine ⟨'*', _, rfl, ?_⟩
      rw [Bool.eq_false_iff, Ne, isFlagChar_iff]
      rintro ⟨f, -, same⟩
      revert same
      cases f <;> decide
  | .digits [] =>
      rcases next with rfl | plain
      · exact ⟨'.', rest, rfl, isFlagChar_dot cfg⟩
      · exact ⟨c, rest, rfl, plain.isFlagChar⟩
  | .digits (d :: ds) =>
      refine ⟨decimalChar d, _, rfl, ?_⟩
      rw [Bool.eq_false_iff, Ne, isFlagChar_iff]
      rintro ⟨f, -, same⟩
      refine decimalChar_ne_flag ?_ f same
      rintro rfl
      exact greedy _ rfl rfl

theorem widthStop_of_next {cfg : Config} (w : WidthPart) {c : Char} (next : c = '.' ∨ Plain c) :
    WidthStop cfg w c := by
  rintro - ds -
  rcases next with rfl | plain
  · exact ⟨isDigit_dot cfg, fun _ => by decide⟩
  · refine ⟨plain.isDigit, fun _ => ?_⟩
    rintro rfl
    exact absurd plain (by decide)

theorem precisionStop_of_plain {cfg : Config} (p : PrecisionPart) {c : Char} (plain : Plain c) :
    PrecisionStop cfg p c := by
  have other : c ≠ '.' ∧ c ≠ '*' ∧ c ≠ '-' := by
    refine ⟨?_, ?_, ?_⟩ <;> rintro rfl <;> exact absurd plain (by decide)
  intro
  match p with
  | .absent => exact other.1
  | .star => trivial
  | .literal _ _ => exact ⟨plain.isDigit, fun _ _ => other.2⟩

/-! ## The whole specification -/

/-- The record the parser starts from. -/
def resetSpec (cfg : Config) (old : NpfFormatSpec) : NpfFormatSpec :=
  { old with
    leftJustified := if cfg.fieldWidth then false else old.leftJustified
    leadingZeroPad := if cfg.fieldWidth then false else old.leadingZeroPad
    prepend := NUL
    altForm := if cfg.altForm then false else old.altForm }

theorem npfParseFormatSpecEnd_reset (cfg : Config) (format : Cursor) (old : NpfFormatSpec) :
    npfParseFormatSpecEnd cfg format old = (do
      let (cur, spec) ← parseFlags cfg format (resetSpec cfg old)
      let (cur, spec) ← parseFieldWidth cfg cur spec
      let (cur, spec) ← parsePrecision cfg cur spec
      match ← parseLengthModifier cfg cur spec with
      | (none, spec) => pure (none, spec)
      | (some cur, spec) => parseConversion cfg cur spec) := by
  unfold npfParseFormatSpecEnd resetSpec
  cases cfg.fieldWidth <;> cases cfg.altForm <;> rfl

/-- What the five parts of a directive make of the record. -/
theorem Directive.denote_eq (cfg : Config) {d : Directive} (on : d.enabled cfg = true)
    (old : NpfFormatSpec) :
    d.denote cfg old =
      { applyPrecision cfg d.precision (applyWidth cfg d.width
          (d.flags.foldl applyFlag (resetSpec cfg old))) with
        lengthModifier := d.length.modifier cfg
        convSpec := d.conversion.convSpec
        caseAdjust := d.conversion.caseAdjust } := by
  simp only [Directive.enabled, Bool.and_eq_true, List.all_eq_true] at on
  obtain ⟨⟨⟨⟨flagsOn, widthOn⟩, precisionOn⟩, -⟩, -⟩ := on
  -- a flag of a feature that is compiled out does not occur
  have minus : cfg.fieldWidth = false → Flag.minus ∉ d.flags := fun off member =>
    absurd (flagsOn .minus member) (by simp [Flag.enabled, off])
  have zero : cfg.fieldWidth = false → Flag.zero ∉ d.flags := fun off member =>
    absurd (flagsOn .zero member) (by simp [Flag.enabled, off])
  have hash : cfg.altForm = false → Flag.hash ∉ d.flags := fun off member =>
    absurd (flagsOn .hash member) (by simp [Flag.enabled, off])
  have plus : NUL ≠ '+' := by decide
  obtain ⟨flags, width, precision, length, conversion⟩ := d
  rw [foldl_applyFlag]
  rcases precision with _ | _ | ⟨_ | _, _⟩ <;> rcases width with _ | ⟨_ | _⟩ <;>
    cases widths : cfg.fieldWidth <;> cases precisions : cfg.precision <;>
    cases alternates : cfg.altForm <;>
    simp_all [Directive.denote, applyPrecision, applyWidth, resetSpec, Directive.prepend,
      WidthPart.enabled, PrecisionPart.enabled]

/-- Completeness: whatever follows a directive, the parser stops right behind it
with the record the directive denotes. -/
theorem npfParseFormatSpecEnd_text {cfg : Config} {d : Directive} (on : d.enabled cfg = true)
    (greedy : d.Greedy) (rest : Cursor) (old : NpfFormatSpec) :
    npfParseFormatSpecEnd cfg (d.text ++ rest) old = .ok (some rest, d.denote cfg old) := by
  have parts := on
  simp only [Directive.enabled, Bool.and_eq_true] at parts
  obtain ⟨⟨⟨⟨flags, width⟩, precision⟩, length⟩, conversion⟩ := parts
  obtain ⟨c₃, t₃, split₃, plain⟩ := exists_head_length d.length d.conversion rest
  obtain ⟨c₂, t₂, split₂, next⟩ := exists_head_precision d.precision plain t₃
  obtain ⟨c₁, t₁, split₁, stop⟩ := @exists_head_width cfg _ greedy _ next t₂
  have text : d.text ++ rest = '%' :: (d.flags.map Flag.char ++ c₁ :: t₁) := by
    rw [← split₁, ← split₂, ← split₃]
    simp [Directive.text, Directive.body]
  rw [npfParseFormatSpecEnd_reset, text, parseFlags_text d.flags flags stop]
  simp only [bind, Except.bind]
  rw [← split₁, parseFieldWidth_text width (widthStop_of_next d.width next)]
  simp only
  rw [← split₂, parsePrecision_text precision (precisionStop_of_plain d.precision plain)]
  simp only
  rw [← split₃, parseLengthModifier_text length (lengthStop_conversion cfg d.length d.conversion)]
  simp only
  rw [parseConversion_text conversion, Directive.denote_eq cfg on]

/-- Soundness: if the string starts with no directive, the parser reports so
without reading past the terminator. -/
theorem exists_directive (cfg : Config) (s : List Char) (member : NUL ∈ s) (old : NpfFormatSpec) :
    (∃ (d : Directive) (rest : List Char), '%' :: s = d.text ++ rest ∧ d.enabled cfg = true ∧
      d.Greedy ∧ NUL ∈ rest) ∨
      ∃ spec, npfParseFormatSpecEnd cfg ('%' :: s) old = .ok (none, spec) := by
  have nulFlag : isFlagChar cfg NUL = false := Plain.isFlagChar (by decide)
  have nulDigit : cfg.isDigit NUL = false := Plain.isDigit (by decide)
  obtain ⟨flags, c₁, t₁, rfl, flagsOn, stop₁, in₁⟩ := exists_flags cfg nulFlag s member
  obtain ⟨width, c₂, t₂, split₂, widthOn, stop₂, in₂⟩ :=
    exists_width cfg nulDigit (by decide) (c₁ :: t₁) in₁
  obtain ⟨precision, c₃, t₃, split₃, precisionOn, stop₃, in₃⟩ :=
    exists_precision cfg nulDigit (by decide) (c₂ :: t₂) in₂
  -- the run up to the length modifier
  have run : ∃ spec, npfParseFormatSpecEnd cfg ('%' :: (flags.map Flag.char ++ c₁ :: t₁)) old =
      (do match ← parseLengthModifier cfg (c₃ :: t₃) spec with
          | (none, spec) => pure (none, spec)
          | (some cur, spec) => parseConversion cfg cur spec) := by
    refine ⟨applyPrecision cfg precision (applyWidth cfg width
      (flags.foldl applyFlag (resetSpec cfg old))), ?_⟩
    rw [npfParseFormatSpecEnd_reset, parseFlags_text flags flagsOn stop₁]
    simp only [bind, Except.bind]
    rw [split₂, parseFieldWidth_text widthOn stop₂]
    simp only
    rw [split₃, parsePrecision_text precisionOn stop₃]
  obtain ⟨spec, run⟩ := run
  rcases exists_length cfg (c₃ :: t₃) in₃ spec with
    ⟨length, c₄, t₄, split₄, lengthOn, stop₄, in₄⟩ | ⟨spec', fail⟩
  · by_cases found : convOf cfg c₄ = .none
    · right
      rw [run, split₄, parseLengthModifier_text lengthOn stop₄]
      refine ⟨{ spec with lengthModifier := length.modifier cfg }, ?_⟩
      simp [parseConversion, Cursor.deref, Cursor.next, found, bind, Except.bind, pure,
        Except.pure]
    · obtain ⟨conversion, conversionOn, rfl⟩ := exists_conversion found
      left
      refine ⟨⟨flags, width, precision, length, conversion⟩, t₄, ?_, ?_, ?_, ?_⟩
      · rw [split₂, split₃, split₄]
        simp [Directive.text, Directive.body]
      · simp [Directive.enabled, flagsOn, widthOn, precisionOn, lengthOn, conversionOn]
      · rintro ds rfl zero
        obtain ⟨ds, rfl⟩ := List.head?_eq_some_iff.mp zero
        have flag : Flag.zero.enabled cfg = true := widthOn
        have first : c₁ = '0' := (List.cons.inj split₂).1
        rw [Bool.eq_false_iff, Ne, isFlagChar_iff] at stop₁
        exact stop₁ ⟨.zero, flag, first.symm⟩
      · refine (List.mem_cons.mp in₄).resolve_left fun same => ?_
        cases conversion with
        | percent => revert same; decide
        | letter l isUpper => revert same; cases isUpper <;> cases l <;> decide
  · right
    rw [run, fail]
    exact ⟨spec', rfl⟩

/-- The zeros a digit run starts with. -/
theorem exists_leading_zeros (ds : List (Fin 10)) :
    ∃ (k : ℕ) (rest : List (Fin 10)), ds = List.replicate k 0 ++ rest ∧ rest.head? ≠ some 0 := by
  induction ds with
  | nil => exact ⟨0, [], rfl, nofun⟩
  | cons d ds ih =>
      by_cases zero : d = 0
      · obtain ⟨k, rest, rfl, head⟩ := ih
        exact ⟨k + 1, rest, by rw [zero, List.replicate_succ, List.cons_append], head⟩
      · exact ⟨0, d :: ds, rfl, by simpa using zero⟩

/-- Every directive has the text of one whose leading zeros are flags, which uses
the same features. -/
theorem Directive.exists_greedy (d : Directive) :
    ∃ g : Directive, g.Greedy ∧ (∀ cfg : Config, g.enabled cfg = d.enabled cfg) ∧
      g.text = d.text ∧ g.conversion = d.conversion := by
  obtain ⟨flags, width, precision, length, conversion⟩ := d
  cases width with
  | star =>
      exact ⟨⟨flags, .star, precision, length, conversion⟩, fun _ same => by simp at same,
        fun _ => rfl, rfl, rfl⟩
  | digits ds =>
      obtain ⟨k, rest, rfl, head⟩ := exists_leading_zeros ds
      refine ⟨⟨flags ++ List.replicate k .zero, .digits rest, precision, length, conversion⟩,
        ?_, fun cfg => ?_, ?_, rfl⟩
      · rintro ds same
        rwa [← WidthPart.digits.inj same]
      · have parts : ((List.replicate k Flag.zero).all (Flag.enabled cfg) &&
            WidthPart.enabled cfg (.digits rest)) =
              WidthPart.enabled cfg (.digits (List.replicate k 0 ++ rest)) := by
          cases k with
          | zero => rfl
          | succ k =>
              rcases rest with - | ⟨digit, rest⟩ <;> rcases on : cfg.fieldWidth <;>
                simp [List.replicate_succ, Flag.enabled, WidthPart.enabled, on]
        simp only [Directive.enabled, List.all_append, Bool.and_assoc, ← parts]
      · have zero : decimalChar 0 = Flag.zero.char := by decide
        simp [Directive.text, Directive.body, WidthPart.text, zero]

/-- The parse is determined by the directive the string starts with. -/
theorem npfParseFormatSpecEnd_of_text {cfg : Config} {d : Directive} (on : d.enabled cfg = true)
    (rest : Cursor) (old : NpfFormatSpec) :
    ∃ g : Directive, g.Greedy ∧ g.enabled cfg = true ∧ g.text = d.text ∧
      npfParseFormatSpecEnd cfg (d.text ++ rest) old = .ok (some rest, g.denote cfg old) := by
  obtain ⟨g, greedy, enabled, text, -⟩ := d.exists_greedy
  have enabled := (enabled cfg).trans on
  exact ⟨g, greedy, enabled, text, text ▸ npfParseFormatSpecEnd_text enabled greedy rest old⟩

/-- **The parser accepts exactly its grammar.** On every NUL-terminated string
that starts with `%` the parser runs to its end inside the string. It succeeds if
and only if a directive the build supports is at the start; the cursor is then
behind that directive and, the leading zeros of the width read as flags, the
record is the one the directive denotes. -/
theorem npfParseFormatSpecEnd_accepts_grammar (cfg : Config) (s : List Char)
    (old : NpfFormatSpec) :
    ∃ (result : Option Cursor) (spec : NpfFormatSpec),
      npfParseFormatSpecEnd cfg ('%' :: s ++ [NUL]) old = .ok (result, spec) ∧
      (result.isSome = true ↔ ∃ (d : Directive) (rest : List Char),
        d.enabled cfg = true ∧ '%' :: s = d.text ++ rest) ∧
      ∀ (d : Directive) (rest : List Char), d.enabled cfg = true → '%' :: s = d.text ++ rest →
        result = some (rest ++ [NUL]) ∧ (d.Greedy → spec = d.denote cfg old) := by
  have append : ∀ {d : Directive} {rest : List Char}, '%' :: s = d.text ++ rest →
      '%' :: s ++ [NUL] = d.text ++ (rest ++ [NUL]) := by
    intro d rest split
    rw [split, List.append_assoc]
  rcases exists_directive cfg (s ++ [NUL]) (by simp) old with
    ⟨d₀, rest₀, split₀, on₀, greedy₀, inside⟩ | ⟨spec, run⟩
  · have run := npfParseFormatSpecEnd_text on₀ greedy₀ rest₀ old
    rw [← split₀] at run
    refine ⟨some rest₀, d₀.denote cfg old, run, ⟨fun _ => ?_, fun _ => rfl⟩, ?_⟩
    · -- the terminator is what remains last
      obtain ⟨front, last, rfl⟩ : ∃ front last, rest₀ = front ++ [last] :=
        ⟨_, _, (List.dropLast_append_getLast (List.ne_nil_of_mem inside)).symm⟩
      refine ⟨d₀, front, on₀, ?_⟩
      have whole : '%' :: s ++ [NUL] = (d₀.text ++ front) ++ [last] := by
        rw [List.append_assoc]
        exact split₀
      exact (List.append_inj' whole rfl).1
    · intro d rest on split
      obtain ⟨g, -, -, text, stops⟩ := npfParseFormatSpecEnd_of_text on (rest ++ [NUL]) old
      rw [← append split] at stops
      have same := Except.ok.inj (run.symm.trans stops)
      refine ⟨congrArg Prod.fst same, fun greedy => ?_⟩
      have agrees := npfParseFormatSpecEnd_text on greedy (rest ++ [NUL]) old
      rw [← append split] at agrees
      exact congrArg Prod.snd (Except.ok.inj (run.symm.trans agrees))
  · have refuted : ∀ (d : Directive) (rest : List Char), d.enabled cfg = true →
        '%' :: s ≠ d.text ++ rest := by
      intro d rest on split
      obtain ⟨g, -, -, -, stops⟩ := npfParseFormatSpecEnd_of_text on (rest ++ [NUL]) old
      rw [← append split] at stops
      exact absurd (Except.ok.inj (run.symm.trans stops)) (by simp)
    refine ⟨none, spec, run, ⟨nofun, ?_⟩, fun d rest on split => absurd split (refuted d rest on)⟩
    rintro ⟨d, rest, on, split⟩
    exact absurd split (refuted d rest on)

/-- A run too long for an `int` does not denote its number. -/
theorem npfParseFormatSpecEnd_saturates :
    ∃ spec, npfParseFormatSpecEnd .standard ("%99999999999d".toList ++ [NUL]) .zeroed =
        .ok (some [NUL], spec) ∧
      spec.fieldWidth = 999999999 ∧ decimalValue (List.replicate 11 9) = 99999999999 ∧
      "%99999999999d".toList = Directive.text
        ⟨[], .digits (List.replicate 11 9), .absent, .none, .letter .d false⟩ :=
  ⟨_, rfl, rfl, rfl, rfl⟩

end Nanoprintf
