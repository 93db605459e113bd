import Nanoprintf.Pieces
import Nanoprintf.RealText

/-!
# Widths and precisions that are too big

The parser stops adding digits to a number once another digit might not fit an
`int`, and the engine puts a ceiling on what it gets. Where the numbers at which
the parser stops are above the ceiling, the two together saturate. For a 16-bit
`int` they are not: the parser stops at 2048 and the ceiling is 8192, so a run
that goes on behind a number between them is cut short.
-/

set_option autoImplicit false

namespace Nanoprintf

open Foundations

variable {cfg : Config}

/-! ## Digit runs -/

theorem decimalFrom_concat (n : ℕ) (ds : List (Fin 10)) (d : Fin 10) :
    decimalFrom n (ds ++ [d]) = 10 * decimalFrom n ds + d := by
  induction ds generalizing n with
  | nil => rfl
  | cons e ds ih => exact ih _

theorem literalFrom_concat (n : ℕ) (ds : List (Fin 10)) (d : Fin 10) :
    literalFrom cfg n (ds ++ [d]) =
      if cfg.fmtNumBig (literalFrom cfg n ds) = true then literalFrom cfg n ds
      else 10 * literalFrom cfg n ds + d := by
  induction ds generalizing n with
  | nil => rfl
  | cons e ds ih =>
      rw [List.cons_append, literalFrom, literalFrom]
      split_ifs with big
      · rfl
      · rw [ih, if_pos (by assumption)]
      · rw [ih, if_neg (by assumption)]

/-- The number a longer beginning denotes. -/
theorem decimalValue_take_succ {ds : List (Fin 10)} {k : ℕ} (inside : k < ds.length) :
    decimalValue (ds.take (k + 1)) = 10 * decimalValue (ds.take k) + ds[k] := by
  rw [List.take_succ_eq_append_getElem inside]
  exact decimalFrom_concat 0 _ _

theorem decimalValue_take_le (ds : List (Fin 10)) {j k : ℕ} (shorter : j ≤ k) :
    decimalValue (ds.take j) ≤ decimalValue (ds.take k) := by
  induction k, shorter using Nat.le_induction with
  | base => exact le_rfl
  | succ k shorter ih =>
      by_cases inside : k < ds.length
      · rw [decimalValue_take_succ inside]
        omega
      · rw [List.take_of_length_le (not_lt.mp inside)] at ih
        rwa [List.take_of_length_le (show ds.length ≤ k + 1 by omega)]

/-- Digits behind a beginning make at least ten times as much of it. -/
theorem decimalValue_ge {ds : List (Fin 10)} {k : ℕ} (inside : k < ds.length) :
    10 * decimalValue (ds.take k) ≤ decimalValue ds := by
  have next := decimalValue_take_succ inside
  have whole := decimalValue_take_le ds (show k + 1 ≤ ds.length from inside)
  rw [List.take_length] at whole
  omega

/-- The parser takes the digits up to the first number that is too big for another one. -/
theorem exists_literalNumber (cfg : Config) (ds : List (Fin 10)) :
    ∃ k ≤ ds.length, literalNumber cfg ds = decimalValue (ds.take k) ∧
      (k = ds.length ∨ cfg.fmtNumBig (decimalValue (ds.take k)) = true) ∧
      ∀ j < k, cfg.fmtNumBig (decimalValue (ds.take j)) = false := by
  induction ds using List.reverseRecOn with
  | nil => exact ⟨0, le_rfl, rfl, .inl rfl, nofun⟩
  | append_singleton ds d ih =>
      obtain ⟨k, inside, value, stops, before⟩ := ih
      have same : ∀ j ≤ ds.length, (ds ++ [d]).take j = ds.take j := fun j le =>
        List.take_append_of_le_length le
      have step : literalNumber cfg (ds ++ [d]) =
          if cfg.fmtNumBig (literalNumber cfg ds) = true then literalNumber cfg ds
          else 10 * literalNumber cfg ds + d := literalFrom_concat 0 ds d
      rw [step, value]
      by_cases big : cfg.fmtNumBig (decimalValue (ds.take k)) = true
      · refine ⟨k, by simp; omega, ?_, .inr ?_, fun j less => ?_⟩
        · rw [if_pos big, same k inside]
        · rwa [same k inside]
        · rw [same j (by omega)]
          exact before j less
      · obtain rfl := stops.resolve_right big
        refine ⟨ds.length + 1, by simp, ?_, .inl (by simp), fun j less => ?_⟩
        · have whole : (ds ++ [d]).take (ds.length + 1) = ds ++ [d] :=
            List.take_of_length_le (by simp)
          rw [if_neg big, whole, List.take_length]
          exact (decimalFrom_concat 0 ds d).symm
        · rw [same j (by omega)]
          rcases Nat.lt_or_ge j ds.length with shorter | whole
          · exact before j shorter
          · rw [show j = ds.length by omega]
            exact Bool.not_eq_true _ ▸ big

/-- A number with five bits less than an `int` has is big. -/
theorem Config.le_of_fmtNumBig {n : ℕ} (big : cfg.fmtNumBig n = true) : 2048 ≤ n := by
  unfold Config.fmtNumBig at big
  split_ifs at big with wide
  · have quotient : n / 2 ^ 27 ≠ 0 := of_decide_eq_true big
    have large := (Nat.div_ne_zero_iff.mp quotient).2
    omega
  · exact of_decide_eq_true big

/-- The run goes on behind a number that is too big for another digit, but not for the ceiling. -/
def CutShort (cfg : Config) (ds : List (Fin 10)) : Prop :=
  ∃ k < ds.length, cfg.fmtNumBig (decimalValue (ds.take k)) = true ∧
    (decimalValue (ds.take k) : ℤ) < cfg.fmtNumMax

/-- **A literal saturates unless its run is cut short.** -/
theorem literalNumber_saturates_iff (ds : List (Fin 10)) :
    min (literalNumber cfg ds) cfg.fmtNumMax.toNat = min (decimalValue ds) cfg.fmtNumMax.toNat ↔
      ¬ CutShort cfg ds := by
  obtain ⟨k, inside, value, stops, before⟩ := exists_literalNumber cfg ds
  obtain ⟨lower, -⟩ := fmtNumMax_bounds cfg
  rw [value]
  rcases Nat.lt_or_ge k ds.length with shorter | whole
  · have big := stops.resolve_left shorter.ne
    have least := Config.le_of_fmtNumBig big
    have more := decimalValue_ge shorter
    constructor
    · rintro same ⟨j, less, bigger, below⟩
      have later : k ≤ j := by
        by_contra earlier
        rw [before j (by omega)] at bigger
        cases bigger
      have order := decimalValue_take_le ds later
      omega
    · intro kept
      have above : ¬ (decimalValue (ds.take k) : ℤ) < cfg.fmtNumMax := fun below =>
        kept ⟨k, shorter, big, below⟩
      omega
  · rw [List.take_of_length_le whole]
    refine iff_of_true rfl ?_
    rintro ⟨j, less, big, -⟩
    rw [before j (by omega)] at big
    cases big

/-- The parser does not make a number greater. -/
theorem literalNumber_le (cfg : Config) (ds : List (Fin 10)) :
    literalNumber cfg ds ≤ decimalValue ds := by
  obtain ⟨k, inside, value, -⟩ := exists_literalNumber cfg ds
  rw [value]
  conv_rhs => rw [← @List.take_length _ ds]
  exact decimalValue_take_le ds inside

theorem CutShort.le_literalNumber {ds : List (Fin 10)} (short : CutShort cfg ds) :
    2048 ≤ literalNumber cfg ds := by
  obtain ⟨j, less, big, -⟩ := short
  obtain ⟨k, inside, value, stops, before⟩ := exists_literalNumber cfg ds
  rw [value]
  rcases stops with rfl | large
  · rw [before j less] at big
    cases big
  · exact Config.le_of_fmtNumBig large

/-- A number that is cut short is less than the one that is meant, the ceiling included. -/
theorem CutShort.literalNumber_lt {ds : List (Fin 10)} (short : CutShort cfg ds) :
    literalNumber cfg ds < min (decimalValue ds) cfg.fmtNumMax.toNat := by
  have differ : ¬ min (literalNumber cfg ds) cfg.fmtNumMax.toNat =
      min (decimalValue ds) cfg.fmtNumMax.toNat := fun same =>
    (literalNumber_saturates_iff ds).mp same short
  have order := literalNumber_le cfg ds
  omega

/-- A number that is not greater than any beginning at which a run may be cut short. -/
def UnderCuts (cfg : Config) (ds : List (Fin 10)) (n : ℕ) : Prop :=
  ∀ k < ds.length, cfg.fmtNumBig (decimalValue (ds.take k)) = true →
    (decimalValue (ds.take k) : ℤ) < cfg.fmtNumMax → n ≤ decimalValue (ds.take k)

theorem underCuts_iff {ds : List (Fin 10)} {n : ℕ} :
    UnderCuts cfg ds n ↔ (CutShort cfg ds → n ≤ literalNumber cfg ds) := by
  obtain ⟨k, inside, value, stops, before⟩ := exists_literalNumber cfg ds
  have first : ∀ j, cfg.fmtNumBig (decimalValue (ds.take j)) = true → k ≤ j := by
    intro j big
    by_contra earlier
    rw [before j (not_le.mp earlier)] at big
    cases big
  rw [value]
  constructor
  · rintro under ⟨j, less, big, below⟩
    have early := first j big
    have order := decimalValue_take_le ds early
    exact under k (early.trans_lt less) (stops.resolve_left (early.trans_lt less).ne) (by omega)
  · intro under j less big below
    exact (under ⟨j, less, big, below⟩).trans (decimalValue_take_le ds (first j big))

/-- A beginning of a run denotes the number without its last digits. -/
theorem decimalValue_take {ds : List (Fin 10)} {k : ℕ} (inside : k ≤ ds.length) :
    decimalValue (ds.take k) = decimalValue ds / 10 ^ (ds.length - k) := by
  induction inside using Nat.decreasingInduction with
  | self => rw [List.take_length, Nat.sub_self, pow_zero, Nat.div_one]
  | of_succ k shorter ih =>
      have digit : decimalValue (ds.take (k + 1)) / 10 = decimalValue (ds.take k) := by
        rw [decimalValue_take_succ shorter]
        omega
      rw [← digit, ih, Nat.div_div_eq_div_mul, ← pow_succ,
        show ds.length - (k + 1) + 1 = ds.length - k by omega]

/-- For a 16-bit `int` the runs that are cut short are those of the numbers that have between
2048 and 8192 without some of their last digits. -/
theorem cutShort_iff_of_narrow (narrow : cfg.intMax = 32767) (ds : List (Fin 10)) :
    CutShort cfg ds ↔
      ∃ k, 2048 ≤ decimalValue ds / 10 ^ (k + 1) ∧ decimalValue ds / 10 ^ (k + 1) < 8192 := by
  have ceiling : cfg.fmtNumMax = 8192 := by
    rw [Config.fmtNumMax, narrow]
    norm_num
  have big : ∀ n, cfg.fmtNumBig n = true ↔ 2048 ≤ n := fun n => by
    simp [Config.fmtNumBig, narrow]
  simp only [CutShort, big, ceiling]
  constructor
  · rintro ⟨k, inside, least, most⟩
    rw [decimalValue_take inside.le, show ds.length - k = ds.length - k - 1 + 1 by omega]
      at least most
    exact ⟨ds.length - k - 1, least, by exact_mod_cast most⟩
  · rintro ⟨k, least, most⟩
    have inside : k + 1 ≤ ds.length := by
      by_contra short
      have zero : decimalValue ds / 10 ^ ds.length = 0 := (decimalValue_take (Nat.zero_le _)).symm
      have order : decimalValue ds / 10 ^ (k + 1) ≤ decimalValue ds / 10 ^ ds.length :=
        Nat.div_le_div_left (Nat.pow_le_pow_right (by norm_num) (by omega)) (by positivity)
      omega
    have value := @decimalValue_take ds (ds.length - (k + 1)) (by omega)
    rw [show ds.length - (ds.length - (k + 1)) = k + 1 by omega] at value
    exact ⟨ds.length - (k + 1), by omega, by omega, by rw [value]; exact_mod_cast most⟩

/-- For a 32-bit `int` and a buffer of no more than the ceiling no run is cut short. -/
theorem not_cutShort_of_wide (wide : cfg.intMax = 2147483647) (buffer : cfg.cbuf ≤ 65280)
    (ds : List (Fin 10)) : ¬ CutShort cfg ds := by
  have ceiling : cfg.fmtNumMax = 65280 := by
    rw [Config.fmtNumMax, wide]
    simp [not_lt.mpr buffer]
  rintro ⟨k, -, big, below⟩
  have quotient : decimalValue (ds.take k) / 2 ^ 27 ≠ 0 := by
    simpa [Config.fmtNumBig, wide] using big
  have large := (Nat.div_ne_zero_iff.mp quotient).2
  rw [ceiling] at below
  omega

/-- For these two a number under the ceiling is read as it is written. -/
theorem literalNumber_of_le (target : cfg.intMax = 32767 ∨ cfg.intMax = 2147483647)
    (buffer : cfg.cbuf ≤ 65280) {ds : List (Fin 10)}
    (under : (decimalValue ds : ℤ) ≤ cfg.fmtNumMax) : literalNumber cfg ds = decimalValue ds := by
  have kept : ¬ CutShort cfg ds := by
    rcases target with narrow | wide
    · have ceiling : cfg.fmtNumMax = 8192 := by
        rw [Config.fmtNumMax, narrow]
        norm_num
      rintro ⟨k, inside, big, -⟩
      have least := Config.le_of_fmtNumBig big
      have more := decimalValue_ge inside
      omega
    · exact not_cutShort_of_wide wide buffer ds
  have same := (literalNumber_saturates_iff ds).mpr kept
  have order := literalNumber_le cfg ds
  omega

/-! ## What is asked for -/

/-- The width as the format and the arguments ask for it, under the ceiling. -/
def wantedWidth (cfg : Config) (w : WidthPart) (args : List Arg) : Run (ℕ × Bool × List Arg) :=
  match w with
  | .digits ds => .ok (min (decimalValue ds) cfg.fmtNumMax.toNat, false, args)
  | .star => do
    let (v, args) ← vaInt cfg.intBits args
    pure (min v.toInt.natAbs cfg.fmtNumMax.toNat, decide (v.toInt < 0), args)

/-- The precision as the format and the arguments ask for it, under the ceiling; none for a
negative one. -/
def wantedPrecision (cfg : Config) (p : PrecisionPart) (args : List Arg) :
    Run (Option ℕ × List Arg) :=
  match p with
  | .absent => .ok (none, args)
  | .literal true _ => .ok (none, args)
  | .literal false ds => .ok (some (min (decimalValue ds) cfg.fmtNumMax.toNat), args)
  | .star => do
    let (v, args) ← vaInt cfg.intBits args
    pure (if v.toInt < 0 then none else some (min v.toInt.toNat cfg.fmtNumMax.toNat), args)

theorem resolveWidth_eq_wanted_iff (w : WidthPart) (args : List Arg) :
    resolveWidth cfg w args = wantedWidth cfg w args ↔
      ∀ ds, w = .digits ds → ¬ CutShort cfg ds := by
  rcases w with - | ds
  · exact iff_of_true rfl nofun
  · simp only [resolveWidth, wantedWidth, Except.ok.injEq, Prod.mk.injEq, and_true,
      literalNumber_saturates_iff, WidthPart.digits.injEq, forall_eq']

theorem resolvePrecision_eq_wanted_iff (p : PrecisionPart) (args : List Arg) :
    resolvePrecision cfg p args = wantedPrecision cfg p args ↔
      ∀ ds, p = .literal false ds → ¬ CutShort cfg ds := by
  have same (other : ∀ ds, p ≠ .literal false ds)
      (runs : resolvePrecision cfg p args = wantedPrecision cfg p args) :
      resolvePrecision cfg p args = wantedPrecision cfg p args ↔
        ∀ ds, p = .literal false ds → ¬ CutShort cfg ds :=
    iff_of_true runs fun ds shape => absurd shape (other ds)
  rcases p with - | - | ⟨_ | _, ds⟩
  · exact same (by simp) rfl
  · exact same (by simp) rfl
  · simp only [resolvePrecision, wantedPrecision, Except.ok.injEq, Prod.mk.injEq, and_true,
      Option.some.injEq, literalNumber_saturates_iff, PrecisionPart.literal.injEq, true_and,
      forall_eq']
  · exact same (by simp) rfl

/-- The engine takes the same arguments for the width as are meant, and uses no greater width. -/
theorem exists_resolveWidth {w : WidthPart} {args rest : List Arg} {wanted : ℕ} {negative : Bool}
    (meant : wantedWidth cfg w args = .ok (wanted, negative, rest)) :
    ∃ used ≤ wanted, resolveWidth cfg w args = .ok (used, negative, rest) ∧
      (used = wanted ↔ ∀ ds, w = .digits ds → ¬ CutShort cfg ds) := by
  rcases w with - | ds
  · exact ⟨wanted, le_rfl, meant, iff_of_true rfl nofun⟩
  · obtain ⟨rfl, rfl, rfl⟩ : _ ∧ _ ∧ _ := by
      simpa only [wantedWidth, Except.ok.injEq, Prod.mk.injEq] using meant
    refine ⟨_, min_le_min_right _ (literalNumber_le cfg ds), rfl, ?_⟩
    rw [literalNumber_saturates_iff]
    simp

/-- The same of the precision, where a number that is cut short is large nevertheless. -/
theorem exists_resolvePrecision {p : PrecisionPart} {args rest : List Arg} {wanted : Option ℕ}
    (meant : wantedPrecision cfg p args = .ok (wanted, rest)) :
    ∃ used, resolvePrecision cfg p args = .ok (used, rest) ∧
      (used = wanted ↔ ∀ ds, p = .literal false ds → ¬ CutShort cfg ds) ∧
      (used ≠ wanted → ∃ n m, used = some n ∧ wanted = some m ∧ 2048 ≤ n ∧ 2048 ≤ m) := by
  obtain ⟨lower, -⟩ := fmtNumMax_bounds cfg
  rcases p with - | - | ⟨_ | _, ds⟩
  · exact ⟨wanted, meant, iff_of_true rfl nofun, fun different => absurd rfl different⟩
  · exact ⟨wanted, meant, iff_of_true rfl nofun, fun different => absurd rfl different⟩
  · obtain ⟨rfl, rfl⟩ := Prod.mk.inj (Except.ok.inj meant)
    have iff := @literalNumber_saturates_iff cfg ds
    refine ⟨_, rfl, by rw [Option.some.injEq, iff]; simp, fun different => ?_⟩
    have short : CutShort cfg ds := by
      by_contra kept
      exact different (congrArg some (iff.mpr kept))
    have least := short.le_literalNumber
    have order := literalNumber_le cfg ds
    exact ⟨_, _, rfl, rfl, by omega, by omega⟩
  · exact ⟨wanted, meant, iff_of_true rfl nofun, fun different => absurd rfl different⟩

/-! ## Lengths -/

/-- What a conversion leaves of the record, and how long its payload is at most. -/
structure Measured (cfg : Config) (fs : NpfFormatSpec) (conv : Converted cfg) : Prop where
  kind : conv.fs.convSpec = fs.convSpec
  width : conv.fs.fieldWidth = fs.fieldWidth
  prec : conv.fs.prec = fs.prec ∨ conv.fs.prec = 1
  len : fs.convSpec ≠ .string → conv.payload.len ≤ max cfg.cbuf 64

section

variable {fs : NpfFormatSpec} {args rest : List Arg} {conv : Converted cfg}

theorem convertFloat_measured (real : IsReal cfg fs.convSpec)
    (nonneg : cfg.precision = true → 0 ≤ fs.prec)
    (run : convertFloat cfg fs args = .ok (conv, rest)) : Measured cfg fs conv := by
  rw [convertFloat_eq] at run
  obtain ⟨⟨val, left⟩, -, run⟩ := bind_eq_ok.mp run
  obtain ⟨⟨need0x, len, buf⟩, text, run⟩ := bind_eq_ok.mp run
  obtain ⟨rfl, -⟩ := Prod.mk.inj (pure_eq_ok.mp run)
  refine ⟨?_, ?_, .inl ?_, fun _ => (floatRun_length real nonneg text).trans (le_max_left ..)⟩
  all_goals
    simp only
    split_ifs <;> rfl

theorem convertChar_measured (run : convertChar cfg fs args = .ok (conv, rest)) :
    Measured cfg fs conv := by
  have measured : ∀ c left, (do
      let buf ← Buffer.write (Buffer.blank : ConvBuffer cfg) 0 c
      pure (⟨fs, NUL, NUL, false, .reversed buf 1⟩, left) : Run (Converted cfg × List Arg)) =
        .ok (conv, rest) → Measured cfg fs conv := by
    intro c left run
    obtain ⟨buf, -, run⟩ := bind_eq_ok.mp run
    obtain ⟨rfl, -⟩ := Prod.mk.inj (pure_eq_ok.mp run)
    exact ⟨rfl, rfl, .inl rfl, fun _ => le_max_of_le_right (by simp [Payload.len])⟩
  unfold convertChar at run
  by_cases kind : fs.convSpec = .char
  · simp only [if_pos kind] at run
    obtain ⟨⟨v, left⟩, -, run⟩ := bind_eq_ok.mp run
    exact measured _ _ run
  · simp only [if_neg kind] at run
    exact measured _ _ run

theorem convertString_measured (string : fs.convSpec = .string)
    (run : convertString cfg fs args = .ok (conv, rest)) : Measured cfg fs conv := by
  obtain ⟨⟨a, memory, left⟩, -, run⟩ := bind_eq_ok.mp run
  by_cases null : a = 0
  · simp only [if_pos null] at run
    obtain ⟨len, -, run⟩ := bind_eq_ok.mp run
    obtain ⟨rfl, -⟩ := Prod.mk.inj (pure_eq_ok.mp run)
    exact ⟨rfl, rfl, .inl rfl, fun number => absurd string number⟩
  · simp only [if_neg null] at run
    obtain ⟨len, -, run⟩ := bind_eq_ok.mp run
    obtain ⟨rfl, -⟩ := Prod.mk.inj (pure_eq_ok.mp run)
    exact ⟨rfl, rfl, .inl rfl, fun number => absurd string number⟩

theorem convertInt_measured (run : convertInt cfg fs args = .ok (conv, rest)) :
    Measured cfg fs conv := by
  obtain ⟨⟨val, signC, left⟩, extract, run⟩ := bind_eq_ok.mp run
  have word := extractInt_lt extract
  have radix : baseOf fs.convSpec = 8 ∨ baseOf fs.convSpec = 10 ∨ baseOf fs.convSpec = 16 := by
    cases fs.convSpec <;> simp [baseOf]
  have room := numeralLength_uint radix word
  obtain ⟨digits, utoa, -⟩ := npfUtoaRev_eq fs.caseAdjust radix word (.blank : ConvBuffer cfg)
  have bits : npfBinLen val ≤ 64 := (npfBinLen_eq val).trans_le <|
    numeralLength_le one_lt_two (by norm_num)
      (word.trans_le (Nat.pow_le_pow_right two_pos cfg.uintBits_le))
  simp only at run
  split_ifs at run with blank form binary form octal form
  · obtain ⟨rfl, -⟩ := Prod.mk.inj (pure_eq_ok.mp run)
    exact ⟨rfl, rfl, .inr rfl, fun _ => Nat.zero_le _⟩
  · obtain ⟨rfl, -⟩ := Prod.mk.inj (pure_eq_ok.mp run)
    exact ⟨rfl, rfl, .inl rfl, fun _ => Nat.zero_le _⟩
  · obtain ⟨rfl, -⟩ := Prod.mk.inj (pure_eq_ok.mp run)
    exact ⟨rfl, rfl, .inl rfl, fun _ => le_max_of_le_right bits⟩
  · obtain ⟨rfl, -⟩ := Prod.mk.inj (pure_eq_ok.mp run)
    exact ⟨rfl, rfl, .inl rfl, fun _ => le_max_of_le_right bits⟩
  -- the digits, with the leading zero of the alternate octal form behind them
  · obtain ⟨⟨len, buf⟩, digits, run⟩ := bind_eq_ok.mp run
    obtain ⟨rfl, rfl⟩ := Prod.mk.inj (Except.ok.inj (utoa.symm.trans digits))
    obtain ⟨buf, -, run⟩ := bind_eq_ok.mp run
    obtain ⟨rfl, -⟩ := Prod.mk.inj (pure_eq_ok.mp run)
    exact ⟨rfl, rfl, .inl rfl, fun _ => le_max_of_le_left room⟩
  · obtain ⟨⟨len, buf⟩, digits, run⟩ := bind_eq_ok.mp run
    obtain ⟨rfl, rfl⟩ := Prod.mk.inj (Except.ok.inj (utoa.symm.trans digits))
    obtain ⟨rfl, -⟩ := Prod.mk.inj (pure_eq_ok.mp run)
    exact ⟨rfl, rfl, .inl rfl, fun _ => le_max_of_le_left room.le⟩
  · obtain ⟨⟨len, buf⟩, digits, run⟩ := bind_eq_ok.mp run
    obtain ⟨rfl, rfl⟩ := Prod.mk.inj (Except.ok.inj (utoa.symm.trans digits))
    obtain ⟨rfl, -⟩ := Prod.mk.inj (pure_eq_ok.mp run)
    exact ⟨rfl, rfl, .inl rfl, fun _ => le_max_of_le_left room.le⟩

/-- What every conversion but `%s` leaves has a length under the ceiling. -/
theorem convert_measured (compiled : Compiled cfg fs.convSpec)
    (nonneg : cfg.precision = true → 0 ≤ fs.prec) {n : ℤ} {stores : List Store}
    (run : convert cfg fs n args = .ok (conv, stores, rest)) : Measured cfg fs conv := by
  unfold convert at run
  split_ifs at run with float wb integer string
  · obtain ⟨⟨conv', left⟩, inner, run⟩ := bind_eq_ok.mp run
    obtain ⟨rfl, -⟩ := Prod.mk.inj (pure_eq_ok.mp run)
    exact convertFloat_measured (compiled.isReal float) nonneg inner
  · obtain ⟨⟨stores, left⟩, -, run⟩ := bind_eq_ok.mp run
    obtain ⟨rfl, -⟩ := Prod.mk.inj (pure_eq_ok.mp run)
    exact ⟨rfl, rfl, .inl rfl, fun _ => Nat.zero_le _⟩
  · obtain ⟨⟨conv', left⟩, inner, run⟩ := bind_eq_ok.mp run
    obtain ⟨rfl, -⟩ := Prod.mk.inj (pure_eq_ok.mp run)
    exact convertInt_measured inner
  · obtain ⟨⟨conv', left⟩, inner, run⟩ := bind_eq_ok.mp run
    obtain ⟨rfl, -⟩ := Prod.mk.inj (pure_eq_ok.mp run)
    exact convertString_measured string inner
  · obtain ⟨⟨conv', left⟩, inner, run⟩ := bind_eq_ok.mp run
    obtain ⟨rfl, -⟩ := Prod.mk.inj (pure_eq_ok.mp run)
    exact convertChar_measured inner

end

/-! ## Arithmetic in `int` -/

/-- An `int` holds the number. -/
def IsInt (cfg : Config) (z : ℤ) : Prop := -(cfg.intMax + 1) ≤ z ∧ z ≤ cfg.intMax

instance (z : ℤ) : Decidable (IsInt cfg z) := inferInstanceAs (Decidable (_ ∧ _))

/-- The numbers that `npf_fmt_num` computes on a run of digits, from an accumulator. -/
def fmtNumInts (cfg : Config) : ℕ → List (Fin 10) → List ℤ
  | n, [] => [(n : ℤ)]
  | n, d :: ds =>
    if cfg.fmtNumBig n then fmtNumInts cfg n ds
    else (n : ℤ) * 10 :: ((n : ℤ) * 10 + d) :: fmtNumInts cfg (10 * n + d) ds

/-- The numbers that come of a star argument: its value, and the magnitude that is pinned. -/
def starInts (cfg : Config) (v : BitVec cfg.intBits) : List ℤ :=
  let w := if v.toInt < 0 then -v else v
  [v.toInt, if cfg.intMax < w.toNat then cfg.fmtNumMax else w.toNat]

/-- The numbers that the length of a conversion is computed from and with, in the order of the
source. -/
def lengthInts (cfg : Config) (conv : Converted cfg) : List ℤ :=
  let len : ℤ := conv.payload.len
  let sign : ℤ := if conv.signC ≠ NUL then 1 else 0
  let letters : ℤ := if conv.need0x ≠ NUL then 2 else 0
  [len,
    if cfg.precision ∧ conv.fs.convSpec ≠ .string ∧ ¬ isFloat cfg conv.fs.convSpec then
      conv.fs.prec - len
    else 0,
    precPad cfg conv, len + sign, len + sign + letters, bodyLen cfg conv,
    if cfg.fieldWidth then conv.fs.fieldWidth - bodyLen cfg conv else 0,
    fieldPad cfg conv, bodyLen cfg conv + fieldPad cfg conv, precPad cfg conv + fieldPad cfg conv]

/-- The two widths of `int`. -/
def NarrowOrWide (cfg : Config) : Prop := cfg.intMax = 32767 ∨ cfg.intMax = 2147483647

/-- The ceiling leaves twice itself and a conversion buffer inside an `int`. -/
theorem fmtNumMax_room (target : NarrowOrWide cfg) (buffer : cfg.cbuf ≤ 64) :
    2 * cfg.fmtNumMax + 67 ≤ cfg.intMax := by
  unfold Config.fmtNumMax
  rcases target with narrow | wide
  · simp [narrow]
  · simp [wide, show ¬ 65280 < cfg.cbuf by omega]

/-- The widths of `int` for which `NPF_FMT_NUM_BIG` stops in time. -/
def StopsInTime (cfg : Config) : Prop := cfg.intBits ≤ 28 ∨ 32 ≤ cfg.intBits

theorem NarrowOrWide.stopsInTime (target : NarrowOrWide cfg) : StopsInTime cfg := by
  by_contra between
  obtain ⟨more, less⟩ := not_or.mp between
  have lower : (2 : ℤ) ^ 28 ≤ 2 ^ (cfg.intBits - 1) := pow_le_pow_right₀ (by norm_num) (by omega)
  have upper : (2 : ℤ) ^ (cfg.intBits - 1) ≤ 2 ^ 30 := pow_le_pow_right₀ (by norm_num) (by omega)
  rw [NarrowOrWide, Target.intMax] at target
  omega

/-- Another digit fits an `int` as long as the number is not big. -/
theorem concat_le_intMax (target : StopsInTime cfg) {n : ℕ} (small : cfg.fmtNumBig n = false) :
    (n : ℤ) * 10 + 9 ≤ cfg.intMax := by
  have large := cfg.intMax_ge
  rcases target with narrow | wide
  · have upper : (2 : ℤ) ^ (cfg.intBits - 1) ≤ 2 ^ 27 := pow_le_pow_right₀ (by norm_num) (by omega)
    have zero : cfg.intMax / 2 ^ 27 = 0 :=
      Int.ediv_eq_zero_of_lt (by omega) (by rw [Target.intMax]; omega)
    rw [Config.fmtNumBig, if_neg (not_not.mpr zero), decide_eq_false_iff_not, not_le] at small
    omega
  · have lower : (2 : ℤ) ^ 31 ≤ 2 ^ (cfg.intBits - 1) := pow_le_pow_right₀ (by norm_num) (by omega)
    have most : 2147483647 ≤ cfg.intMax := by
      rw [Target.intMax]
      omega
    have quotient : cfg.intMax / 2 ^ 27 ≠ 0 := by omega
    rw [Config.fmtNumBig, if_pos quotient, decide_eq_false_iff_not, not_not] at small
    omega

theorem isInt_of_mem_fmtNumInts (target : StopsInTime cfg) (ds : List (Fin 10)) {n : ℕ}
    (fits : (n : ℤ) ≤ cfg.intMax) {z : ℤ} (member : z ∈ fmtNumInts cfg n ds) : IsInt cfg z := by
  have large := cfg.intMax_ge
  induction ds generalizing n with
  | nil =>
      obtain rfl := List.mem_singleton.mp member
      exact ⟨by omega, fits⟩
  | cons d ds ih =>
      rw [fmtNumInts] at member
      split_ifs at member with big
      · exact ih fits member
      · have room := concat_le_intMax target (Bool.not_eq_true _ ▸ big)
        have digit := d.isLt
        rcases List.mem_cons.mp member with rfl | member
        · exact ⟨by omega, by omega⟩
        rcases List.mem_cons.mp member with rfl | member
        · exact ⟨by omega, by omega⟩
        · exact ih (by push_cast; omega) member

theorem isInt_of_mem_starInts (v : BitVec cfg.intBits) {z : ℤ} (member : z ∈ starInts cfg v) :
    IsInt cfg z := by
  obtain ⟨lower, upper⟩ := fmtNumMax_bounds cfg
  have bits := cfg.shortBits_ge.trans cfg.short_le_int
  have double : (2 : ℤ) ^ cfg.intBits = 2 * 2 ^ (cfg.intBits - 1) := by
    rw [← pow_succ', Nat.sub_add_cancel (by omega)]
  have least := @BitVec.le_toInt cfg.intBits v
  have most := @BitVec.toInt_lt cfg.intBits v
  simp only [starInts, List.mem_cons, List.not_mem_nil, or_false] at member
  rcases member with rfl | rfl
  · rw [IsInt, Target.intMax]
    exact ⟨by omega, by omega⟩
  · split_ifs with negative pinned pinned
    · exact ⟨by omega, upper⟩
    · exact ⟨by omega, not_lt.mp pinned⟩
    · exact ⟨by omega, upper⟩
    · exact ⟨by omega, not_lt.mp pinned⟩

/-- The lengths of a conversion stay inside an `int` if the length of its text does. -/
theorem isInt_lengthInts_iff {fs : NpfFormatSpec} {conv : Converted cfg}
    (measured : Measured cfg fs conv)
    (prec : cfg.precision = true → 0 ≤ fs.prec ∧ fs.prec ≤ cfg.fmtNumMax)
    (width : cfg.fieldWidth = true → 0 ≤ fs.fieldWidth ∧ fs.fieldWidth ≤ cfg.fmtNumMax) :
    (∀ z ∈ lengthInts cfg conv, IsInt cfg z) ↔
      bodyLen cfg conv + fieldPad cfg conv ≤ cfg.intMax := by
  refine ⟨fun inside => (inside _ (by simp [lengthInts])).2, fun total z member => ?_⟩
  obtain ⟨lower, upper⟩ := fmtNumMax_bounds cfg
  have pad : 0 ≤ precPad cfg conv := by
    unfold precPad
    split_ifs <;> omega
  have field : 0 ≤ fieldPad cfg conv := by
    unfold fieldPad
    split_ifs with compiled
    · dsimp only
      split_ifs <;> omega
    · exact le_rfl
  have sign : 0 ≤ (if conv.signC ≠ NUL then 1 else 0 : ℤ) := by split_ifs <;> omega
  have letters : 0 ≤ (if conv.need0x ≠ NUL then 2 else 0 : ℤ) := by split_ifs <;> omega
  have body : bodyLen cfg conv = conv.payload.len + (if conv.signC ≠ NUL then 1 else 0) +
    (if conv.need0x ≠ NUL then 2 else 0) + precPad cfg conv := rfl
  simp only [lengthInts, List.mem_cons, List.not_mem_nil, or_false] at member
  rcases member with rfl | rfl | rfl | rfl | rfl | rfl | rfl | rfl | rfl | rfl
  case inr.inl =>
    split_ifs with compiled
    · have bounds := prec compiled.1
      rcases measured.prec with same | one
      · exact ⟨by omega, by omega⟩
      · exact ⟨by omega, by omega⟩
    · exact ⟨by omega, by omega⟩
  case inr.inr.inr.inr.inr.inr.inl =>
    rw [measured.width]
    split_ifs with compiled
    · have bounds := width compiled
      exact ⟨by omega, by omega⟩
    · exact ⟨by omega, by omega⟩
  all_goals exact ⟨by omega, by omega⟩

/-- The text of a conversion other than `%s` is little longer than the ceiling. -/
theorem total_le_intMax {fs : NpfFormatSpec} {conv : Converted cfg} (target : NarrowOrWide cfg)
    (buffer : cfg.cbuf ≤ 64) (measured : Measured cfg fs conv) (number : fs.convSpec ≠ .string)
    (prec : cfg.precision = true → fs.prec ≤ cfg.fmtNumMax)
    (width : cfg.fieldWidth = true → fs.fieldWidth ≤ cfg.fmtNumMax) :
    bodyLen cfg conv + fieldPad cfg conv ≤ cfg.intMax := by
  have room := fmtNumMax_room target buffer
  have lower := (fmtNumMax_bounds cfg).1
  have len : conv.payload.len ≤ 64 := (measured.len number).trans (by omega)
  have pad : precPad cfg conv ≤ cfg.fmtNumMax := by
    unfold precPad
    split_ifs with compiled
    · rcases measured.prec with same | one
      · have bound := prec compiled.1
        omega
      · omega
    · omega
  have body : bodyLen cfg conv ≤ cfg.fmtNumMax + 67 := by
    unfold bodyLen
    split_ifs <;> omega
  rw [fieldPad, measured.width]
  by_cases compiled : cfg.fieldWidth = true
  · have bound := width compiled
    simp only [if_pos compiled]
    split_ifs <;> omega
  · simp only [if_neg compiled]
    omega

/-! ## The engine -/

/-- The record behind the star arguments has the width and the precision that are asked for. -/
def UsesWanted (cfg : Config) (d : Directive) (args rest : List Arg) (fs : NpfFormatSpec) : Prop :=
  ∃ width negative middle precision,
    wantedWidth cfg d.width args = .ok (width, negative, middle) ∧
    wantedPrecision cfg d.precision middle = .ok (precision, rest) ∧
    (cfg.fieldWidth = true → fs.fieldWidth = (width : ℤ) ∧
      fs.leftJustified = (decide (Flag.minus ∈ d.flags) || negative)) ∧
    (cfg.precision = true → (fs.precOpt = .none ↔ precision = none) ∧
      ∀ n, precision = some n → fs.prec = (n : ℤ))

/-- Every number that the parser, the ceiling and the lengths compute is one an `int` holds. -/
structure NoOverflow (cfg : Config) (d : Directive) (fs : NpfFormatSpec) (rest : List Arg) :
    Prop where
  parsing : ∀ ds, (d.width = .digits ds ∨ ∃ minus, d.precision = .literal minus ds) →
    ∀ z ∈ fmtNumInts cfg 0 ds, IsInt cfg z
  clamping : ∀ v, ∀ z ∈ starInts cfg v, IsInt cfg z
  lengths : fs.convSpec ≠ .string → ∀ n conv stores left,
    convert cfg (defaults cfg fs) n rest = .ok (conv, stores, left) →
      ∀ z ∈ lengthInts cfg conv, IsInt cfg z

section

variable {d : Directive} {old fs : NpfFormatSpec} {args rest : List Arg}

theorem Stars.width_le (stars : Stars cfg d old args rest fs) :
    (stars.width : ℤ) ≤ cfg.fmtNumMax := by
  have lower := (fmtNumMax_bounds cfg).1
  have run := stars.widthRun
  rcases shape : d.width with - | ds <;> rw [shape] at run
  · obtain ⟨⟨v, left⟩, -, run⟩ := bind_eq_ok.mp run
    have same := congrArg Prod.fst (pure_eq_ok.mp run)
    simp only at same
    omega
  · have same := congrArg Prod.fst (Except.ok.inj run)
    simp only at same
    omega

/-- **The engine uses what is asked for unless a number is cut short.** -/
theorem usesWanted_iff (on : d.enabled cfg = true) (stars : Stars cfg d old args rest fs) :
    UsesWanted cfg d args rest fs ↔
      ∀ ds, d.width = .digits ds ∨ d.precision = .literal false ds → ¬ CutShort cfg ds := by
  have uncut : ¬ CutShort cfg [] := fun ⟨_, inside, _⟩ => absurd inside (Nat.not_lt_zero _)
  have width : cfg.fieldWidth = true → fs.fieldWidth = (stars.width : ℤ) ∧
      fs.leftJustified = (decide (Flag.minus ∈ d.flags) || stars.negative) := by
    intro compiled
    refine ⟨(congrArg NpfFormatSpec.fieldWidth stars.record).trans (if_pos compiled),
      (congrArg NpfFormatSpec.leftJustified stars.record).trans (if_pos compiled)⟩
  have prec := stars.prec_eq
  have precOpt := stars.precOpt_eq
  constructor
  · rintro ⟨w, negative, middle, p, wantedW, wantedP, usesW, usesP⟩ ds (shape | shape)
    · rcases compiled : cfg.fieldWidth
      · obtain rfl :=
          WidthPart.digits.inj (shape.symm.trans (Directive.enabled_width on compiled).1)
        exact uncut
      · have run := stars.widthRun
        rw [shape] at run wantedW
        have same : w = stars.width := by
          exact_mod_cast (usesW compiled).1.symm.trans (width compiled).1
        have engine := congrArg Prod.fst (Except.ok.inj run)
        have meant := congrArg Prod.fst (Except.ok.inj wantedW)
        exact (literalNumber_saturates_iff ds).mp (engine.trans (same.symm.trans meant.symm))
    · rcases compiled : cfg.precision
      · exact absurd (shape.symm.trans (Directive.enabled_precision on compiled)) nofun
      · have run := stars.precisionRun
        rw [shape] at run wantedP
        have engine := congrArg Prod.fst (Except.ok.inj run)
        have meant := congrArg Prod.fst (Except.ok.inj wantedP)
        have value := (usesP compiled).2 _ meant.symm
        refine (literalNumber_saturates_iff ds).mp (Option.some.inj (engine.trans ?_))
        have present : stars.precOpt ≠ .none := fun absent => by simp [absent] at engine
        rw [prec] at value
        simp only [compiled, Bool.true_and, bne_iff_ne, ne_eq, present, not_false_eq_true, if_true,
          value, Int.toNat_natCast]
  · intro kept
    have wantedW := (resolveWidth_eq_wanted_iff d.width args).mpr fun ds shape =>
      kept ds (.inl shape)
    have wantedP := (resolvePrecision_eq_wanted_iff d.precision stars.middle).mpr fun ds shape =>
      kept ds (.inr shape)
    refine ⟨_, _, _, _, wantedW.symm.trans stars.widthRun,
      wantedP.symm.trans stars.precisionRun, width, fun compiled => ?_⟩
    rw [prec, precOpt, compiled]
    by_cases absent : stars.precOpt = .none
    · simp [absent]
    · have nonneg := stars.nonneg compiled absent
      simp [absent, nonneg]

/-- The precision behind the defaults is under the ceiling. -/
theorem Stars.precAfter_bounds (stars : Stars cfg d old args rest fs)
    (compiled : cfg.precision = true) :
    0 ≤ precAfter cfg fs ∧ precAfter cfg fs ≤ cfg.fmtNumMax := by
  have lower := (fmtNumMax_bounds cfg).1
  have pointer := cfg.ptrBits_le
  have prec := stars.prec_eq
  have precOpt := stars.precOpt_eq
  unfold precAfter
  by_cases absent : stars.precOpt = .none
  · rw [if_pos (by simp [compiled, precOpt, absent])]
    split_ifs <;> omega
  · rw [if_neg (by simp [precOpt, absent]), prec]
    exact ⟨stars.nonneg compiled absent, stars.below compiled⟩

theorem Stars.measured (on : d.enabled cfg = true)
    (stars : Stars cfg d old args rest fs) {n : ℤ} {conv : Converted cfg} {stores : List Store}
    {left : List Arg} (run : convert cfg (defaults cfg fs) n rest = .ok (conv, stores, left)) :
    Measured cfg (defaults cfg fs) conv := by
  have kind : fs.convSpec = d.conversion.convSpec := congrArg NpfFormatSpec.convSpec stars.record
  refine convert_measured ?_ (fun on => ?_) run
  · rw [defaults_eq]
    exact kind ▸ Directive.compiled on
  · rw [defaults_eq]
    exact (stars.precAfter_bounds on).1

theorem Stars.fieldWidth_bounds (stars : Stars cfg d old args rest fs)
    (on : cfg.fieldWidth = true) : 0 ≤ fs.fieldWidth ∧ fs.fieldWidth ≤ cfg.fmtNumMax := by
  have width : fs.fieldWidth = (stars.width : ℤ) :=
    (congrArg NpfFormatSpec.fieldWidth stars.record).trans (if_pos on)
  rw [width]
  exact ⟨Int.natCast_nonneg _, stars.width_le⟩

/-- The lengths of a directive's text stay inside an `int` if the length of the text does. -/
theorem Stars.isInt_lengthInts_iff (on : d.enabled cfg = true)
    (stars : Stars cfg d old args rest fs) {n : ℤ} {conv : Converted cfg} {stores : List Store}
    {left : List Arg} (run : convert cfg (defaults cfg fs) n rest = .ok (conv, stores, left)) :
    (∀ z ∈ lengthInts cfg conv, IsInt cfg z) ↔
      bodyLen cfg conv + fieldPad cfg conv ≤ cfg.intMax := by
  refine Nanoprintf.isInt_lengthInts_iff (stars.measured on run) (fun on => ?_) fun on => ?_
  · rw [defaults_eq]
    exact stars.precAfter_bounds on
  · rw [defaults_eq]
    exact stars.fieldWidth_bounds on

theorem Stars.noOverflow (target : NarrowOrWide cfg) (buffer : cfg.cbuf ≤ 64)
    (on : d.enabled cfg = true) (stars : Stars cfg d old args rest fs) :
    NoOverflow cfg d fs rest where
  parsing ds _ z member := by
    have large := cfg.intMax_ge
    exact isInt_of_mem_fmtNumInts target.stopsInTime ds (by omega) member
  clamping v z member := isInt_of_mem_starInts v member
  lengths number n conv stores left run := by
    refine (stars.isInt_lengthInts_iff on run).mpr
      (total_le_intMax target buffer (stars.measured on run) ?_ (fun on => ?_) fun on => ?_)
    · rwa [defaults_eq]
    · rw [defaults_eq]
      exact (stars.precAfter_bounds on).2
    · rw [defaults_eq]
      exact (stars.fieldWidth_bounds on).2

/-- **Widths and precisions saturate, exactly if no number is cut short**, and no `int` overflows.
For a 32-bit `int` no number is. For a 16-bit `int` those are that have, without some of their last
digits, a number from 2048 to the ceiling. -/
theorem starArgs_saturates_iff (target : NarrowOrWide cfg) (buffer : cfg.cbuf ≤ 64)
    (on : d.enabled cfg = true) (greedy : d.Greedy) {s : Cursor} {parsed : NpfFormatSpec}
    (parse : npfParseFormatSpecEnd cfg (d.text ++ s) old = .ok (some s, parsed))
    (run : starArgs cfg parsed args = .ok (fs, rest)) :
    UsesWanted cfg d args rest fs ∧ NoOverflow cfg d fs rest ↔
      (cfg.intMax = 32767 → ∀ ds, d.width = .digits ds ∨ d.precision = .literal false ds →
        ¬ ∃ k, 2048 ≤ decimalValue ds / 10 ^ (k + 1) ∧ decimalValue ds / 10 ^ (k + 1) < 8192) := by
  obtain ⟨-, rfl⟩ := Prod.mk.inj
    (Except.ok.inj (parse.symm.trans (npfParseFormatSpecEnd_text on greedy s old)))
  obtain ⟨stars⟩ : Nonempty (Stars cfg d old args rest fs) := by
    rcases starArgs_stars on old args with ⟨e, fails, -⟩ | ⟨fs', rest', engine, stars⟩
    · cases run.symm.trans fails
    · obtain ⟨rfl, rfl⟩ := Prod.mk.inj (Except.ok.inj (run.symm.trans engine))
      exact stars
  rw [and_iff_left (stars.noOverflow target buffer on), usesWanted_iff on stars]
  rcases target with narrow | wide
  · simp only [narrow, forall_const, cutShort_iff_of_narrow narrow]
  · refine iff_of_true (fun ds _ => not_cutShort_of_wide wide (by omega) ds) fun narrow => ?_
    rw [wide] at narrow
    norm_num at narrow

end

/-- `%*.99999d` with the least `int` as its width: the parser stops at 9999. -/
theorem starArgs_saturates_min : ∃ fs,
    UsesWanted .avr ⟨[], .star, .literal false [9, 9, 9, 9, 9], .none, .letter .d false⟩
      [.int 16 0x8000, .int 16 7] [.int 16 7] fs ∧
    NoOverflow .avr ⟨[], .star, .literal false [9, 9, 9, 9, 9], .none, .letter .d false⟩ fs
      [.int 16 7] := by
  refine ⟨_, (@starArgs_saturates_iff .avr _ .zeroed _ _ _ (.inl (by decide)) (by decide) rfl
    (by decide) [NUL] _ rfl rfl).mpr ?_⟩
  rintro - ds (shape | shape) ⟨k, least, most⟩
  · cases shape
  · obtain rfl := (PrecisionPart.literal.inj shape).2
    rcases k with - | k
    · exact absurd most (by decide)
    · have power : 10 ^ 2 ≤ 10 ^ (k + 1 + 1) := Nat.pow_le_pow_right (by norm_num) (by omega)
      exact absurd (least.trans (Nat.div_le_div_left power (by norm_num))) (by decide)

/-- A width that is cut short: the parser stops at 3000, and the ceiling is 8192. -/
theorem starArgs_cut : ∃ parsed fs,
    npfParseFormatSpecEnd .avr ("%30000d".toList ++ [NUL]) .zeroed = .ok (some [NUL], parsed) ∧
      starArgs .avr parsed [.int 16 7] = .ok (fs, [.int 16 7]) ∧ fs.fieldWidth = 3000 ∧
      decimalValue [3, 0, 0, 0, 0] = 30000 ∧
      fs.fieldWidth ≠ min (decimalValue [3, 0, 0, 0, 0] : ℤ) (Config.fmtNumMax .avr) :=
  ⟨_, _, rfl, rfl, rfl, rfl, by decide⟩

end Nanoprintf
