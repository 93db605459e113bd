import Nanoprintf.ConversionText

/-!
# The ways through a float conversion

A real is printed in hexadecimal, in decimal, or as a word if it is no number;
the hexadecimal conversion leaves infinities and NaNs to the others. Whichever it
is, the text fits the conversion buffer.
-/

set_option autoImplicit false

namespace Nanoprintf

open Foundations

variable {cfg : Config}

/-! ## The argument of the hexadecimal conversion -/

/-- The argument of the hexadecimal conversion. -/
def atoaArg (cfg : Config) (val : RealBits cfg) : BitVec 64 :=
  if cfg.singlePrecision then widen (val.setWidth 32) else val.setWidth 64

/-- Only an infinity or a NaN is one for the hexadecimal conversion. -/
theorem doubleFinite_atoaArg {val : RealBits cfg} (finite : IsFinite cfg val) :
    DoubleFinite (atoaArg cfg val) := by
  have kept : ∀ {n}, cfg.realBits ≤ n → (val.setWidth n).toNat = val.toNat := fun {n} fits =>
    BitVec.toNat_setWidth_of_le fits
  rcases single : cfg.singlePrecision
  · have same := @kept 64 (by simp [Config.realBits, single])
    simp only [IsFinite, biasedExp, Config.realManBits, Config.realMantDig, Config.expBits, single,
      Bool.false_eq_true, if_false] at finite
    rw [atoaArg, single, if_neg (by decide), DoubleFinite, doubleExp, same]
    exact finite
  · have same := @kept 32 (by simp [Config.realBits, single])
    simp only [IsFinite, biasedExp, Config.realManBits, Config.realMantDig, Config.expBits, single,
      if_true] at finite
    rw [atoaArg, single, if_pos rfl]
    apply doubleFinite_widen
    rw [same]
    exact finite

/-! ## The precision of a request -/

section

variable {r : Request} (prec : r.precision ≠ none → cfg.precision = true)
include prec

theorem npfDecPrec_request (decimal : r.convSpec ≠ .floatHex) :
    npfDecPrec cfg r.realSpec = (r.realPrecision : ℤ) := by
  rw [npfDecPrec]
  split_ifs with compiled
  · rfl
  · have absent : r.precision = none := not_not.mp fun given => compiled (prec given)
    rw [Request.realPrecision, absent, if_neg decimal]
    rfl

/-- Without precisions the digits are as many as the default asks for. -/
theorem npfHexPrec_request (hex : r.convSpec = .floatHex) :
    ∃ P : ℕ, npfHexPrec cfg r.realSpec = P ∧ min P 13 = min r.realPrecision 13 := by
  rw [npfHexPrec]
  split_ifs with compiled
  · exact ⟨r.realPrecision, rfl, rfl⟩
  · have absent : r.precision = none := not_not.mp fun given => compiled (prec given)
    have large := cfg.intMax_ge
    refine ⟨cfg.intMax.toNat, (Int.toNat_of_nonneg (by omega)).symm, ?_⟩
    rw [Request.realPrecision, absent, if_pos hex, Option.getD_none, min_self,
      min_eq_right (by omega)]

end

/-! ## The two ways -/

section

variable {spec : NpfFormatSpec} {val : RealBits cfg}

/-- A finite value in hexadecimal. -/
theorem floatRun_hex (on : cfg.floatHex = true) (hex : spec.convSpec = .floatHex) {f : BitVec 64}
    (arg : atoaArg cfg val = f) {text : List Char}
    (leaves : LeavesHex (npfAtoaRev cfg .blank spec f) text) (nonempty : text ≠ []) :
    ∃ b, floatRun cfg spec val =
        .ok (Char.ofNat ('X'.toNat + spec.caseAdjust), (text.length : ℤ), b) ∧
      b.Holds 0 text.reverse := by
  obtain ⟨b, run, holds⟩ := leaves
  have positive : text.length ≠ 0 := (List.length_pos_of_ne_nil nonempty).ne'
  refine ⟨b, ?_, holds⟩
  rw [floatRun, ← atoaArg, arg]
  simp only [on, hex, Bool.true_and, beq_self_eq_true, if_true, run, bind, Except.bind,
    if_pos positive]
  rfl

/-- A value that is not printed in hexadecimal. -/
theorem floatRun_decimal (decimal : spec.convSpec ≠ .floatHex ∨ ¬ DoubleFinite (atoaArg cfg val)) :
    floatRun cfg spec val =
      (if cfg.useSci then npfEtoaRev cfg .blank spec val
        else npfFtoaRev cfg .blank spec (npfDecPrec cfg spec) val).map
          fun (len, buf) => (NUL, len, buf) := by
  have tail : ∀ buf : ConvBuffer cfg, (do
      let (len, buf) ←
        if cfg.useSci then npfEtoaRev cfg buf spec val
        else npfFtoaRev cfg buf spec (npfDecPrec cfg spec) val
      pure (NUL, len, buf) : Run (Char × ℤ × ConvBuffer cfg)) =
        (if cfg.useSci then npfEtoaRev cfg buf spec val
          else npfFtoaRev cfg buf spec (npfDecPrec cfg spec) val).map
            fun (len, buf) => (NUL, len, buf) := by
    intro buf
    split_ifs
    · rcases npfEtoaRev cfg buf spec val with e | ⟨len, buf⟩ <;> rfl
    · rcases npfFtoaRev cfg buf spec (npfDecPrec cfg spec) val with e | ⟨len, buf⟩ <;> rfl
  rw [← tail, floatRun, ← atoaArg]
  by_cases hex : (cfg.floatHex && spec.convSpec == .floatHex) = true
  · have special : ¬ DoubleFinite (atoaArg cfg val) := by
      rw [Bool.and_eq_true, beq_iff_eq] at hex
      exact decimal.resolve_left (not_not.mpr hex.2)
    simp only [if_pos hex, npfAtoaRev_special special, bind, Except.bind, ne_eq,
      not_true_eq_false, if_false]
  · simp only [if_neg hex, bind, Except.bind, pure, Except.pure, ne_eq, not_true_eq_false, if_false]

end

theorem IsReal.decimal {conv : ConvSpec} (real : IsReal cfg conv) (number : conv ≠ .floatHex) :
    Decimal cfg conv := by
  cases conv <;> first
    | exact real.elim
    | exact absurd rfl number
    | exact .inl rfl
    | exact .inr (.inl ⟨rfl, real⟩)
    | exact .inr (.inr ⟨rfl, real⟩)

theorem Compiled.real {conv : ConvSpec} (compiled : Compiled cfg conv)
    (kind : conv = .floatDec ∨ conv = .floatHex ∨ conv = .floatSci ∨ conv = .floatShortest) :
    IsReal cfg conv := by
  rcases kind with kind | kind | kind | kind <;> rw [kind] at compiled ⊢ <;> exact compiled

/-- The conversions that the engine takes for float conversions are. -/
theorem Compiled.isReal {conv : ConvSpec} (compiled : Compiled cfg conv)
    (float : isFloat cfg conv = true) : IsReal cfg conv := by
  have order : ConvSpec.floatDec.rank ≤ conv.rank := by
    simp only [isFloat, Bool.and_eq_true, decide_eq_true_eq] at float
    exact float.2
  apply compiled.real
  revert order
  cases conv <;> simp [ConvSpec.rank, ConvSpec.ctorIdx]

/-- What is left of `%a` is printed in the style of `%e`, or of `%g` where that is all there is. -/
theorem npfEtoaRev_hex {spec : NpfFormatSpec} (hex : spec.convSpec = .floatHex)
    (sci : cfg.useSci = true) (buf : ConvBuffer cfg) (f : RealBits cfg) :
    ∃ conv, Decimal cfg conv ∧
      npfEtoaRev cfg buf spec f = npfEtoaRev cfg buf { spec with convSpec := conv } f := by
  cases compiled : cfg.floatSci with
  | true =>
      refine ⟨.floatSci, .inr (.inl ⟨rfl, compiled⟩), ?_⟩
      simp only [npfEtoaRev, isShortest, hex, compiled]
      rfl
  | false =>
      have shortest : cfg.floatShortest = true := by
        rwa [Config.useSci, compiled, Bool.false_or] at sci
      refine ⟨.floatShortest, .inr (.inr ⟨rfl, shortest⟩), ?_⟩
      simp only [npfEtoaRev, isShortest, hex, compiled]
      rfl

section

variable {spec : NpfFormatSpec}

/-- **A float conversion goes one of two ways**: it prints a hexadecimal text that fits, or it is
one of the decimal conversions with a precision. -/
theorem floatRun_cases (real : IsReal cfg spec.convSpec)
    (nonneg : cfg.precision = true → 0 ≤ spec.prec) (val : RealBits cfg) :
    (∃ (text : List Char) (b : ConvBuffer cfg), floatRun cfg spec val =
        .ok (Char.ofNat ('X'.toNat + spec.caseAdjust), (text.length : ℤ), b) ∧
      b.Holds 0 text.reverse ∧ text.length ≤ cfg.cbuf) ∨
    ∃ (P : ℕ) (conv : ConvSpec), npfDecPrec cfg spec = P ∧ Decimal cfg conv ∧
      floatRun cfg spec val =
        (if cfg.useSci then npfEtoaRev cfg .blank { spec with convSpec := conv } val
          else npfFtoaRev cfg .blank spec P val).map fun done => (NUL, done.1, done.2) := by
  have room := cfg.cbuf_ge
  have large := cfg.intMax_ge
  by_cases number : spec.convSpec = .floatHex ∧ DoubleFinite (atoaArg cfg val)
  · obtain ⟨hex, finite⟩ := number
    obtain ⟨P, prec⟩ : ∃ P : ℕ, npfHexPrec cfg spec = P := by
      refine Int.eq_ofNat_of_zero_le ?_
      unfold npfHexPrec
      split_ifs with compiled
      · exact nonneg compiled
      · omega
    have leaves := npfAtoaRev_text finite prec .blank
    have on : IsReal cfg .floatHex := hex ▸ real
    obtain ⟨b, run, holds⟩ := floatRun_hex on hex rfl leaves (by simp [atoaText, hexText])
    have short := length_atoaText (Nat.min_le_right P 13) (atoaArg cfg val) (alternate cfg spec)
      spec.caseAdjust
    exact .inl ⟨_, b, run, holds, by omega⟩
  · have decimal := not_and_or.mp number
    obtain ⟨P, prec⟩ : ∃ P : ℕ, npfDecPrec cfg spec = P := by
      refine Int.eq_ofNat_of_zero_le ?_
      unfold npfDecPrec
      split_ifs with compiled
      · exact nonneg compiled
      · norm_num
    have run := floatRun_decimal decimal
    rw [prec] at run
    by_cases hex : spec.convSpec = .floatHex
    · by_cases sci : cfg.useSci = true
      · obtain ⟨conv, compiled, style⟩ := npfEtoaRev_hex hex sci .blank val
        exact .inr ⟨P, conv, prec, compiled, by rw [run, if_pos sci, if_pos sci, style]⟩
      · exact .inr ⟨P, .floatDec, prec, .inl rfl, by rw [run, if_neg sci, if_neg sci]⟩
    · exact .inr ⟨P, spec.convSpec, prec, real.decimal hex, run⟩

/-- The text of a real fits the conversion buffer. -/
theorem floatRun_length (real : IsReal cfg spec.convSpec)
    (nonneg : cfg.precision = true → 0 ≤ spec.prec) {val : RealBits cfg} {c : Char} {n : ℤ}
    {b : ConvBuffer cfg} (run : floatRun cfg spec val = .ok (c, n, b)) : n.natAbs ≤ cfg.cbuf := by
  rcases floatRun_cases real nonneg val with
    ⟨text, b', same, -, short⟩ | ⟨P, conv, prec, compiled, same⟩
  · obtain ⟨-, rfl, -⟩ : _ ∧ n = text.length ∧ _ := by
      simpa only [Except.ok.injEq, Prod.mk.injEq] using run.symm.trans same
    exact short
  · have bounds : InBounds (if cfg.useSci then
        npfEtoaRev cfg .blank { spec with convSpec := conv } val
        else npfFtoaRev cfg .blank spec P val) := by
      split_ifs
      · exact npfEtoaRev_inBounds _ (fun _ => compiled) prec
      · exact npfFtoaRev_inBounds _ _ _ _
    obtain ⟨len, buf, tail, short⟩ := bounds
    rw [same, tail] at run
    obtain ⟨-, rfl, -⟩ : _ ∧ len = n ∧ _ := by
      simpa only [Except.map, Except.ok.injEq, Prod.mk.injEq] using run
    exact short

end

end Nanoprintf
