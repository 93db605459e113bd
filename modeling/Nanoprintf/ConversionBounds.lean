import Nanoprintf.AtoaSpec
import Nanoprintf.BuildResults

/-!
# The conversion buffer is never left

An access outside the conversion buffer, or to a cell that nothing has been
written to, ends a run of the model in an error. Every conversion of every
pattern ends normally, from a buffer with nothing in it as from any other, and
what it leaves fits the buffer.
-/

set_option autoImplicit false

namespace Nanoprintf

open Foundations

variable {cfg : Config}

/-- A run makes no access outside the buffer and reads nothing that is not written, and its
result is no longer than the buffer. -/
def InBounds (run : Run (ℤ × ConvBuffer cfg)) : Prop :=
  ∃ n c, run = .ok (n, c) ∧ n.natAbs ≤ cfg.cbuf

section

variable {run : Run (ℤ × ConvBuffer cfg)} {caseAdj : ℕ}

theorem Leaves.inBounds {t : List Char} (leaves : Leaves run t) (fits : t.length ≤ cfg.cbuf) :
    InBounds run := by
  obtain ⟨c, rfl, -⟩ := leaves
  exact ⟨_, c, rfl, by simpa⟩

theorem LeavesWord.inBounds {word : List Char} (leaves : LeavesWord run word)
    (fits : word.length ≤ cfg.cbuf) : InBounds run := by
  obtain ⟨c, rfl, -⟩ := leaves
  exact ⟨_, c, rfl, by simpa⟩

theorem length_errWord_le : (errWord caseAdj).length ≤ cfg.cbuf := by
  have room := cfg.cbuf_ge
  rw [errWord, inCase, List.length_map]
  simp only [List.length_cons, List.length_nil]
  omega

theorem LeavesText.inBounds {text : Option (List Char)} (leaves : LeavesText run caseAdj text) :
    InBounds run := by
  match text with
  | none => exact LeavesWord.inBounds leaves length_errWord_le
  | some t =>
      rcases leaves with ⟨fits, leaves⟩ | ⟨-, word⟩
      · exact leaves.inBounds fits
      · exact word.inBounds length_errWord_le

end

theorem npfFtoaSpecial_inBounds (buf : ConvBuffer cfg) (caseAdj : ℕ) (nan : Prop) [Decidable nan] :
    InBounds (npfFtoaSpecial buf caseAdj (if nan then npfFtoaNan else npfFtoaInf)) := by
  have room := cfg.cbuf_ge
  refine (npfFtoaSpecial_word buf caseAdj nan).inBounds ?_
  rw [inCase, List.length_map]
  split_ifs <;> simp only [List.length_cons, List.length_nil] <;> omega

theorem npfFtoaRev_inBounds (buf : ConvBuffer cfg) (spec : NpfFormatSpec) (prec : ℕ)
    (f : RealBits cfg) : InBounds (npfFtoaRev cfg buf spec prec f) := by
  by_cases finite : IsFinite cfg (asRead cfg f)
  · rcases npfFtoaRev_finite finite spec prec buf with ⟨word, -⟩ | ⟨room, leaves⟩
    · exact word.inBounds length_errWord_le
    · exact leaves.inBounds room.text_fits
  · rw [npfFtoaRev_special finite]
    exact npfFtoaSpecial_inBounds _ _ _

theorem npfEtoaRev_inBounds (buf : ConvBuffer cfg) {spec : NpfFormatSpec} {prec : ℕ}
    {f g : RealBits cfg} [ReadAs cfg f g] (compiled : IsFinite cfg g → Decimal cfg spec.convSpec)
    (precision : npfDecPrec cfg spec = prec) : InBounds (npfEtoaRev cfg buf spec f) := by
  by_cases finite : IsFinite cfg g
  · exact (npfEtoaRev_text finite (compiled finite) precision buf).inBounds
  · rw [npfEtoaRev_special finite]
    exact npfFtoaSpecial_inBounds _ _ _

/-- The moves inside the buffer lose no digit: whatever the digits are, those of an integer arrive
at the top, and the text that is composed from the bottom has the digits at the top in it. -/
structure DigitsKept (cfg : Config) : Prop where
  aligned : ∀ {man : ℕ}, man < 2 ^ cfg.manBits → ∀ buf : ConvBuffer cfg,
    ∃ c, etoaPrintInt cfg man buf = .ok (cfg.cbuf - numeralLength 10 man, c) ∧
      c.Holds (cfg.cbuf - numeralLength 10 man) (numeralText 10 0 man)
  scientific : ∀ {n V p end_ : ℕ} {x : ℤ} (alt : Bool) (caseAdj : ℕ) {buf : ConvBuffer cfg},
    end_ + n = cfg.cbuf → n ≠ 0 → n ≤ p + 1 → p + 8 ≤ cfg.cbuf → x.natAbs < 1000 → V < 10 ^ n →
    buf.Holds end_ (digitText n V) →
    Leaves (composeScientific cfg alt caseAdj p x end_ buf)
      (sciText (V * 10 ^ (p + 1 - n)) p x (0 < p ∨ alt) caseAdj)
  fixed : ∀ {n V q T end_ : ℕ} {dec : ℤ} {alt : Bool} {buf : ConvBuffer cfg},
    end_ + n = cfg.cbuf → buf.Holds end_ (digitText n V) → FixedDigits q T n V dec →
    0 < q ∨ alt = true ∨ end_ ≠ 0 → (fixedText T q (0 < q ∨ alt)).length ≤ cfg.cbuf →
    Leaves (composeFixed cfg alt q end_ dec buf) (fixedText T q (0 < q ∨ alt))

theorem digitsKept (cfg : Config) : DigitsKept cfg where
  aligned small buf := by
    obtain ⟨c, run, holds⟩ := etoaPrintInt_eq (cfg.two_pow_manBits ▸ small) buf
    exact ⟨c, run, numeralText_eq _ ▸ holds⟩
  scientific alt caseAdj _ := composeScientific_eq alt caseAdj
  fixed := composeFixed_eq

/-- **The conversion buffer is never over- or under-run**: for every pattern each conversion stays
inside it, reads only what it has written, and leaves no more than fits. No digit is overwritten
before it is read: the moves inside the buffer keep all, and what is left of a finite value is the
text of its number. A value that is not finite may also come from `%a`, which has no conversion of
its own for it. -/
theorem conversions_inBounds (cfg : Config) [cfg.RepExact] (spec : NpfFormatSpec) (prec : ℕ)
    (buf : ConvBuffer cfg) :
    (∀ f : RealBits cfg, InBounds (npfFtoaRev cfg buf spec prec f)) ∧
    (∀ f : RealBits cfg, (IsFinite cfg f → Decimal cfg spec.convSpec) →
      npfDecPrec cfg spec = prec → InBounds (npfEtoaRev cfg buf spec f) ∧
      (IsFinite cfg f → LeavesText (npfEtoaRev cfg buf spec f) spec.caseAdjust
        (etoaText cfg f spec.convSpec prec (alternate cfg spec) spec.caseAdjust))) ∧
    DigitsKept cfg ∧
    (∀ f : BitVec 64, npfHexPrec cfg spec = prec →
      ∃ n c, npfAtoaRev cfg buf spec f = .ok (n, c) ∧ n ≤ cfg.cbuf) := by
  have room := cfg.cbuf_ge
  refine ⟨npfFtoaRev_inBounds buf spec prec, fun f compiled precision =>
    ⟨npfEtoaRev_inBounds buf compiled precision, fun finite =>
      npfEtoaRev_text finite (compiled finite) precision buf⟩, digitsKept cfg,
    fun f precision => ?_⟩
  by_cases finite : DoubleFinite f
  · obtain ⟨c, run, -⟩ := npfAtoaRev_text finite precision buf
    have short := length_atoaText (Nat.min_le_right prec 13) f (alternate cfg spec) spec.caseAdjust
    exact ⟨_, c, run, by omega⟩
  · exact ⟨0, buf, npfAtoaRev_special finite spec buf, Nat.zero_le _⟩

/-- The conversions of the least subnormal, from a buffer with nothing in it. -/
theorem conversions_inBounds_least :
    InBounds (npfFtoaRev .standard .blank (.lower .floatSci 3) 3 (pattern _ 1)) ∧
    InBounds (npfEtoaRev .standard .blank (.lower .floatSci 3) (pattern _ 1)) ∧
    ∃ n c, npfAtoaRev .standard .blank (.lower .floatSci 3) 1#64 = .ok (n, c) ∧ n ≤ 64 := by
  obtain ⟨fused, shared, -, hex⟩ := conversions_inBounds .standard (.lower .floatSci 3) 3 .blank
  exact ⟨fused _, (shared _ (fun _ => .inr (.inl ⟨rfl, rfl⟩)) rfl).1, hex _ rfl⟩

end Nanoprintf
