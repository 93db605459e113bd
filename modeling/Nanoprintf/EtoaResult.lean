import Nanoprintf.Builds
import Nanoprintf.EtoaShortest

/-!
# The results of the conversion by digits and exponent

`etoaText` is what `npf_etoa_rev` leaves for a finite value, conversion by
conversion: a text, or none where it reports an error. It is a function of the
number the conversion works with, so that whatever two builds have in common
shows in it; `npfEtoaRev_text` says that it is what the code leaves.
-/

set_option autoImplicit false

namespace Nanoprintf

open Foundations

variable {cfg cfg' : Config}

/-! ## The texts -/

/-- The text of `%e`: the number rounded to its digits, or the integer where some of its digits
are dropped. -/
def scientificText (m : Machine) (v : ℚ) (tail : Bool) (p : ℕ) (point : Bool) (caseAdj : ℕ) :
    List Char :=
  if m.int ≠ 0 ∧ p + 1 < numeralLength 10 m.int then
    sciText (droppedRound m tail p (numeralLength 10 m.int - (p + 1))).1 p
      ((droppedRound m tail p (numeralLength 10 m.int - (p + 1))).2 + p) point caseAdj
  else sciText (sciRound p v).1 p (sciRound p v).2 point caseAdj

/-- The text of `%g`, in the style that the exponent of `%e` decides on. -/
def shortestText (m : Machine) (v : ℚ) (tail : Bool) (p : ℕ) (alt : Bool) (caseAdj : ℕ) :
    List Char :=
  if ¬ (m.int ≠ 0 ∧ p + 1 < numeralLength 10 m.int) ∧ -4 ≤ (sciRound p v).2 ∧
      (sciRound p v).2 < p + 1 then
    shorten alt (fixedText (fixedRound (p - (sciRound p v).2).toNat v) (p - (sciRound p v).2).toNat
      (0 < (p - (sciRound p v).2).toNat ∨ alt))
  else shorten alt (scientificText m v tail p (0 < p ∨ alt) caseAdj)

/-- What the conversion leaves for a finite value: none for an error. -/
def etoaText (cfg : Config) (f : RealBits cfg) (conv : ConvSpec) (P : ℕ) (alt : Bool)
    (caseAdj : ℕ) : Option (List Char) :=
  match conv with
  | .floatDec => some (fixedText (fixedRound P (approximation cfg f)) P (0 < P ∨ alt))
  | .floatSci =>
    if P + 8 ≤ cfg.cbuf then
      some (scientificText (machineOf cfg f) (approximation cfg f) (integerTail cfg f) P
        (0 < P ∨ alt) caseAdj)
    else none
  | .floatShortest =>
    if max P 1 + 7 ≤ cfg.cbuf then
      some (shortestText (machineOf cfg f) (approximation cfg f) (integerTail cfg f) (max P 1 - 1)
        alt caseAdj)
    else none
  | _ => none

/-- The conversion is one of the three and compiled in. -/
def Decimal (cfg : Config) (conv : ConvSpec) : Prop :=
  conv = .floatDec ∨ conv = .floatSci ∧ cfg.floatSci = true ∨
    conv = .floatShortest ∧ cfg.floatShortest = true

/-- A conversion leaves a text that fits, and the word of an error in the place of one that
does not. -/
def LeavesText (run : Run (ℤ × ConvBuffer cfg)) (caseAdj : ℕ) (text : Option (List Char)) : Prop :=
  match text with
  | some t => Prints run caseAdj t
  | none => LeavesWord run (errWord caseAdj)

/-! ## Lengths -/

theorem length_exponentText {x : ℤ} (caseAdj : ℕ) (small : x.natAbs < 1000) :
    (exponentText caseAdj x).length ≤ 5 := by
  have three := numeralLength_le (n := 3) (by norm_num : 1 < 10) (by norm_num) small
  rw [exponentText, List.length_append, List.length_append, List.length_reverse,
    length_numeralText]
  simp only [List.length_cons, List.length_nil]
  by_cases one : x.natAbs < 10
  · rw [if_pos one, numeralLength, numeral_of_lt one]
    simp
  · rw [if_neg one, List.length_nil]
    omega

theorem length_sciText {n p : ℕ} {x : ℤ} (point : Bool) (caseAdj : ℕ) (small : x.natAbs < 1000) :
    (sciText n p x point caseAdj).length ≤ p + 7 := by
  have exponent := length_exponentText caseAdj small
  have mark := length_pointText point
  rw [sciText, List.length_append, List.length_append, List.length_cons, List.length_reverse,
    length_digitText, mark]
  split_ifs <;> omega

theorem length_scientificText {m : Machine} (valid : m.Valid cfg) (tail : Bool) (p : ℕ)
    (point : Bool) (caseAdj : ℕ) :
    (scientificText m (m.value cfg) tail p point caseAdj).length ≤ p + 7 := by
  rw [scientificText]
  split_ifs with many
  · exact length_sciText _ _ (droppedRound_small valid (by omega) tail)
  · have bound := valid.exponent_bounds p
    exact length_sciText _ _ (by omega)

/-! ## What is left -/

theorem npfEtoaRev_scientific_text {f g : RealBits cfg} [ReadAs cfg f g] (finite : IsFinite cfg g)
    {spec : NpfFormatSpec} (conversion : spec.convSpec = .floatSci)
    (compiled : cfg.floatSci = true) {p : ℕ} (precision : npfDecPrec cfg spec = p)
    (fits : p + 8 ≤ cfg.cbuf) (buf : ConvBuffer cfg) :
    Leaves (npfEtoaRev cfg buf spec f) (scientificText (machineOf cfg g) (approximation cfg g)
      (integerTail cfg g) p (0 < p ∨ alternate cfg spec) spec.caseAdjust) := by
  rw [scientificText]
  split_ifs with many
  · exact npfEtoaRev_scientific_drop finite conversion compiled precision (by omega) (by omega) fits
      buf
  · exact npfEtoaRev_scientific_fits finite conversion compiled precision
      (fun nonzero => by omega) fits buf

theorem npfEtoaRev_shortest_text {f g : RealBits cfg} [ReadAs cfg f g] (finite : IsFinite cfg g)
    {spec : NpfFormatSpec} (conversion : spec.convSpec = .floatShortest)
    (compiled : cfg.floatShortest = true) {P p : ℕ} (precision : npfDecPrec cfg spec = P)
    (digits : p + 1 = max P 1) (fits : p + 8 ≤ cfg.cbuf) (buf : ConvBuffer cfg) :
    Prints (npfEtoaRev cfg buf spec f) spec.caseAdjust (shortestText (machineOf cfg g)
      (approximation cfg g) (integerTail cfg g) p (alternate cfg spec) spec.caseAdjust) := by
  have valid := machineOf_valid finite
  have scientific := npfEtoaRev_shortest_scientific (f := f) finite conversion compiled precision
    digits fits buf
  rw [shortestText]
  split_ifs with style
  · exact npfEtoaRev_shortest_fixed finite conversion compiled precision digits fits
      (fun nonzero => by omega) (by omega) style.2.1 buf
  · refine .inl
      ⟨(length_shorten _ _).trans ((length_scientificText valid _ _ _ _).trans (by omega)),
      ?_⟩
    rw [scientificText]
    split_ifs with many
    · exact scientific.2 _ (by omega) (by omega)
    · exact scientific.1 (fun nonzero => by omega) fun choice => style ⟨many, choice⟩

/-- **What the conversion by digits and exponent leaves for a finite value.** -/
theorem npfEtoaRev_text {f g : RealBits cfg} [ReadAs cfg f g] (finite : IsFinite cfg g)
    {spec : NpfFormatSpec} (compiled : Decimal cfg spec.convSpec) {P : ℕ}
    (precision : npfDecPrec cfg spec = P) (buf : ConvBuffer cfg) :
    LeavesText (npfEtoaRev cfg buf spec f) spec.caseAdjust
      (etoaText cfg g spec.convSpec P (alternate cfg spec) spec.caseAdjust) := by
  have valid := machineOf_valid finite
  rcases compiled with fixed | ⟨scientific, compiled⟩ | ⟨shortest, compiled⟩
  · rw [fixed, etoaText]
    exact npfEtoaRev_fixed finite fixed precision buf
  · rw [scientific, etoaText]
    split_ifs with fits
    · exact .inl ⟨(length_scientificText valid _ _ _ _).trans (by omega),
        npfEtoaRev_scientific_text finite scientific compiled precision fits buf⟩
    · exact npfEtoaRev_scientific_long finite scientific compiled precision (by omega) buf
  · rw [shortest, etoaText]
    split_ifs with fits
    · exact npfEtoaRev_shortest_text finite shortest compiled precision (by omega) (by omega) buf
    · exact npfEtoaRev_shortest_long finite shortest compiled precision
        (show max P 1 - 1 + 1 = max P 1 by omega) (by omega) buf

/-! ## The size of the buffer -/

section

variable {run : Run (ℤ × ConvBuffer cfg)} {caseAdj : ℕ} {s t : List Char}

theorem Prints.leaves_iff (prints : Prints run caseAdj t) :
    Leaves run s ↔ s = t ∧ t.length ≤ cfg.cbuf := by
  rcases prints with ⟨fits, leaves⟩ | ⟨long, word⟩
  · rw [leaves.iff_eq, and_iff_left fits, eq_comm]
  · refine iff_of_false (fun leaves => ?_) (fun both => by omega)
    obtain ⟨b, rfl, -⟩ := leaves
    obtain ⟨c, same, -⟩ := word
    have lengths := congrArg Prod.fst (Except.ok.inj same)
    simp only [errWord, inCase, List.length_map, List.length_cons, List.length_nil] at lengths
    omega

theorem Prints.word_iff (prints : Prints run caseAdj t) :
    LeavesWord run (errWord caseAdj) ↔ cfg.cbuf < t.length := by
  rcases prints with ⟨fits, leaves⟩ | ⟨long, word⟩
  · refine iff_of_false (fun word => ?_) (by omega)
    obtain ⟨b, rfl, -⟩ := leaves
    obtain ⟨c, same, -⟩ := word
    have lengths := congrArg Prod.fst (Except.ok.inj same)
    simp only [errWord, inCase, List.length_map, List.length_cons, List.length_nil] at lengths
    omega
  · exact iff_of_true word long

end

/-- The build with a conversion buffer of another size. -/
def Config.resized (cfg : Config) (n : ℕ) (lower : 23 ≤ n) (upper : (n : ℤ) ≤ cfg.intMax) :
    Config :=
  { cfg with cbuf := n, cbuf_ge := lower, cbuf_le := upper }

instance [reads : cfg.RepExact] (n : ℕ) (lower : 23 ≤ n) (upper : (n : ℤ) ≤ cfg.intMax) :
    (cfg.resized n lower upper).RepExact := ⟨reads.exact⟩

theorem Config.resized_same (cfg : Config) {n : ℕ} (lower : 23 ≤ n) (upper : (n : ℤ) ≤ cfg.intMax) :
    SameReal (cfg.resized n lower upper) cfg :=
  ⟨rfl, rfl, rfl⟩

theorem npfEtoaRev_resized [cfg.RepExact] {f : RealBits cfg} (finite : IsFinite cfg f) {n : ℕ}
    (lower : 23 ≤ n) (upper : (n : ℤ) ≤ cfg.intMax) {spec : NpfFormatSpec}
    (conversion : spec.convSpec = .floatDec) {q : ℕ} (precision : npfDecPrec cfg spec = q)
    (buf : ConvBuffer (cfg.resized n lower upper)) :
    Prints (npfEtoaRev (cfg.resized n lower upper) buf spec f) spec.caseAdjust
      (fixedText (fixedRound q (approximation cfg f)) q (0 < q ∨ alternate cfg spec)) := by
  have prints := @npfEtoaRev_fixed (cfg.resized n lower upper) f f
    (readAs_self (cfg.resized n lower upper) f) finite spec conversion q precision buf
  rwa [(cfg.resized_same lower upper).approximation_eq rfl finite] at prints

/-- **The size of the buffer only decides whether the number fits**: `%f` has one text for all
sizes, of an integer part, a point and a fraction, and is an error exactly where that is too
long. -/
theorem npfEtoaRev_fixed_resized [cfg.RepExact] {f : RealBits cfg} (finite : IsFinite cfg f)
    {small large : ℕ} (lower : 23 ≤ small) (ordered : small ≤ large)
    (upper : (large : ℤ) ≤ cfg.intMax) {spec : NpfFormatSpec}
    (conversion : spec.convSpec = .floatDec) {q : ℕ} (precision : npfDecPrec cfg spec = q)
    (few : ConvBuffer (cfg.resized small lower (by omega)))
    (many : ConvBuffer (cfg.resized large (by omega) upper)) :
    (∀ t, Leaves (npfEtoaRev (cfg.resized large _ upper) many spec f) t → t.length ≤ small →
      Leaves (npfEtoaRev (cfg.resized small lower _) few spec f) t) ∧
    (∀ t, Leaves (npfEtoaRev (cfg.resized large _ upper) many spec f) t → small < t.length →
      LeavesWord (npfEtoaRev (cfg.resized small lower _) few spec f) (errWord spec.caseAdjust)) ∧
    (LeavesWord (npfEtoaRev (cfg.resized large _ upper) many spec f) (errWord spec.caseAdjust) →
      LeavesWord (npfEtoaRev (cfg.resized small lower _) few spec f) (errWord spec.caseAdjust)) ∧
    ∃ T, Prints (npfEtoaRev (cfg.resized small lower _) few spec f) spec.caseAdjust
        (fixedText T q (0 < q ∨ alternate cfg spec)) ∧
      Prints (npfEtoaRev (cfg.resized large _ upper) many spec f) spec.caseAdjust
        (fixedText T q (0 < q ∨ alternate cfg spec)) := by
  have left := npfEtoaRev_resized finite lower (by omega) conversion precision few
  have right := npfEtoaRev_resized finite (by omega) upper conversion precision many
  refine ⟨fun t leaves fits => ?_, fun t leaves long => ?_, fun word => ?_, _, left, right⟩
  · obtain ⟨rfl, -⟩ := right.leaves_iff.mp leaves
    exact left.leaves_iff.mpr ⟨rfl, fits⟩
  · obtain ⟨rfl, -⟩ := right.leaves_iff.mp leaves
    exact left.word_iff.mpr long
  · exact left.word_iff.mpr (ordered.trans_lt (right.word_iff.mp word))

/-- `1.5` needs three of 23 or of 64 cells. -/
theorem npfEtoaRev_fixed_resized_half :
    Leaves (npfEtoaRev (Config.standard.resized 23 (by decide) (by decide)) .blank
      (.lower .floatDec 1) (pattern .standard 0x3ff8000000000000)) "1.5".toList :=
  (@npfEtoaRev_fixed_resized .standard _ _ (by decide) _ 64 (by decide) (by decide) (by decide) _
    rfl _ rfl
    .blank .blank).1 "1.5".toList (by decide) (by decide)

end Nanoprintf
