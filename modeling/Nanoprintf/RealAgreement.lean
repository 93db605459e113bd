import Nanoprintf.Features
import Nanoprintf.Widening

/-!
# Reals in two builds

Two builds that have the same real conversions, buffer and intermediate may differ in the real
type or in the target. `RealAlike` is what they need to know of a real in common, and
`realText_alike` says that they print it alike. What makes a pair of reals alike is left to the
modules that compare builds.
-/

set_option autoImplicit false

namespace Nanoprintf

open Foundations

variable {cfg cfg' : Config}

/-- The builds have the same real conversions, buffer and intermediate. -/
structure SameFormats (cfg cfg' : Config) : Prop where
  precision : cfg.precision = cfg'.precision
  altForm : cfg.altForm = cfg'.altForm
  floatHex : cfg.floatHex = cfg'.floatHex
  floatSci : cfg.floatSci = cfg'.floatSci
  floatShortest : cfg.floatShortest = cfg'.floatShortest
  cbuf : cfg.cbuf = cfg'.cbuf
  manBits : cfg.manBits = cfg'.manBits

namespace SameFormats

variable (same : SameFormats cfg cfg')
include same

theorem value_eq (m : Machine) : m.value cfg = m.value cfg' :=
  m.value_of_manBits same.manBits

theorem alternate_eq (spec : NpfFormatSpec) : alternate cfg spec = alternate cfg' spec := by
  rw [alternate, alternate, same.altForm]

theorem useSci_eq : cfg.useSci = cfg'.useSci := by
  rw [Config.useSci, Config.useSci, same.floatSci, same.floatShortest]

end SameFormats

/-- What the conversions read of two reals is the same; `digits` is whether `%e` or `%g` may
print them, which look at what is below an integer. -/
structure RealAlike (cfg cfg' : Config) (digits : Prop) (f : RealBits cfg) (f' : RealBits cfg') :
    Prop where
  finite : IsFinite cfg f ↔ IsFinite cfg' f'
  machine : IsFinite cfg f → (machineOf cfg f).Alike cfg (machineOf cfg' f')
  tail : IsFinite cfg f → digits → (machineOf cfg f).int ≠ 0 →
    integerTail cfg f = integerTail cfg' f'
  nan : ¬ IsFinite cfg f → (fracField cfg f.toNat ≠ 0 ↔ fracField cfg' f'.toNat ≠ 0)
  atoa : atoaArg cfg f = atoaArg cfg' f'
  msb : f.msb = f'.msb

/-! ## Texts -/

theorem scientificText_alike {m m' : Machine} (alike : m.Alike cfg m') {tail tail' : Bool}
    (known : m.int ≠ 0 → tail = tail') (v : ℚ) (p : ℕ) (point : Bool) (caseAdj : ℕ) :
    scientificText m v tail p point caseAdj = scientificText m' v tail' p point caseAdj := by
  rw [scientificText, scientificText, ← alike.int]
  split_ifs with many
  · rw [droppedRound, droppedRound, alike.int, alike.dec, known many.1]
  · rfl

theorem shortestText_alike {m m' : Machine} (alike : m.Alike cfg m') {tail tail' : Bool}
    (known : m.int ≠ 0 → tail = tail') (v : ℚ) (p : ℕ) (alt : Bool) (caseAdj : ℕ) :
    shortestText m v tail p alt caseAdj = shortestText m' v tail' p alt caseAdj := by
  rw [shortestText, shortestText, ← alike.int, scientificText_alike alike known]

section

variable (same : SameFormats cfg cfg') {digits : Prop} {f : RealBits cfg} {f' : RealBits cfg'}
  (alike : RealAlike cfg cfg' digits f f')
include same alike

variable (finite : IsFinite cfg f)
include finite

theorem approximation_alike : approximation cfg f = approximation cfg' f' := by
  rw [approximation, approximation, (alike.machine finite).value, same.value_eq]

theorem etoaText_alike {conv : ConvSpec} (asked : conv ≠ .floatDec → digits) (P : ℕ) (alt : Bool)
    (caseAdj : ℕ) : etoaText cfg f conv P alt caseAdj = etoaText cfg' f' conv P alt caseAdj := by
  have number := approximation_alike same alike finite
  have machines := alike.machine finite
  have known := fun other => alike.tail finite (asked other)
  cases conv with
  | floatDec => simp only [etoaText, number]
  | floatSci =>
      simp only [etoaText, number, scientificText_alike machines (known (by decide)), same.cbuf]
  | floatShortest =>
      simp only [etoaText, number, shortestText_alike machines (known (by decide)), same.cbuf]
  | _ => rfl

theorem fusedRoom_alike (q : ℕ) (point : Bool) :
    FusedRoom cfg q point (machineOf cfg f) ↔ FusedRoom cfg' q point (machineOf cfg' f') := by
  have machines := alike.machine finite
  rw [← fusedRoom_iff same.manBits same.cbuf]
  constructor
  · rintro ⟨dot, whole, all⟩
    rw [machines.int, machines.dec] at whole
    exact ⟨dot, whole, machines.fused q ▸ all⟩
  · rintro ⟨dot, whole, all⟩
    rw [← machines.int, ← machines.dec] at whole
    exact ⟨dot, whole, machines.fused q ▸ all⟩

/-- The shared conversions leave the same. -/
theorem npfEtoaRev_alike [cfg.RepExact] [cfg'.RepExact] {spec : NpfFormatSpec}
    (compiled : Decimal cfg spec.convSpec) (asked : spec.convSpec ≠ .floatDec → digits) {P : ℕ}
    (precision : npfDecPrec cfg spec = P) (buf : ConvBuffer cfg) (buf' : ConvBuffer cfg') :
    SameResult (npfEtoaRev cfg buf spec f) (npfEtoaRev cfg' buf' spec f') := by
  have compiled' : Decimal cfg' spec.convSpec := by
    rw [Decimal, ← same.floatSci, ← same.floatShortest]
    exact compiled
  have precision' : npfDecPrec cfg' spec = P := by
    rw [npfDecPrec, ← same.precision]
    exact precision
  have left := npfEtoaRev_text finite compiled precision buf
  have right := npfEtoaRev_text (alike.finite.mp finite) compiled' precision' buf'
  rw [etoaText_alike same alike finite asked, same.alternate_eq] at left
  exact left.same same.cbuf right

/-- The fused conversions leave the same. -/
theorem npfFtoaRev_alike [cfg.RepExact] [cfg'.RepExact] (spec : NpfFormatSpec) (q : ℕ)
    (buf : ConvBuffer cfg) (buf' : ConvBuffer cfg') :
    SameResult (npfFtoaRev cfg buf spec q f) (npfFtoaRev cfg' buf' spec q f') := by
  have left := npfFtoaRev_finite finite spec q buf
  have right := npfFtoaRev_finite (alike.finite.mp finite) spec q buf'
  rw [fusedRoom_alike same alike finite, (alike.machine finite).fused,
    fusedRound_of_manBits same.manBits, same.alternate_eq] at left
  rcases left with ⟨word, tooLong⟩ | ⟨short, leaves⟩
  · rcases right with ⟨word', -⟩ | ⟨short, -⟩
    · exact word.same word'
    · exact absurd short tooLong
  · rcases right with ⟨-, tooLong⟩ | ⟨-, leaves'⟩
    · exact absurd short tooLong
    · exact leaves.same leaves'

end

section

variable (same : SameFormats cfg cfg') {digits : Prop} {f : RealBits cfg} {f' : RealBits cfg'}
  (alike : RealAlike cfg cfg' digits f f') {r : Request}
  (alt : r.alt = true → cfg.altForm = true) (prec : r.precision ≠ none → cfg.precision = true)
  (real : IsReal cfg r.convSpec)
  (asked : r.convSpec = .floatSci ∨ r.convSpec = .floatShortest → digits)
include same alike alt prec real asked

omit alt in
/-- The conversions that are not hexadecimal, and the words for what is no number. -/
theorem decimal_alike [cfg.RepExact] [cfg'.RepExact]
    (decimal : r.convSpec ≠ .floatHex ∨ ¬ IsFinite cfg f) :
    SameResult
      (if cfg.useSci then npfEtoaRev cfg .blank r.realSpec f
        else npfFtoaRev cfg .blank r.realSpec (npfDecPrec cfg r.realSpec) f)
      (if cfg'.useSci then npfEtoaRev cfg' .blank r.realSpec f'
        else npfFtoaRev cfg' .blank r.realSpec (npfDecPrec cfg' r.realSpec) f') := by
  rw [same.useSci_eq]
  by_cases finite : IsFinite cfg f
  · have number := decimal.resolve_right (not_not.mpr finite)
    have precision := npfDecPrec_request prec number
    have precision' := npfDecPrec_request (fun given => same.precision ▸ prec given) number
    have compiled := real.decimal number
    split_ifs
    · exact npfEtoaRev_alike same alike finite compiled
        (fun other => asked ((compiled.resolve_left other).imp And.left And.left)) precision _ _
    · rw [precision, precision']
      exact npfFtoaRev_alike same alike finite _ _ _ _
  · have special := alike.finite.not.mp finite
    have nan := alike.nan finite
    split_ifs
    · rw [npfEtoaRev_special finite, npfEtoaRev_special special]
      simp only [nan]
      exact npfFtoaSpecial_same _ _ _ _
    · rw [npfFtoaRev_special finite, npfFtoaRev_special special]
      simp only [nan]
      exact npfFtoaSpecial_same _ _ _ _

/-- **Reals that are alike are printed alike.** -/
theorem realText_alike [cfg.RepExact] [cfg'.RepExact] : realText cfg' r f' = realText cfg r f := by
  by_cases hex : r.convSpec = .floatHex ∧ DoubleFinite (atoaArg cfg f)
  · obtain ⟨hex, finite⟩ := hex
    have on : cfg.floatHex = true := by
      rw [hex] at real
      exact real
    rw [realText_hex on hex alt prec finite,
      realText_hex (same.floatHex ▸ on) hex (fun set => same.altForm ▸ alt set)
        (fun given => same.precision ▸ prec given) (alike.atoa ▸ finite), alike.msb, alike.atoa]
  · have decimal := not_and_or.mp hex
    obtain ⟨n, b, b', run, run', cells⟩ := decimal_alike same alike prec real asked
      (decimal.imp_right (mt doubleFinite_atoaArg))
    have left : floatRun cfg r.realSpec f = .ok (NUL, n, b) := by
      rw [floatRun_decimal decimal, run]
      rfl
    have right : floatRun cfg' r.realSpec f' = .ok (NUL, n, b') := by
      rw [floatRun_decimal (alike.atoa ▸ decimal), run']
      rfl
    simp only [realText, left, right, bind, Except.bind, readDown_same same.cbuf cells,
      npfRealToIntRep_eq, sign_ne_zero_iff, alike.msb]

end

end Nanoprintf
