import Nanoprintf.Arguments
import Nanoprintf.AtoaSpec
import Nanoprintf.BuildResults
import Nanoprintf.RealText

/-!
# Features are conservative

A build with more features prints what one with fewer accepts as the other does.
Where the two differ in how they come to a text, the text is the answer to one
request; what is left to show is that the request and the answer do not depend
on features the specification does not use. The one exception is the default
number of digits of a pointer.
-/

set_option autoImplicit false

namespace Nanoprintf

open Foundations

variable {cfg cfg' : Config} {κ : Type}

/-! ## Builds with more features -/

/-- `cfg'` is `cfg` with features added: the same target, conversion buffer, real
type and float conversions; a feature that `cfg` has is one that `cfg'` has. -/
structure Extends (cfg cfg' : Config) : Prop where
  target : cfg.toTarget = cfg'.toTarget
  cbuf : cfg.cbuf = cfg'.cbuf
  manBits : cfg.manBits = cfg'.manBits
  singlePrecision : cfg.singlePrecision = cfg'.singlePrecision
  float : cfg.float = cfg'.float
  floatSci : cfg.floatSci = cfg'.floatSci
  floatShortest : cfg.floatShortest = cfg'.floatShortest
  fieldWidth : cfg.fieldWidth = true → cfg'.fieldWidth = true
  precision : cfg.precision = true → cfg'.precision = true
  altForm : cfg.altForm = true → cfg'.altForm = true
  small : cfg.small = true → cfg'.small = true
  large : cfg.large = true → cfg'.large = true
  binary : cfg.binary = true → cfg'.binary = true
  writeback : cfg.writeback = true → cfg'.writeback = true
  fixedWidth : cfg.fixedWidth = true → cfg'.fixedWidth = true
  floatHex : cfg.floatHex = true → cfg'.floatHex = true

namespace Extends

variable (ext : Extends cfg cfg')
include ext

theorem repExact [reads : cfg.RepExact] : cfg'.RepExact :=
  ⟨by
    rw [Config.realBits, Config.binBits, ← ext.target, ← ext.singlePrecision]
    exact reads.exact⟩

/-! ## Directives -/

theorem wBitsMax_eq (wide : cfg.wBitsMax = 64) : cfg'.wBitsMax = 64 := by
  have large := ext.large
  unfold Config.wBitsMax at wide ⊢
  rw [← ext.target]
  split_ifs at wide ⊢ <;> simp_all

theorem length_enabled {m : LengthToken} (on : m.enabled cfg = true) : m.enabled cfg' = true := by
  cases m with
  | none | l => rfl
  | hh | h => exact ext.small on
  | ll | j | z | t => exact ext.large on
  | L => exact ext.float.symm.trans on
  | w fast width =>
      have fixed := LengthToken.fixedWidth_of_enabled on
      cases width <;> simp_all [LengthToken.enabled, ext.fixedWidth fixed, ext.wBitsMax_eq]

theorem conversion_enabled {conv : Conversion} (on : conv.enabled cfg = true) :
    conv.enabled cfg' = true := by
  rcases conv with - | ⟨l, isUpper⟩
  · rfl
  · cases l with
    | a => exact ext.floatHex on
    | b => exact ext.binary on
    | e => exact ext.floatSci.symm.trans on
    | f => exact ext.float.symm.trans on
    | g => exact ext.floatShortest.symm.trans on
    | n => exact ext.writeback on
    | c | d | i | o | p | s | u | x => rfl

/-- The build with more features has every directive of the other. -/
theorem enabled {d : Directive} (on : d.enabled cfg = true) : d.enabled cfg' = true := by
  simp only [Directive.enabled, Bool.and_eq_true, List.all_eq_true] at on ⊢
  obtain ⟨⟨⟨⟨flags, width⟩, precision⟩, length⟩, conversion⟩ := on
  refine ⟨⟨⟨⟨fun f member => ?_, ?_⟩, ?_⟩, ext.length_enabled length⟩,
    ext.conversion_enabled conversion⟩
  · have on := flags f member
    cases f with
    | minus | zero => exact ext.fieldWidth on
    | plus | space => rfl
    | hash => exact ext.altForm on
  · rcases shape : d.width with - | ⟨- | ⟨digit, ds⟩⟩ <;> rw [shape] at width <;>
      first | rfl | exact ext.fieldWidth width
  · rcases shape : d.precision with - | - | ⟨minus, ds⟩ <;> rw [shape] at precision <;>
      first | rfl | exact ext.precision precision

/-- A string whose `%`s all start directives of the smaller build is cut alike. -/
theorem scans {s : List Char} {ps : List Piece} (scan : Scans cfg s ps)
    (accepted : Piece.literal '%' ∉ ps) : Scans cfg' s ps := by
  induction scan with
  | done junk => exact .done junk
  | @literal c s ps char literal rest ih =>
      rw [List.mem_cons, not_or] at accepted
      refine .literal char (.inl ?_) (ih accepted.2)
      rintro rfl
      exact accepted.1 rfl
  | directive on greedy rest ih =>
      rw [List.mem_cons, not_or] at accepted
      exact .directive (ext.enabled on) greedy (ih accepted.2)

/-! ## Integer types -/

theorem modifier_eq [cfg.FixedCarried] [cfg'.FixedCarried] {m : LengthToken}
    (on : m.enabled cfg = true) :
    m.modifier cfg = m.modifier cfg' := by
  cases m with
  | none | hh | h | l | ll | j | z | t | L => rfl
  | w fast w =>
      have same : ∀ bits, bits ≤ cfg.longBits ∨ cfg.large = true →
          lmOf cfg bits = lmOf cfg' bits := by
        intro bits long
        have widest : ¬ bits ≤ cfg.longBits → lmWidest cfg = lmWidest cfg' := fun wide => by
          have large := long.resolve_left wide
          rw [lmWidest, lmWidest, large, ext.large large]
        unfold lmOf
        rw [← ext.target]
        split_ifs with _ _ _ wide
        all_goals first | rfl | exact widest wide
      have fits : (if fast then cfg.fastBits w else cfg.leastBits w) ≤ cfg.longBits ∨
          cfg.large = true := by
        rcases off : cfg.large
        · exact .inl (LengthToken.carried on off)
        · exact .inr rfl
      have bits := same _ fits
      rw [LengthToken.modifier, LengthToken.modifier, lmOfW, lmOfW, ← ext.target]
      cases fast
      · exact bits
      · exact bits

section

variable {lm : LengthModifier} (supported : Supported cfg lm)
include supported

theorem argWidth_eq : argWidth cfg lm = argWidth cfg' lm := by
  cases lm with
  | none | short | char | longDouble => rw [argWidth, argWidth, ← ext.target]
  | long => rw [argWidth_long, argWidth_long, ← ext.target]
  | largeLongLong | largeIntmax =>
      have large : cfg.large = true := supported
      rw [argWidth, argWidth, if_pos large, if_pos (ext.large large)]
  | largeSizet =>
      rw [argWidth_sizet supported, argWidth_sizet (ext.large supported), ← ext.target]
  | largePtrdifft =>
      rw [argWidth_ptrdifft supported, argWidth_ptrdifft (ext.large supported), ← ext.target]

theorem narrowWidth_eq : narrowWidth cfg lm = narrowWidth cfg' lm := by
  have whole := ext.argWidth_eq supported
  cases lm with
  | short | char =>
      have small : cfg.small = true := supported
      simp only [narrowWidth, small, ext.small small, ← ext.target]
  | none | long | longDouble | largeLongLong | largeIntmax | largeSizet | largePtrdifft =>
      exact whole

theorem writebackWidth_eq : writebackWidth cfg lm = writebackWidth cfg' lm := by
  cases lm with
  | none | longDouble | long => simp only [writebackWidth, ← ext.target]
  | short | char =>
      have small : cfg.small = true := supported
      rw [writebackWidth, writebackWidth, if_pos small, if_pos (ext.small small),
        ← ext.target]
  | largeLongLong | largeIntmax =>
      have large : cfg.large = true := supported
      rw [writebackWidth, writebackWidth, if_pos large, if_pos (ext.large large)]
  | largeSizet =>
      have large : cfg.large = true := supported
      rw [writebackWidth, writebackWidth, if_pos large, if_pos (ext.large large),
        foldZ_width, foldZ_width, ← ext.target]
  | largePtrdifft =>
      have large : cfg.large = true := supported
      rw [writebackWidth, writebackWidth, if_pos large, if_pos (ext.large large),
        foldT_width, foldT_width, ← ext.target]

theorem extractSigned_eq (args : List Arg) :
    extractSigned cfg lm args = extractSigned cfg' lm args :=
  congrArg₂ (fun bits narrow => (do
    let (v, args) ← vaInt bits args
    pure ((v.setWidth narrow).toInt, args) : Run (ℤ × List Arg)))
    (ext.argWidth_eq supported) (ext.narrowWidth_eq supported)

theorem extractUnsigned_eq (args : List Arg) :
    extractUnsigned cfg lm args = extractUnsigned cfg' lm args :=
  congrArg₂ (fun bits narrow => (do
    let (v, args) ← vaInt bits args
    pure ((v.setWidth narrow).toNat, args) : Run (ℕ × List Arg)))
    (ext.argWidth_eq supported) (ext.narrowWidth_eq supported)

end

/-! ## Requests -/

theorem literalNumber_eq (ds : List (Fin 10)) : literalNumber cfg ds = literalNumber cfg' ds := by
  have big : cfg.fmtNumBig = cfg'.fmtNumBig := funext fun n => by
    rw [Config.fmtNumBig, Config.fmtNumBig, ← ext.target]
  have run : ∀ n, literalFrom cfg n ds = literalFrom cfg' n ds := by
    induction ds with
    | nil => exact fun n => rfl
    | cons d ds ih => exact fun n => by rw [literalFrom, literalFrom, ih, big]
  exact run 0

theorem intBits_eq : cfg.intBits = cfg'.intBits := by rw [ext.target]

theorem charBits_eq : cfg.charBits = cfg'.charBits := by rw [ext.target]

theorem fmtNumMax_eq : cfg.fmtNumMax = cfg'.fmtNumMax := by
  rw [Config.fmtNumMax, Config.fmtNumMax, ← ext.target, ext.cbuf]

theorem resolveWidth_eq (w : WidthPart) (args : List Arg) :
    resolveWidth cfg w args = resolveWidth cfg' w args := by
  rcases w with - | ds
  · rw [resolveWidth, resolveWidth, ext.fmtNumMax_eq]
    exact congrArg (fun bits => (vaInt bits args >>= fun p =>
      pure (min p.1.toInt.natAbs cfg'.fmtNumMax.toNat, decide (p.1.toInt < 0), p.2) :
        Run (ℕ × Bool × List Arg))) ext.intBits_eq
  · rw [resolveWidth, resolveWidth, ext.fmtNumMax_eq, ext.literalNumber_eq]

theorem resolvePrecision_eq (p : PrecisionPart) (args : List Arg) :
    resolvePrecision cfg p args = resolvePrecision cfg' p args := by
  rcases p with - | - | ⟨_ | _, ds⟩
  · rfl
  · rw [resolvePrecision, resolvePrecision, ext.fmtNumMax_eq]
    exact congrArg (fun bits => (vaInt bits args >>= fun p =>
      pure (if p.1.toInt < 0 then none else some (min p.1.toInt.toNat cfg'.fmtNumMax.toNat), p.2) :
        Run (Option ℕ × List Arg))) ext.intBits_eq
  · rw [resolvePrecision, resolvePrecision, ext.fmtNumMax_eq, ext.literalNumber_eq]
  · rfl

/-- A directive of the smaller build makes the same request of both. -/
theorem resolve_eq [cfg.FixedCarried] [cfg'.FixedCarried] {d : Directive}
    (on : d.length.enabled cfg = true) (args : List Arg) :
    resolve cfg d args = resolve cfg' d args := by
  have request : ∀ width negative precision, d.request cfg width negative precision =
      d.request cfg' width negative precision := fun _ _ _ => by
    rw [Directive.request, Directive.request, ext.modifier_eq on]
  simp only [resolve, ext.resolveWidth_eq, ext.resolvePrecision_eq, request]

/-! ## Reals -/

theorem sameReal : SameReal cfg cfg' where
  single := ext.singlePrecision
  bin := by rw [Config.binBits, Config.binBits, ext.singlePrecision, ext.target]
  man := ext.manBits

theorem useSci_eq : cfg.useSci = cfg'.useSci := by
  rw [Config.useSci, Config.useSci, ext.floatSci, ext.floatShortest]

end Extends

/-- Two float conversions leave the same letter, length and characters. -/
def SameFloat (run : Run (Char × ℤ × ConvBuffer cfg)) (run' : Run (Char × ℤ × ConvBuffer cfg')) :
    Prop :=
  ∃ c n b b', run = .ok (c, n, b) ∧ run' = .ok (c, n, b') ∧ ∀ i < n.natAbs, b.cell i = b'.cell i

/-- The characters that two buffers share are read alike. -/
theorem readDown_same (room : cfg.cbuf = cfg'.cbuf) {b : ConvBuffer cfg} {b' : ConvBuffer cfg'}
    {n : ℕ} (cells : ∀ i < n, b.cell i = b'.cell i) : readDown b n = readDown b' n := by
  induction n with
  | zero => rfl
  | succ n ih =>
      have top : (b.read n : Run Char) = b'.read n := by
        rw [Buffer.read, Buffer.read, cells n (Nat.lt_succ_self n)]
        simp only [room]
      rw [readDown, readDown, top, ih fun i below => cells i (Nat.lt_succ_of_lt below)]

theorem Extends.real (ext : Extends cfg cfg') {conv : ConvSpec} (real : IsReal cfg conv) :
    IsReal cfg' conv := by
  cases conv <;> first
    | exact real.elim
    | exact ext.float.symm.trans real
    | exact ext.floatSci.symm.trans real
    | exact ext.floatShortest.symm.trans real
    | exact ext.floatHex real

namespace Extends

variable (ext : Extends cfg cfg') {r : Request} {val : RealBits cfg} {val' : RealBits cfg'}
  (bits : val.toNat = val'.toNat)
include ext bits

theorem atoaArg_eq : atoaArg cfg val = atoaArg cfg' val' := by
  have same : ∀ n, val.setWidth n = val'.setWidth n := fun n =>
    BitVec.eq_of_toNat_eq (by rw [BitVec.toNat_setWidth, BitVec.toNat_setWidth, bits])
  rw [atoaArg, atoaArg, ext.singlePrecision, same, same]

/-- What is read of a real's pattern does not depend on the features. -/
theorem npfRealToIntRep_same : npfRealToIntRep cfg val = npfRealToIntRep cfg' val' := by
  rw [npfRealToIntRep, npfRealToIntRep, bits]
  simp only [Config.realBits, Config.binBits, ext.target, ext.singlePrecision]

theorem asRead_eq : (asRead cfg val).toNat = (asRead cfg' val').toNat := by
  simp only [asRead, BitVec.toNat_ofNat, ext.npfRealToIntRep_same bits, Config.realBits,
    ext.singlePrecision]

variable (real : IsReal cfg r.convSpec) (alt : r.alt = true → cfg.altForm = true)
  (prec : r.precision ≠ none → cfg.precision = true)
include alt

omit bits in
theorem alternate_eq : alternate cfg r.realSpec = alternate cfg' r.realSpec := by
  rw [alternate, alternate, Request.realSpec]
  rcases asked : r.alt
  · rw [Bool.and_false, Bool.and_false]
  · rw [alt asked, ext.altForm (alt asked)]

include prec

/-- The conversions that are not hexadecimal, and the words for what is no number. -/
theorem decimal_same (real : IsReal cfg r.convSpec)
    (exact : r.convSpec = .floatHex → cfg.RepExact)
    (decimal : r.convSpec ≠ .floatHex ∨ ¬ IsFinite cfg val) :
    SameResult
      (if cfg.useSci then npfEtoaRev cfg .blank r.realSpec val
        else npfFtoaRev cfg .blank r.realSpec (npfDecPrec cfg r.realSpec) val)
      (if cfg'.useSci then npfEtoaRev cfg' .blank r.realSpec val'
        else npfFtoaRev cfg' .blank r.realSpec (npfDecPrec cfg' r.realSpec) val') := by
  have same := ext.sameReal
  rw [ext.useSci_eq]
  by_cases hex : r.convSpec = .floatHex
  · have reads := exact hex
    have reads' := ext.repExact
    have special := decimal.resolve_left (not_not.mpr hex)
    have special' := (same.isFinite_iff bits).not.mp special
    split_ifs
    · rw [npfEtoaRev_special special, npfEtoaRev_special special', bits, same.fracField_eq]
      exact npfFtoaSpecial_same _ _ _ _
    · rw [npfFtoaRev_special special, npfFtoaRev_special special', bits, same.fracField_eq]
      exact npfFtoaSpecial_same _ _ _ _
  · have read := ext.asRead_eq bits
    have compiled := real.decimal hex
    have compiled' := (ext.real real).decimal hex
    have precision := npfDecPrec_request prec hex
    have precision' := npfDecPrec_request (fun given => ext.precision (prec given)) hex
    split_ifs
    · exact npfEtoaRev_same same ext.cbuf read rfl rfl compiled compiled' precision precision'
        (ext.alternate_eq alt) _ _
    · rw [precision, precision']
      exact npfFtoaRev_same same ext.cbuf read rfl (ext.alternate_eq alt) _ _ _

include real

/-- Both builds print a real alike. -/
theorem floatRun_same (exact : r.convSpec = .floatHex → cfg.RepExact) :
    SameFloat (floatRun cfg r.realSpec val) (floatRun cfg' r.realSpec val') := by
  have arg := ext.atoaArg_eq bits
  by_cases number : r.convSpec = .floatHex ∧ DoubleFinite (atoaArg cfg val)
  · obtain ⟨hex, finite⟩ := number
    have on : IsReal cfg .floatHex := hex ▸ real
    obtain ⟨P, precision, digits⟩ := npfHexPrec_request prec hex
    obtain ⟨P', precision', digits'⟩ :=
      npfHexPrec_request (fun nonzero => ext.precision (prec nonzero)) hex
    have leaves := npfAtoaRev_text finite precision .blank
    have leaves' := npfAtoaRev_text finite precision' .blank
    rw [← ext.alternate_eq alt, digits', ← digits] at leaves'
    have nonzero : atoaText (min P 13) (atoaArg cfg val) (alternate cfg r.realSpec)
        r.realSpec.caseAdjust ≠ [] := by
      simp [atoaText, hexText]
    obtain ⟨b, run, holds⟩ := floatRun_hex on hex rfl leaves nonzero
    obtain ⟨b', run', holds'⟩ := floatRun_hex (ext.floatHex on) hex arg.symm leaves' nonzero
    exact ⟨_, _, b, b', run, run', fun i inside => holds_cells holds holds' (by simpa using inside)⟩
  · have decimal : r.convSpec ≠ .floatHex ∨ ¬ DoubleFinite (atoaArg cfg val) :=
      not_and_or.mp number
    obtain ⟨n, b, b', run, run', cells⟩ := ext.decimal_same bits alt prec real exact
      (decimal.imp_right fun special finite => special (doubleFinite_atoaArg finite))
    rw [floatRun_decimal decimal, floatRun_decimal (arg ▸ decimal), run, run']
    exact ⟨NUL, n, b, b', rfl, rfl, cells⟩

theorem realText_eq (exact : r.convSpec = .floatHex → cfg.RepExact) :
    realText cfg r val = realText cfg' r val' := by
  obtain ⟨c, n, b, b', run, run', cells⟩ := ext.floatRun_same bits real alt prec exact
  have realBits : cfg.realBits = cfg'.realBits := by
    rw [Config.realBits, Config.realBits, ext.singlePrecision]
  simp only [realText, run, run', bind, Except.bind, readDown_same ext.cbuf cells,
    ext.npfRealToIntRep_same bits, realBits]

end Extends

/-! ## Answers -/

/-- A pointer has an address of the target. -/
def Arg.Addressed (cfg : Config) : Arg → Prop
  | .ptr address _ => address < 2 ^ cfg.ptrBits
  | _ => True

theorem ptrBits_le_uintBits (cfg : Config) : cfg.ptrBits ≤ cfg.uintBits := by
  have upper := cfg.ptrBits_le
  unfold Config.uintBits
  split_ifs <;> omega

namespace Extends

variable (ext : Extends cfg cfg')
include ext

/-- Both builds read the same number, or neither reads one. -/
theorem vaReal_same (lm : LengthModifier) (args : List Arg) :
    (∃ e, vaReal cfg lm args = .error e ∧ vaReal cfg' lm args = .error e) ∨
      ∃ v v' rest, vaReal cfg lm args = .ok (v, rest) ∧ vaReal cfg' lm args = .ok (v', rest) ∧
        v.toNat = v'.toNat := by
  have kept : ∀ {n} (rep : BitVec n),
      (rep.setWidth cfg.realBits).toNat = (rep.setWidth cfg'.realBits).toNat := fun rep => by
    rw [Config.realBits, Config.realBits, ext.singlePrecision]
  rcases args with - | ⟨- | - | rep | rep | rep, args⟩
  · exact .inl ⟨_, rfl, rfl⟩
  · exact .inl ⟨_, rfl, rfl⟩
  · exact .inl ⟨_, rfl, rfl⟩
  all_goals
    simp only [vaReal, ← ext.singlePrecision, ← ext.target]
    split_ifs
    · exact .inr ⟨_, _, _, rfl, rfl, kept rep⟩
    · exact .inl ⟨_, rfl, rfl⟩

section

variable {r : Request} (supported : Supported cfg r.lengthModifier)
  (compiled : Compiled cfg r.convSpec) (alt : r.alt = true → cfg.altForm = true)
  (prec : r.precision ≠ none → cfg.precision = true)

include alt prec in
theorem answer_real (real : IsReal cfg r.convSpec)
    (exact : r.convSpec = .floatHex → cfg.RepExact) (args : List Arg) :
    (do
      let (val, args) ← vaReal cfg r.lengthModifier args
      let text ← realText cfg r val
      pure ⟨text, [], args⟩ : Run Formatted) = (do
      let (val, args) ← vaReal cfg' r.lengthModifier args
      let text ← realText cfg' r val
      pure ⟨text, [], args⟩) := by
  rcases ext.vaReal_same r.lengthModifier args with
    ⟨e, run, run'⟩ | ⟨v, v', rest, run, run', bits⟩
  · rw [run, run']
    rfl
  · rw [run, run']
    simp only [bind, Except.bind, ext.realText_eq bits real alt prec exact]

include supported compiled alt prec

/-- **A request of the smaller build has the same answer in both**, unless it is for a pointer
and only one of them has a default precision for it. -/
theorem answer_eq (pointer : r.convSpec = .pointer → cfg.precision = cfg'.precision)
    (exact : r.convSpec = .floatHex → cfg.RepExact) {args : List Arg}
    (addressed : ∀ a ∈ args, a.Addressed cfg) : answer cfg r args = answer cfg' r args := by
  have real := ext.answer_real alt prec
  have unsigned := ext.extractUnsigned_eq supported args
  unfold answer
  cases kind : r.convSpec with
  | none | percent | string => rfl
  | char =>
      exact congrArg₂ (fun bits code => (do
        let (v, args) ← vaInt bits args
        let c := Char.ofNat (v.toNat % 2 ^ code)
        pure ⟨r.plain (Request.zeroExtend (r.precision.getD 0) [c]), [], args⟩ : Run Formatted))
        ext.intBits_eq ext.charBits_eq
  | signedInt => simp only [ext.extractSigned_eq supported]
  | binary | octal | hexInt | unsignedInt => simp only [unsigned]
  | writeback => simp only [ext.writebackWidth_eq supported]
  | pointer =>
      have digits : pointerDigits cfg = pointerDigits cfg' := by
        rw [pointerDigits, pointerDigits, pointer kind, ext.target]
      rcases args with _ | ⟨_ | ⟨a, m⟩ | _ | _ | _, args⟩
      case cons.ptr =>
        have small : a < 2 ^ cfg.ptrBits := addressed _ List.mem_cons_self
        have word : a < 2 ^ cfg.uintBits :=
          small.trans_le (Nat.pow_le_pow_right two_pos (ptrBits_le_uintBits cfg))
        have word' : a < 2 ^ cfg'.uintBits := by
          rw [ext.target] at small
          exact small.trans_le (Nat.pow_le_pow_right two_pos (ptrBits_le_uintBits cfg'))
        simp only [vaPtr, bind, Except.bind, digits, Nat.mod_eq_of_lt word, Nat.mod_eq_of_lt word']
      all_goals rfl
  | floatDec => exact real (compiled.real (.inl kind)) exact args
  | floatHex => exact real (compiled.real (.inr (.inl kind))) exact args
  | floatSci => exact real (compiled.real (.inr (.inr (.inl kind)))) exact args
  | floatShortest => exact real (compiled.real (.inr (.inr (.inr kind)))) exact args

end

/-! ## Formats -/

/-- A directive of the smaller build is formatted alike. -/
theorem format_eq [cfg.FixedCarried] [cfg'.FixedCarried] {d : Directive}
    (on : d.enabled cfg = true)
    (pointer : d.conversion.convSpec = .pointer → cfg.precision = cfg'.precision)
    (exact : d.conversion.convSpec = .floatHex → cfg.RepExact) {args : List Arg}
    (addressed : ∀ a ∈ args, a.Addressed cfg) :
    (Piece.directive d).format cfg args = (Piece.directive d).format cfg' args := by
  have parts := on
  simp only [Directive.enabled, Bool.and_eq_true] at parts
  obtain ⟨⟨-, length⟩, conversion⟩ := parts
  rw [Piece.format, Piece.format, ← ext.resolve_eq length, resolve]
  rcases width : resolveWidth cfg d.width args with e | ⟨w, negative, rest⟩
  · rfl
  rcases precision : resolvePrecision cfg d.precision rest with e | ⟨p, left⟩
  · simp only [bind, Except.bind, precision]
  have alt : (d.request cfg w negative p).alt = true → cfg.altForm = true := by
    intro asked
    by_contra off
    exact Directive.enabled_alt on (Bool.not_eq_true _ ▸ off) (of_decide_eq_true asked)
  have prec : (d.request cfg w negative p).precision ≠ none → cfg.precision = true := by
    intro given
    by_contra off
    rw [Directive.enabled_precision on (Bool.not_eq_true _ ▸ off)] at precision
    exact given (congrArg Prod.fst (Except.ok.inj precision)).symm
  have suffix : left <:+ args :=
    ((takes_resolvePrecision d.precision).suffix precision).trans
      ((takes_resolveWidth d.width).suffix (by rw [width]; rfl))
  simp only [bind, Except.bind, precision]
  exact ext.answer_eq (LengthToken.supported length) (Conversion.compiled conversion) alt prec
    pointer exact fun a member => addressed a (suffix.subset member)

theorem output_eq [cfg.FixedCarried] [cfg'.FixedCarried] {s : List Char} {ps : List Piece}
    (scan : Scans cfg s ps)
    (pointer : ∀ d, Piece.directive d ∈ ps → d.conversion.convSpec = .pointer →
      cfg.precision = cfg'.precision)
    (exact : ∀ d, Piece.directive d ∈ ps → d.conversion.convSpec = .floatHex → cfg.RepExact)
    {args : List Arg} (addressed : ∀ a ∈ args, a.Addressed cfg) :
    output cfg ps args = output cfg' ps args := by
  induction scan generalizing args with
  | done junk => rfl
  | literal char literal rest ih =>
      have tail := ih (fun d member => pointer d (List.mem_cons_of_mem _ member))
        (fun d member => exact d (List.mem_cons_of_mem _ member)) addressed
      simp only [output, Piece.format, bind, Except.bind, tail]
  | @directive d s ps on greedy rest ih =>
      have head := ext.format_eq on (pointer d List.mem_cons_self) (exact d List.mem_cons_self)
        addressed
      rw [output, output, ← head]
      rcases run : (Piece.directive d).format cfg args with e | f
      · rfl
      · have suffix : f.args <:+ args := (takes_directive d).suffix (by rw [run]; rfl)
        have tail := ih (fun d member => pointer d (List.mem_cons_of_mem _ member))
          (fun d member => exact d (List.mem_cons_of_mem _ member))
          fun a member => addressed a (suffix.subset member)
        simp only [bind, Except.bind, tail]

end Extends

/-- **Features are conservative.** Where every `%` starts a specification that the
smaller build accepts, both send the same characters, count them alike and store
the same numbers, unless a pointer is printed and only one of them has precisions. A target for
`%a` has to read patterns exactly: elsewhere an infinity is a zero to it, with a precision. -/
theorem npfVpprintf_extends [cfg.FixedCarried] [cfg'.FixedCarried] (ext : Extends cfg cfg')
    {format : Cursor} {ps : List Piece} (scan : Scans cfg format ps)
    (accepted : Piece.literal '%' ∉ ps)
    (pointer : ∀ d, Piece.directive d ∈ ps → d.conversion.convSpec = .pointer →
      cfg.precision = cfg'.precision)
    (exact : ∀ d, Piece.directive d ∈ ps → d.conversion.convSpec = .floatHex → cfg.RepExact)
    {args : List Arg} (addressed : ∀ a ∈ args, a.Addressed cfg)
    (pc : κ → Char → κ) (ctx : κ) (fs fs' : NpfFormatSpec) :
    npfVpprintf cfg pc ctx format args fs = npfVpprintf cfg' pc ctx format args fs' := by
  have wrap : ∀ n, cfg.wrapInt n = cfg'.wrapInt n := fun n => by rw [ext.target]
  rw [npfVpprintf_eq pc ctx scan, npfVpprintf_eq pc ctx (ext.scans scan accepted),
    ext.output_eq scan pointer exact addressed]
  simp only [wrap]

/-- A feature that is off requires nothing. -/
theorem bare_hex_float : false = true → Config.standard.float = true :=
  (absurd · Bool.false_ne_true)

theorem bare_fixed_small : false = true → false = true := id

/-- The standard build without the features that can be added to any build. -/
def Config.bare : Config :=
  { Config.standard with
    fieldWidth := false
    precision := false
    altForm := false
    small := false
    large := false
    binary := false
    writeback := false
    fixedWidth := false
    floatHex := false
    hex_float := bare_hex_float
    fixed_small := bare_fixed_small }

instance : Config.bare.RepExact := .of_double _ rfl

instance : Config.bare.FixedCarried := ⟨fun on => absurd on Bool.false_ne_true⟩

theorem Config.bare_extends : Extends .bare .standard where
  target := rfl
  cbuf := rfl
  manBits := rfl
  singlePrecision := rfl
  float := rfl
  floatSci := rfl
  floatShortest := rfl
  fieldWidth := nofun
  precision := nofun
  altForm := nofun
  small := nofun
  large := nofun
  binary := nofun
  writeback := nofun
  fixedWidth := nofun
  floatHex := nofun

/-- The specification that is a letter behind the `%`. -/
def Directive.plain (l : Letter) : Directive := ⟨[], .digits [], .absent, .none, .letter l false⟩

/-- `%f` without a precision. -/
theorem npfVpprintf_extends_bare :
    npfVpprintf .bare record [] ("%f".toList ++ [NUL]) [.double 0x3ff8000000000000] .zeroed =
        .ok (8, "1.500000".toList, []) ∧
      npfVpprintf .standard record [] ("%f".toList ++ [NUL]) [.double 0x3ff8000000000000]
        .zeroed = .ok (8, "1.500000".toList, []) := by
  have scan : Scans .bare ("%f".toList ++ [NUL]) [.directive (.plain .f)] :=
    .directive (d := .plain .f) rfl (by decide) (.done [])
  have same := npfVpprintf_extends Config.bare_extends scan (by decide)
    (fun d member kind => by
      obtain rfl := Piece.directive.inj (List.mem_singleton.mp member)
      cases kind)
    (fun _ _ _ => inferInstance)
    (List.forall_mem_singleton.mpr (by trivial : Arg.Addressed .bare (.double 0x3ff8000000000000)))
    record [] .zeroed .zeroed
  have printed : npfVpprintf .standard record [] ("%f".toList ++ [NUL])
      [.double 0x3ff8000000000000] .zeroed = .ok (8, "1.500000".toList, []) := by decide +kernel
  exact ⟨same.trans printed, printed⟩

end Nanoprintf
