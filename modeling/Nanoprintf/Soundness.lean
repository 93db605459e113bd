import Nanoprintf.RealFields
import Nanoprintf.StringReads
import Nanoprintf.Verbatim

/-!
# What a format means

A format has one reading as a sequence of pieces, and the engine with any callback does
what the pieces mean.

C leaves a call of `printf` undefined whose arguments do not have the types that its
format names, and the model ends such a run, just as it ends one that reads a cell of
a buffer it has not written, leaves the buffer, or runs past the end of a string. Here
is which calls are defined: those whose arguments have the types of the pieces of the
format, one piece after the other, and whose pointers can be used.
-/

set_option autoImplicit false

namespace Nanoprintf

open Foundations

variable {cfg : Config} {κ : Type}

/-! ## The reading of a format -/

/-- A format is read in one way. -/
theorem Scans.unique {s : List Char} {ps qs : List Piece} (scan : Scans cfg s ps)
    (scan' : Scans cfg s qs) : qs = ps := by
  induction scan generalizing qs with
  | done junk =>
      cases scan' with
      | done => rfl
      | literal char => exact absurd rfl char
  | @literal c s ps char literal rest ih =>
      generalize whole : c :: s = t at scan'
      cases scan' with
      | done => exact absurd (List.cons.inj whole).1 char
      | literal _ _ rest' =>
          obtain ⟨rfl, rfl⟩ := List.cons.inj whole
          rw [ih rest']
      | directive on greedy rest' =>
          have percent := (List.cons.inj whole).1
          exact absurd whole (literal.resolve_left (not_not.mpr percent) _ _ on)
  | @directive d s ps on greedy rest ih =>
      generalize whole : d.text ++ s = t at scan'
      cases scan' with
      | done => exact absurd (List.cons.inj whole).1 (by decide)
      | literal _ literal' _ =>
          have percent := (List.cons.inj whole).1
          exact absurd whole.symm (literal'.resolve_left (not_not.mpr percent.symm) _ _ on)
      | directive on' greedy' rest' =>
          obtain ⟨rfl, rfl⟩ := Directive.unique greedy greedy' whole
          rw [ih rest']

/-- **`npf_vpprintf` refines the meaning of its format.** A format has one reading, and the engine
does what its pieces mean: for every callback, context and arguments, and whatever the
specification record starts with, the callback is applied to the characters of the output one after
the other, the count of them is returned, and every `%n` stores its own; and a call is undefined in
the way its output is. -/
theorem npfVpprintf_refines (cfg : Config) {format : Cursor} (terminated : NUL ∈ format) :
    ∃ ps, Scans cfg format ps ∧ (∀ qs, Scans cfg format qs → qs = ps) ∧
      ∀ (κ : Type) (pc : κ → Char → κ) (ctx : κ) (args : List Arg) (fs : NpfFormatSpec),
        npfVpprintf cfg pc ctx format args fs = (output cfg ps args).map fun o =>
          (cfg.wrapInt o.text.length, o.text.foldl pc ctx,
            o.marks.map fun mark => mark.1.store (cfg.wrapInt mark.2)) := by
  obtain ⟨ps, scan⟩ := exists_scan cfg format terminated
  exact ⟨ps, scan, fun qs => scan.unique, fun κ pc ctx args fs =>
    npfVpprintf_eq pc ctx scan args fs⟩

/-- A percent sign that starts no specification is a character. -/
theorem npfVpprintf_refines_stray :
    (∀ qs, Scans .standard ("%05d%%x%".toList ++ [NUL]) qs → qs =
      [.directive ⟨[.zero], .digits [5], .absent, .none, .letter .d false⟩,
        .directive ⟨[], .digits [], .absent, .none, .percent⟩, .literal 'x', .literal '%']) ∧
      npfVpprintf .standard record [] ("%05d%%x%".toList ++ [NUL]) [.int 32 42] .zeroed =
        .ok (8, "00042%x%".toList, []) := by
  have stray : Rejected .standard ['%', NUL] := by
    intro d rest on split
    obtain ⟨g, -, -, -, accepts⟩ := npfParseFormatSpecEnd_of_text on rest .zeroed
    have refuses : (npfParseFormatSpecEnd .standard ['%', NUL] .zeroed).map
        (fun parsed => parsed.1.isNone) = .ok true := by decide
    rw [split, accepts] at refuses
    cases refuses
  have scan : Scans .standard ("%05d%%x%".toList ++ [NUL])
      [.directive ⟨[.zero], .digits [5], .absent, .none, .letter .d false⟩,
        .directive ⟨[], .digits [], .absent, .none, .percent⟩, .literal 'x', .literal '%'] :=
    .directive (d := ⟨[.zero], .digits [5], .absent, .none, .letter .d false⟩) rfl (by decide)
      (.directive (d := ⟨[], .digits [], .absent, .none, .percent⟩) rfl (by decide)
        (.literal (by decide) (.inl (by decide)) (.literal (by decide) (.inr stray) (.done []))))
  obtain ⟨ps, -, only, engine⟩ :=
    @npfVpprintf_refines .standard ("%05d%%x%".toList ++ [NUL]) (by decide)
  obtain rfl := only _ scan
  refine ⟨only, ?_⟩
  rw [engine]
  decide +kernel

/-! ## Judgements -/

/-- The pointers of a directive can be used: a string is readable as far as the precision in
effect asks for, and there is an object for `%n`, which `%Ln` does not need. -/
def Directive.PointersUsable (cfg : Config) (d : Directive) (taken : List Arg) : Prop :=
  ∀ r a memory rest, resolve cfg d taken = .ok (r, .ptr a memory :: rest) →
    (d.conversion.convSpec = .string → Readable r.precision a memory) ∧
      (d.conversion.convSpec = .writeback → d.length ≠ .L → a ≠ 0)

/-- The arguments are those that a piece asks for. -/
def Piece.Typed (cfg : Config) : Piece → List Arg → Prop
  | literal _, taken => taken = []
  | directive d, taken =>
    List.Forall₂ (Arg.HasType cfg) taken (d.argTypes cfg) ∧ d.PointersUsable cfg taken

/-- The arguments are those of the pieces, one piece after the other, and some that are unused. -/
inductive Typed (cfg : Config) : List Piece → List Arg → Prop
  | done (unused : List Arg) : Typed cfg [] unused
  | piece {p : Piece} {ps : List Piece} {taken args : List Arg} (one : p.Typed cfg taken)
      (rest : Typed cfg ps args) : Typed cfg (p :: ps) (taken ++ args)

/-! ## Requests -/

/-- The request of a directive asks for a precision if precisions are compiled in. -/
theorem resolve_request {d : Directive} (on : d.enabled cfg = true) {args rest : List Arg}
    {r : Request} (resolved : resolve cfg d args = .ok (r, rest)) :
    ∃ width negative precision, r = d.request cfg width negative precision ∧
      (precision ≠ none → cfg.precision = true) := by
  rw [resolve] at resolved
  obtain ⟨⟨width, negative, middle⟩, -, resolved⟩ := bind_eq_ok.mp resolved
  obtain ⟨⟨precision, last⟩, run, resolved⟩ := bind_eq_ok.mp resolved
  refine ⟨width, negative, precision, (Prod.mk.inj (Except.ok.inj resolved)).1.symm, ?_⟩
  intro given
  by_contra off
  rw [Directive.enabled_precision on (Bool.not_eq_true _ ▸ off)] at run
  exact given (congrArg Prod.fst (Except.ok.inj run)).symm

/-! ## Reading -/

theorem exists_bound_of_stop {bound : Option ℤ} {len : ℕ}
    (stop : ¬ bound.all ((len : ℤ) < ·) = true) : ∃ b, bound = some b ∧ b ≤ len := by
  cases bound with
  | none => exact absurd rfl stop
  | some b => exact ⟨b, rfl, by simpa using stop⟩

/-- A string that has been measured can be read. -/
theorem readable_of_strLen {bound : Option ℤ} {memory : List Char} {start len : ℕ}
    (run : strLen bound memory start = .ok len) :
    NUL ∈ memory ∨ ∃ b, bound = some b ∧ b ≤ start + memory.length := by
  induction memory generalizing start with
  | nil =>
      rw [strLen] at run
      split_ifs at run with more
      obtain ⟨b, rfl, stop⟩ := exists_bound_of_stop more
      exact .inr ⟨b, rfl, by simpa using stop⟩
  | cons c memory ih =>
      rw [strLen] at run
      split_ifs at run with more nul
      · exact .inl (nul ▸ List.mem_cons_self)
      · rcases ih run with member | ⟨b, rfl, stop⟩
        · exact .inl (List.mem_cons_of_mem _ member)
        · refine .inr ⟨b, rfl, ?_⟩
          rw [List.length_cons]
          push_cast at stop ⊢
          omega
      · obtain ⟨b, rfl, stop⟩ := exists_bound_of_stop more
        exact .inr ⟨b, rfl, by omega⟩

theorem writebackWidth_eq_none [cfg.FixedCarried] {d : Directive}
    (on : d.length.enabled cfg = true) :
    writebackWidth cfg (d.length.modifier cfg) = none ↔ d.length = .L := by
  constructor
  · intro nothing
    by_contra integer
    rw [LengthToken.writebackWidth_modifier on integer] at nothing
    cases nothing
  · intro same
    rw [same]
    rfl

theorem Directive.enabled_length {d : Directive} (on : d.enabled cfg = true) :
    d.length.enabled cfg = true := by
  simp only [Directive.enabled, Bool.and_eq_true] at on
  exact on.1.2

section

variable {args : List Arg} {kinds : List ArgType}

theorem exists_vaPtr (typed : List.Forall₂ (Arg.HasType cfg) args (.pointer :: kinds)) :
    ∃ a memory rest, args = .ptr a memory :: rest ∧
      List.Forall₂ (Arg.HasType cfg) rest kinds := by
  cases typed with
  | @cons arg _ rest _ kind typed =>
      cases arg with
      | ptr a memory => exact ⟨a, memory, rest, rfl, typed⟩
      | int | double | longDouble | npfFloat => exact kind.elim

theorem exists_resolveWidth_typed {w : WidthPart}
    (typed : List.Forall₂ (Arg.HasType cfg) args (w.argTypes cfg ++ kinds)) :
    ∃ width negative rest, resolveWidth cfg w args = .ok (width, negative, rest) ∧
      List.Forall₂ (Arg.HasType cfg) rest kinds := by
  rcases w with - | ds
  · obtain ⟨v, rest, run, typed⟩ := exists_vaInt typed
    refine ⟨min v.toInt.natAbs cfg.fmtNumMax.toNat, decide (v.toInt < 0), rest, ?_, typed⟩
    rw [resolveWidth, run]
    rfl
  · exact ⟨_, false, args, rfl, typed⟩

/-- A directive reads its stars. -/
theorem exists_resolve_typed {d : Directive}
    (typed : List.Forall₂ (Arg.HasType cfg) args (d.argTypes cfg)) :
    ∃ width negative precision rest,
      resolve cfg d args = .ok (d.request cfg width negative precision, rest) ∧
      List.Forall₂ (Arg.HasType cfg) rest
        (valueTypes cfg (d.length.modifier cfg) d.conversion.convSpec) := by
  obtain ⟨width, negative, middle, widthRun, typed⟩ := exists_resolveWidth_typed typed
  obtain ⟨precision, rest, precisionRun, typed⟩ := exists_resolvePrecision_typed typed
  refine ⟨width, negative, precision, rest, ?_, typed⟩
  rw [resolve, widthRun]
  simp only [bind, Except.bind, precisionRun, pure, Except.pure]

end

/-! ## Directives -/

section

variable {d : Directive} (on : d.enabled cfg = true) {width : ℕ} {negative : Bool}
  {precision : Option ℕ} {args : List Arg}
include on

/-- A directive whose argument has the right type, and can be used if it is a pointer, is
answered. -/
theorem exists_answer [cfg.FixedCarried]
    (typed : List.Forall₂ (Arg.HasType cfg) args
      (valueTypes cfg (d.length.modifier cfg) d.conversion.convSpec))
    (usable : ∀ a memory rest, args = .ptr a memory :: rest →
      (d.conversion.convSpec = .string → Readable precision a memory) ∧
        (d.conversion.convSpec = .writeback → d.length ≠ .L → a ≠ 0)) :
    ∃ f, answer cfg (d.request cfg width negative precision) args = .ok f := by
  have compiled := Directive.compiled on
  have spec : (d.request cfg width negative precision).convSpec = d.conversion.convSpec := rfl
  have modifier : (d.request cfg width negative precision).lengthModifier =
    d.length.modifier cfg := rfl
  have real : IsReal cfg d.conversion.convSpec →
      List.Forall₂ (Arg.HasType cfg) args [.real (d.length.modifier cfg)] →
      ∃ val rest text, vaReal cfg (d.length.modifier cfg) args = .ok (val, rest) ∧
        realText cfg (d.request cfg width negative precision) val = .ok text := by
    intro real typed
    obtain ⟨val, rest, run, -⟩ := exists_vaReal typed
    obtain ⟨t, -, text⟩ := @realText_inField cfg (d.request cfg width negative precision) real
      (Conversion.caseAdjust_cases d.conversion) d.isSignC_prepend val
    exact ⟨val, rest, _, run, text⟩
  unfold answer
  rw [spec, modifier]
  cases kind : d.conversion.convSpec with
  | none =>
      rw [kind] at compiled
      exact compiled.elim
  | percent => exact ⟨_, rfl⟩
  | char =>
      rw [kind] at typed
      obtain ⟨v, rest, run, -⟩ := exists_vaInt typed
      simp only [run, bind, Except.bind]
      exact ⟨_, rfl⟩
  | string =>
      rw [kind] at typed
      obtain ⟨a, memory, rest, rfl, -⟩ := exists_vaPtr typed
      have readable := (usable a memory rest rfl).1 kind
      by_cases null : a = 0
      · simp only [vaPtr, bind, Except.bind, if_pos null]
        exact ⟨_, rfl⟩
      · simp only [vaPtr, bind, Except.bind, if_neg null]
        rw [show (d.request cfg width negative precision).precision = precision from rfl,
          strLen_eq (readable.resolve_left null)]
        exact ⟨_, rfl⟩
  | signedInt =>
      rw [kind] at typed
      obtain ⟨v, rest, run, -⟩ := exists_vaInt typed
      simp only [extractSigned, run, bind, Except.bind]
      exact ⟨_, rfl⟩
  | pointer =>
      rw [kind] at typed
      obtain ⟨a, memory, rest, rfl, -⟩ := exists_vaPtr typed
      exact ⟨_, rfl⟩
  | writeback =>
      rw [kind] at typed
      obtain ⟨a, memory, rest, rfl, -⟩ := exists_vaPtr typed
      simp only [vaPtr, bind, Except.bind]
      cases stored : writebackWidth cfg (d.length.modifier cfg) with
      | none => exact ⟨_, rfl⟩
      | some bits =>
          have integer : d.length ≠ .L := fun same => by
            rw [(writebackWidth_eq_none (Directive.enabled_length on)).mpr same] at stored
            cases stored
          simp only [if_neg ((usable a memory rest rfl).2 kind integer)]
          exact ⟨_, rfl⟩
  | binary | octal | hexInt | unsignedInt =>
      rw [kind] at typed
      obtain ⟨v, rest, run, -⟩ := exists_vaInt typed
      simp only [extractUnsigned, run, bind, Except.bind]
      exact ⟨_, rfl⟩
  | floatDec | floatHex | floatSci | floatShortest =>
      rw [kind] at typed compiled
      obtain ⟨val, rest, text, run, shown⟩ := real (kind ▸ compiled) typed
      simp only [run, shown, bind, Except.bind]
      exact ⟨_, rfl⟩

/-- A pointer that has been used can be. -/
theorem usable_of_answer [cfg.FixedCarried] {a : ℕ} {memory : List Char} {rest : List Arg}
    {f : Formatted}
    (run : answer cfg (d.request cfg width negative precision) (.ptr a memory :: rest) = .ok f) :
    (d.conversion.convSpec = .string → Readable precision a memory) ∧
      (d.conversion.convSpec = .writeback → d.length ≠ .L → a ≠ 0) := by
  have spec : (d.request cfg width negative precision).convSpec = d.conversion.convSpec := rfl
  unfold answer at run
  rw [spec] at run
  constructor
  · intro kind
    simp only [kind, vaPtr, bind, Except.bind] at run
    by_cases null : a = 0
    · exact .inl null
    · refine .inr ?_
      rw [if_neg null] at run
      obtain ⟨len, measured, -⟩ := bind_eq_ok.mp run
      rcases readable_of_strLen measured with member | ⟨b, bound, stop⟩
      · exact .inl member
      · obtain ⟨p, given, rfl⟩ := Option.map_eq_some_iff.mp bound
        refine .inr ⟨p, given, ?_⟩
        simpa using stop
  · rintro kind integer rfl
    have stored := LengthToken.writebackWidth_modifier (Directive.enabled_length on) integer
    have modifier : (d.request cfg width negative precision).lengthModifier =
      d.length.modifier cfg := rfl
    rw [kind, modifier] at run
    simp only [vaPtr, bind, Except.bind, stored, if_true] at run
    cases run

/-- A directive that is answered has found what it asks for. -/
theorem Directive.typed_of_format [cfg.FixedCarried] {f : Formatted}
    (run : (Piece.directive d).format cfg args = .ok f) :
    ∃ taken, (Piece.directive d).Typed cfg taken ∧ args = taken ++ f.args := by
  have split : ((Piece.directive d).format cfg args).map Formatted.split =
    .ok ((f.text, f.slots), f.args) := by rw [run]; rfl
  obtain ⟨taken, typed, rfl, again⟩ := takes_directive d args _ _ split
  refine ⟨taken, ⟨typed, fun r a memory rest read => ?_⟩, rfl⟩
  obtain ⟨width, negative, precision, left, resolved, -⟩ := exists_resolve_typed typed
  obtain ⟨rfl, rfl⟩ := Prod.mk.inj (Except.ok.inj (read.symm.trans resolved))
  obtain ⟨g, alone, -⟩ := map_eq_ok.mp (again [])
  rw [List.append_nil, Piece.format, resolved] at alone
  exact usable_of_answer on alone

/-- A directive that finds what it asks for is answered. -/
theorem Directive.format_of_typed [cfg.FixedCarried] {taken : List Arg}
    (typed : (Piece.directive d).Typed cfg taken) (more : List Arg) :
    ∃ f, (Piece.directive d).format cfg (taken ++ more) = .ok f ∧ f.args = more := by
  obtain ⟨types, usable⟩ := typed
  obtain ⟨width, negative, precision, left, resolved, typed⟩ := exists_resolve_typed types
  obtain ⟨f, answered⟩ := @exists_answer cfg d on width negative precision left _ typed
    (fun a memory rest same => usable _ a memory rest (same ▸ resolved))
  have run : (Piece.directive d).format cfg taken = .ok f := by
    rw [Piece.format, resolved]
    exact answered
  have split : ((Piece.directive d).format cfg taken).map Formatted.split =
    .ok ((f.text, f.slots), f.args) := by rw [run]; rfl
  obtain ⟨used, types', split, again⟩ := takes_directive d taken _ _ split
  have whole : f.args = [] := by
    have lengths := congrArg List.length split
    rw [List.length_append, types.length_eq, types'.length_eq] at lengths
    exact List.eq_nil_of_length_eq_zero (by omega)
  rw [whole, List.append_nil] at split
  obtain ⟨g, mapped, same⟩ := map_eq_ok.mp (again more)
  exact ⟨g, split ▸ mapped, congrArg Prod.snd same⟩

end

/-! ## Calls -/

/-- The reference semantics of a format is defined on the arguments that are typed. -/
theorem Scans.output_defined_iff [cfg.FixedCarried] {s : List Char} {ps : List Piece}
    (scan : Scans cfg s ps) (args : List Arg) :
    (∃ o, output cfg ps args = .ok o) ↔ Typed cfg ps args := by
  induction scan generalizing args with
  | done junk => exact ⟨fun _ => .done args, fun _ => ⟨_, rfl⟩⟩
  | @literal c s ps char literal rest ih =>
      constructor
      · rintro ⟨o, run⟩
        obtain ⟨f, one, run⟩ := bind_eq_ok.mp run
        obtain ⟨o, later, -⟩ := bind_eq_ok.mp run
        obtain rfl := Except.ok.inj one
        exact .piece (p := .literal c) rfl ((ih args).mp ⟨o, later⟩)
      · intro typed
        cases typed with
        | @piece _ _ taken args one rest =>
            obtain rfl : taken = [] := one
            obtain ⟨o, later⟩ := (ih args).mpr rest
            exact ⟨_, bind_eq_ok.mpr ⟨⟨[c], [], args⟩, rfl, bind_eq_ok.mpr ⟨o, later, rfl⟩⟩⟩
  | @directive d s ps on greedy rest ih =>
      constructor
      · rintro ⟨o, run⟩
        obtain ⟨f, one, run⟩ := bind_eq_ok.mp run
        obtain ⟨o, later, -⟩ := bind_eq_ok.mp run
        obtain ⟨taken, typed, rfl⟩ := d.typed_of_format on one
        exact .piece typed ((ih f.args).mp ⟨o, later⟩)
      · intro typed
        cases typed with
        | @piece _ _ taken args one rest =>
            obtain ⟨f, run, rfl⟩ := d.format_of_typed on one args
            obtain ⟨o, later⟩ := (ih f.args).mpr rest
            exact ⟨_, bind_eq_ok.mpr ⟨f, run, bind_eq_ok.mpr ⟨o, later, rfl⟩⟩⟩

/-- A run comes to its end if and only if the arguments are typed. -/
theorem npfVpprintf_ok_iff [cfg.FixedCarried] {format : Cursor} {ps : List Piece}
    (scan : Scans cfg format ps) (args : List Arg) (fs : NpfFormatSpec) (pc : κ → Char → κ)
    (ctx : κ) :
    (∃ out, npfVpprintf cfg pc ctx format args fs = .ok out) ↔ Typed cfg ps args := by
  rw [← scan.output_defined_iff, npfVpprintf_eq pc ctx scan args fs]
  rcases output cfg ps args with e | o <;> simp [Except.map]

end Nanoprintf
