import Nanoprintf.Accounting

/-!
# Directives are independent

Formats are put behind each other by their pieces. A piece that is accepted alone
takes its own arguments and no others, and sends the same characters whatever is
in front of it and behind it. Only the stores of a `%n` show what was in front of
it: the number of the characters sent.
-/

set_option autoImplicit false

namespace Nanoprintf

open Foundations

variable {cfg : Config}

/-! ## Accepted texts -/

/-- The text of a literal character or of a specification that the parser accepts. -/
def Accepted (cfg : Config) (w : List Char) : Prop :=
  (∃ c, w = [c] ∧ c ≠ '%' ∧ c ≠ NUL) ∨
    ∃ body spec, w = '%' :: body ∧
      npfParseFormatSpecEnd cfg (w ++ [NUL]) .zeroed = .ok (some [NUL], spec)

/-- A piece that is one in every format. -/
def Piece.Standalone (cfg : Config) : Piece → Prop
  | literal c => c ≠ '%' ∧ c ≠ NUL
  | directive d => d.enabled cfg = true ∧ d.Greedy

theorem Accepted.exists_piece {w : List Char} (accepted : Accepted cfg w) :
    ∃ p : Piece, p.text = w ∧ p.Standalone cfg := by
  rcases accepted with ⟨c, rfl, percent, char⟩ | ⟨body, spec, rfl, run⟩
  · exact ⟨.literal c, rfl, percent, char⟩
  · rcases exists_directive cfg (body ++ [NUL]) (by simp) .zeroed with
      ⟨d, rest, split, on, greedy, -⟩ | ⟨spec', rejected⟩
    · have whole : ('%' :: body) ++ [NUL] = d.text ++ rest := split
      have parsed := npfParseFormatSpecEnd_text on greedy rest .zeroed
      rw [← whole, run] at parsed
      obtain rfl : [NUL] = rest := Option.some.inj (Prod.mk.inj (Except.ok.inj parsed)).1
      exact ⟨.directive d, (List.append_cancel_right whole).symm, on, greedy⟩
    · exact absurd (run.symm.trans rejected) (by simp)

theorem scans_standalone {ps : List Piece} (standalone : ∀ p ∈ ps, p.Standalone cfg) :
    Scans cfg (piecesText ps ++ [NUL]) ps := by
  induction ps with
  | nil => exact .done []
  | cons p ps ih =>
      have rest := ih fun q later => standalone q (List.mem_cons_of_mem _ later)
      rw [piecesText_cons, List.append_assoc]
      rcases p with c | d
      · obtain ⟨percent, char⟩ := standalone _ List.mem_cons_self
        exact .literal char (.inl percent) rest
      · obtain ⟨on, greedy⟩ := standalone _ List.mem_cons_self
        exact .directive on greedy rest

/-! ## Arguments -/

/-- The arguments that a format leaves. -/
def argumentsLeft (cfg : Config) (format : Cursor) (args : List Arg) (fs : NpfFormatSpec) :
    Run (List Arg) := do
  let st ← vpprintfLoop cfg record format.length format
    { ctx := [], npfN := 0, args := args, stores := [], fs := fs }
  pure st.args

theorem argumentsLeft_eq {format : Cursor} {ps : List Piece} (scan : Scans cfg format ps)
    (args : List Arg) (fs : NpfFormatSpec) :
    argumentsLeft cfg format args fs = (output cfg ps args).map Output.args := by
  have loop := @vpprintfLoop_eq cfg _ record _ _ scan _ scan.length_lt
    { ctx := [], npfN := 0, args := args, stores := [], fs := fs } Int.zero_bmod
  unfold argumentsLeft
  rcases of_map_eq_map loop with ⟨e, run, text⟩ | ⟨st, o, run, text, sent⟩
  · rw [run, text]
    rfl
  · rw [run, text]
    exact congrArg Except.ok (congrArg Progress.args sent)

/-- The types of the arguments of a directive: an `int` for each star, the width before the
precision, and then the type of the conversion, where small integer types are promoted. -/
def Directive.takenTypes (cfg : Config) (d : Directive) : List ArgType :=
  (if d.width = .star then [.int cfg.intBits] else []) ++
    (if d.precision = .star then [.int cfg.intBits] else []) ++
    match d.conversion.convSpec with
    | .none | .percent => []
    | .char => [.int cfg.intBits]
    | .string | .pointer | .writeback => [.pointer]
    | .signedInt | .binary | .octal | .hexInt | .unsignedInt =>
      [.int (max cfg.intBits (d.length.bits cfg))]
    | .floatDec | .floatHex | .floatSci | .floatShortest => [.real (d.length.modifier cfg)]

theorem Directive.argTypes_eq [cfg.FixedCarried] {d : Directive} (on : d.enabled cfg = true) :
    d.argTypes cfg = d.takenTypes cfg := by
  simp only [Directive.enabled, Bool.and_eq_true] at on
  have integer := LengthToken.argWidth_modifier on.1.2
  have width : d.width.argTypes cfg = if d.width = .star then [.int cfg.intBits] else [] := by
    cases d.width <;> rfl
  have precision : d.precision.argTypes cfg =
      if d.precision = .star then [.int cfg.intBits] else [] := by
    cases d.precision <;> rfl
  rw [Directive.argTypes, Directive.takenTypes, width, precision, List.append_assoc, ← integer]
  cases d.conversion.convSpec <;> rfl

/-! ## Parts -/

/-- A part of a format with its arguments, the characters that it sends and the stores that it
makes. -/
structure Part where
  text : List Char
  args : List Arg
  sent : List Char
  stores : List Store
  deriving DecidableEq, Repr

/-- The part alone takes all its arguments, and sends and stores what it says. -/
def Part.Alone (cfg : Config) (part : Part) : Prop :=
  ∃ n fs, npfVpprintf cfg record [] (part.text ++ [NUL]) part.args fs =
      .ok (n, part.sent, part.stores) ∧
    argumentsLeft cfg (part.text ++ [NUL]) part.args fs = .ok []

/-- The stores of parts in front of which there are `n` characters. -/
def storesBehind (cfg : Config) : ℕ → List Part → List Store
  | _, [] => []
  | n, part :: parts =>
    part.stores.map (Store.shift cfg n) ++ storesBehind cfg (n + part.sent.length) parts

/-- What a part is that is accepted and run alone. -/
structure Part.Is (cfg : Config) (part : Part) (p : Piece) (slots : List Slot) : Prop where
  text : p.text = part.text
  standalone : p.Standalone cfg
  format : p.format cfg part.args = .ok ⟨part.sent, slots, []⟩
  stores : part.stores = slots.map fun slot => slot.store 0

/-- Only a `%n` names an object to store to. -/
theorem answer_slots {r : Request} (other : r.convSpec ≠ .writeback) {args : List Arg}
    {f : Formatted} (run : answer cfg r args = .ok f) : f.slots = [] := by
  unfold answer at run
  cases kind : r.convSpec with
  | none =>
      rw [kind] at run
      cases run
  | percent =>
      rw [kind] at run
      exact (congrArg Formatted.slots (Except.ok.inj run)).symm
  | writeback => exact absurd kind other
  | string =>
      rw [kind] at run
      obtain ⟨⟨a, memory, rest⟩, -, run⟩ := bind_eq_ok.mp run
      simp only at run
      split_ifs at run
      · exact (congrArg Formatted.slots (Except.ok.inj run)).symm
      · obtain ⟨_, -, run⟩ := bind_eq_ok.mp run
        exact (congrArg Formatted.slots (Except.ok.inj run)).symm
  | floatDec | floatHex | floatSci | floatShortest =>
      rw [kind] at run
      obtain ⟨_, -, run⟩ := bind_eq_ok.mp run
      obtain ⟨_, -, run⟩ := bind_eq_ok.mp run
      exact (congrArg Formatted.slots (Except.ok.inj run)).symm
  | char | signedInt | pointer | binary | octal | hexInt | unsignedInt =>
      rw [kind] at run
      obtain ⟨_, -, run⟩ := bind_eq_ok.mp run
      exact (congrArg Formatted.slots (Except.ok.inj run)).symm

section

variable {part : Part} {p : Piece} {slots : List Slot}

theorem Part.Alone.exists_piece (accepted : Accepted cfg part.text) (alone : part.Alone cfg) :
    ∃ p slots, part.Is cfg p slots := by
  obtain ⟨p, text, standalone⟩ := accepted.exists_piece
  obtain ⟨n, fs, run, left⟩ := alone
  have zero : cfg.wrapInt 0 = 0 := Int.zero_bmod
  have scan : Scans cfg (part.text ++ [NUL]) [p] := by
    have scan := @scans_standalone cfg [p] (by simpa using standalone)
    rwa [piecesText_cons, text, piecesText, List.flatMap_nil, List.append_nil] at scan
  rw [npfVpprintf_record scan, output] at run
  rw [argumentsLeft_eq scan, output] at left
  rcases format : p.format cfg part.args with e | f
  · rw [format] at run
    cases run
  · rw [format] at run left
    simp only [output, bind, Except.bind, pure, Except.pure, Except.map, Output.after,
      List.append_nil, Except.ok.injEq, Prod.mk.injEq] at run left
    obtain ⟨-, sent, stores⟩ := run
    refine ⟨p, f.slots, text, standalone, ?_, ?_⟩
    · rw [format, ← sent, ← left]
    · rw [← stores]
      simp [zero]

/-- The part in front of others takes its arguments and leaves the others. -/
theorem Part.Is.append (stands : part.Is cfg p slots) (more : List Arg) :
    p.format cfg (part.args ++ more) = .ok ⟨part.sent, slots, more⟩ := by
  have run : (p.format cfg part.args).map Formatted.split = .ok ((part.sent, slots), []) := by
    rw [stands.format]
    rfl
  obtain ⟨f, format, split⟩ := map_eq_ok.mp ((takes_piece p).append run more)
  rw [format, ← show (⟨f.text, f.slots, f.args⟩ : Formatted) = f from rfl]
  simp only [Formatted.split, List.nil_append, Prod.mk.injEq] at split
  obtain ⟨⟨text, slots⟩, args⟩ := split
  rw [text, slots, args]

theorem Part.Is.types (stands : part.Is cfg p slots) :
    List.Forall₂ (Arg.HasType cfg) part.args (p.argTypes cfg) := by
  have run : (p.format cfg part.args).map Formatted.split = .ok ((part.sent, slots), []) := by
    rw [stands.format]
    rfl
  obtain ⟨used, shape, same, -⟩ := takes_piece p part.args _ _ run
  rwa [same, List.append_nil]

/-- Only a `%n` stores. -/
theorem Part.Is.stores_nil (stands : part.Is cfg p slots)
    (other : ∀ d, p = .directive d → d.conversion.convSpec ≠ .writeback) : part.stores = [] := by
  suffices nothing : slots = [] by rw [stands.stores, nothing, List.map_nil]
  have run := stands.format
  rcases p with c | d
  · exact (congrArg Formatted.slots (Except.ok.inj run)).symm
  · obtain ⟨⟨r, left⟩, asked, answered⟩ := bind_eq_ok.mp run
    obtain ⟨⟨w, negative, middle⟩, -, asked⟩ := bind_eq_ok.mp asked
    obtain ⟨⟨prec, last⟩, -, asked⟩ := bind_eq_ok.mp asked
    obtain ⟨rfl, rfl⟩ := Prod.mk.inj (Except.ok.inj asked)
    exact answer_slots (other d rfl) answered

end

/-- Accepted parts behind each other are the pieces that they are alone. -/
theorem exists_output {parts : List Part} (accepted : ∀ part ∈ parts, Accepted cfg part.text)
    (alone : ∀ part ∈ parts, part.Alone cfg) :
    ∃ ps marks, piecesText ps = parts.flatMap Part.text ∧ (∀ p ∈ ps, p.Standalone cfg) ∧
      output cfg ps (parts.flatMap Part.args) = .ok ⟨parts.flatMap Part.sent, marks, []⟩ ∧
      ∀ n : ℕ, marks.map (fun (slot, k) => slot.store (cfg.wrapInt (n + k : ℕ))) =
        storesBehind cfg n parts := by
  induction parts with
  | nil => exact ⟨[], [], rfl, by simp, rfl, fun _ => rfl⟩
  | cons part parts ih =>
      obtain ⟨ps, marks, text, standalone, run, stores⟩ :=
        ih (fun q later => accepted q (List.mem_cons_of_mem _ later))
          (fun q later => alone q (List.mem_cons_of_mem _ later))
      obtain ⟨p, slots, stands⟩ := Part.Alone.exists_piece (accepted _ List.mem_cons_self)
        (alone _ List.mem_cons_self)
      refine ⟨p :: ps, slots.map (fun slot => (slot, 0)) ++
        marks.map fun (slot, k) => (slot, part.sent.length + k), ?_, ?_, ?_, fun n => ?_⟩
      · rw [piecesText_cons, stands.text, text, List.flatMap_cons]
      · intro q member
        rcases List.mem_cons.mp member with rfl | later
        · exact stands.standalone
        · exact standalone q later
      · rw [output, List.flatMap_cons, stands.append]
        simp only [bind, Except.bind, run]
        rfl
      · have shifted : ∀ slot : Slot, slot.store (cfg.wrapInt (n + 0 : ℕ)) =
            (slot.store 0).shift cfg n := by
          intro slot
          have zero : cfg.wrapInt (0 : ℕ) = 0 := Int.zero_bmod
          rw [← Slot.shift_store, zero]
        simp only [List.map_append, List.map_map, Function.comp_def, ← Nat.add_assoc, stores,
          shifted, storesBehind, stands.stores]

/-- **Directives are independent.** Parts that are accepted and run alone send the same behind each
other, and a store shows the number of the characters in front of it. The arguments of each are one
`int` for each star and then one of the type of its conversion. -/
theorem npfVpprintf_independent [cfg.FixedCarried] {parts : List Part}
    (accepted : ∀ part ∈ parts, Accepted cfg part.text) (alone : ∀ part ∈ parts, part.Alone cfg)
    (fs : NpfFormatSpec) :
    npfVpprintf cfg record [] (parts.flatMap Part.text ++ [NUL]) (parts.flatMap Part.args) fs =
        .ok (cfg.wrapInt (parts.flatMap Part.sent).length, parts.flatMap Part.sent,
          storesBehind cfg 0 parts) ∧
      ∀ part ∈ parts,
        (∃ c, part.text = [c] ∧ c ≠ '%' ∧ part.args = [] ∧ part.sent = [c] ∧ part.stores = []) ∨
        ∃ d : Directive, part.text = d.text ∧
          List.Forall₂ (Arg.HasType cfg) part.args (d.takenTypes cfg) ∧
          (d.conversion.convSpec ≠ .writeback → part.stores = []) := by
  constructor
  · obtain ⟨ps, marks, text, standalone, run, stores⟩ := exists_output accepted alone
    have scan := scans_standalone standalone
    rw [text] at scan
    rw [npfVpprintf_record scan, run, ← stores]
    simp only [Except.map, Nat.zero_add]
  · intro part member
    obtain ⟨p, slots, stands⟩ := Part.Alone.exists_piece (accepted _ member) (alone _ member)
    rcases p with c | d
    · obtain ⟨percent, -⟩ := stands.standalone
      have sent := congrArg Formatted.text (Except.ok.inj stands.format)
      exact .inl ⟨c, stands.text.symm, percent, List.forall₂_nil_right_iff.mp stands.types,
        sent.symm, stands.stores_nil fun d same => by cases same⟩
    · obtain ⟨on, -⟩ := stands.standalone
      refine .inr ⟨d, stands.text.symm, Directive.argTypes_eq on ▸ stands.types, fun other => ?_⟩
      exact stands.stores_nil fun d' same => Piece.directive.inj same ▸ other

/-- `%*dx%hhn`, one part after the other. -/
theorem npfVpprintf_independent_three :
    npfVpprintf .standard record [] ("%*dx%hhn".toList ++ [NUL])
      [.int 32 4, .int 32 7, .ptr 8 []] .zeroed = .ok (5, "   7x".toList, [⟨8, 8, 5⟩]) := by
  refine (@npfVpprintf_independent .standard _
    [⟨"%*d".toList, [.int 32 4, .int 32 7], "   7".toList, []⟩, ⟨['x'], [], ['x'], []⟩,
      ⟨"%hhn".toList, [.ptr 8 []], [], [⟨8, 8, 0⟩]⟩] ?_ ?_ .zeroed).1
  · simp only [List.mem_cons, List.not_mem_nil, or_false, forall_eq_or_imp, forall_eq]
    exact ⟨.inr ⟨_, _, rfl, @npfParseFormatSpecEnd_text .standard
        ⟨[], .star, .absent, .none, .letter .d false⟩ rfl (by decide) [NUL] .zeroed⟩,
      .inl ⟨'x', rfl, by decide, by decide⟩,
      .inr ⟨_, _, rfl, @npfParseFormatSpecEnd_text .standard
        ⟨[], .digits [], .absent, .hh, .letter .n false⟩ rfl (by decide) [NUL] .zeroed⟩⟩
  · simp only [List.mem_cons, List.not_mem_nil, or_false, forall_eq_or_imp, forall_eq]
    exact ⟨⟨4, .zeroed, by decide +kernel, by decide +kernel⟩,
      ⟨1, .zeroed, by decide +kernel, by decide +kernel⟩,
      0, .zeroed, by decide +kernel, by decide +kernel⟩

/-- The 64-bit build that computes with `float`. -/
def Config.single : Config :=
  { Config.standard with
    singlePrecision := true
    single_float := fun _ => rfl }

instance : Config.single.RepExact := ⟨.inl rfl⟩

instance : Config.single.FixedCarried := .of_large _ rfl

/-- The microcontroller where `wint_t` is wider than `int`. -/
def Config.wideWint : Config :=
  { Config.avr with
    wintBits := 32
    int_le_wint := by decide }

/-- `%f` does not take a `double` in a build for `float`, and `%lc` takes no wide `wint_t`. -/
theorem npfVpprintf_other_types :
    npfVpprintf .single record [] ("%f".toList ++ [NUL]) [.double 0] .zeroed =
      .error (.leave .vaArg) ∧
    npfVpprintf .single record [] ("%f".toList ++ [NUL]) [.npfFloat 0] .zeroed =
      .ok (8, "0.000000".toList, []) ∧
    npfVpprintf .wideWint record [] ("%lc".toList ++ [NUL])
      [.int (Target.wintBits Config.wideWint.toTarget) 65] .zeroed = .error (.leave .vaArg) ∧
    npfVpprintf .wideWint record [] ("%lc".toList ++ [NUL]) [.int 16 65] .zeroed =
      .ok (1, ['A'], []) :=
  ⟨rfl, rfl, rfl, rfl⟩

end Nanoprintf
