import Nanoprintf.Arguments
import Nanoprintf.Verbatim

/-!
# Counting

The engine adds up lengths that it computes before it emits anything. What it
returns is nevertheless the number of characters it sent, and a `%n` stores the
number of those that were sent before it, which are the ones that are sent when
the format ends there.
-/

set_option autoImplicit false

namespace Nanoprintf

open Foundations

variable {cfg : Config}

/-! ## Parts of a format -/

/-- The string of a list of pieces. -/
def piecesText (ps : List Piece) : List Char := ps.flatMap Piece.text

theorem piecesText_cons (p : Piece) (ps : List Piece) :
    piecesText (p :: ps) = p.text ++ piecesText ps :=
  List.flatMap_cons ..

theorem piecesText_append (ps qs : List Piece) :
    piecesText (ps ++ qs) = piecesText ps ++ piecesText qs :=
  List.flatMap_append

theorem Scans.eq_text {s : List Char} {ps : List Piece} (scan : Scans cfg s ps) :
    ∃ junk, s = piecesText ps ++ NUL :: junk := by
  induction scan with
  | done junk => exact ⟨junk, rfl⟩
  | literal char literal rest ih =>
      obtain ⟨junk, rfl⟩ := ih
      exact ⟨junk, rfl⟩
  | @directive d s ps on greedy rest ih =>
      obtain ⟨junk, rfl⟩ := ih
      exact ⟨junk, by rw [piecesText_cons, Piece.text, List.append_assoc]⟩

/-- A string that starts with no directive does not if it is cut short. -/
theorem Rejected.cut {s t : List Char} (rejected : Rejected cfg (s ++ t)) :
    Rejected cfg (s ++ [NUL]) := by
  intro d rest on same
  rcases List.append_eq_append_iff.mp same with ⟨tail, text, ends⟩ | ⟨tail, rfl, -⟩
  · rcases tail with - | ⟨c, tail⟩
    · rw [List.append_nil] at text
      exact rejected d t on (by rw [text])
    · obtain ⟨rfl, -⟩ := List.cons.inj ends
      exact d.nul_notMem (text ▸ List.mem_append_right _ List.mem_cons_self)
  · exact rejected d (tail ++ t) on (List.append_assoc ..)

theorem Scans.enabled {s : List Char} {ps : List Piece} (scan : Scans cfg s ps) {d : Directive}
    (member : .directive d ∈ ps) : d.enabled cfg = true := by
  induction scan with
  | done junk => cases member
  | literal char literal rest ih =>
      rcases List.mem_cons.mp member with same | later
      · cases same
      · exact ih later
  | directive on greedy rest ih =>
      rcases List.mem_cons.mp member with same | later
      · exact Piece.directive.inj same ▸ on
      · exact ih later

/-- A format that ends behind some of its pieces has those pieces. -/
theorem Scans.front {s : List Char} {front back : List Piece} (scan : Scans cfg s (front ++ back)) :
    Scans cfg (piecesText front ++ [NUL]) front := by
  induction front generalizing s with
  | nil => exact .done []
  | cons p front ih =>
      rw [piecesText_cons, List.append_assoc]
      cases scan with
      | @literal c s _ char literal rest =>
          refine .literal char (literal.imp_right fun rejected => ?_) (ih rest)
          obtain ⟨junk, split⟩ := rest.eq_text
          have whole : piecesText (front.append back) = piecesText front ++ piecesText back :=
            piecesText_append front back
          rw [split, whole, List.append_assoc] at rejected
          exact Rejected.cut (s := c :: piecesText front) rejected
      | directive on greedy rest => exact .directive on greedy (ih rest)

/-- The output of one list of pieces behind that of another. -/
def Output.append (o o' : Output) : Output where
  text := o.text ++ o'.text
  marks := o.marks ++ o'.marks.map fun (slot, n) => (slot, o.text.length + n)
  args := o'.args

theorem Output.after_append (f : Formatted) (o o' : Output) :
    (o.after f).append o' = (o.append o').after f := by
  simp [Output.append, Output.after, Function.comp_def, Nat.add_assoc]

theorem output_append (ps qs : List Piece) (args : List Arg) :
    output cfg (ps ++ qs) args = (do
      let o ← output cfg ps args
      let o' ← output cfg qs o.args
      pure (o.append o')) := by
  induction ps generalizing args with
  | nil =>
      simp only [List.nil_append, output, bind, Except.bind]
      rcases output cfg qs args with e | o
      · rfl
      · simp [Output.append, pure, Except.pure]
  | cons p ps ih =>
      rw [List.cons_append, output, output]
      rcases p.format cfg args with e | f
      · rfl
      simp only [bind, Except.bind, ih]
      rcases output cfg ps f.args with e | o
      · rfl
      have left : (o.after f).args = o.args := rfl
      simp only [pure, Except.pure, left]
      rcases output cfg qs o.args with e | o'
      · rfl
      · simp only [Output.after_append]

/-! ## `%n` -/

/-- A `%n` stores to what the last of its arguments points to. -/
theorem format_writeback [cfg.FixedCarried] {d : Directive} (on : d.enabled cfg = true)
    (writeback : d.conversion.convSpec = .writeback) (integer : d.length ≠ .L) {args : List Arg}
    {f : Formatted} (run : (Piece.directive d).format cfg args = .ok f) :
    ∃ (stars : List Arg) (address : ℕ) (memory : List Char),
      args = stars ++ .ptr address memory :: f.args ∧
        List.Forall₂ (Arg.HasType cfg) (stars ++ [.ptr address memory]) (d.argTypes cfg) ∧
          f.slots = [⟨address, d.length.bits cfg⟩] := by
  simp only [Directive.enabled, Bool.and_eq_true] at on
  have width := LengthToken.writebackWidth_modifier on.1.2 integer
  obtain ⟨⟨r, rest⟩, asked, answered⟩ := bind_eq_ok.mp run
  obtain ⟨stars, shape, split, -⟩ := takes_resolve d args r rest asked
  obtain ⟨⟨w, negative, middle⟩, -, asked⟩ := bind_eq_ok.mp asked
  obtain ⟨⟨p, left⟩, -, asked⟩ := bind_eq_ok.mp asked
  obtain ⟨rfl, rfl⟩ := Prod.mk.inj (Except.ok.inj asked)
  have kind : (d.request cfg w negative p).convSpec = .writeback := writeback
  have modifier : (d.request cfg w negative p).lengthModifier = d.length.modifier cfg := rfl
  simp only [answer, kind, modifier, width] at answered
  obtain ⟨⟨address, memory, last⟩, pointer, answered⟩ := bind_eq_ok.mp answered
  simp only at answered
  split_ifs at answered
  obtain rfl := Except.ok.inj answered
  rw [eq_of_vaPtr pointer] at split
  refine ⟨stars, address, memory, split, ?_, rfl⟩
  rw [Directive.argTypes, ← List.append_assoc, writeback]
  exact List.rel_append shape (.cons trivial .nil)

/-- **Exact accounting.** The engine returns the number of characters it sends,
and the `%n` behind the pieces `front` stores, in the type that its modifier
names, the number of those that are sent when the format ends behind `front`, to
what the argument points to that is the last one of `front` and the `%n`. -/
theorem npfVpprintf_accounting (cfg : Config) [cfg.FixedCarried] {format : Cursor} {ps : List Piece}
    (scan : Scans cfg format ps) {args : List Arg} {fs : NpfFormatSpec} {n : ℤ} {S : List Char}
    {stores : List Store} (run : npfVpprintf cfg record [] format args fs = .ok (n, S, stores))
    (fits : (S.length : ℤ) ≤ cfg.intMax) :
    n = S.length ∧
      ∀ (front back : List Piece) (d : Directive), ps = front ++ .directive d :: back →
        d.conversion.convSpec = .writeback → d.length ≠ .L →
        ∃ (sent rest : List Char) (before after : List Store) (used left : List Arg) (address : ℕ)
          (memory : List Char),
          npfVpprintf cfg record [] (piecesText front ++ [NUL]) args fs =
            .ok ((sent.length : ℤ), sent, before) ∧
          S = sent ++ rest ∧
          args = used ++ .ptr address memory :: left ∧
          List.Forall₂ (Arg.HasType cfg) (used ++ [.ptr address memory])
            ((front ++ [Piece.directive d]).flatMap (Piece.argTypes cfg)) ∧
          stores = before ++ ⟨address, d.length.bits cfg,
            (sent.length : ℤ).bmod (2 ^ d.length.bits cfg)⟩ :: after := by
  rw [npfVpprintf_record scan] at run
  obtain ⟨o, out, same⟩ := map_eq_ok.mp run
  obtain ⟨rfl, rfl, rfl⟩ : _ ∧ _ ∧ _ := by simpa only [Prod.mk.injEq] using same
  refine ⟨wrapInt_of_le fits, ?_⟩
  rintro front back d rfl writeback integer
  have on := scan.enabled (List.mem_append_right _ List.mem_cons_self)
  rw [output_append] at out
  obtain ⟨before, first, out⟩ := bind_eq_ok.mp out
  obtain ⟨tail, second, out⟩ := bind_eq_ok.mp out
  obtain rfl := Except.ok.inj out
  rw [output] at second
  obtain ⟨f, one, second⟩ := bind_eq_ok.mp second
  obtain ⟨after, -, second⟩ := bind_eq_ok.mp second
  obtain rfl := Except.ok.inj second
  obtain ⟨stars, address, memory, pointer, shape', slots⟩ :=
    format_writeback on writeback integer one
  obtain ⟨used, shape, split, -⟩ :=
    takes_output front args _ _ (map_eq_ok.mpr ⟨before, first, rfl⟩)
  have short : (before.text.length : ℤ) ≤ cfg.intMax := by
    refine le_trans ?_ fits
    rw [Output.append, List.length_append]
    push_cast
    omega
  have count := wrapInt_of_le short
  refine ⟨before.text, (after.after f).text,
    before.marks.map fun (slot, n) => slot.store (cfg.wrapInt n),
    after.marks.map fun (slot, n) =>
      slot.store (cfg.wrapInt (before.text.length + (f.text.length + n) : ℕ)),
    used ++ stars, f.args, address, memory, ?_, rfl, ?_, ?_, ?_⟩
  · rw [npfVpprintf_record scan.front, first, Except.map, count]
  · rw [split, pointer, List.append_assoc]
  · rw [List.append_assoc, List.flatMap_append, List.flatMap_singleton]
    exact List.rel_append shape shape'
  · simp only [Output.append, Output.after, slots, List.map_append, List.map_cons, List.map_nil,
      List.map_map, Function.comp_def, List.cons_append, List.nil_append, Slot.store, Nat.add_zero,
      count]

/-- `%hhn` behind two characters, and `%n` behind four. -/
theorem npfVpprintf_accounting_two :
    (4 : ℤ) = ['a', 'b', '1', '2'].length ∧
      ∀ (front back : List Piece) (d : Directive),
        [.literal 'a', .literal 'b', .directive ⟨[], .digits [], .absent, .hh, .letter .n false⟩,
            .directive ⟨[], .digits [], .absent, .none, .letter .d false⟩,
            .directive ⟨[], .digits [], .absent, .none, .letter .n false⟩] =
          front ++ .directive d :: back →
        d.conversion.convSpec = .writeback → d.length ≠ .L →
        ∃ (sent rest : List Char) (before after : List Store) (used left : List Arg) (address : ℕ)
          (memory : List Char),
          npfVpprintf .standard record [] (piecesText front ++ [NUL])
              [.ptr 8 [], .int 32 12, .ptr 16 []] .zeroed =
            .ok ((sent.length : ℤ), sent, before) ∧
          ['a', 'b', '1', '2'] = sent ++ rest ∧
          [.ptr 8 [], .int 32 12, .ptr 16 []] = used ++ .ptr address memory :: left ∧
          List.Forall₂ (Arg.HasType .standard) (used ++ [.ptr address memory])
            ((front ++ [Piece.directive d]).flatMap (Piece.argTypes .standard)) ∧
          [⟨8, 8, 2⟩, ⟨16, 32, 4⟩] = before ++ ⟨address, d.length.bits .standard,
            (sent.length : ℤ).bmod (2 ^ d.length.bits .standard)⟩ :: after := by
  have scan : Scans .standard ("ab%hhn%d%n".toList ++ [NUL]) _ :=
    .literal (by decide) (.inl (by decide)) (.literal (by decide) (.inl (by decide))
      (.directive (d := ⟨[], .digits [], .absent, .hh, .letter .n false⟩) rfl (by decide)
        (.directive (d := ⟨[], .digits [], .absent, .none, .letter .d false⟩) rfl (by decide)
          (.directive (d := ⟨[], .digits [], .absent, .none, .letter .n false⟩) rfl (by decide)
            (.done [])))))
  exact @npfVpprintf_accounting .standard _ _ _ scan _ .zeroed _ _ _ rfl (by decide)

/-- `%Ln` stores nothing. -/
theorem npfVpprintf_long_double_count :
    Directive.text ⟨[], .digits [], .absent, .L, .letter .n false⟩ = "%Ln".toList ∧
      Directive.enabled .standard ⟨[], .digits [], .absent, .L, .letter .n false⟩ = true ∧
      npfVpprintf .standard record [] ("ab%Ln".toList ++ [NUL]) [.ptr 8 []] .zeroed =
        .ok (2, ['a', 'b'], []) :=
  ⟨rfl, rfl, rfl⟩

end Nanoprintf
