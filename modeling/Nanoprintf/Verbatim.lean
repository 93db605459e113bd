import Nanoprintf.Pieces

/-!
# Specifications a build leaves out

The grammar is unambiguous: no string starts with two directives, once the zeros
a width starts with are read as flags. A specification that uses a feature the
build does not have therefore starts with none that it has, the loop resumes
behind its `%`, and what follows is literal, for only the last character of a
specification can be a `%`.
-/

set_option autoImplicit false

namespace Nanoprintf

open Foundations

variable {cfg : Config} {κ : Type}

/-! ## The parts of a directive are determined by their texts -/

theorem Flag.char_injective : Function.Injective Flag.char := by
  intro f g same
  cases f <;> cases g <;> first | rfl | exact absurd same (by decide)

theorem decimalChar_injective : Function.Injective decimalChar := by
  intro a b same
  have codes := congrArg Char.toNat same
  rw [decimalChar_toNat, decimalChar_toNat] at codes
  exact Fin.ext (by omega)

theorem WidthPart.text_injective : Function.Injective WidthPart.text := by
  intro w w' same
  rcases w with - | ds <;> rcases w' with - | ds'
  · rfl
  · rcases ds' with - | ⟨d, ds'⟩
    · cases same
    · exact absurd (List.cons.inj same).1.symm (decimalChar_ne_star d)
  · rcases ds with - | ⟨d, ds⟩
    · cases same
    · exact absurd (List.cons.inj same).1 (decimalChar_ne_star d)
  · rw [List.map_injective_iff.mpr decimalChar_injective same]

/-- What stands behind the point of a precision. -/
def PrecisionPart.tail : PrecisionPart → List Char
  | .absent => []
  | .star => ['*']
  | .literal true ds => '-' :: ds.map decimalChar
  | .literal false ds => ds.map decimalChar

theorem PrecisionPart.text_eq {p : PrecisionPart} (present : p ≠ .absent) :
    p.text = '.' :: p.tail := by
  rcases p with - | - | ⟨_ | _, ds⟩
  · exact absurd rfl present
  · rfl
  · rfl
  · rfl

/-- Digits start with no character of another precision. -/
theorem digits_ne_cons {c : Char} (other : ∀ d, decimalChar d ≠ c) (ds : List (Fin 10))
    (s : List Char) : ds.map decimalChar ≠ c :: s := by
  rcases ds with - | ⟨d, ds⟩
  · exact nofun
  · exact fun same => other d (List.cons.inj same).1

theorem PrecisionPart.tail_injective {p p' : PrecisionPart} (present : p ≠ .absent)
    (present' : p' ≠ .absent) (same : p.tail = p'.tail) : p = p' := by
  have digits := List.map_injective_iff.mpr decimalChar_injective
  have star := digits_ne_cons decimalChar_ne_star
  have minus := digits_ne_cons decimalChar_ne_minus
  rcases p with - | - | ⟨_ | _, ds⟩ <;> rcases p' with - | - | ⟨_ | _, ds'⟩
  case absent => exact absurd rfl present
  all_goals first
    | rfl
    | exact absurd rfl present
    | exact absurd rfl present'
    | exact absurd same (by decide)
    | exact absurd same (star _ _)
    | exact absurd same.symm (star _ _)
    | exact absurd same (minus _ _)
    | exact absurd same.symm (minus _ _)
    | rw [digits same]
    | rw [digits (List.cons.inj same).2]
    | exact absurd (List.cons.inj same).1 (by decide)

theorem PrecisionPart.text_injective : Function.Injective PrecisionPart.text := by
  intro p p' same
  by_cases absent : p = .absent
  · by_cases absent' : p' = .absent
    · rw [absent, absent']
    · rw [absent, PrecisionPart.text_eq absent'] at same
      cases same
  · by_cases absent' : p' = .absent
    · rw [absent', PrecisionPart.text_eq absent] at same
      cases same
    · rw [PrecisionPart.text_eq absent, PrecisionPart.text_eq absent'] at same
      exact PrecisionPart.tail_injective absent absent' (List.cons.inj same).2

theorem LengthToken.text_injective : Function.Injective LengthToken.text := by
  intro m m' same
  rcases m with - | - | - | - | - | - | - | - | - | ⟨_ | _, _ | _ | _ | _⟩ <;>
    rcases m' with - | - | - | - | - | - | - | - | - | ⟨_ | _, _ | _ | _ | _⟩ <;>
    first | rfl | exact absurd same (by decide)

theorem Letter.lower_injective : Function.Injective Letter.lower := by
  intro l l' same
  cases l <;> cases l' <;> first | rfl | exact absurd same (by decide)

/-- The two cases of a letter, as codes. -/
theorem Letter.code (l : Letter) :
    l.upper.toNat + 32 = l.lower.toNat ∧ 97 ≤ l.lower.toNat ∧ l.lower.toNat ≤ 122 := by
  cases l <;> decide

theorem Conversion.char_injective : Function.Injective Conversion.char := by
  intro v v' same
  have codes := congrArg Char.toNat same
  rcases v with - | ⟨l, isUpper⟩ <;> rcases v' with - | ⟨l', isUpper'⟩
  · rfl
  · cases l' <;> cases isUpper' <;> exact absurd same (by decide)
  · cases l <;> cases isUpper <;> exact absurd same (by decide)
  · obtain ⟨upper, least, greatest⟩ := l.code
    obtain ⟨upper', least', greatest'⟩ := l'.code
    cases isUpper <;> cases isUpper' <;> simp only [Conversion.char] at codes
    · rw [Letter.lower_injective (Char.toNat_inj.mp codes)]
    · omega
    · omega
    · have lower : l.lower.toNat = l'.lower.toNat := by omega
      rw [Letter.lower_injective (Char.toNat_inj.mp lower)]

/-! ## The grammar is unambiguous -/

/-- Every directive is one of the full build. -/
theorem Directive.enabled_standard (d : Directive) : d.enabled .standard = true := by
  obtain ⟨flags, width, precision, length, conversion⟩ := d
  simp only [Directive.enabled, Bool.and_eq_true, List.all_eq_true]
  refine ⟨⟨⟨⟨fun f _ => ?_, ?_⟩, ?_⟩, ?_⟩, ?_⟩
  · cases f <;> rfl
  · rcases width with - | ⟨_ | _⟩ <;> rfl
  · cases precision <;> rfl
  · rcases length with - | - | - | - | - | - | - | - | - | ⟨_, _ | _ | _ | _⟩ <;> rfl
  · rcases conversion with - | ⟨l, _⟩
    · rfl
    · cases l <;> rfl

/-- A part of a specification is determined by the string it starts, if something
reads it off and stops behind it. -/
theorem part_unique {τ ρ : Type} {text : τ → List Char} (injective : Function.Injective text)
    {x x' : τ} {s s' : Cursor} (same : text x ++ s = text x' ++ s') (read : Cursor → Run ρ)
    {r r' : ρ} (run : read (text x ++ s) = .ok r) (run' : read (text x' ++ s') = .ok r')
    (stops : r = r' → s = s') : x = x' ∧ s = s' := by
  rw [same, run'] at run
  obtain rfl := stops (Except.ok.inj run).symm
  exact ⟨injective (List.append_cancel_right same), rfl⟩

/-- **The grammar is unambiguous.** -/
theorem Directive.unique {d g : Directive} (greedy : d.Greedy) (greedy' : g.Greedy)
    {rest rest' : List Char} (same : d.text ++ rest = g.text ++ rest') : d = g ∧ rest = rest' := by
  have on := d.enabled_standard
  have on' := g.enabled_standard
  simp only [Directive.enabled, Bool.and_eq_true] at on on'
  obtain ⟨⟨⟨⟨flags, width⟩, precision⟩, length⟩, -⟩ := on
  obtain ⟨⟨⟨⟨flags', width'⟩, precision'⟩, length'⟩, -⟩ := on'
  -- the characters the parts stop at
  obtain ⟨c₃, t₃, split₃, plain⟩ := exists_head_length d.length d.conversion rest
  obtain ⟨c₂, t₂, split₂, next⟩ := exists_head_precision d.precision plain t₃
  obtain ⟨c₁, t₁, split₁, stop⟩ := @exists_head_width .standard _ greedy _ next t₂
  obtain ⟨c₃', t₃', split₃', plain'⟩ := exists_head_length g.length g.conversion rest'
  obtain ⟨c₂', t₂', split₂', next'⟩ := exists_head_precision g.precision plain' t₃'
  obtain ⟨c₁', t₁', split₁', stop'⟩ := @exists_head_width .standard _ greedy' _ next' t₂'
  have text : d.flags.map Flag.char ++ c₁ :: t₁ = g.flags.map Flag.char ++ c₁' :: t₁' := by
    rw [← split₁, ← split₂, ← split₃, ← split₁', ← split₂', ← split₃']
    simpa [Directive.text, Directive.body] using same
  obtain ⟨sameFlags, rest₁⟩ := part_unique (List.map_injective_iff.mpr Flag.char_injective) text
    (fun cur => parseFlags .standard (NUL :: cur) .zeroed)
    (parseFlags_text d.flags flags stop NUL t₁ .zeroed)
    (parseFlags_text g.flags flags' stop' NUL t₁' .zeroed) (congrArg Prod.fst)
  rw [← split₁, ← split₁'] at rest₁
  obtain ⟨sameWidth, rest₂⟩ := part_unique WidthPart.text_injective rest₁
    (fun cur => parseFieldWidth .standard cur .zeroed)
    (parseFieldWidth_text width (widthStop_of_next d.width next) t₂ .zeroed)
    (parseFieldWidth_text width' (widthStop_of_next g.width next') t₂' .zeroed)
    (congrArg Prod.fst)
  rw [← split₂, ← split₂'] at rest₂
  obtain ⟨samePrecision, rest₃⟩ := part_unique PrecisionPart.text_injective rest₂
    (fun cur => parsePrecision .standard cur .zeroed)
    (parsePrecision_text precision (precisionStop_of_plain d.precision plain) t₃ .zeroed)
    (parsePrecision_text precision' (precisionStop_of_plain g.precision plain') t₃' .zeroed)
    (congrArg Prod.fst)
  rw [← split₃, ← split₃'] at rest₃
  obtain ⟨sameLength, rest₄⟩ := part_unique LengthToken.text_injective rest₃
    (fun cur => parseLengthModifier .standard cur .zeroed)
    (parseLengthModifier_text length (lengthStop_conversion _ d.length d.conversion) rest .zeroed)
    (parseLengthModifier_text length' (lengthStop_conversion _ g.length g.conversion) rest' .zeroed)
    (fun stops => Option.some.inj (congrArg Prod.fst stops))
  obtain ⟨sameChar, sameRest⟩ := List.cons.inj rest₄
  obtain ⟨_, _, _, _, _⟩ := d
  obtain ⟨_, _, _, _, _⟩ := g
  obtain rfl := Conversion.char_injective sameChar
  simp only at sameFlags sameWidth samePrecision sameLength
  subst sameFlags sameWidth samePrecision sameLength
  exact ⟨rfl, sameRest⟩

/-- A build rejects the specifications that it lacks a feature for. -/
theorem Directive.rejected {d : Directive} (off : d.enabled cfg = false) (rest : List Char) :
    Rejected cfg (d.text ++ rest) := by
  intro e rest' on same
  obtain ⟨g, greedy, features, text, -⟩ := d.exists_greedy
  obtain ⟨g', greedy', features', text', -⟩ := e.exists_greedy
  rw [← text, ← text'] at same
  obtain ⟨rfl, -⟩ := Directive.unique greedy greedy' same
  rw [← features, features', on] at off
  cases off

/-! ## Literal characters -/

/-- The loop sends the character as it is. -/
def Verbatim (c : Char) : Prop := c ≠ NUL ∧ c ≠ '%'

instance (c : Char) : Decidable (Verbatim c) := inferInstanceAs (Decidable (_ ∧ _))

theorem verbatim_decimalChar (d : Fin 10) : Verbatim (decimalChar d) := by
  revert d
  decide

theorem verbatim_of_all {t : List Char} (all : (t.all fun c => decide (Verbatim c)) = true) :
    ∀ c ∈ t, Verbatim c := fun c member => of_decide_eq_true (List.all_eq_true.mp all c member)

theorem verbatim_width (w : WidthPart) : ∀ c ∈ w.text, Verbatim c := by
  rcases w with - | ds
  · exact verbatim_of_all rfl
  · exact List.forall_mem_map.mpr fun d _ => verbatim_decimalChar d

theorem verbatim_precision (p : PrecisionPart) : ∀ c ∈ p.text, Verbatim c := by
  have digits : ∀ ds : List (Fin 10), ∀ c ∈ ds.map decimalChar, Verbatim c := fun _ =>
    List.forall_mem_map.mpr fun d _ => verbatim_decimalChar d
  rcases p with - | - | ⟨_ | _, ds⟩
  · exact nofun
  · exact verbatim_of_all rfl
  · exact List.forall_mem_cons.mpr ⟨by decide, digits ds⟩
  · exact List.forall_mem_cons.mpr ⟨by decide, List.forall_mem_cons.mpr ⟨by decide, digits ds⟩⟩

theorem verbatim_length (m : LengthToken) : ∀ c ∈ m.text, Verbatim c := by
  rcases m with - | - | - | - | - | - | - | - | - | ⟨_ | _, _ | _ | _ | _⟩ <;>
    exact verbatim_of_all rfl

/-- What a specification has between its `%` and its conversion. -/
def Directive.options (d : Directive) : List Char :=
  d.flags.map Flag.char ++ (d.width.text ++ (d.precision.text ++ d.length.text))

theorem Directive.body_eq (d : Directive) : d.body = d.options ++ [d.conversion.char] := by
  simp only [Directive.body, Directive.options, List.append_assoc]

theorem Directive.verbatim_options (d : Directive) : ∀ c ∈ d.options, Verbatim c := by
  have flags : ∀ c ∈ d.flags.map Flag.char, Verbatim c :=
    List.forall_mem_map.mpr fun f _ => by cases f <;> decide
  simp only [Directive.options, List.forall_mem_append]
  exact ⟨flags, verbatim_width d.width, verbatim_precision d.precision, verbatim_length d.length⟩

theorem Conversion.char_ne_nul (conv : Conversion) : conv.char ≠ NUL := by
  rcases conv with - | ⟨l, _ | _⟩
  · decide
  · cases l <;> decide
  · cases l <;> decide

theorem Conversion.verbatim_char {conv : Conversion} (letter : conv ≠ .percent) :
    Verbatim conv.char := by
  refine ⟨conv.char_ne_nul, ?_⟩
  rcases conv with - | ⟨l, _ | _⟩
  · exact absurd rfl letter
  · cases l <;> decide
  · cases l <;> decide

/-- Behind the `%` of a specification that ends in a letter no character is special. -/
theorem Directive.verbatim_body {d : Directive} (letter : d.conversion ≠ .percent) :
    ∀ c ∈ d.body, Verbatim c := by
  rw [d.body_eq, List.forall_mem_append, List.forall_mem_singleton]
  exact ⟨d.verbatim_options, Conversion.verbatim_char letter⟩

/-- No specification has a terminator inside. -/
theorem Directive.nul_notMem (d : Directive) : NUL ∉ d.text := by
  rw [Directive.text, d.body_eq, List.mem_cons, List.mem_append, List.mem_singleton]
  rintro (same | member | same)
  · exact absurd same (by decide)
  · exact (d.verbatim_options _ member).1 rfl
  · exact d.conversion.char_ne_nul same.symm

theorem Scans.literals {s t : List Char} {ps : List Piece} (plain : ∀ c ∈ s, Verbatim c)
    (scan : Scans cfg t ps) : Scans cfg (s ++ t) (s.map .literal ++ ps) := by
  induction s with
  | nil => exact scan
  | cons c s ih =>
      obtain ⟨⟨char, percent⟩, later⟩ := List.forall_mem_cons.mp plain
      exact .literal char (.inl percent) (ih later)

/-- A specification that the build lacks a feature for is read as its characters. -/
theorem Scans.verbatim {d : Directive} (letter : d.conversion ≠ .percent)
    (off : d.enabled cfg = false) {t : List Char} {ps : List Piece} (scan : Scans cfg t ps) :
    Scans cfg (d.text ++ t) (d.text.map .literal ++ ps) :=
  .literal (by decide) (.inr (d.rejected off t)) (scan.literals (Directive.verbatim_body letter))

/-- The output behind literal characters. -/
theorem output_literals (s : List Char) (ps : List Piece) (args : List Arg) :
    output cfg (s.map .literal ++ ps) args = (output cfg ps args).map fun o =>
      ⟨s ++ o.text, o.marks.map fun (slot, n) => (slot, s.length + n), o.args⟩ := by
  induction s with
  | nil => rcases run : output cfg ps args with e | o <;> simp [run, Except.map]
  | cons c s ih =>
      rw [List.map_cons, List.cons_append, output, Piece.format]
      simp only [bind, Except.bind, ih]
      rcases output cfg ps args with e | o
      · rfl
      · simp [Except.map, pure, Except.pure, Output.after, Function.comp_def, Nat.add_comm 1,
          Nat.add_right_comm, Nat.add_assoc]

/-! ## The engine -/

/-- A store by a `%n` in front of which `k` more characters were sent. -/
def Store.shift (cfg : Config) (k : ℕ) (s : Store) : Store :=
  { s with value := (cfg.wrapInt (k + s.value)).bmod (2 ^ s.bits) }

/-- Counting more commutes with the conversion of the count to the object's type,
whether that is narrower than `int` or wider. -/
theorem Slot.shift_store (slot : Slot) (k n : ℕ) :
    (slot.store (cfg.wrapInt n)).shift cfg k = slot.store (cfg.wrapInt (k + n : ℕ)) := by
  have sum : cfg.wrapInt (k + cfg.wrapInt n) = cfg.wrapInt (k + n : ℕ) := by
    rw [Target.wrapInt, Target.wrapInt, Target.wrapInt, Int.add_bmod_bmod]
    push_cast
    rfl
  suffices value : (cfg.wrapInt (k + (cfg.wrapInt n).bmod (2 ^ slot.bits))).bmod (2 ^ slot.bits) =
      (cfg.wrapInt (k + n : ℕ)).bmod (2 ^ slot.bits) by
    simp only [Store.shift, Slot.store, value]
  rcases le_total slot.bits cfg.intBits with narrow | wide
  · have divides : 2 ^ slot.bits ∣ 2 ^ cfg.intBits := Nat.pow_dvd_pow 2 narrow
    have narrowed : ∀ z : ℤ, (cfg.wrapInt z).bmod (2 ^ slot.bits) = z.bmod (2 ^ slot.bits) :=
      fun z => Int.bmod_bmod_of_dvd divides
    rw [narrowed, narrowed, narrowed, Int.add_bmod_bmod, Nat.cast_add]
  · have power : 2 ^ cfg.intBits ≤ 2 ^ slot.bits := Nat.pow_le_pow_right two_pos wide
    have least := @Int.le_bmod n (2 ^ cfg.intBits) (by positivity)
    have greatest := @Int.bmod_lt n (2 ^ cfg.intBits) (by positivity)
    have kept : (cfg.wrapInt n).bmod (2 ^ slot.bits) = cfg.wrapInt n :=
      Int.bmod_eq_of_le (by rw [Target.wrapInt]; omega) (by rw [Target.wrapInt]; omega)
    rw [kept, sum]

/-- **A specification that needs a missing feature is printed verbatim.** Whatever
follows it is printed as it would be alone, with all the arguments. -/
theorem npfVpprintf_verbatim (cfg : Config) (d : Directive) (off : d.enabled cfg = false)
    (letter : d.conversion ≠ .percent) (t : Cursor) (terminated : NUL ∈ t) (args : List Arg)
    (pc : κ → Char → κ) (ctx : κ) (fs fs' : NpfFormatSpec) :
    npfVpprintf cfg pc ctx (d.text ++ t) args fs =
      (npfVpprintf cfg pc (d.text.foldl pc ctx) t args fs').map fun (n, ctx, stores) =>
        (cfg.wrapInt (d.text.length + n), ctx, stores.map (Store.shift cfg d.text.length)) := by
  obtain ⟨ps, scan⟩ := exists_scan cfg t terminated
  rw [npfVpprintf_eq pc ctx (scan.verbatim letter off), npfVpprintf_eq pc _ scan, output_literals]
  rcases output cfg ps args with e | o
  · rfl
  · have count : cfg.wrapInt (d.text.length + cfg.wrapInt o.text.length) =
        cfg.wrapInt ((d.text ++ o.text).length : ℕ) := by
      rw [Target.wrapInt, Target.wrapInt, Target.wrapInt, Int.add_bmod_bmod, List.length_append]
      push_cast
      rfl
    simp only [Except.map, count, List.foldl_append, List.map_map, Function.comp_def,
      Slot.shift_store]

theorem npfVpprintf_verbatim_sci :
    npfVpprintf .standardFixed (fun s c => s ++ [c]) []
        ("%.3e".toList ++ ("=%d%hhn".toList ++ [NUL]))
        [.int 32 7, .ptr 8 []] .zeroed =
      .ok (6, "%.3e=7".toList, [⟨8, 8, 6⟩]) :=
  npfVpprintf_verbatim .standardFixed ⟨[], .digits [], .literal false [3], .none, .letter .e false⟩
    rfl (by decide) _ (by decide) _ _ _ _ .zeroed

end Nanoprintf
