import Nanoprintf.ConversionText

/-!
# One specification, apart from what came before it

The number of characters before a specification is seen by `%n` alone, and only
as the number it stores; the callback's context is not seen at all. `formatted`
is a turn of the loop without them, and `formatOne_eq` puts them back: the
callback receives the characters one after the other, the count grows by their
number, and every store has the count before the specification.
-/

set_option autoImplicit false

namespace Nanoprintf

open Foundations

variable {cfg : Config} {κ : Type}

/-- One parsed specification. -/
def formatted (cfg : Config) (fs : NpfFormatSpec) (args : List Arg) : Run Formatted := do
  let (fs, args) ← starArgs cfg fs args
  converted cfg fs args

/-! ## What a conversion sees of the characters before it -/

theorem writeback_eq (fs : NpfFormatSpec) (n : ℤ) (args : List Arg) :
    writeback cfg fs n args = (writeback cfg fs 0 args).map fun (stores, args) =>
      (stores.map fun s => s.slot.store n, args) := by
  unfold writeback
  rcases vaPtr args with e | ⟨wb, -, rest⟩
  · rfl
  · simp only [bind, Except.bind]
    rcases writebackWidth cfg fs.lengthModifier with - | bits
    · rfl
    · by_cases null : wb = 0
      · simp only [if_pos null, Except.map]
      · simp only [if_neg null, Except.map, pure, Except.pure, List.map_cons, List.map_nil,
          Slot.store, Store.slot]

/-- The number of characters before a conversion is seen in its stores only. -/
theorem convert_eq (fs : NpfFormatSpec) (n : ℤ) (args : List Arg) :
    convert cfg fs n args = (convert cfg fs 0 args).map fun (conv, stores, args) =>
      (conv, stores.map fun s => s.slot.store n, args) := by
  unfold convert
  split_ifs
  · rcases convertFloat cfg fs args with e | ⟨conv, rest⟩ <;> rfl
  · rw [writeback_eq fs n]
    rcases writeback cfg fs 0 args with e | ⟨stores, rest⟩ <;> rfl
  · rcases convertInt cfg fs args with e | ⟨conv, rest⟩ <;> rfl
  · rcases convertString cfg fs args with e | ⟨conv, rest⟩ <;> rfl
  · rcases convertChar cfg fs args with e | ⟨conv, rest⟩ <;> rfl

/-! ## Payloads are what they say -/

theorem strLen_le {bound : Option ℤ} {memory : List Char} {start len : ℕ}
    (run : strLen bound memory start = .ok len) : len ≤ start + memory.length := by
  induction memory generalizing start with
  | nil =>
      rw [strLen] at run
      split_ifs at run with more
      obtain rfl := Except.ok.inj run
      exact Nat.le_add_right _ _
  | cons c memory ih =>
      rw [strLen] at run
      split_ifs at run with more last
      · obtain rfl := Except.ok.inj run
        exact Nat.le_add_right _ _
      · have rest := ih run
        rw [List.length_cons]
        omega
      · obtain rfl := Except.ok.inj run
        exact Nat.le_add_right _ _

section

variable {fs : NpfFormatSpec} {n : ℤ} {args rest : List Arg} {conv : Converted cfg}

theorem eq_of_vaPtr {a : ℕ} {memory : List Char} (run : vaPtr args = .ok (a, memory, rest)) :
    args = .ptr a memory :: rest := by
  rcases args with _ | ⟨_ | ⟨b, m⟩ | _ | _ | _, args⟩
  case cons.ptr =>
    cases run
    rfl
  all_goals cases run

/-- A string comes from the first argument, and is not longer than what that points to. -/
def Payload.From (args : List Arg) : Payload cfg → Prop
  | .reversed _ _ => True
  | .string memory len => len ≤ memory.length ∧ ∃ a rest, args = .ptr a memory :: rest
  | .binary _ _ => True

theorem convertString_from (run : convertString cfg fs args = .ok (conv, rest)) :
    conv.payload.From args := by
  obtain ⟨⟨a, memory, left⟩, pointer, run⟩ := bind_eq_ok.mp run
  have first := eq_of_vaPtr pointer
  by_cases null : a = 0
  · simp only [if_pos null] at run
    obtain ⟨len, zero, run⟩ := bind_eq_ok.mp run
    obtain rfl := pure_eq_ok.mp zero
    obtain ⟨rfl, -⟩ := Prod.mk.inj (pure_eq_ok.mp run)
    exact ⟨Nat.zero_le _, a, left, first⟩
  · simp only [if_neg null] at run
    obtain ⟨len, measured, run⟩ := bind_eq_ok.mp run
    obtain ⟨rfl, -⟩ := Prod.mk.inj (pure_eq_ok.mp run)
    have bound := strLen_le measured
    exact ⟨by omega, a, left, first⟩

theorem convertFloat_from (run : convertFloat cfg fs args = .ok (conv, rest)) :
    conv.payload.From args := by
  rw [convertFloat_eq] at run
  obtain ⟨⟨val, left⟩, -, run⟩ := bind_eq_ok.mp run
  obtain ⟨⟨need0x, len, buf⟩, -, run⟩ := bind_eq_ok.mp run
  obtain ⟨rfl, -⟩ := Prod.mk.inj (pure_eq_ok.mp run)
  trivial

theorem convertChar_from (run : convertChar cfg fs args = .ok (conv, rest)) :
    conv.payload.From args := by
  unfold convertChar at run
  by_cases kind : fs.convSpec = .char
  · simp only [if_pos kind] at run
    obtain ⟨⟨v, left⟩, -, run⟩ := bind_eq_ok.mp run
    obtain ⟨⟨c, left⟩, -, run⟩ := bind_eq_ok.mp run
    obtain ⟨buf, -, run⟩ := bind_eq_ok.mp run
    obtain ⟨rfl, -⟩ := Prod.mk.inj (pure_eq_ok.mp run)
    trivial
  · simp only [if_neg kind] at run
    obtain ⟨⟨c, left⟩, -, run⟩ := bind_eq_ok.mp run
    obtain ⟨buf, -, run⟩ := bind_eq_ok.mp run
    obtain ⟨rfl, -⟩ := Prod.mk.inj (pure_eq_ok.mp run)
    trivial

theorem convertInt_from (run : convertInt cfg fs args = .ok (conv, rest)) :
    conv.payload.From args := by
  obtain ⟨⟨val, signC, left⟩, -, run⟩ := bind_eq_ok.mp run
  simp only at run
  split_ifs at run with blank form binary form octal form
  case pos | neg | pos | neg =>
    obtain ⟨rfl, -⟩ := Prod.mk.inj (pure_eq_ok.mp run)
    trivial
  · obtain ⟨⟨len, buf⟩, -, run⟩ := bind_eq_ok.mp run
    obtain ⟨buf', -, run⟩ := bind_eq_ok.mp run
    obtain ⟨rfl, -⟩ := Prod.mk.inj (pure_eq_ok.mp run)
    trivial
  · obtain ⟨⟨len, buf⟩, -, run⟩ := bind_eq_ok.mp run
    obtain ⟨rfl, -⟩ := Prod.mk.inj (pure_eq_ok.mp run)
    trivial
  · obtain ⟨⟨len, buf⟩, -, run⟩ := bind_eq_ok.mp run
    obtain ⟨rfl, -⟩ := Prod.mk.inj (pure_eq_ok.mp run)
    trivial

theorem convert_from {stores : List Store}
    (run : convert cfg fs n args = .ok (conv, stores, rest)) : conv.payload.From args := by
  unfold convert at run
  split_ifs at run
  · obtain ⟨⟨conv', left⟩, inner, run⟩ := bind_eq_ok.mp run
    obtain ⟨rfl, -⟩ := Prod.mk.inj (pure_eq_ok.mp run)
    exact convertFloat_from inner
  · obtain ⟨⟨stores, left⟩, -, run⟩ := bind_eq_ok.mp run
    obtain ⟨rfl, -⟩ := Prod.mk.inj (pure_eq_ok.mp run)
    trivial
  · obtain ⟨⟨conv', left⟩, inner, run⟩ := bind_eq_ok.mp run
    obtain ⟨rfl, -⟩ := Prod.mk.inj (pure_eq_ok.mp run)
    exact convertInt_from inner
  · obtain ⟨⟨conv', left⟩, inner, run⟩ := bind_eq_ok.mp run
    obtain ⟨rfl, -⟩ := Prod.mk.inj (pure_eq_ok.mp run)
    exact convertString_from inner
  · obtain ⟨⟨conv', left⟩, inner, run⟩ := bind_eq_ok.mp run
    obtain ⟨rfl, -⟩ := Prod.mk.inj (pure_eq_ok.mp run)
    exact convertChar_from inner

theorem convert_valid {stores : List Store}
    (run : convert cfg fs n args = .ok (conv, stores, rest)) : conv.payload.Valid := by
  have source := convert_from run
  revert source
  rcases conv.payload with ⟨buf, len⟩ | ⟨memory, len⟩ | ⟨val, len⟩
  · exact id
  · exact And.left
  · exact id

end

/-! ## One turn -/

/-- The variables of the loop that outlive a turn. -/
structure Progress (κ : Type) where
  ctx : κ
  npfN : ℤ
  args : List Arg
  stores : List Store

def PrintState.progress (st : PrintState κ) : Progress κ := ⟨st.ctx, st.npfN, st.args, st.stores⟩

/-- The progress that a specification makes. -/
def Progress.after (cfg : Config) (pc : κ → Char → κ) (p : Progress κ) (f : Formatted) :
    Progress κ where
  ctx := f.text.foldl pc p.ctx
  npfN := cfg.wrapInt (p.npfN + f.text.length)
  args := f.args
  stores := p.stores ++ f.slots.map fun slot => slot.store p.npfN

/-- **One turn of the loop sends the text of the specification.** -/
theorem formatOne_eq (pc : κ → Char → κ) (st : PrintState κ) :
    (formatOne cfg pc st).map PrintState.progress =
      (formatted cfg st.fs st.args).map (st.progress.after cfg pc) := by
  unfold formatOne formatted converted
  rcases starArgs cfg st.fs st.args with e | ⟨fs, rest⟩
  · rfl
  simp only [bind, Except.bind, convert_eq _ st.npfN]
  rcases run : convert cfg (defaults cfg fs) 0 rest with e | ⟨conv, stores, left⟩
  · rfl
  simp only [Except.map, emit_eq pc (convert_valid run)]
  rcases payloadText conv.payload with e | t
  · rfl
  · simp only [pure, Except.pure, PrintState.progress, Progress.after, List.map_map]
    rfl

end Nanoprintf
