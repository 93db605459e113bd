import Nanoprintf.Printf

/-!
# The text of a conversion

What a conversion sends is a text that does not depend on who receives it. The
text is a field: the sign and the prefix, the digits or characters with the zeros
that the precision puts in front, and padding to the width. `emit_eq` says that
the source sends exactly this text, in every build, and that the length it
computes before sending anything is the length of the text.
-/

set_option autoImplicit false

namespace Nanoprintf

open Foundations

variable {cfg : Config} {κ : Type}

/-! ## Fields -/

/-- A text in a field: its zeros go between the head and the body. -/
def padField (width : ℕ) (left zero : Bool) (head body : List Char) : List Char :=
  let pad := width - (head.length + body.length)
  if left then head ++ body ++ List.replicate pad ' '
  else if zero then head ++ List.replicate pad '0' ++ body
  else List.replicate pad ' ' ++ head ++ body

theorem length_padField (width : ℕ) (left zero : Bool) (head body : List Char) :
    (padField width left zero head body).length = max width (head.length + body.length) := by
  unfold padField
  split_ifs <;> simp only [List.length_append, List.length_replicate] <;> omega

/-- A field that the text fills. -/
theorem padField_of_le {width : ℕ} {head body : List Char}
    (full : width ≤ head.length + body.length) (left zero : Bool) :
    padField width left zero head body = head ++ body := by
  simp [padField, Nat.sub_eq_zero_of_le full]

/-- The character of a sign, unless there is none. -/
def signText (signC : Char) : List Char := if signC ≠ NUL then [signC] else []

/-- The prefix with a letter, unless there is none. -/
def prefixText (need0x : Char) : List Char := if need0x ≠ NUL then ['0', need0x] else []

theorem length_signText (c : Char) : (signText c).length = if c ≠ NUL then 1 else 0 := by
  unfold signText
  split_ifs <;> rfl

theorem length_prefixText (c : Char) : (prefixText c).length = if c ≠ NUL then 2 else 0 := by
  unfold prefixText
  split_ifs <;> rfl

/-! ## Payloads -/

/-- The characters below an index of the buffer, from the top down. -/
def readDown (buf : ConvBuffer cfg) : ℕ → Run (List Char)
  | 0 => .ok []
  | n + 1 => do
    let c ← buf.read n
    let rest ← readDown buf n
    pure (c :: rest)

/-- The binary digits below a position, from the top down. -/
def binaryText (val : ℕ) : ℕ → List Char
  | 0 => []
  | n + 1 => Char.ofNat ('0'.toNat + (val >>> n &&& 1)) :: binaryText val n

def payloadText : Payload cfg → Run (List Char)
  | .reversed buf len => readDown buf len
  | .string memory len => .ok (memory.take len)
  | .binary val len => .ok (binaryText val len)

/-- A string is not shorter than its length. -/
def Payload.Valid : Payload cfg → Prop
  | .reversed _ _ => True
  | .string memory len => len ≤ memory.length
  | .binary _ _ => True

theorem length_readDown {buf : ConvBuffer cfg} {n : ℕ} {t : List Char}
    (run : readDown buf n = .ok t) : t.length = n := by
  induction n generalizing t with
  | zero =>
      obtain rfl := Except.ok.inj run
      rfl
  | succ n ih =>
      rw [readDown] at run
      rcases read : buf.read (ε := Leave) n with e | c
      · simp [read, bind, Except.bind] at run
      · rcases rest : readDown buf n with e | s
        · simp [read, rest, bind, Except.bind] at run
        · simp only [read, rest, bind, Except.bind, pure, Except.pure, Except.ok.injEq] at run
          rw [← run, List.length_cons, ih rest]

theorem length_binaryText (val n : ℕ) : (binaryText val n).length = n := by
  induction n with
  | zero => rfl
  | succ n ih => rw [binaryText, List.length_cons, ih]

theorem length_payloadText {payload : Payload cfg} (valid : payload.Valid) {t : List Char}
    (run : payloadText payload = .ok t) : t.length = payload.len := by
  cases payload with
  | reversed buf len => exact length_readDown run
  | string memory len =>
      obtain rfl := Except.ok.inj run
      rw [List.length_take]
      exact min_eq_left valid
  | binary val len =>
      obtain rfl := Except.ok.inj run
      exact length_binaryText val len

/-- A piece of the buffer, read from its top. -/
theorem readDown_eq {buf : ConvBuffer cfg} {t : List Char} (holds : buf.Holds 0 t.reverse)
    (inside : t.length ≤ cfg.cbuf) : readDown buf t.length = .ok t := by
  induction t with
  | nil => rfl
  | cons c t ih =>
      rw [List.length_cons] at inside
      rw [List.reverse_cons, Buffer.holds_append] at holds
      obtain ⟨rest, first⟩ := holds
      rw [List.length_reverse, Nat.zero_add] at first
      rw [List.length_cons, readDown, Buffer.read_eq (by omega) first.1, ih rest (by omega)]
      rfl

/-! ## Sending -/

theorem putN_eq (pc : κ → Char → κ) (c : Char) (n : ℕ) (ctx : κ) :
    putN pc c n ctx = (List.replicate n c).foldl pc ctx := by
  induction n generalizing ctx with
  | zero => rfl
  | succ n ih => rw [putN, ih, List.replicate_succ, List.foldl_cons]

theorem putSign_eq (pc : κ → Char → κ) (signC : Char) (ctx : κ) :
    putSign pc signC ctx = (signText signC).foldl pc ctx := by
  unfold putSign signText
  split_ifs <;> rfl

theorem put0x_eq (pc : κ → Char → κ) (need0x : Char) (ctx : κ) :
    put0x pc need0x ctx = (prefixText need0x).foldl pc ctx := by
  unfold put0x prefixText
  split_ifs <;> rfl

theorem putReversed_eq (pc : κ → Char → κ) (buf : ConvBuffer cfg) (n : ℕ) (ctx : κ) :
    putReversed pc buf n ctx = (readDown buf n).map fun t => t.foldl pc ctx := by
  induction n generalizing ctx with
  | zero => rfl
  | succ n ih =>
      rw [putReversed, readDown]
      rcases buf.read (ε := Leave) n with e | c
      · rfl
      · simp only [bind, Except.bind, ih]
        rcases readDown buf n with e | t
        · rfl
        · rfl

theorem putBinary_eq (pc : κ → Char → κ) (val n : ℕ) (ctx : κ) :
    putBinary pc val n ctx = (binaryText val n).foldl pc ctx := by
  induction n generalizing ctx with
  | zero => rfl
  | succ n ih => rw [putBinary, ih, binaryText, List.foldl_cons]

theorem putPayload_eq (pc : κ → Char → κ) (payload : Payload cfg) (ctx : κ) :
    putPayload pc payload ctx = (payloadText payload).map fun t => t.foldl pc ctx := by
  cases payload with
  | reversed buf len => exact putReversed_eq pc buf len ctx
  | string memory len => rfl
  | binary val len => exact congrArg Except.ok (putBinary_eq pc val len ctx)

/-! ## The text of a conversion -/

/-- The field of a build without widths is empty. -/
def widthOf (cfg : Config) (fs : NpfFormatSpec) : ℕ :=
  if cfg.fieldWidth then fs.fieldWidth.toNat else 0

/-- The text of a conversion with a payload. -/
def convertedText (conv : Converted cfg) (payload : List Char) : List Char :=
  padField (widthOf cfg conv.fs) conv.fs.leftJustified (padChar cfg conv == '0')
    (signText conv.signC ++ prefixText conv.need0x)
    (List.replicate (precPad cfg conv).toNat '0' ++ payload)

theorem precPad_nonneg (conv : Converted cfg) : 0 ≤ precPad cfg conv := by
  unfold precPad
  split_ifs
  · exact le_max_left _ _
  · exact le_rfl

/-- What a conversion has before it is padded. -/
theorem bodyLen_eq {conv : Converted cfg} {t : List Char} (length : t.length = conv.payload.len) :
    bodyLen cfg conv = ((signText conv.signC ++ prefixText conv.need0x).length +
      (List.replicate (precPad cfg conv).toNat '0' ++ t).length : ℕ) := by
  have zeros := precPad_nonneg conv
  rw [bodyLen, List.length_append, List.length_append, length_signText, length_prefixText,
    List.length_replicate, length]
  push_cast
  rw [Int.toNat_of_nonneg zeros]
  ring

theorem fieldPad_eq {conv : Converted cfg} {t : List Char} (length : t.length = conv.payload.len) :
    fieldPad cfg conv = (widthOf cfg conv.fs -
      ((signText conv.signC ++ prefixText conv.need0x).length +
        (List.replicate (precPad cfg conv).toNat '0' ++ t).length) : ℕ) := by
  rw [fieldPad, bodyLen_eq length, widthOf]
  by_cases compiled : cfg.fieldWidth = true
  · rw [if_pos compiled, if_pos compiled]
    simp only
    split_ifs <;> omega
  · rw [if_neg compiled, if_neg compiled, Nat.zero_sub]
    rfl

theorem padChar_cases (conv : Converted cfg) :
    padChar cfg conv = '0' ∧ conv.fs.leftJustified = false ∨ padChar cfg conv = ' ' := by
  unfold padChar
  split_ifs with zero
  · exact .inl ⟨rfl, Bool.eq_false_iff.mpr zero.2.1⟩
  · exact .inr rfl

/-- What `spec_len` counts. -/
theorem specLen_eq {conv : Converted cfg} (valid : conv.payload.Valid) {t : List Char}
    (run : payloadText conv.payload = .ok t) :
    bodyLen cfg conv + fieldPad cfg conv = ((convertedText conv t).length : ℤ) := by
  have length := length_payloadText valid run
  rw [bodyLen_eq length, fieldPad_eq length, convertedText, length_padField]
  omega

/-- The blanks behind a text that is to the left in its field. -/
def blanksBehind (cfg : Config) (conv : Converted cfg) : ℕ :=
  if conv.fs.leftJustified then (fieldPad cfg conv).toNat else 0

/-- The payload stands in the text as it is, in front of these blanks. -/
theorem exists_convertedText {conv : Converted cfg} {t : List Char}
    (length : t.length = conv.payload.len) :
    ∃ front, convertedText conv t = front ++ t ++ List.replicate (blanksBehind cfg conv) ' ' := by
  have pad := congrArg Int.toNat (fieldPad_eq length)
  rw [Int.toNat_natCast] at pad
  unfold convertedText padField blanksBehind
  rw [← pad]
  rcases conv.fs.leftJustified with _ | _
  · simp only [Bool.false_eq_true, if_false, List.replicate_zero, List.append_nil]
    split_ifs
    · exact ⟨_, by rw [← List.append_assoc]⟩
    · exact ⟨_, by rw [← List.append_assoc]⟩
  · simp only [if_true]
    exact ⟨_, by rw [← List.append_assoc]⟩

/-- **A conversion sends its text**, and counts its characters. -/
theorem emit_eq (pc : κ → Char → κ) {conv : Converted cfg} (valid : conv.payload.Valid) (ctx : κ) :
    emit cfg pc conv ctx = (payloadText conv.payload).map fun t =>
      (((convertedText conv t).length : ℤ), (convertedText conv t).foldl pc ctx) := by
  rcases run : payloadText conv.payload with e | t
  · simp [emit, putPayload_eq, run, bind, Except.bind, Except.map]
  have padding := fieldPad_eq (length_payloadText valid run)
  have total := specLen_eq valid run
  have nonneg : 0 ≤ fieldPad cfg conv := by
    rw [padding]
    exact Int.natCast_nonneg _
  have pad_eq := congrArg Int.toNat padding
  rw [Int.toNat_natCast] at pad_eq
  have folded (start : κ) :
      (List.replicate (precPad cfg conv + fieldPad cfg conv).toNat '0').foldl pc start =
        (List.replicate (precPad cfg conv).toNat '0').foldl pc
          ((List.replicate (fieldPad cfg conv).toNat '0').foldl pc start) := by
    have zeros := precPad_nonneg conv
    rw [← List.foldl_append, List.replicate_append_replicate, Int.toNat_add zeros nonneg, add_comm]
  simp only [emit, putPayload_eq, run, bind, Except.bind, Except.map, pure, Except.pure, total]
  refine congrArg (fun s => Except.ok (_, s)) ?_
  rw [convertedText, padField, ← pad_eq]
  by_cases width : cfg.fieldWidth = true
  swap
  · have none : (fieldPad cfg conv).toNat = 0 := by simp [fieldPad, width]
    simp [width, none, putSign_eq, put0x_eq, putN_eq]
  by_cases precision : cfg.precision = true
  · rcases padChar_cases conv with ⟨zero, right⟩ | blank
    · -- the zeros of the field are sent with those of the precision
      simp [width, precision, zero, right, folded, putSign_eq, put0x_eq, putN_eq]
    · cases conv.fs.leftJustified
      · simp [width, precision, blank, putSign_eq, put0x_eq, putN_eq]
      · simp [width, precision, blank, putSign_eq, put0x_eq, putN_eq]
  · have none : precPad cfg conv = 0 := by simp [precPad, precision]
    rcases padChar_cases conv with ⟨zero, right⟩ | blank
    · -- the sign and the prefix are sent before the zeros, and not again
      have silent : signText NUL = [] ∧ prefixText NUL = [] := ⟨rfl, rfl⟩
      simp [width, precision, zero, right, none, silent, putSign_eq, put0x_eq, putN_eq]
    · cases conv.fs.leftJustified
      · simp [width, precision, blank, none, putSign_eq, put0x_eq, putN_eq]
      · simp [width, precision, blank, none, putSign_eq, put0x_eq, putN_eq]

end Nanoprintf
