import Nanoprintf.Saturation
import Nanoprintf.Snprintf
import Nanoprintf.Soundness

/-!
# Counts that an `int` holds

The parser accumulates a number, a conversion its lengths, and the loop the characters
it has sent in variables of type `int`. Signed overflow is undefined in C, where the
engine of `Printf` wraps. Here is that engine with every such value checked: it stops
at the first one that an `int` does not hold, as it does at a wrong argument. While it
goes on it is the engine itself, and it stops of a value exactly if the text is longer
than an `int` can count. So what makes a call defined is the types of its arguments
and the length of its text (`npfVpprintf_defined_iff`).
-/

set_option autoImplicit false

namespace Nanoprintf

open Foundations

variable {cfg : Config} {κ : Type}

/-! ## The checked engine -/

/-- Values computed in an `int`. -/
def checkInts (cfg : Config) (values : List ℤ) : Run Unit :=
  if ∀ z ∈ values, IsInt cfg z then .ok () else .error (.leave .overflow)

/-- The numbers that `npf_fmt_num` computes, from an accumulator `n`. -/
def npfFmtNumInts (cfg : Config) : Cursor → ℕ → List ℤ
  | [], _ => []
  | c :: cur, n =>
    if cfg.isDigit c then
      if cfg.fmtNumBig n then npfFmtNumInts cfg cur n
      else (n : ℤ) * 10 :: ((n * 10 + (c.toNat - '0'.toNat) : ℕ) : ℤ) ::
        npfFmtNumInts cfg cur (n * 10 + (c.toNat - '0'.toNat))
    else []

/-- The numbers that the parser computes at a `%`: the width and the precision, which
has a minus sign or not. -/
def parseInts (cfg : Config) (format : Cursor) (old : NpfFormatSpec) : List ℤ :=
  match parseFlags cfg format (resetSpec cfg old) with
  | .error _ => []
  | .ok (cur, spec) =>
    (if cfg.fieldWidth then npfFmtNumInts cfg cur 0 else []) ++
      match cfg.precision, parseFieldWidth cfg cur spec with
      | true, .ok ('.' :: '-' :: cur, _) | true, .ok ('.' :: cur, _) =>
        npfFmtNumInts cfg cur 0
      | _, _ => []

/-- `npf_parse_format_spec_end` -/
def npfParseFormatSpecEndChecked (cfg : Config) (format : Cursor) (outSpec : NpfFormatSpec) :
    Run (Option Cursor × NpfFormatSpec) := do
  checkInts cfg (parseInts cfg format outSpec)
  npfParseFormatSpecEnd cfg format outSpec

/-- One conversion. The loop that measures a string counts up to its length, which is the
first of `lengthInts`. -/
def formatOneChecked (cfg : Config) (pc : κ → Char → κ) (st : PrintState κ) :
    Run (PrintState κ) := do
  let (fs, args) ← starArgs cfg st.fs st.args
  let fs := defaults cfg fs
  let (conv, stores, args) ← convert cfg fs st.npfN args
  checkInts cfg (lengthInts cfg conv)
  let (specLen, ctx) ← emit cfg pc conv st.ctx
  checkInts cfg [st.npfN + specLen]
  pure { ctx := ctx, npfN := st.npfN + specLen, args := args,
         stores := st.stores ++ stores, fs := conv.fs }

/-- The loop over the format. -/
def vpprintfLoopChecked (cfg : Config) (pc : κ → Char → κ) :
    ℕ → Cursor → PrintState κ → Run (PrintState κ)
  | 0, _, _ => .error .bounds
  | fuel + 1, cur, st => do
    let c ← cur.deref
    if c = NUL then pure st
    else
      let (fsEnd, fs) ←
        if c ≠ '%' then pure (none, st.fs) else npfParseFormatSpecEndChecked cfg cur st.fs
      match fsEnd with
      | none => do
        checkInts cfg [st.npfN + 1]
        vpprintfLoopChecked cfg pc fuel (← cur.next)
          { st with ctx := pc st.ctx c, npfN := st.npfN + 1, fs := fs }
      | some cur =>
        let st ← formatOneChecked cfg pc { st with fs := fs }
        vpprintfLoopChecked cfg pc fuel cur st

/-- `npf_vpprintf`, undefined where an `int` overflows. -/
def npfVpprintfChecked (cfg : Config) (pc : κ → Char → κ) (ctx : κ) (format : Cursor)
    (args : List Arg) (fs : NpfFormatSpec) : Run (ℤ × κ × List Store) := do
  let st ← vpprintfLoopChecked cfg pc format.length format
    { ctx := ctx, npfN := 0, args := args, stores := [], fs := fs }
  pure (st.npfN, st.ctx, st.stores)

/-- `npf_vsnprintf`, undefined where an `int` overflows. -/
def npfVsnprintfChecked (cfg : Config) (memory : Memory) (buffer : Bool) (bufsz : ℕ)
    (format : Cursor) (vlist : List Arg) (fs : NpfFormatSpec) : Run (ℤ × Memory × List Store) := do
  let _ ← npfVpprintfChecked cfg npfBufputc ⟨memory, if buffer then some 0 else none, bufsz⟩ format
    vlist fs
  npfVsnprintf cfg memory buffer bufsz format vlist fs

/-! ## Values that are checked -/

theorem checkInts_eq_ok {values : List ℤ} :
    checkInts cfg values = .ok () ↔ ∀ z ∈ values, IsInt cfg z := by
  rw [checkInts]
  split_ifs with inside
  · exact iff_of_true rfl inside
  · exact iff_of_false nofun inside

theorem checkInts_single {z : ℤ} : checkInts cfg [z] = .ok () ↔ IsInt cfg z := by
  rw [checkInts_eq_ok, List.forall_mem_singleton]

theorem isInt_of_nonneg {z : ℤ} (nonneg : 0 ≤ z) : IsInt cfg z ↔ z ≤ cfg.intMax := by
  have large := cfg.intMax_ge
  exact ⟨And.right, fun upper => ⟨by omega, upper⟩⟩

/-- The parser's accumulator stops in time. -/
theorem isInt_of_mem_npfFmtNumInts (target : StopsInTime cfg) {cur : Cursor} {n : ℕ} {z : ℤ}
    (member : z ∈ npfFmtNumInts cfg cur n) : IsInt cfg z := by
  have large := cfg.intMax_ge
  induction cur generalizing n with
  | nil => exact absurd member List.not_mem_nil
  | cons c cur ih =>
      rw [npfFmtNumInts] at member
      split_ifs at member with digit big
      · exact ih member
      · have room := concat_le_intMax target (Bool.not_eq_true _ ▸ big)
        have zero : '0'.toNat = 48 := rfl
        have nine := ((cfg.isDigit_iff c).mp digit).2
        rcases List.mem_cons.mp member with rfl | member
        · exact ⟨by omega, by omega⟩
        rcases List.mem_cons.mp member with rfl | member
        · exact ⟨by omega, by omega⟩
        · exact ih member
      · exact absurd member List.not_mem_nil

theorem isInt_of_mem_parseInts (target : StopsInTime cfg) {format : Cursor} {old : NpfFormatSpec}
    {z : ℤ} (member : z ∈ parseInts cfg format old) : IsInt cfg z := by
  unfold parseInts at member
  split at member
  · exact absurd member List.not_mem_nil
  · rcases List.mem_append.mp member with width | precision
    · split_ifs at width with on
      · exact isInt_of_mem_npfFmtNumInts target width
      · exact absurd width List.not_mem_nil
    · split at precision
      · exact isInt_of_mem_npfFmtNumInts target precision
      · exact isInt_of_mem_npfFmtNumInts target precision
      · exact absurd precision List.not_mem_nil

/-! ## The checked engine is the engine -/

/-- A turn that is not stopped is a turn of the engine. -/
theorem formatOne_of_checked {pc : κ → Char → κ} {st st' : PrintState κ}
    (run : formatOneChecked cfg pc st = .ok st') : formatOne cfg pc st = .ok st' := by
  obtain ⟨⟨fs, args⟩, stars, run⟩ := bind_eq_ok.mp run
  obtain ⟨⟨conv, stores, left⟩, conversion, run⟩ := bind_eq_ok.mp run
  obtain ⟨-, -, run⟩ := bind_eq_ok.mp run
  obtain ⟨⟨specLen, ctx⟩, sent, run⟩ := bind_eq_ok.mp run
  obtain ⟨_, count, run⟩ := bind_eq_ok.mp run
  obtain ⟨lower, upper⟩ := checkInts_single.mp count
  simp only [formatOne, stars, conversion, sent, bind, Except.bind, wrapInt_of_range lower upper]
  exact run

/-- A run that is not stopped is a run of the engine. -/
theorem vpprintfLoop_of_checked {pc : κ → Char → κ} {fuel : ℕ} {cur : Cursor}
    {st st' : PrintState κ} (run : vpprintfLoopChecked cfg pc fuel cur st = .ok st') :
    vpprintfLoop cfg pc fuel cur st = .ok st' := by
  induction fuel generalizing cur st with
  | zero => exact run
  | succ fuel ih =>
      obtain ⟨c, char, run⟩ := bind_eq_ok.mp run
      have literal : ∀ fs, (do
          checkInts cfg [st.npfN + 1]
          vpprintfLoopChecked cfg pc fuel (← cur.next)
            { st with ctx := pc st.ctx c, npfN := st.npfN + 1, fs := fs }) = .ok st' →
          (do
            vpprintfLoop cfg pc fuel (← cur.next) { st with
              ctx := pc st.ctx c, npfN := cfg.wrapInt (st.npfN + 1), fs := fs }) = .ok st' := by
        intro fs run
        obtain ⟨_, count, run⟩ := bind_eq_ok.mp run
        obtain ⟨next, moved, run⟩ := bind_eq_ok.mp run
        obtain ⟨lower, upper⟩ := checkInts_single.mp count
        simp only [moved, wrapInt_of_range lower upper, bind, Except.bind]
        exact ih run
      rw [vpprintfLoop]
      simp only [char, bind, Except.bind]
      by_cases last : c = NUL
      · simp only [if_pos last] at run ⊢
        exact run
      simp only [if_neg last] at run ⊢
      by_cases percent : c ≠ '%'
      · simp only [if_pos percent] at run ⊢
        exact literal st.fs run
      simp only [if_neg percent] at run ⊢
      obtain ⟨⟨fsEnd, fs⟩, parsed, run⟩ := bind_eq_ok.mp run
      obtain ⟨_, -, parsed⟩ := bind_eq_ok.mp parsed
      simp only [parsed]
      cases fsEnd with
      | none => exact literal fs run
      | some cur =>
          obtain ⟨mid, turn, run⟩ := bind_eq_ok.mp run
          simp only [formatOne_of_checked turn]
          exact ih run

theorem npfVpprintf_of_checked {pc : κ → Char → κ} {ctx : κ} {format : Cursor} {args : List Arg}
    {fs : NpfFormatSpec} {out : ℤ × κ × List Store}
    (run : npfVpprintfChecked cfg pc ctx format args fs = .ok out) :
    npfVpprintf cfg pc ctx format args fs = .ok out := by
  obtain ⟨st, loop, run⟩ := bind_eq_ok.mp run
  rw [npfVpprintf, vpprintfLoop_of_checked loop]
  exact run

/-! ## When it stops -/

/-- A directive stops the checked engine if its text does not fit the count. -/
theorem formatOneChecked_ok_iff {d : Directive} (on : d.enabled cfg = true)
    (pc : κ → Char → κ) {st : PrintState κ} (nonneg : 0 ≤ st.npfN) :
    (∃ st', formatOneChecked cfg pc { st with fs := d.denote cfg st.fs } = .ok st') ↔
      ∃ f, (Piece.directive d).format cfg st.args = .ok f ∧
        st.npfN + f.text.length ≤ cfg.intMax := by
  rw [Piece.format, ← formatted_eq on st.fs, formatted]
  rcases starArgs_stars on st.fs st.args with ⟨e, engine, -⟩ | ⟨fs, rest, engine, ⟨stars⟩⟩
  · simp [formatOneChecked, engine, bind, Except.bind]
  simp only [formatOneChecked, converted, engine, bind, Except.bind, convert_eq _ st.npfN]
  rcases run : convert cfg (defaults cfg fs) 0 rest with e | ⟨conv, stores, left⟩
  · simp [Except.map]
  simp only [Except.map, emit_eq pc (convert_valid run)]
  rcases text : payloadText conv.payload with e | t
  · refine iff_of_false ?_ ?_
    · rintro ⟨st', same⟩
      split at same <;> cases same
    · rintro ⟨f, same, -⟩
      cases same
  have lengths := stars.isInt_lengthInts_iff on run
  rw [specLen_eq (convert_valid run) text] at lengths
  have length : (0 : ℤ) ≤ (convertedText conv t).length := Int.natCast_nonneg _
  constructor
  · rintro ⟨st', same⟩
    obtain ⟨-, -, same⟩ := bind_eq_ok.mp same
    obtain ⟨_, count, -⟩ := bind_eq_ok.mp same
    exact ⟨_, rfl, (checkInts_single.mp count).2⟩
  · rintro ⟨f, same, fits⟩
    obtain rfl := pure_eq_ok.mp same
    have inside := checkInts_eq_ok.mpr (lengths.mpr (by simp only at fits; omega))
    have count := checkInts_single.mpr ((isInt_of_nonneg (by omega)).mpr fits)
    simp only at count
    exact ⟨_, by simp only [inside, count]; rfl⟩

/-- It leaves the count of the text and the arguments behind it. -/
theorem formatOneChecked_left {d : Directive} (on : d.enabled cfg = true) {pc : κ → Char → κ}
    {st st' : PrintState κ} (nonneg : 0 ≤ st.npfN) {f : Formatted}
    (turn : formatOneChecked cfg pc { st with fs := d.denote cfg st.fs } = .ok st')
    (answered : (Piece.directive d).format cfg st.args = .ok f)
    (fits : st.npfN + f.text.length ≤ cfg.intMax) :
    st'.npfN = st.npfN + f.text.length ∧ st'.args = f.args := by
  have one := @formatOne_eq cfg κ pc { st with fs := d.denote cfg st.fs }
  rw [formatOne_of_checked turn, formatted_eq on] at one
  rw [Piece.format] at answered
  simp only [answered, Except.map] at one
  have sent := Except.ok.inj one
  have count : st'.npfN = cfg.wrapInt (st.npfN + f.text.length) := congrArg Progress.npfN sent
  rw [wrapInt_of_range (by omega) fits] at count
  exact ⟨count, congrArg Progress.args sent⟩

/-- The parser does not stop. -/
theorem npfParseFormatSpecEndChecked_eq (target : StopsInTime cfg) (format : Cursor)
    (old : NpfFormatSpec) :
    npfParseFormatSpecEndChecked cfg format old = npfParseFormatSpecEnd cfg format old := by
  rw [npfParseFormatSpecEndChecked,
    checkInts_eq_ok.mpr fun z member => isInt_of_mem_parseInts target member]
  rfl

/-- The turn of the checked loop at a literal character. -/
theorem vpprintfLoopChecked_literal (target : StopsInTime cfg) (pc : κ → Char → κ) {c : Char}
    {s : List Char} (char : c ≠ NUL) (literal : c ≠ '%' ∨ Rejected cfg (c :: s))
    (member : NUL ∈ s) (fuel : ℕ) (st : PrintState κ) :
    ∃ fs, vpprintfLoopChecked cfg pc (fuel + 1) (c :: s) st = (do
      checkInts cfg [st.npfN + 1]
      vpprintfLoopChecked cfg pc fuel s
        { st with ctx := pc st.ctx c, npfN := st.npfN + 1, fs := fs }) := by
  rw [vpprintfLoopChecked]
  simp only [Cursor.deref, Cursor.next, bind, Except.bind, if_neg char]
  by_cases percent : c ≠ '%'
  · simp only [if_pos percent, pure, Except.pure]
    exact ⟨_, rfl⟩
  · obtain rfl := not_not.mp percent
    obtain ⟨fs, run⟩ := (literal.resolve_left percent).run member st.fs
    simp only [if_neg percent, npfParseFormatSpecEndChecked_eq target, run]
    exact ⟨fs, rfl⟩

/-- The turn of the checked loop at a directive. -/
theorem vpprintfLoopChecked_directive (target : StopsInTime cfg) (pc : κ → Char → κ)
    {d : Directive} (on : d.enabled cfg = true) (greedy : d.Greedy) (s : List Char) (fuel : ℕ)
    (st : PrintState κ) :
    vpprintfLoopChecked cfg pc (fuel + 1) (d.text ++ s) st = (do
      let st ← formatOneChecked cfg pc { st with fs := d.denote cfg st.fs }
      vpprintfLoopChecked cfg pc fuel s st) := by
  have run := npfParseFormatSpecEnd_text on greedy s st.fs
  rw [← npfParseFormatSpecEndChecked_eq target, Directive.text, List.cons_append] at run
  rw [Directive.text, List.cons_append, vpprintfLoopChecked]
  simp only [Cursor.deref, bind, Except.bind, run, ne_eq, not_true_eq_false, if_false,
    show ('%' : Char) ≠ NUL by decide]

/-- **The loop stops unless an `int` counts the output.** -/
theorem vpprintfLoopChecked_ok_iff (target : StopsInTime cfg) (pc : κ → Char → κ)
    {s : List Char} {ps : List Piece} (scan : Scans cfg s ps) {fuel : ℕ} (enough : ps.length < fuel)
    {st : PrintState κ} (nonneg : 0 ≤ st.npfN) (below : st.npfN ≤ cfg.intMax) :
    (∃ st', vpprintfLoopChecked cfg pc fuel s st = .ok st') ↔
      ∃ o, output cfg ps st.args = .ok o ∧ st.npfN + o.text.length ≤ cfg.intMax := by
  induction scan generalizing fuel st with
  | done junk =>
      obtain ⟨fuel, rfl⟩ := Nat.exists_eq_add_of_lt enough
      refine iff_of_true ⟨st, ?_⟩ ⟨_, rfl, by simpa using below⟩
      simp [vpprintfLoopChecked, Cursor.deref, bind, Except.bind, pure, Except.pure]
  | @literal c s ps char literal rest ih =>
      obtain ⟨fuel, rfl⟩ : ∃ k, fuel = k + 1 := ⟨fuel - 1, by omega⟩
      obtain ⟨fs, turn⟩ := vpprintfLoopChecked_literal target pc char literal rest.mem fuel st
      have room : ∀ o : Output, ((o.after ⟨[c], [], st.args⟩).text.length : ℤ) =
          1 + o.text.length := fun o => by simp [Output.after, add_comm]
      rw [turn]
      constructor
      · rintro ⟨st', run⟩
        obtain ⟨_, count, run⟩ := bind_eq_ok.mp run
        obtain ⟨o, later, fits⟩ := (@ih fuel (by simpa using enough) { st with
          ctx := pc st.ctx c, npfN := st.npfN + 1, fs := fs } (by simp only; omega)
          (checkInts_single.mp count).2).mp ⟨st', run⟩
        refine ⟨_, bind_eq_ok.mpr ⟨_, rfl, bind_eq_ok.mpr ⟨o, later, rfl⟩⟩, ?_⟩
        simp only at fits
        rw [room]
        omega
      · rintro ⟨_, run, fits⟩
        obtain ⟨_, same, run⟩ := bind_eq_ok.mp run
        obtain rfl := Except.ok.inj same
        obtain ⟨o, later, rfl⟩ := map_eq_ok.mp run
        rw [room] at fits
        have count : checkInts cfg [st.npfN + 1] = .ok () :=
          checkInts_single.mpr ((isInt_of_nonneg (by omega)).mpr (by omega))
        obtain ⟨st', run⟩ := (@ih fuel (by simpa using enough) { st with
          ctx := pc st.ctx c, npfN := st.npfN + 1, fs := fs } (by simp only; omega)
          (by simp only; omega)).mpr ⟨o, later, by simp only; omega⟩
        exact ⟨st', bind_eq_ok.mpr ⟨(), count, run⟩⟩
  | @directive d s ps on greedy rest ih =>
      obtain ⟨fuel, rfl⟩ : ∃ k, fuel = k + 1 := ⟨fuel - 1, by omega⟩
      rw [vpprintfLoopChecked_directive target pc on greedy]
      constructor
      · rintro ⟨st', run⟩
        obtain ⟨mid, turn, run⟩ := bind_eq_ok.mp run
        obtain ⟨f, answered, fits⟩ := (formatOneChecked_ok_iff on pc nonneg).mp ⟨mid, turn⟩
        obtain ⟨count, args⟩ := formatOneChecked_left on nonneg turn answered fits
        obtain ⟨o, later, total⟩ := (ih (by simpa using enough) (by omega) (by omega)).mp ⟨st', run⟩
        refine ⟨_, bind_eq_ok.mpr ⟨f, answered, bind_eq_ok.mpr ⟨o, args ▸ later, rfl⟩⟩, ?_⟩
        rw [Output.after, List.length_append]
        push_cast
        omega
      · rintro ⟨_, run, fits⟩
        obtain ⟨f, answered, run⟩ := bind_eq_ok.mp run
        obtain ⟨o, later, rfl⟩ := map_eq_ok.mp run
        rw [Output.after, List.length_append] at fits
        push_cast at fits
        obtain ⟨mid, turn⟩ := (formatOneChecked_ok_iff on pc nonneg).mpr ⟨f, answered, by omega⟩
        obtain ⟨count, args⟩ := formatOneChecked_left on nonneg turn answered (by omega)
        obtain ⟨st', run⟩ := (ih (by simpa using enough) (by omega) (by omega)).mpr
          ⟨o, args ▸ later, by omega⟩
        exact ⟨st', bind_eq_ok.mpr ⟨mid, turn, run⟩⟩

/-! ## Calls that are defined -/

/-- An `int` counts the characters that a format emits. -/
def Countable (cfg : Config) (ps : List Piece) (args : List Arg) : Prop :=
  ∀ o, output cfg ps args = .ok o → (o.text.length : ℤ) ≤ cfg.intMax

section

variable (target : StopsInTime cfg) {format : Cursor} {ps : List Piece}
  (scan : Scans cfg format ps) (args : List Arg) (fs : NpfFormatSpec) (pc : κ → Char → κ) (ctx : κ)
include target scan

theorem npfVpprintfChecked_ok_iff :
    (∃ out, npfVpprintfChecked cfg pc ctx format args fs = .ok out) ↔
      ∃ o, output cfg ps args = .ok o ∧ (o.text.length : ℤ) ≤ cfg.intMax := by
  have large := cfg.intMax_ge
  have loop := @vpprintfLoopChecked_ok_iff cfg κ target pc _ _ scan _ scan.length_lt
    { ctx := ctx, npfN := 0, args := args, stores := [], fs := fs } le_rfl (by simp only; omega)
  simp only [zero_add] at loop
  rw [← loop]
  constructor
  · rintro ⟨out, run⟩
    obtain ⟨st, run, -⟩ := bind_eq_ok.mp run
    exact ⟨st, run⟩
  · rintro ⟨st, run⟩
    exact ⟨_, bind_eq_ok.mpr ⟨st, run, rfl⟩⟩

/-- A run is not stopped if and only if its arguments are typed and its text can be counted. -/
theorem npfVpprintfChecked_iff_typed [cfg.FixedCarried] :
    (∃ out, npfVpprintfChecked cfg pc ctx format args fs = .ok out) ↔
      Typed cfg ps args ∧ Countable cfg ps args := by
  rw [npfVpprintfChecked_ok_iff target scan, ← scan.output_defined_iff, Countable]
  constructor
  · rintro ⟨o, run, fits⟩
    exact ⟨⟨o, run⟩, fun o' run' => Except.ok.inj (run.symm.trans run') ▸ fits⟩
  · rintro ⟨⟨o, run⟩, fits⟩
    exact ⟨o, run, fits o run⟩

/-- The same of a call that writes to a buffer. -/
theorem npfVsnprintfChecked_iff_typed [cfg.FixedCarried] (memory : Memory) (buffer : Bool)
    (bufsz : ℕ) :
    (∃ out, npfVsnprintfChecked cfg memory buffer bufsz format args fs = .ok out) ↔
      Typed cfg ps args ∧ Countable cfg ps args := by
  rw [← npfVpprintfChecked_iff_typed target scan args fs npfBufputc
    ⟨memory, if buffer then some 0 else none, bufsz⟩]
  constructor
  · rintro ⟨out, run⟩
    obtain ⟨out, run, -⟩ := bind_eq_ok.mp run
    exact ⟨out, run⟩
  · rintro ⟨⟨n, ctx, stores⟩, run⟩
    rw [npfVsnprintfChecked, run, npfVsnprintf, npfVpprintf_of_checked run]
    simp only [bind, Except.bind]
    split_ifs <;> exact ⟨_, rfl⟩

/-- **A call is defined if and only if its arguments are typed and its text can be counted.**
Whatever the callback, the run of a format finds an argument of the right type for every piece,
stays inside of its buffer, reads no cell that it has not written and no character behind the end
of a string, computes nothing that an `int` does not hold, and comes to its end, if and only if the
arguments have the types of the pieces, their pointers can be used, and an `int` counts the text. It
is then the run of the engine that wraps. -/
theorem npfVpprintf_defined_iff [cfg.FixedCarried] :
    ((∃ out, npfVpprintfChecked cfg pc ctx format args fs = .ok out) ↔
      Typed cfg ps args ∧ Countable cfg ps args) ∧
    ∀ out, npfVpprintfChecked cfg pc ctx format args fs = .ok out →
      npfVpprintf cfg pc ctx format args fs = .ok out :=
  ⟨npfVpprintfChecked_iff_typed target scan args fs pc ctx, fun _ => npfVpprintf_of_checked⟩

end

theorem Scans.wideChar {s : List Char} {ps : List Piece} (rest : Scans .avr s ps) :
    Scans .avr ("%8192c".toList ++ s)
      (.directive ⟨[], .digits [8, 1, 9, 2], .absent, .none, .letter .c false⟩ :: ps) :=
  .directive (d := ⟨[], .digits [8, 1, 9, 2], .absent, .none, .letter .c false⟩) rfl (by decide)
    rest

theorem length_wideChar (v : BitVec 16) (args : List Arg) : ∃ f,
    (Piece.directive ⟨[], .digits [8, 1, 9, 2], .absent, .none, .letter .c false⟩).format .avr
      (.int 16 v :: args) = .ok f ∧ f.args = args ∧ f.text.length = 8192 :=
  ⟨_, rfl, rfl, by rw [Request.plain, length_padField]; rfl⟩

/-- The precision of `%.*s` makes up for the terminator. Four times `%8192c` is more than a 16-bit
`int` counts. -/
theorem npfVpprintf_defined_iff_unterminated :
    npfVpprintfChecked .standard record [] ("%.*s".toList ++ [NUL])
        [.int 32 2, .ptr 1 ['a', 'b']] .zeroed = .ok (2, ['a', 'b'], []) ∧
      ¬ ∃ out, npfVpprintfChecked .avr record [] ("%8192c%8192c%8192c%8192c".toList ++ [NUL])
        [.int 16 65, .int 16 66, .int 16 67, .int 16 68] .zeroed = .ok out := by
  constructor
  · have scan : Scans .standard ("%.*s".toList ++ [NUL])
        [.directive ⟨[], .digits [], .star, .none, .letter .s false⟩] :=
      .directive (d := ⟨[], .digits [], .star, .none, .letter .s false⟩) rfl (by decide) (.done [])
    have text : output .standard [.directive ⟨[], .digits [], .star, .none, .letter .s false⟩]
        [.int 32 2, .ptr 1 ['a', 'b']] = .ok ⟨['a', 'b'], [], []⟩ := rfl
    obtain ⟨defined, engine⟩ := npfVpprintf_defined_iff (.inr (by decide)) scan
      [.int 32 2, .ptr 1 ['a', 'b']] .zeroed record []
    obtain ⟨out, run⟩ := defined.mpr ⟨(scan.output_defined_iff _).mp ⟨_, text⟩,
      fun o run => Except.ok.inj (text.symm.trans run) ▸ by decide⟩
    have printed : npfVpprintf .standard record [] ("%.*s".toList ++ [NUL])
        [.int 32 2, .ptr 1 ['a', 'b']] .zeroed = .ok (2, ['a', 'b'], []) := by decide +kernel
    rw [run, ← engine out run, printed]
  · intro defined
    obtain ⟨-, countable⟩ := (npfVpprintf_defined_iff (.inl (by decide))
      (.wideChar (.wideChar (.wideChar (.wideChar (.done []))))) _ .zeroed record []).1.mp defined
    obtain ⟨first, one, left, length⟩ := length_wideChar 65 [.int 16 66, .int 16 67, .int 16 68]
    obtain ⟨second, two, left', length'⟩ := length_wideChar 66 [.int 16 67, .int 16 68]
    obtain ⟨third, three, left'', length''⟩ := length_wideChar 67 [.int 16 68]
    obtain ⟨fourth, four, -, last⟩ := length_wideChar 68 []
    have fits := countable (((((⟨[], [], fourth.args⟩ : Output).after fourth).after third).after
      second).after first) (by
        simp only [output, one, left, two, left', three, left'', four, bind, Except.bind, pure,
          Except.pure])
    simp only [Output.after, List.length_append, length, length', length'', last,
      List.length_nil] at fits
    exact absurd fits (by decide)

end Nanoprintf
