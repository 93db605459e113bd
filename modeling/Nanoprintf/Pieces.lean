import Nanoprintf.Directives
import Nanoprintf.ParserSpec

/-!
# Formats as lists of pieces

A format is cut into pieces, each a directive or a literal character; a `%` that
starts no directive is literal. `output` is the text of a list of pieces with the
places where `%n` looks at it. `npfVpprintf_eq` says that the engine sends this
text, character by character, whatever the callback does with it, that it counts
its length, and that it stores what `output` marks.
-/

set_option autoImplicit false

namespace Nanoprintf

open Foundations

variable {cfg : Config} {κ : Type}

/-! ## Pieces -/

inductive Piece where
  | literal (c : Char)
  | directive (d : Directive)
  deriving DecidableEq, Repr

namespace Piece

def text : Piece → List Char
  | literal c => [c]
  | directive d => d.text

/-- What a piece makes of its arguments. -/
def format (cfg : Config) : Piece → List Arg → Run Formatted
  | literal c, args => .ok ⟨[c], [], args⟩
  | directive d, args => do
    let (r, args) ← resolve cfg d args
    answer cfg r args

end Piece

/-- No directive of a build is at the start of a string. -/
def Rejected (cfg : Config) (s : List Char) : Prop :=
  ∀ (d : Directive) (rest : List Char), d.enabled cfg = true → s ≠ d.text ++ rest

/-- A string, up to its terminator, consists of pieces. -/
inductive Scans (cfg : Config) : List Char → List Piece → Prop
  | done (junk : List Char) : Scans cfg (NUL :: junk) []
  | literal {c : Char} {s : List Char} {ps : List Piece} (char : c ≠ NUL)
      (literal : c ≠ '%' ∨ Rejected cfg (c :: s)) (rest : Scans cfg s ps) :
      Scans cfg (c :: s) (.literal c :: ps)
  | directive {d : Directive} {s : List Char} {ps : List Piece} (on : d.enabled cfg = true)
      (greedy : d.Greedy) (rest : Scans cfg s ps) : Scans cfg (d.text ++ s) (.directive d :: ps)

theorem Scans.mem {s : List Char} {ps : List Piece} (scan : Scans cfg s ps) : NUL ∈ s := by
  induction scan with
  | done junk => exact List.mem_cons_self
  | literal char literal rest ih => exact List.mem_cons_of_mem _ ih
  | directive on greedy rest ih => exact List.mem_append_right _ ih

/-- Every piece has a character. -/
theorem Scans.length_lt {s : List Char} {ps : List Piece} (scan : Scans cfg s ps) :
    ps.length < s.length := by
  induction scan with
  | done junk => exact Nat.succ_pos _
  | literal char literal rest ih => simpa using ih
  | @directive d s ps on greedy rest ih =>
      rw [List.length_append, Directive.text, List.length_cons, List.length_cons]
      omega

/-- **Every terminated string consists of pieces.** -/
theorem exists_scan (cfg : Config) (s : List Char) (member : NUL ∈ s) : ∃ ps, Scans cfg s ps := by
  induction size : s.length using Nat.strong_induction_on generalizing s with
  | _ n ih =>
    match s with
    | [] => simp at member
    | c :: s =>
      by_cases last : c = NUL
      · exact ⟨[], last ▸ .done s⟩
      have later : NUL ∈ s := (List.mem_cons.mp member).resolve_left (Ne.symm last)
      rw [List.length_cons] at size
      by_cases rejected : c ≠ '%' ∨ Rejected cfg (c :: s)
      · obtain ⟨ps, rest⟩ := ih s.length (by omega) s later rfl
        exact ⟨_, .literal last rejected rest⟩
      · simp only [not_or, not_not, Rejected, not_forall] at rejected
        obtain ⟨rfl, d₀, rest₀, on₀, split₀⟩ := rejected
        rcases exists_directive cfg s later .zeroed with
          ⟨d, rest, split, on, greedy, inside⟩ | ⟨spec, run⟩
        · have shorter : s.length = d.body.length + rest.length := by
            simpa [Directive.text] using congrArg List.length split
          obtain ⟨ps, scan⟩ := ih rest.length (by omega) rest inside rfl
          rw [split]
          exact ⟨_, .directive on greedy scan⟩
        · obtain ⟨g, -, -, -, stops⟩ := npfParseFormatSpecEnd_of_text on₀ rest₀ .zeroed
          rw [← split₀, run] at stops
          exact absurd (Except.ok.inj stops) (by simp)

/-- The parser rejects what starts with no directive. -/
theorem Rejected.run {s : List Char} (rejected : Rejected cfg ('%' :: s)) (member : NUL ∈ s)
    (old : NpfFormatSpec) :
    ∃ spec, npfParseFormatSpecEnd cfg ('%' :: s) old = .ok (none, spec) := by
  rcases exists_directive cfg s member old with ⟨d, rest, split, on, -⟩ | run
  · exact absurd split (rejected d rest on)
  · exact run

/-! ## Output -/

/-- What a format emits: the characters, the objects to store to with the number
of characters before each, and the arguments that are left. -/
structure Output where
  text : List Char
  marks : List (Slot × ℕ)
  args : List Arg
  deriving DecidableEq, Repr

/-- The output behind a piece. -/
def Output.after (o : Output) (f : Formatted) : Output where
  text := f.text ++ o.text
  marks := f.slots.map (fun slot => (slot, 0)) ++
    o.marks.map fun (slot, n) => (slot, f.text.length + n)
  args := o.args

/-- The output of a list of pieces. -/
def output (cfg : Config) : List Piece → List Arg → Run Output
  | [], args => .ok ⟨[], [], args⟩
  | p :: ps, args => do
    let f ← p.format cfg args
    let o ← output cfg ps f.args
    pure (o.after f)

/-- The progress that an output makes. -/
def Progress.finish (cfg : Config) (pc : κ → Char → κ) (p : Progress κ) (o : Output) :
    Progress κ where
  ctx := o.text.foldl pc p.ctx
  npfN := cfg.wrapInt (p.npfN + o.text.length)
  args := o.args
  stores := p.stores ++ o.marks.map fun (slot, n) => slot.store (cfg.wrapInt (p.npfN + n))

/-! ## The engine -/

/-- A piece and then the rest. -/
theorem Progress.finish_after (pc : κ → Char → κ) {p : Progress κ}
    (wrapped : cfg.wrapInt p.npfN = p.npfN) (f : Formatted) (o : Output) :
    (p.after cfg pc f).finish cfg pc o = p.finish cfg pc (o.after f) := by
  have sum : ∀ n : ℕ, cfg.wrapInt (cfg.wrapInt (p.npfN + f.text.length) + n) =
      cfg.wrapInt (p.npfN + (f.text.length + n : ℕ)) := by
    intro n
    rw [Target.wrapInt, Target.wrapInt, Target.wrapInt, Int.bmod_add_bmod]
    push_cast
    rw [add_assoc]
  have stamp : ∀ slot : Slot, slot.store (cfg.wrapInt (p.npfN + (0 : ℕ))) = slot.store p.npfN := by
    intro slot
    rw [Nat.cast_zero, add_zero, wrapped]
  simp only [Progress.after, Progress.finish, Output.after, sum, List.foldl_append,
    List.length_append, List.map_append, List.map_map, List.append_assoc, Function.comp_def, stamp]

theorem wrapInt_wrapInt (cfg : Config) (n : ℤ) : cfg.wrapInt (cfg.wrapInt n) = cfg.wrapInt n :=
  Int.bmod_bmod

/-- The turn of the loop at a literal character. -/
theorem vpprintfLoop_literal (pc : κ → Char → κ) {c : Char} {s : List Char} (char : c ≠ NUL)
    (literal : c ≠ '%' ∨ Rejected cfg (c :: s)) (member : NUL ∈ s) (fuel : ℕ) (st : PrintState κ) :
    ∃ fs, vpprintfLoop cfg pc (fuel + 1) (c :: s) st = vpprintfLoop cfg pc fuel s
      { st with ctx := pc st.ctx c, npfN := cfg.wrapInt (st.npfN + 1), fs := fs } := by
  rw [vpprintfLoop]
  simp only [Cursor.deref, Cursor.next, bind, Except.bind, if_neg char]
  by_cases percent : c ≠ '%'
  · simp only [if_pos percent, pure, Except.pure]
    exact ⟨_, rfl⟩
  · obtain rfl := not_not.mp percent
    obtain ⟨fs, run⟩ := (literal.resolve_left percent).run member st.fs
    simp only [if_neg percent, run]
    exact ⟨fs, rfl⟩

/-- The turn of the loop at a directive. -/
theorem vpprintfLoop_directive (pc : κ → Char → κ) {d : Directive} (on : d.enabled cfg = true)
    (greedy : d.Greedy) (s : List Char) (fuel : ℕ) (st : PrintState κ) :
    vpprintfLoop cfg pc (fuel + 1) (d.text ++ s) st = (do
      let st ← formatOne cfg pc { st with fs := d.denote cfg st.fs }
      vpprintfLoop cfg pc fuel s st) := by
  have run := npfParseFormatSpecEnd_text on greedy s st.fs
  rw [Directive.text, List.cons_append] at run
  rw [Directive.text, List.cons_append, vpprintfLoop]
  simp only [Cursor.deref, bind, Except.bind, run, ne_eq, not_true_eq_false, if_false,
    show ('%' : Char) ≠ NUL by decide]

/-- **The loop sends the output of the pieces.** -/
theorem vpprintfLoop_eq (pc : κ → Char → κ) {s : List Char} {ps : List Piece}
    (scan : Scans cfg s ps) {fuel : ℕ} (enough : ps.length < fuel) {st : PrintState κ}
    (wrapped : cfg.wrapInt st.npfN = st.npfN) :
    (vpprintfLoop cfg pc fuel s st).map PrintState.progress =
      (output cfg ps st.args).map (st.progress.finish cfg pc) := by
  induction scan generalizing fuel st with
  | done junk =>
      obtain ⟨fuel, rfl⟩ := Nat.exists_eq_add_of_lt enough
      simp [vpprintfLoop, output, Cursor.deref, bind, Except.bind, pure, Except.pure, Except.map,
        Progress.finish, PrintState.progress, wrapped]
  | @literal c s ps char literal rest ih =>
      obtain ⟨fuel, rfl⟩ : ∃ k, fuel = k + 1 := ⟨fuel - 1, by omega⟩
      obtain ⟨fs, turn⟩ := vpprintfLoop_literal pc char literal rest.mem fuel st
      have next := @ih fuel (by simpa using enough)
        { st with ctx := pc st.ctx c, npfN := cfg.wrapInt (st.npfN + 1), fs := fs }
        (wrapInt_wrapInt cfg (st.npfN + 1))
      rw [turn, next, output, Piece.format]
      rcases run : output cfg ps st.args with e | o
      · simp only [run, bind, Except.bind, Except.map]
      · have sent : PrintState.progress { st with
            ctx := pc st.ctx c, npfN := cfg.wrapInt (st.npfN + 1), fs := fs } =
              st.progress.after cfg pc ⟨[c], [], st.args⟩ := by
          simp [PrintState.progress, Progress.after]
        simp only [run, bind, Except.bind, Except.map, pure, Except.pure, sent,
          Progress.finish_after pc (p := st.progress) wrapped]
  | @directive d s ps on greedy rest ih =>
      obtain ⟨fuel, rfl⟩ : ∃ k, fuel = k + 1 := ⟨fuel - 1, by omega⟩
      have one := @formatOne_eq cfg κ pc { st with fs := d.denote cfg st.fs }
      simp only at one
      rw [formatted_eq on] at one
      rw [vpprintfLoop_directive pc on greedy, output, Piece.format]
      rcases of_map_eq_map one with ⟨e, turn, run⟩ | ⟨st', f, turn, run, sent⟩
      · rw [turn, run]
        rfl
      · have args : st'.args = f.args := congrArg Progress.args sent
        have count : st'.npfN = cfg.wrapInt (st.npfN + f.text.length) := congrArg Progress.npfN sent
        rw [turn, run]
        simp only [bind, Except.bind]
        rw [ih (by simpa using enough) (by rw [count, wrapInt_wrapInt]), args, sent]
        rcases output cfg ps f.args with e | o
        · rfl
        · exact congrArg Except.ok (Progress.finish_after pc wrapped f o)

/-- **The engine sends the output of the format**, counts its characters, and stores what is
marked. -/
theorem npfVpprintf_eq (pc : κ → Char → κ) (ctx : κ) {format : Cursor} {ps : List Piece}
    (scan : Scans cfg format ps) (args : List Arg) (fs : NpfFormatSpec) :
    npfVpprintf cfg pc ctx format args fs = (output cfg ps args).map fun o =>
      (cfg.wrapInt o.text.length, o.text.foldl pc ctx,
        o.marks.map fun (slot, n) => slot.store (cfg.wrapInt n)) := by
  have loop := @vpprintfLoop_eq cfg κ pc _ _ scan _ scan.length_lt
    { ctx := ctx, npfN := 0, args := args, stores := [], fs := fs } Int.zero_bmod
  unfold npfVpprintf
  rcases of_map_eq_map loop with ⟨e, run, text⟩ | ⟨st, o, run, text, sent⟩
  · rw [run, text]
    rfl
  · have count := congrArg Progress.npfN sent
    have left := congrArg Progress.ctx sent
    have stores := congrArg Progress.stores sent
    simp only [PrintState.progress, Progress.finish, zero_add, List.nil_append] at count left stores
    rw [run, text]
    simp only [bind, Except.bind, pure, Except.pure, Except.map, count, left, stores]

/-! ## Traces -/

/-- The callback that records what it is sent. -/
def record (s : List Char) (c : Char) : List Char := s ++ [c]

theorem foldl_record (s t : List Char) : t.foldl record s = s ++ t := by
  induction t generalizing s with
  | nil => rw [List.foldl_nil, List.append_nil]
  | cons c t ih => rw [List.foldl_cons, ih, record, List.append_assoc, List.singleton_append]

/-- Nothing wraps in the range of an `int`. -/
theorem wrapInt_of_range {z : ℤ} (lower : -(cfg.intMax + 1) ≤ z) (upper : z ≤ cfg.intMax) :
    cfg.wrapInt z = z := by
  have bits := cfg.shortBits_ge.trans cfg.short_le_int
  have double : (2 : ℤ) ^ cfg.intBits = 2 * 2 ^ (cfg.intBits - 1) := by
    rw [← pow_succ', Nat.sub_add_cancel (by omega)]
  rw [Target.intMax] at lower upper
  rw [Target.wrapInt]
  refine Int.bmod_eq_of_le ?_ ?_
  · push_cast
    omega
  · push_cast
    omega

theorem wrapInt_of_le {n : ℕ} (fits : (n : ℤ) ≤ cfg.intMax) : cfg.wrapInt n = n := by
  have large := cfg.intMax_ge
  exact wrapInt_of_range (by omega) fits

/-- The trace of the engine is the output of the format. -/
theorem npfVpprintf_record {format : Cursor} {ps : List Piece} (scan : Scans cfg format ps)
    (args : List Arg) (fs : NpfFormatSpec) :
    npfVpprintf cfg record [] format args fs = (output cfg ps args).map fun o =>
      (cfg.wrapInt o.text.length, o.text,
        o.marks.map fun (slot, n) => slot.store (cfg.wrapInt n)) := by
  rw [npfVpprintf_eq record [] scan]
  simp only [foldl_record, List.nil_append]

/-- The trace of a format that is one directive. -/
theorem npfVpprintf_directive {d : Directive} (on : d.enabled cfg = true) (greedy : d.Greedy)
    (args : List Arg) (fs : NpfFormatSpec) :
    npfVpprintf cfg record [] (d.text ++ [NUL]) args fs =
      ((Piece.directive d).format cfg args).map fun f =>
        (cfg.wrapInt f.text.length, f.text, f.slots.map fun slot => slot.store 0) := by
  have zero : cfg.wrapInt 0 = 0 := Int.zero_bmod
  rw [npfVpprintf_record (.directive on greedy (.done [])), output]
  rcases (Piece.directive d).format cfg args with e | f
  · rfl
  · simp [output, bind, Except.bind, pure, Except.pure, Except.map, Output.after, zero]

/-- **What a callback sees is the trace**: the engine does not look at what the callback does. -/
theorem npfVpprintf_trace {format : Cursor} (terminated : NUL ∈ format) {args : List Arg}
    {fs : NpfFormatSpec} {n : ℤ} {s : List Char} {stores : List Store}
    (run : npfVpprintf cfg record [] format args fs = .ok (n, s, stores)) (pc : κ → Char → κ)
    (ctx : κ) (fs' : NpfFormatSpec) :
    npfVpprintf cfg pc ctx format args fs' = .ok (n, s.foldl pc ctx, stores) ∧
      n = cfg.wrapInt s.length := by
  obtain ⟨ps, scan⟩ := exists_scan cfg format terminated
  rw [npfVpprintf_record scan] at run
  obtain ⟨o, out, same⟩ := map_eq_ok.mp run
  obtain ⟨rfl, rfl, rfl⟩ : _ ∧ _ ∧ _ := by simpa only [Prod.mk.injEq] using same
  exact ⟨by rw [npfVpprintf_eq pc ctx scan, out]; rfl, rfl⟩

end Nanoprintf
