import Nanoprintf.SnprintfSpec
import Nanoprintf.Threads
import Mathlib.Order.CompletePartialOrder

/-!
# Calls that read a shared memory

The format of a call and its strings are arrays in the memory that other calls write to.
A `PlacedCall` has their addresses: a turn of its loop reads the format and measures a
string as they are at that moment, and a character that is copied from them is read when
it is sent. As long as the bytes that a call can read stay as they are, it takes the
steps of the `Call` that has read them before (`Follows.step`).
-/

set_option autoImplicit false

namespace Nanoprintf

open Foundations

variable {cfg : Config} {π : Type}

/-! ## Arrays -/

/-- The characters of an array. -/
def Memory.read (memory : Memory) (a size : ℕ) : List Char :=
  (List.range size).map fun k => memory (a + k)

theorem Memory.length_read (memory : Memory) (a size : ℕ) : (memory.read a size).length = size := by
  rw [Memory.read, List.length_map, List.length_range]

theorem Memory.read_succ (memory : Memory) (a size : ℕ) :
    memory.read a (size + 1) = memory a :: memory.read (a + 1) size := by
  simp [Memory.read, List.range_succ_eq_map, Function.comp_def, Nat.add_comm, Nat.add_left_comm]

theorem Memory.read_congr {memory memory' : Memory} {a size : ℕ}
    (same : Set.EqOn memory memory' (Set.Ico a (a + size))) :
    memory.read a size = memory'.read a size := by
  refine List.map_congr_left fun k member => same ⟨Nat.le_add_right a k, ?_⟩
  exact Nat.add_lt_add_left (List.mem_range.mp member) a

theorem Memory.drop_read (memory : Memory) (a size k : ℕ) :
    (memory.read a size).drop k = memory.read (a + k) (size - k) := by
  induction k generalizing a size with
  | zero => rfl
  | succ k ih =>
      cases size with
      | zero => simp [Memory.read]
      | succ size =>
          rw [Memory.read_succ, List.drop_succ_cons, ih]
          congr 1 <;> omega

theorem Memory.take_read (memory : Memory) {a size k : ℕ} (inside : k ≤ size) :
    (memory.read a size).take k = memory.read a k := by
  rw [Memory.read, ← List.map_take, List.take_range, min_eq_left inside]
  rfl

/-- A cursor in an array is an address. -/
theorem Memory.read_of_suffix {memory : Memory} {a size : ℕ} {rest : List Char}
    (suffix : rest <:+ memory.read a size) :
    memory.read (a + (size - rest.length)) rest.length = rest := by
  obtain ⟨front, split⟩ := suffix
  have lengths := congrArg List.length split
  rw [List.length_append, Memory.length_read] at lengths
  have last := congrArg (List.drop front.length) split
  rw [List.drop_left, Memory.drop_read] at last
  rw [last, Memory.length_read, show size - (size - front.length) = front.length by omega]

/-! ## Placed calls -/

/-- An argument whose strings are in memory. -/
inductive PlacedArg where
  | int (bits : ℕ) (value : BitVec bits)
  /-- a pointer to an array, of which `size` characters can be read -/
  | ptr (address size : ℕ)
  | double (rep : BitVec 64)
  | longDouble (asReal : BitVec 64)
  | npfFloat (rep : BitVec 32)
  deriving DecidableEq, Repr

/-- What the engine reads through an argument. -/
def PlacedArg.load (memory : Memory) : PlacedArg → Arg
  | .int bits value => .int bits value
  | .ptr address size => .ptr address (memory.read address size)
  | .double rep => .double rep
  | .longDouble asReal => .longDouble asReal
  | .npfFloat rep => .npfFloat rep

/-- The bytes that can be read through an argument. -/
def PlacedArg.bytes : PlacedArg → Set ℕ
  | .ptr address size => Set.Ico address (address + size)
  | _ => ∅

/-- What a call does that is seen outside. -/
inductive PlacedEvent where
  | send (c : Char)
  /-- send the character at an address -/
  | copy (a : ℕ)
  | store (s : Store)
  deriving DecidableEq, Repr

def PlacedEvent.load (memory : Memory) : PlacedEvent → Event
  | .send c => .send c
  | .copy a => .send (memory a)
  | .store s => .store s

/-- The variables of `npf_vpprintf` at the head of its loop, the format at an address, and what is
left to do of the last turn. -/
structure PlacedCall where
  format : ℕ
  size : ℕ
  npfN : ℤ
  vlist : List PlacedArg
  fs : NpfFormatSpec
  pending : List PlacedEvent
  deriving DecidableEq

/-- What a conversion sends, its argument the first of these: a string is copied from memory. -/
def placedText (cfg : Config) (conv : Converted cfg) (args : List Arg) (text : List Char) :
    List PlacedEvent :=
  match conv.payload, args with
  | .string _ len, .ptr a _ :: _ =>
    let behind := blanksBehind cfg conv
    (text.take (text.length - (len + behind))).map .send ++
      (List.range len).map (fun k => .copy (a + k)) ++
      (text.drop (text.length - behind)).map .send
  | _, _ => text.map .send

/-- A turn of the loop, none at the terminator. A `%n` stores before its padding is sent. -/
def PlacedCall.turn (cfg : Config) (call : PlacedCall) (memory : Memory) :
    Run (Option PlacedCall) := do
  let cur : Cursor := memory.read call.format call.size
  let c ← cur.deref
  if c = NUL then pure none
  else
    let (fsEnd, fs) ←
      if c ≠ '%' then pure (none, call.fs) else npfParseFormatSpecEnd cfg cur call.fs
    match fsEnd with
    | none =>
      pure (some ⟨call.format + 1, call.size - 1, cfg.wrapInt (call.npfN + 1), call.vlist, fs,
        [.copy call.format]⟩)
    | some rest =>
      let (fs, args) ← starArgs cfg fs (call.vlist.map (PlacedArg.load memory))
      let (conv, stores, left) ← convert cfg (defaults cfg fs) call.npfN args
      let (specLen, text) ← emit cfg record conv []
      pure (some ⟨call.format + (call.size - rest.length), rest.length,
        cfg.wrapInt (call.npfN + specLen), call.vlist.drop (call.vlist.length - left.length),
        conv.fs, stores.map .store ++ placedText cfg conv args text⟩)

namespace PlacedCall

/-- The call that has read all it is going to read. -/
def load (memory : Memory) (call : PlacedCall) : Call :=
  ⟨memory.read call.format call.size, call.npfN, call.vlist.map (PlacedArg.load memory), call.fs,
    call.pending.map (PlacedEvent.load memory)⟩

/-- The bytes that a call can read: its format, its strings, and what is left to copy. -/
def bytes (call : PlacedCall) : Set ℕ :=
  {b | b ∈ Set.Ico call.format (call.format + call.size) ∨ (∃ arg ∈ call.vlist, b ∈ arg.bytes) ∨
    .copy b ∈ call.pending}

end PlacedCall

/-! ## What is read -/

theorem PlacedArg.load_congr {memory memory' : Memory} {arg : PlacedArg}
    (same : Set.EqOn memory memory' arg.bytes) : arg.load memory = arg.load memory' := by
  cases arg with
  | ptr address size => exact congrArg (Arg.ptr address) (Memory.read_congr same)
  | int bits value => rfl
  | double rep => rfl
  | longDouble asReal => rfl
  | npfFloat rep => rfl

/-- The pointers that are read are those that were passed. -/
theorem PlacedArg.of_load_ptr {memory : Memory} {vlist : List PlacedArg} {a : ℕ} {m : List Char}
    (member : .ptr a m ∈ vlist.map (PlacedArg.load memory)) :
    ∃ size, .ptr a size ∈ vlist ∧ m = memory.read a size := by
  obtain ⟨arg, passed, same⟩ := List.mem_map.mp member
  cases arg with
  | ptr address size =>
      obtain ⟨rfl, rfl⟩ := Arg.ptr.inj same
      exact ⟨size, passed, rfl⟩
  | int bits value => cases same
  | double rep => cases same
  | longDouble asReal => cases same
  | npfFloat rep => cases same

theorem PlacedCall.load_congr {memory memory' : Memory} {call : PlacedCall}
    (same : Set.EqOn memory memory' call.bytes) : call.load memory = call.load memory' := by
  have format : memory.read call.format call.size = memory'.read call.format call.size :=
    Memory.read_congr fun b inside => same (.inl inside)
  have args : call.vlist.map (PlacedArg.load memory) = call.vlist.map (PlacedArg.load memory') :=
    List.map_congr_left fun arg member =>
      PlacedArg.load_congr fun b inside => same (.inr (.inl ⟨arg, member, inside⟩))
  have events : call.pending.map (PlacedEvent.load memory) =
      call.pending.map (PlacedEvent.load memory') := by
    refine List.map_congr_left fun event member => ?_
    cases event with
    | send c => rfl
    | copy a => exact congrArg Event.send (same (.inr (.inr member)))
    | store s => rfl
  rw [PlacedCall.load, PlacedCall.load, format, args, events]

/-! ## The text of a turn -/

section

variable {fs : NpfFormatSpec} {n : ℤ} {args left : List Arg} {conv : Converted cfg}
  {stores : List Store} {specLen : ℤ} {text : List Char} {memory : Memory}

/-- What is copied and what is not is the text of the conversion. -/
theorem load_placedText (run : convert cfg fs n args = .ok (conv, stores, left))
    (sent : emit cfg record conv [] = .ok (specLen, text))
    (loaded : ∀ a m, .ptr a m ∈ args → ∃ size, m = memory.read a size) :
    (placedText cfg conv args text).map (PlacedEvent.load memory) = text.map Event.send := by
  have plain : (text.map PlacedEvent.send).map (PlacedEvent.load memory) = text.map Event.send :=
    List.map_map
  have source := convert_from run
  rw [emit_eq record (convert_valid run)] at sent
  obtain ⟨t, payload, same⟩ := map_eq_ok.mp sent
  have length := length_payloadText (convert_valid run) payload
  obtain ⟨front, split⟩ := exists_convertedText length
  have whole := congrArg Prod.snd same
  rw [foldl_record, List.nil_append, split] at whole
  rcases kind : conv.payload with ⟨buf, len⟩ | ⟨m, len⟩ | ⟨val, len⟩
  · simp only [placedText, kind, plain]
  · rw [kind] at source payload
    obtain ⟨bound, a, rest, rfl⟩ := source
    obtain ⟨size, rfl⟩ := loaded a m List.mem_cons_self
    rw [Memory.length_read] at bound
    obtain rfl := Except.ok.inj payload
    rw [Memory.take_read memory bound] at whole
    obtain rfl := whole
    have head : (front ++ memory.read a len ++ List.replicate (blanksBehind cfg conv) ' ').take
        ((front ++ memory.read a len ++ List.replicate (blanksBehind cfg conv) ' ').length -
          (len + blanksBehind cfg conv)) = front := by
      rw [List.append_assoc]
      refine List.take_left' ?_
      simp only [List.length_append, Memory.length_read, List.length_replicate]
      omega
    have tail : (front ++ memory.read a len ++ List.replicate (blanksBehind cfg conv) ' ').drop
        ((front ++ memory.read a len ++ List.replicate (blanksBehind cfg conv) ' ').length -
          blanksBehind cfg conv) = List.replicate (blanksBehind cfg conv) ' ' := by
      refine List.drop_left' ?_
      simp only [List.length_append, Memory.length_read, List.length_replicate]
      omega
    have copies : (List.range len).map (PlacedEvent.load memory ∘ fun k => .copy (a + k)) =
        (memory.read a len).map Event.send := by
      rw [Memory.read, List.map_map]
      rfl
    have sends : PlacedEvent.load memory ∘ PlacedEvent.send = Event.send := rfl
    simp only [placedText, kind, head, tail, List.map_append, List.map_map, copies, sends]
  · simp only [placedText, kind, plain]

/-- A string is copied from the array that the first argument points to. -/
theorem exists_of_copy_mem (run : convert cfg fs n args = .ok (conv, stores, left)) {b : ℕ}
    (member : .copy b ∈ placedText cfg conv args text) :
    ∃ a m, .ptr a m ∈ args ∧ b ∈ Set.Ico a (a + m.length) := by
  have source := convert_from run
  have plain : .copy b ∉ text.map PlacedEvent.send := by simp
  rcases kind : conv.payload with ⟨buf, len⟩ | ⟨m, len⟩ | ⟨val, len⟩
  · simp only [placedText, kind] at member
    exact absurd member plain
  · rw [kind] at source
    obtain ⟨bound, a, rest, rfl⟩ := source
    simp only [placedText, kind, List.mem_append, List.mem_map, List.mem_range, reduceCtorEq,
      and_false, exists_false, false_or, or_false, PlacedEvent.copy.injEq] at member
    obtain ⟨k, inside, rfl⟩ := member
    exact ⟨a, m, List.mem_cons_self, Nat.le_add_right a k, by omega⟩
  · simp only [placedText, kind] at member
    exact absurd member plain

end

/-! ## Turns -/

/-- A turn of a placed call is that of the call that has read before, and reads no other bytes
later on. -/
structure PlacedCall.Goes (cfg : Config) (memory : Memory) (call next : PlacedCall) : Prop where
  loaded : (call.load memory).turn cfg = .ok (some (next.load memory))
  terminated : NUL ∈ memory.read next.format next.size
  reads : next.bytes ⊆ call.bytes

theorem PlacedCall.turn_literal {memory : Memory} {call : PlacedCall} {size : ℕ}
    (length : call.size = size + 1) (fs : NpfFormatSpec)
    (member : NUL ∈ memory.read (call.format + 1) size)
    (turn : (call.load memory).turn cfg = .ok (some ⟨memory.read (call.format + 1) size,
      cfg.wrapInt (call.npfN + 1), call.vlist.map (PlacedArg.load memory), fs,
      [.send (memory call.format)]⟩)) :
    call.Goes cfg memory ⟨call.format + 1, call.size - 1, cfg.wrapInt (call.npfN + 1), call.vlist,
      fs, [.copy call.format]⟩ := by
  have less : call.size - 1 = size := by omega
  rw [less]
  refine ⟨turn, member, ?_⟩
  rintro b (⟨lower, upper⟩ | passed | copied)
  · simp only at lower upper
    exact .inl ⟨by omega, by omega⟩
  · exact .inr (.inl passed)
  · obtain rfl := PlacedEvent.copy.inj (List.mem_singleton.mp copied)
    exact .inl ⟨le_rfl, by omega⟩

/-- The strings that a conversion copies are among the arguments that are loaded. -/
theorem PlacedCall.turn_converted {memory : Memory} {call : PlacedCall} {rest : List Char}
    (suffix : rest <:+ memory.read call.format call.size) (inside : NUL ∈ rest)
    {fs : NpfFormatSpec} {args left : List Arg} {conv : Converted cfg} {stores : List Store}
    {specLen : ℤ} {text : List Char}
    (conversion : convert cfg (defaults cfg fs) call.npfN args = .ok (conv, stores, left))
    (sent : emit cfg record conv [] = .ok (specLen, text))
    (passed : args <:+ call.vlist.map (PlacedArg.load memory))
    (last : left <:+ call.vlist.map (PlacedArg.load memory))
    (turn : (call.load memory).turn cfg = .ok (some ⟨rest, cfg.wrapInt (call.npfN + specLen), left,
      conv.fs, stores.map .store ++ text.map .send⟩)) :
    call.Goes cfg memory ⟨call.format + (call.size - rest.length), rest.length,
      cfg.wrapInt (call.npfN + specLen), call.vlist.drop (call.vlist.length - left.length), conv.fs,
      stores.map .store ++ placedText cfg conv args text⟩ := by
  have strings : ∀ a m, .ptr a m ∈ args → ∃ size, .ptr a size ∈ call.vlist ∧
      m = memory.read a size := fun a m member => PlacedArg.of_load_ptr (passed.subset member)
  have cursor : memory.read (call.format + (call.size - rest.length)) rest.length = rest :=
    Memory.read_of_suffix suffix
  refine ⟨?_, cursor.symm ▸ inside, ?_⟩
  · have text_eq := load_placedText conversion sent fun a m member =>
      (strings a m member).imp fun _ both => both.2
    have drop : (call.vlist.drop (call.vlist.length - left.length)).map (PlacedArg.load memory) =
        left := by
      have last := List.suffix_iff_eq_drop.mp last
      rw [List.length_map] at last
      rw [List.map_drop]
      exact last.symm
    have marks : (stores.map PlacedEvent.store).map (PlacedEvent.load memory) =
        stores.map Event.store := List.map_map
    rw [turn]
    simp only [load, cursor, drop, List.map_append, marks, text_eq]
  · rintro b (⟨lower, upper⟩ | ⟨arg, member, there⟩ | copied)
    · have shorter := suffix.length_le
      rw [Memory.length_read] at shorter
      simp only at lower upper
      exact .inl ⟨by omega, by omega⟩
    · exact .inr (.inl ⟨arg, List.mem_of_mem_drop member, there⟩)
    · have copied : .copy b ∈ placedText cfg conv args text := by simpa using copied
      obtain ⟨a, m, member, there⟩ := exists_of_copy_mem conversion copied
      obtain ⟨size, passed, rfl⟩ := strings a m member
      rw [Memory.length_read] at there
      exact .inr (.inl ⟨.ptr a size, passed, there⟩)

theorem PlacedCall.turn_directive {memory : Memory} {call : PlacedCall} {d : Directive}
    (on : d.enabled cfg = true) (greedy : d.Greedy) {rest : List Char}
    (same : memory.read call.format call.size = d.text ++ rest) (inside : NUL ∈ rest) :
    (∃ e, call.turn cfg memory = .error e ∧ (call.load memory).turn cfg = .error e) ∨
      ∃ next, call.turn cfg memory = .ok (some next) ∧ call.Goes cfg memory next := by
  have suffix : rest <:+ memory.read call.format call.size := ⟨d.text, same.symm⟩
  have parsed := npfParseFormatSpecEnd_text on greedy rest call.fs
  rw [Directive.text, List.cons_append] at parsed same
  have char : ('%' : Char) ≠ NUL := by decide
  have read : (call.load memory).turn cfg = (formatOne cfg record ⟨[], call.npfN,
      call.vlist.map (PlacedArg.load memory), [], d.denote cfg call.fs⟩).map fun st =>
        some ⟨rest, st.npfN, st.args, st.fs, st.stores.map .store ++ st.ctx.map .send⟩ := by
    simp only [Call.turn, load, same, Cursor.deref, bind, Except.bind, parsed, if_neg char, ne_eq,
      not_true_eq_false, if_false]
    rfl
  -- the two of them take the same steps up to what they send
  rw [read, formatOne]
  simp only [turn, same, Cursor.deref, bind, Except.bind, parsed, if_neg char, ne_eq,
    not_true_eq_false, if_false]
  rcases stars : starArgs cfg (d.denote cfg call.fs) (call.vlist.map (PlacedArg.load memory)) with
    e | ⟨fs, args⟩
  · exact .inl ⟨e, rfl, rfl⟩
  rcases conversion : convert cfg (defaults cfg fs) call.npfN args with e | ⟨conv, stores, left⟩
  · exact .inl ⟨e, by simp only [conversion], by simp only [conversion]; rfl⟩
  rcases sent : emit cfg record conv [] with e | ⟨specLen, text⟩
  · exact .inl ⟨e, by simp only [conversion, sent], by simp only [conversion, sent]; rfl⟩
  have one : formatOne cfg record ⟨[], call.npfN, call.vlist.map (PlacedArg.load memory), [],
      d.denote cfg call.fs⟩ =
        .ok ⟨text, cfg.wrapInt (call.npfN + specLen), left, stores, conv.fs⟩ := by
    simp only [formatOne, stars, conversion, sent, bind, Except.bind, List.nil_append]
    rfl
  have passed : args <:+ call.vlist.map (PlacedArg.load memory) := by
    rcases starArgs_stars on call.fs (call.vlist.map (PlacedArg.load memory)) with
      ⟨e, engine, -⟩ | ⟨fs', args', engine, ⟨resolved⟩⟩
    · cases stars.symm.trans engine
    · cases stars.symm.trans engine
      exact resolved.suffix
  have last : left <:+ call.vlist.map (PlacedArg.load memory) :=
    @formatOne_suffix cfg _ record _ on call.fs ⟨[], call.npfN, _, [], call.fs⟩ _ one
  rw [one] at read
  exact .inr ⟨_, by simp only [conversion, sent]; rfl,
    turn_converted suffix inside conversion sent passed last read⟩

/-- **What a turn of a placed call does.** -/
theorem PlacedCall.turn_cases {memory : Memory} {call : PlacedCall}
    (terminated : NUL ∈ memory.read call.format call.size) :
    (∃ e, call.turn cfg memory = .error e ∧ (call.load memory).turn cfg = .error e) ∨
      (call.turn cfg memory = .ok none ∧ (call.load memory).turn cfg = .ok none) ∨
      ∃ next, call.turn cfg memory = .ok (some next) ∧ call.Goes cfg memory next := by
  obtain ⟨size, length⟩ : ∃ size, call.size = size + 1 := by
    refine ⟨call.size - 1, ?_⟩
    have positive := List.length_pos_of_mem terminated
    rw [Memory.length_read] at positive
    omega
  have split : memory.read call.format call.size =
      memory call.format :: memory.read (call.format + 1) size := by
    rw [length, Memory.read_succ]
  by_cases last : memory call.format = NUL
  · refine .inr (.inl ⟨?_, ?_⟩)
    · simp only [turn, split, Cursor.deref, bind, Except.bind, if_pos last]
      rfl
    · simp only [Call.turn, load, split, Cursor.deref, bind, Except.bind, if_pos last]
      rfl
  have member : NUL ∈ memory.read (call.format + 1) size := by
    rw [split] at terminated
    exact (List.mem_cons.mp terminated).resolve_left (Ne.symm last)
  by_cases percent : memory call.format ≠ '%'
  · refine .inr (.inr ⟨_, ?_, turn_literal length call.fs member ?_⟩)
    · simp only [turn, split, Cursor.deref, bind, Except.bind, if_neg last, if_pos percent]
      rfl
    · simp only [Call.turn, load, split, Cursor.deref, Cursor.next, bind, Except.bind, if_neg last,
        if_pos percent]
      rfl
  have directive := not_not.mp percent
  rcases exists_directive cfg _ member call.fs with ⟨d, rest, same, on, greedy, inside⟩ | ⟨fs, run⟩
  · rw [← directive, ← split] at same
    exact (turn_directive on greedy same inside).imp_right .inr
  · rw [← directive] at run
    refine .inr (.inr ⟨_, ?_, turn_literal length fs member ?_⟩)
    · simp only [turn, split, Cursor.deref, bind, Except.bind, if_neg last, if_neg percent, run]
      rfl
    · simp only [Call.turn, load, split, Cursor.deref, Cursor.next, bind, Except.bind, if_neg last,
        if_neg percent, run]
      rfl

/-! ## Threads -/

/-- A placed call in progress, returned, or gone wrong. -/
inductive PlacedThread (π : Type) where
  | running (call : PlacedCall) (own : π)
  | returned (n : ℤ)
  | undefined

/-- One atomic step. -/
def PlacedThread.step (cfg : Config) (h : Handler π Memory) :
    PlacedThread π × Memory → PlacedThread π × Memory
  | (.running call own, memory) =>
    match call.pending with
    | event :: rest =>
      (.running { call with pending := rest } (h.apply (event.load memory) (own, memory)).1,
        (h.apply (event.load memory) (own, memory)).2)
    | [] =>
      match call.turn cfg memory with
      | .error _ => (.undefined, memory)
      | .ok none => (.returned call.npfN, h.finish call.npfN (own, memory))
      | .ok (some call) => (.running call own, memory)
  | world => world

/-- A thread that reads no other bytes than these does what a thread does that has read them from
the memory at the start. -/
inductive Follows (start : Memory) (bytes : Set ℕ) : PlacedThread π → Thread π → Prop
  | running {call : PlacedCall} {own : π} (reads : call.bytes ⊆ bytes)
      (terminated : NUL ∈ start.read call.format call.size) :
      Follows start bytes (.running call own) (.running (call.load start) own)
  | returned (n : ℤ) : Follows start bytes (.returned n) (.returned n)
  | undefined : Follows start bytes .undefined .undefined

/-- **A step of a placed thread** in a memory that holds what was there to read at the start. -/
theorem Follows.step {start memory : Memory} {bytes : Set ℕ} {thread : PlacedThread π}
    {thread' : Thread π} (follows : Follows start bytes thread thread')
    (kept : Set.EqOn memory start bytes) (h : Handler π Memory) :
    Follows start bytes (PlacedThread.step cfg h (thread, memory)).1
        (Thread.step cfg h (thread', memory)).1 ∧
      (PlacedThread.step cfg h (thread, memory)).2 =
        (Thread.step cfg h (thread', memory)).2 := by
  cases follows with
  | returned n => exact ⟨.returned n, rfl⟩
  | undefined => exact ⟨.undefined, rfl⟩
  | @running call own reads terminated =>
      have loaded : call.load memory = call.load start := PlacedCall.load_congr (kept.mono reads)
      rw [← loaded, PlacedThread.step, Thread.step]
      rcases due : call.pending with - | ⟨event, rest⟩
      · have idle : (call.load memory).pending = [] := by rw [PlacedCall.load, due]; rfl
        simp only [idle]
        have cursor : memory.read call.format call.size = start.read call.format call.size :=
          congrArg Call.cur loaded
        rcases @PlacedCall.turn_cases cfg memory call (cursor ▸ terminated) with
          ⟨e, turn, turn'⟩ | ⟨turn, turn'⟩ | ⟨next, turn, goes⟩
        · simp only [turn, turn']
          exact ⟨.undefined, trivial⟩
        · simp only [turn, turn']
          exact ⟨.returned _, rfl⟩
        · simp only [turn, goes.loaded]
          have reads' := goes.reads.trans reads
          have loaded' : next.load memory = next.load start :=
            PlacedCall.load_congr (kept.mono reads')
          rw [loaded']
          refine ⟨.running reads' ?_, trivial⟩
          rw [← show memory.read next.format next.size = start.read next.format next.size from
            congrArg Call.cur loaded']
          exact goes.terminated
      · have pending : (call.load memory).pending =
            event.load memory :: rest.map (PlacedEvent.load memory) := by
          rw [PlacedCall.load, due]
          rfl
        simp only [pending]
        have fewer : ({ call with pending := rest } : PlacedCall).bytes ⊆ call.bytes := by
          rintro b (format | passed | copied)
          · exact .inl format
          · exact .inr (.inl passed)
          · exact .inr (.inr (due ▸ List.mem_cons_of_mem _ copied))
        have later : ({ call with pending := rest } : PlacedCall).load memory =
            ({ call with pending := rest } : PlacedCall).load start :=
          PlacedCall.load_congr (kept.mono (fewer.trans reads))
        refine ⟨?_, trivial⟩
        rw [show ({ call.load memory with pending := rest.map (PlacedEvent.load memory) } : Call) =
          ({ call with pending := rest } : PlacedCall).load start from later]
        exact .running (fewer.trans reads) terminated

theorem Follows.returned_iff {start : Memory} {bytes : Set ℕ} {thread : PlacedThread π}
    {thread' : Thread π} (follows : Follows start bytes thread thread') (n : ℤ) :
    thread = .returned n ↔ thread' = .returned n := by
  cases follows <;> simp

theorem Follows.undefined_iff {start : Memory} {bytes : Set ℕ} {thread : PlacedThread π}
    {thread' : Thread π} (follows : Follows start bytes thread thread') :
    thread = .undefined ↔ thread' = .undefined := by
  cases follows <;> simp

end Nanoprintf
