import Nanoprintf.Accounting
import Nanoprintf.Foundations.Interleaving

/-!
# Calls that take turns

A call of the engine keeps its variables on its own stack. What it does that others
can see are its calls of the callback, the stores of `%n`, and what its caller does
with the result. A `Thread` is a call cut into atomic steps between which other calls
may run: a turn of the loop that decides what comes next, or one of those effects.
What the effects do is a `Handler`. `Finishes.run` says that a thread that runs alone
does what `npf_vpprintf` does.
-/

set_option autoImplicit false

namespace Nanoprintf

open Foundations

variable {cfg : Config} {π μ : Type}

/-! ## Calls -/

/-- What a call does that is seen outside. -/
inductive Event where
  | send (c : Char)
  | store (s : Store)
  deriving DecidableEq, Repr

/-- The variables of `npf_vpprintf` at the head of its loop, and what is left to do of the
last turn. -/
structure Call where
  cur : Cursor
  npfN : ℤ
  args : List Arg
  fs : NpfFormatSpec
  pending : List Event
  deriving DecidableEq

/-- A turn of the loop, none at the terminator. A `%n` stores before its padding is sent. -/
def Call.turn (cfg : Config) (call : Call) : Run (Option Call) := do
  let c ← call.cur.deref
  if c = NUL then pure none
  else
    let (fsEnd, fs) ←
      if c ≠ '%' then pure (none, call.fs) else npfParseFormatSpecEnd cfg call.cur call.fs
    match fsEnd with
    | none =>
      let cur ← call.cur.next
      pure (some ⟨cur, cfg.wrapInt (call.npfN + 1), call.args, fs, [.send c]⟩)
    | some cur =>
      let st ← formatOne cfg record ⟨[], call.npfN, call.args, [], fs⟩
      pure (some ⟨cur, st.npfN, st.args, st.fs, st.stores.map .store ++ st.ctx.map .send⟩)

/-- What a context does with the effects of a call: `own` is what the callback keeps for
itself. -/
structure Handler (π μ : Type) where
  send : Char → π × μ → π × μ
  store : Store → π × μ → π × μ
  /-- what the caller does with the result -/
  finish : ℤ → π × μ → μ

def Handler.apply (h : Handler π μ) : Event → π × μ → π × μ
  | .send c => h.send c
  | .store s => h.store s

/-- A call in progress, returned, or gone wrong. -/
inductive Thread (π : Type) where
  | running (call : Call) (own : π)
  | returned (n : ℤ)
  | undefined

/-- One atomic step. -/
def Thread.step (cfg : Config) (h : Handler π μ) : Thread π × μ → Thread π × μ
  | (.running call own, memory) =>
    match call.pending with
    | event :: rest =>
      (.running { call with pending := rest } (h.apply event (own, memory)).1,
        (h.apply event (own, memory)).2)
    | [] =>
      match call.turn cfg with
      | .error _ => (.undefined, memory)
      | .ok none => (.returned call.npfN, h.finish call.npfN (own, memory))
      | .ok (some call) => (.running call own, memory)
  | world => world

/-! ## What a call goes on to do -/

/-- The call does these effects and returns this number, in this many steps. -/
inductive Finishes (cfg : Config) : Call → List Event → ℤ → ℕ → Prop
  | stop {call : Call} (idle : call.pending = []) (last : call.turn cfg = .ok none) :
      Finishes cfg call [] call.npfN 1
  | turn {call call' : Call} {events : List Event} {n : ℤ} {k : ℕ} (idle : call.pending = [])
      (next : call.turn cfg = .ok (some call')) (rest : Finishes cfg call' events n k) :
      Finishes cfg call events n (k + 1)
  | event {call : Call} {event : Event} {pending events : List Event} {n : ℤ} {k : ℕ}
      (due : call.pending = event :: pending)
      (rest : Finishes cfg { call with pending := pending } events n k) :
      Finishes cfg call (event :: events) n (k + 1)

/-- The effects of what is left of a turn come first. -/
theorem Finishes.pending {call : Call} {events : List Event} {n : ℤ} {k : ℕ} (first : List Event)
    (rest : Finishes cfg { call with pending := [] } events n k) :
    Finishes cfg { call with pending := first } (first ++ events) n (first.length + k) := by
  induction first with
  | nil =>
      rw [List.nil_append, List.length_nil, Nat.zero_add]
      exact rest
  | cons event first ih =>
      rw [List.length_cons, Nat.add_right_comm]
      exact .event rfl ih

def Event.sent : Event → Option Char
  | send c => some c
  | store _ => none

def Event.stored : Event → Option Store
  | send _ => none
  | store s => some s

/-- The effects of a formatted piece behind `n` characters. -/
def Formatted.events (f : Formatted) (n : ℤ) : List Event :=
  f.slots.map (fun slot => .store (slot.store n)) ++ f.text.map .send

theorem Formatted.events_spec (f : Formatted) (n : ℤ) :
    (f.events n).filterMap Event.sent = f.text ∧
      (f.events n).filterMap Event.stored = f.slots.map (fun slot => slot.store n) ∧
      (f.events n).length = f.text.length + f.slots.length := by
  have sends : ∀ t : List Char, (t.map Event.send).filterMap Event.sent = t ∧
      (t.map Event.send).filterMap Event.stored = [] := fun t => by
    constructor
    · rw [List.filterMap_map]
      exact List.filterMap_some
    · rw [List.filterMap_map]
      exact List.filterMap_none t
  have stores : ∀ s : List Store, (s.map Event.store).filterMap Event.sent = [] ∧
      (s.map Event.store).filterMap Event.stored = s := fun s => by
    constructor
    · rw [List.filterMap_map]
      exact List.filterMap_none s
    · rw [List.filterMap_map]
      exact List.filterMap_some
  have split : f.events n =
      (f.slots.map fun slot => slot.store n).map Event.store ++ f.text.map Event.send := by
    rw [Formatted.events, List.map_map]
    rfl
  rw [split, List.filterMap_append, List.filterMap_append, (sends f.text).1, (sends f.text).2,
    (stores _).1, (stores _).2, List.nil_append, List.append_nil]
  exact ⟨rfl, rfl, by simp [Nat.add_comm]⟩

/-! ## Turns -/

theorem turn_literal {c : Char} {s : List Char} (char : c ≠ NUL)
    (literal : c ≠ '%' ∨ Rejected cfg (c :: s)) (member : NUL ∈ s) (n : ℤ) (args : List Arg)
    (fs : NpfFormatSpec) :
    ∃ fs', Call.turn cfg ⟨c :: s, n, args, fs, []⟩ =
      .ok (some ⟨s, cfg.wrapInt (n + 1), args, fs', [.send c]⟩) := by
  rw [Call.turn]
  simp only [Cursor.deref, Cursor.next, bind, Except.bind, if_neg char]
  by_cases percent : c ≠ '%'
  · simp only [if_pos percent, pure, Except.pure]
    exact ⟨_, rfl⟩
  · obtain rfl := not_not.mp percent
    obtain ⟨fs', run⟩ := (literal.resolve_left percent).run member fs
    simp only [if_neg percent, run]
    exact ⟨fs', rfl⟩

theorem turn_directive {d : Directive} (on : d.enabled cfg = true) (greedy : d.Greedy)
    (s : List Char) (n : ℤ) {args : List Arg} {f : Formatted}
    (run : (Piece.directive d).format cfg args = .ok f) (fs : NpfFormatSpec) :
    ∃ fs', Call.turn cfg ⟨d.text ++ s, n, args, fs, []⟩ =
      .ok (some ⟨s, cfg.wrapInt (n + f.text.length), f.args, fs', f.events n⟩) := by
  have parsed := npfParseFormatSpecEnd_text on greedy s fs
  rw [Directive.text, List.cons_append] at parsed
  have one := @formatOne_eq cfg _ record ⟨[], n, args, [], d.denote cfg fs⟩
  simp only at one
  rw [Piece.format] at run
  rw [formatted_eq on, run] at one
  obtain ⟨st, turned, progress⟩ := map_eq_ok.mp (one.trans rfl)
  have count : st.npfN = cfg.wrapInt (n + f.text.length) := congrArg Progress.npfN progress
  have left : st.args = f.args := congrArg Progress.args progress
  have text : st.ctx = f.text := by
    have sent : st.ctx = f.text.foldl record [] := congrArg Progress.ctx progress
    rw [sent, foldl_record, List.nil_append]
  have stores : st.stores = f.slots.map fun slot => slot.store n :=
    congrArg Progress.stores progress
  refine ⟨st.fs, ?_⟩
  rw [Directive.text, List.cons_append, Call.turn]
  simp only [Cursor.deref, bind, Except.bind, parsed, turned, ne_eq, not_true_eq_false, if_false,
    show ('%' : Char) ≠ NUL by decide, count, left, text, stores, Formatted.events, List.map_map]
  rfl

/-- The call returns after the output `o` behind `n` characters, with `turns` turns of the loop. -/
structure Sends (cfg : Config) (call : Call) (o : Output) (turns : ℕ) (events : List Event) :
    Prop where
  finishes : Finishes cfg call events (cfg.wrapInt (call.npfN + o.text.length))
    (o.text.length + o.marks.length + turns)
  sent : events.filterMap Event.sent = o.text
  stored : events.filterMap Event.stored =
    o.marks.map fun mark => mark.1.store (cfg.wrapInt (call.npfN + mark.2))

theorem Sends.turn {call : Call} {s : List Char} {f : Formatted} {fs : NpfFormatSpec} {o : Output}
    {turns : ℕ} {events : List Event} (idle : call.pending = [])
    (wrapped : cfg.wrapInt call.npfN = call.npfN)
    (turn : call.turn cfg = .ok (some
      ⟨s, cfg.wrapInt (call.npfN + f.text.length), f.args, fs, f.events call.npfN⟩))
    (rest : Sends cfg ⟨s, cfg.wrapInt (call.npfN + f.text.length), f.args, fs, []⟩ o turns events) :
    Sends cfg call (o.after f) (turns + 1) (f.events call.npfN ++ events) := by
  have sum : ∀ k : ℕ, cfg.wrapInt (cfg.wrapInt (call.npfN + f.text.length) + k) =
      cfg.wrapInt (call.npfN + (f.text.length + k : ℕ)) := by
    intro k
    rw [Target.wrapInt, Target.wrapInt, Target.wrapInt, Int.bmod_add_bmod]
    push_cast
    rw [add_assoc]
  obtain ⟨sends, stores, count⟩ := f.events_spec call.npfN
  obtain ⟨finishes, sent, stored⟩ := rest
  refine ⟨?_, ?_, ?_⟩
  · have steps := Finishes.turn idle turn
      (@Finishes.pending cfg ⟨s, _, f.args, fs, []⟩ _ _ _ (f.events call.npfN) finishes)
    simp only [sum] at steps
    simp only [Output.after, List.length_append, List.length_map]
    convert steps using 1
    omega
  · rw [List.filterMap_append, sends, sent]
    rfl
  · rw [List.filterMap_append, stores, stored]
    simp only [Output.after, List.map_append, List.map_map, Function.comp_def, sum, Nat.cast_zero,
      add_zero, wrapped]

/-- **A call does what its format says.** -/
theorem Scans.sends {s : List Char} {ps : List Piece} (scan : Scans cfg s ps) {n : ℤ}
    (wrapped : cfg.wrapInt n = n) {args : List Arg} {o : Output} (run : output cfg ps args = .ok o)
    (fs : NpfFormatSpec) :
    ∃ events, Sends cfg ⟨s, n, args, fs, []⟩ o (ps.length + 1) events := by
  induction scan generalizing n args o fs with
  | done junk =>
      obtain rfl := Except.ok.inj run
      have stop : Call.turn cfg ⟨NUL :: junk, n, args, fs, []⟩ = .ok none := rfl
      refine ⟨[], ?_, rfl, rfl⟩
      simp only [List.length_nil, Nat.cast_zero, add_zero, wrapped]
      exact .stop rfl stop
  | @literal c s ps char literal rest ih =>
      obtain ⟨f, one, run⟩ := bind_eq_ok.mp run
      obtain ⟨o, later, run⟩ := bind_eq_ok.mp run
      obtain rfl := Except.ok.inj run
      obtain rfl := Except.ok.inj one
      obtain ⟨fs', turn⟩ := turn_literal char literal rest.mem n args fs
      obtain ⟨events, sends⟩ := ih (wrapInt_wrapInt cfg (n + 1)) later fs'
      exact ⟨_, .turn rfl wrapped turn sends⟩
  | @directive d s ps on greedy rest ih =>
      obtain ⟨f, one, run⟩ := bind_eq_ok.mp run
      obtain ⟨o, later, run⟩ := bind_eq_ok.mp run
      obtain rfl := Except.ok.inj run
      obtain ⟨fs', turn⟩ := turn_directive on greedy s n one fs
      obtain ⟨events, sends⟩ := ih (wrapInt_wrapInt cfg (n + f.text.length)) later fs'
      exact ⟨_, .turn rfl wrapped turn sends⟩

/-- The call does what the engine does, in so many steps. -/
theorem exists_finishes {format : Cursor} (terminated : NUL ∈ format) {args : List Arg}
    {fs : NpfFormatSpec} {n : ℤ} {S : List Char} {stores : List Store}
    (run : npfVpprintf cfg record [] format args fs = .ok (n, S, stores)) :
    ∃ events k, Finishes cfg ⟨format, 0, args, fs, []⟩ events n k ∧
      events.filterMap Event.sent = S ∧ events.filterMap Event.stored = stores ∧
      k ≤ format.length + S.length + stores.length := by
  obtain ⟨ps, scan⟩ := exists_scan cfg format terminated
  rw [npfVpprintf_record scan] at run
  obtain ⟨o, out, same⟩ := map_eq_ok.mp run
  obtain ⟨rfl, rfl, rfl⟩ : _ ∧ _ ∧ _ := by simpa only [Prod.mk.injEq] using same
  obtain ⟨events, finishes, sent, stored⟩ := scan.sends Int.zero_bmod out fs
  have few := scan.length_lt
  simp only [zero_add] at finishes stored
  refine ⟨events, _, finishes, sent, stored, ?_⟩
  rw [List.length_map]
  omega

/-! ## Threads -/

/-- The effects of a call, one after the other, and what its caller does in the end. -/
def Handler.perform (h : Handler π μ) (events : List Event) (n : ℤ) (world : π × μ) : μ :=
  h.finish n (events.foldl (fun world event => h.apply event world) world)

/-- A thread that runs alone performs the effects of its call and returns. -/
theorem Finishes.run {h : Handler π μ} {call : Call} {events : List Event} {n : ℤ} {k : ℕ}
    (finishes : Finishes cfg call events n k) (own : π) (memory : μ) :
    (Thread.step cfg h)^[k] (.running call own, memory) =
      (.returned n, h.perform events n (own, memory)) := by
  induction finishes generalizing own memory with
  | @stop call idle last =>
      rw [Function.iterate_one, Thread.step]
      simp only [idle, last]
      rfl
  | @turn call call' events n k idle next rest ih =>
      rw [Function.iterate_succ_apply]
      have turned :
          Thread.step cfg h (.running call own, memory) = (.running call' own, memory) := by
        rw [Thread.step]
        simp only [idle, next]
      rw [turned, ih]
  | @event call event pending events n k due rest ih =>
      rw [Function.iterate_succ_apply]
      have done : Thread.step cfg h (.running call own, memory) =
          (.running { call with pending := pending } (h.apply event (own, memory)).1,
            (h.apply event (own, memory)).2) := by
        rw [Thread.step]
        simp only [due]
      rw [done, ih]
      rfl

theorem step_returned (h : Handler π μ) (n : ℤ) (memory : μ) (k : ℕ) :
    (Thread.step cfg h)^[k] (.returned n, memory) = (.returned n, memory) :=
  Function.iterate_fixed rfl k

/-- A thread that has returned has done the effects of its call. -/
theorem Finishes.of_returned {h : Handler π μ} {call : Call} {events : List Event} {n : ℤ} {k : ℕ}
    (finishes : Finishes cfg call events n k) {own : π} {memory memory' : μ} {steps : ℕ} {m : ℤ}
    (run : (Thread.step cfg h)^[steps] (.running call own, memory) = (.returned m, memory')) :
    m = n ∧ memory' = h.perform events n (own, memory) := by
  have later : (Thread.step cfg h)^[k + steps] (.running call own, memory) =
      (.returned m, memory') := by
    rw [Function.iterate_add_apply, run, step_returned]
  rw [Nat.add_comm, Function.iterate_add_apply, finishes.run, step_returned] at later
  obtain ⟨returned, same⟩ := Prod.mk.inj later
  exact ⟨(Thread.returned.inj returned).symm, same.symm⟩

/-- A thread that has not gone wrong: it goes on to effects that are allowed, and what it keeps
for itself is in order. -/
def Thread.Going (cfg : Config) (ok : π → Prop) (allowed : Event → Prop) : Thread π → Prop
  | running call own =>
    (∃ events n k, Finishes cfg call events n k ∧ ∀ event ∈ events, allowed event) ∧ ok own
  | returned _ => True
  | undefined => False

section

variable {ν ω : Type}

/-- The effects of a context depend on what it sees of the memory only. -/
structure Handler.Sees (h : Handler π μ) (ok : π → Prop) (allowed : Event → Prop) (view : μ → ν) :
    Prop where
  keeps : ∀ {own event} (m : μ), ok own → allowed event → ok (h.apply event (own, m)).1
  apply : ∀ {own event} {m m' : μ}, ok own → allowed event → view m = view m' →
    (h.apply event (own, m)).1 = (h.apply event (own, m')).1 ∧
      view (h.apply event (own, m)).2 = view (h.apply event (own, m')).2
  finish : ∀ {own} {m m' : μ} (n : ℤ), ok own → view m = view m' →
    view (h.finish n (own, m)) = view (h.finish n (own, m'))

/-- The effects of a context do not show in `seen`. -/
structure Handler.Leaves (h : Handler π μ) (ok : π → Prop) (allowed : Event → Prop) (seen : μ → ω) :
    Prop where
  apply : ∀ {own event} (m : μ), ok own → allowed event → seen (h.apply event (own, m)).2 = seen m
  finish : ∀ {own} (m : μ) (n : ℤ), ok own → seen (h.finish n (own, m)) = seen m

variable {h : Handler π μ} {ok : π → Prop} {allowed : Event → Prop} {view : μ → ν} {seen : μ → ω}

/-- What one step of a call in progress does. -/
theorem Finishes.step {call : Call} {events : List Event} {n : ℤ} {k : ℕ}
    (finishes : Finishes cfg call events n k) (own : π) :
    (∀ m : μ, Thread.step cfg h (.running call own, m) = (.returned n, h.finish n (own, m))) ∨
      (∃ call' k', (∀ m : μ, Thread.step cfg h (.running call own, m) = (.running call' own, m)) ∧
        Finishes cfg call' events n k') ∨
      ∃ call' event rest k', events = event :: rest ∧ Finishes cfg call' rest n k' ∧
        ∀ m : μ, Thread.step cfg h (.running call own, m) =
          (.running call' (h.apply event (own, m)).1, (h.apply event (own, m)).2) := by
  cases finishes with
  | stop idle last =>
      refine .inl fun m => ?_
      rw [Thread.step]
      simp only [idle, last]
  | @turn _ call' _ _ k idle next rest =>
      refine .inr (.inl ⟨call', k, fun m => ?_, rest⟩)
      rw [Thread.step]
      simp only [idle, next]
  | @event _ event pending events _ k due rest =>
      refine .inr (.inr ⟨_, event, events, k, rfl, rest, fun m => ?_⟩)
      rw [Thread.step]
      simp only [due]

theorem Thread.step_going (sees : h.Sees ok allowed view) {thread : Thread π}
    (going : thread.Going cfg ok allowed) (m : μ) :
    (Thread.step cfg h (thread, m)).1.Going cfg ok allowed := by
  cases thread with
  | running call own =>
      obtain ⟨⟨events, n, k, finishes, all⟩, fine⟩ := going
      rcases finishes.step own with
        stop | ⟨call', k', turn, rest⟩ | ⟨call', event, later, k', rfl, rest, effect⟩
      · rw [stop]
        trivial
      · rw [turn]
        exact ⟨⟨events, n, k', rest, all⟩, fine⟩
      · rw [effect]
        exact ⟨⟨later, n, k', rest, fun e member => all e (List.mem_cons_of_mem _ member)⟩,
          sees.keeps m fine (all event List.mem_cons_self)⟩
  | returned n => trivial
  | undefined => exact going

theorem Thread.step_sees (sees : h.Sees ok allowed view) {thread : Thread π}
    (going : thread.Going cfg ok allowed) {m m' : μ} (same : view m = view m') :
    (Thread.step cfg h (thread, m)).1 = (Thread.step cfg h (thread, m')).1 ∧
      view (Thread.step cfg h (thread, m)).2 = view (Thread.step cfg h (thread, m')).2 := by
  cases thread with
  | running call own =>
      obtain ⟨⟨events, n, k, finishes, all⟩, fine⟩ := going
      rcases finishes.step own with
        stop | ⟨call', k', turn, rest⟩ | ⟨call', event, later, k', rfl, rest, effect⟩
      · rw [stop, stop]
        exact ⟨rfl, sees.finish n fine same⟩
      · rw [turn, turn]
        exact ⟨rfl, same⟩
      · obtain ⟨own', memory⟩ := sees.apply fine (all event List.mem_cons_self) same
        rw [effect, effect, own']
        exact ⟨rfl, memory⟩
  | returned n => exact ⟨rfl, same⟩
  | undefined => exact going.elim

theorem Thread.step_leaves (leaves : h.Leaves ok allowed seen) {thread : Thread π}
    (going : thread.Going cfg ok allowed) (m : μ) :
    seen (Thread.step cfg h (thread, m)).2 = seen m := by
  cases thread with
  | running call own =>
      obtain ⟨⟨events, n, k, finishes, all⟩, fine⟩ := going
      rcases finishes.step own with
        stop | ⟨call', k', turn, rest⟩ | ⟨call', event, later, k', rfl, rest, effect⟩
      · rw [stop]
        exact leaves.finish m n fine
      · rw [turn]
      · rw [effect]
        exact leaves.apply m fine (all event List.mem_cons_self)
  | returned n => rfl
  | undefined => exact going.elim

end

/-- Calls with the contexts they are made in. -/
structure Calls (cfg : Config) (ι π μ : Type) (ν : ι → Type) where
  handler : ι → Handler π μ
  ok : ι → π → Prop
  allowed : ι → Event → Prop
  view : (i : ι) → μ → ν i
  sees : ∀ i, (handler i).Sees (ok i) (allowed i) (view i)
  leaves : ∀ {i j}, j ≠ i → (handler i).Leaves (ok i) (allowed i) (view j)

namespace Calls

variable {ι : Type} {ν : ι → Type} (calls : Calls cfg ι π μ ν)

theorem apart : Apart (fun i => Thread.step cfg (calls.handler i)) calls.view
    (fun i => Thread.Going cfg (calls.ok i) (calls.allowed i)) where
  keeps m going := Thread.step_going (calls.sees _) going m
  sees going same := Thread.step_sees (calls.sees _) going same
  leaves m going other := Thread.step_leaves (calls.leaves other) going m

section

variable [DecidableEq ι] {call : ι → Call} {own : ι → π} {events : ι → List Event} {n : ι → ℤ}
  {k : ι → ℕ} (finishes : ∀ i, Finishes cfg (call i) (events i) (n i) (k i))
  (all : ∀ i, ∀ event ∈ events i, calls.allowed i event) (fine : ∀ i, calls.ok i (own i))
  (schedule : List ι) (memory : μ)

include finishes all fine

omit [DecidableEq ι] in
theorem going (i : ι) :
    Thread.Going cfg (calls.ok i) (calls.allowed i) (.running (call i) (own i)) :=
  ⟨⟨events i, n i, k i, finishes i, all i⟩, fine i⟩

/-- **Every call does what it does alone**, whatever the schedule. -/
theorem interleave_eq (i : ι) :
    let world := interleave (fun i => Thread.step cfg (calls.handler i)) schedule
      (fun i => .running (call i) (own i), memory)
    world.1 i ≠ .undefined ∧
      (∀ m, world.1 i = .returned m → m = n i ∧ calls.view i world.2 =
        calls.view i ((calls.handler i).perform (events i) (n i) (own i, memory))) ∧
      (k i ≤ schedule.count i → world.1 i = .returned (n i)) := by
  have going := calls.going finishes all fine
  obtain ⟨alone, seen⟩ := calls.apart.interleave_eq schedule going (rfl : calls.view i memory = _)
  intro world
  refine ⟨fun wrong => ?_, fun m returned => ?_, fun enough => ?_⟩
  · have going' := calls.apart.interleave_inv schedule going memory i
    rw [show (interleave _ schedule _).1 i = .undefined from wrong] at going'
    exact going'
  · obtain ⟨same, left⟩ := (finishes i).of_returned (Prod.ext (alone.symm.trans returned) rfl)
    exact ⟨same, seen.trans (congrArg (calls.view i) left)⟩
  · obtain ⟨later, rest⟩ := Nat.exists_eq_add_of_le' enough
    rw [rest, Function.iterate_add_apply, (finishes i).run, step_returned] at alone
    exact alone

theorem interleave_leaves {ω : Type} {seen : μ → ω}
    (leaves : ∀ i, (calls.handler i).Leaves (calls.ok i) (calls.allowed i) seen) :
    seen (interleave (fun i => Thread.step cfg (calls.handler i)) schedule
      (fun i => .running (call i) (own i), memory)).2 = seen memory :=
  calls.apart.interleave_keeps (fun m going => Thread.step_leaves (leaves _) going m) schedule
    (calls.going finishes all fine) memory

end

end Calls

end Nanoprintf
