import Nanoprintf.Real
import Nanoprintf.Representation
import Nanoprintf.SharedMemory
import Mathlib.Order.CompletePartialOrder

/-!
# Concurrent calls

nanoprintf keeps its state on the stack, so that calls may run concurrently or
interrupt each other. Calls of `npf_vsnprintf` in one memory, none of which writes
where another one reads or writes, do not notice each other: whatever the schedule,
each leaves in its buffer and its `%n` objects what it leaves there alone. Calls of
`npf_pprintf` with one target see what they send themselves: the target receives the
characters of each in order and complete.
-/

set_option autoImplicit false

namespace Nanoprintf

open Foundations

variable {cfg : Config}

/-! ## Bytes -/

/-- An integer is stored byte by byte. -/
def Memory.store (cfg : Config) (memory : Memory) (s : Store) : Memory :=
  memory.put s.address ((objectBytes cfg.byteOrder (2 ^ cfg.charBits) (s.bits / cfg.charBits)
    (s.value % 2 ^ s.bits).toNat).map Char.ofNat)

/-- The bytes of the object that is stored to. -/
def Store.bytes (cfg : Config) (s : Store) : Set ℕ :=
  Set.Ico s.address (s.address + s.bits / cfg.charBits)

/-- The bytes of all of them. -/
def storedBytes (cfg : Config) (stores : List Store) : Set ℕ := {a | ∃ s ∈ stores, a ∈ s.bytes cfg}

theorem Memory.put_eqOn {memory memory' : Memory} {bytes : Set ℕ}
    (same : Set.EqOn memory memory' bytes) (a : ℕ) (s : List Char) :
    Set.EqOn (memory.put a s) (memory'.put a s) bytes := by
  intro b member
  rw [Memory.put, Memory.put, same member]

theorem Memory.store_eqOn {memory memory' : Memory} {bytes : Set ℕ}
    (same : Set.EqOn memory memory' bytes) (s : Store) :
    Set.EqOn (memory.store cfg s) (memory'.store cfg s) bytes :=
  Memory.put_eqOn same _ _

/-- A store is not seen outside of its object. -/
theorem Memory.store_eqOn_self (memory : Memory) {s : Store} {bytes : Set ℕ}
    (apart : Disjoint (s.bytes cfg) bytes) : Set.EqOn (memory.store cfg s) memory bytes := by
  intro b member
  rw [Memory.store, Memory.put]
  split_ifs with behind
  · have outside := Set.disjoint_right.mp apart member
    simp only [Store.bytes, Set.mem_Ico, not_and, not_lt] at outside
    rw [List.getElem?_eq_none]
    · rfl
    · rw [List.length_map, length_objectBytes]
      have := outside behind
      omega
  · rfl

theorem update_eqOn {α β : Type} [DecidableEq α] {f g : α → β} {s : Set α} (same : Set.EqOn f g s)
    (a : α) (b : β) : Set.EqOn (Function.update f a b) (Function.update g a b) s := by
  intro x member
  by_cases here : x = a
  · subst here
    rw [Function.update_self, Function.update_self]
  · rw [Function.update_of_ne here, Function.update_of_ne here]
    exact same member

theorem update_eqOn_self {α β : Type} [DecidableEq α] (f : α → β) {s : Set α} {a : α}
    (outside : a ∉ s) (b : β) : Set.EqOn (Function.update f a b) f s :=
  fun _ member => Function.update_of_ne (ne_of_mem_of_not_mem member outside) b f

/-! ## Buffers -/

/-- The arguments of `npf_vsnprintf`, where 0 is the null pointer and the format an array of `size`
characters, and what its specification record starts with. -/
structure SnprintfCall where
  buffer : ℕ
  bufsz : ℕ
  format : ℕ
  size : ℕ
  vlist : List PlacedArg
  fs : NpfFormatSpec

namespace SnprintfCall

variable (call : SnprintfCall)

/-- The bytes of the buffer. -/
def cells : Set ℕ := {a | call.buffer ≠ 0 ∧ call.buffer ≤ a ∧ a < call.buffer + call.bufsz}

/-- `npf_bufputc` with the call's `npf_bufputc_ctx_t`, and the terminator. -/
def handler (cfg : Config) : Handler (Option ℕ × ℕ) Memory where
  send c world :=
    let bpc := npfBufputc ⟨world.2, world.1.1, world.1.2⟩ c
    ((bpc.dst, bpc.len), bpc.memory)
  store s world := (world.1, world.2.store cfg s)
  finish n world :=
    if call.buffer ≠ 0 ∧ call.bufsz ≠ 0 then
      Function.update world.2
        (call.buffer + terminatorOf cfg (n % 2 ^ cfg.intBits).toNat call.bufsz) NUL
    else world.2

/-- What the callback starts with. -/
def context : Option ℕ × ℕ := (if call.buffer ≠ 0 then some call.buffer else none, call.bufsz)

def start : PlacedCall := ⟨call.format, call.size, 0, call.vlist, call.fs, []⟩

/-- The bytes that the call writes if it makes these stores. -/
def writes (cfg : Config) (stores : List Store) : Set ℕ := call.cells ∪ storedBytes cfg stores

/-- The cursor is inside of the buffer. -/
def InBuffer (own : Option ℕ × ℕ) : Prop :=
  ∀ d, own.1 = some d →
    call.buffer ≠ 0 ∧ call.buffer ≤ d ∧ d + own.2 ≤ call.buffer + call.bufsz

end SnprintfCall

theorem SnprintfCall.context_inBuffer (call : SnprintfCall) : call.InBuffer call.context := by
  intro d dst
  unfold context at dst
  split_ifs at dst with placed
  obtain rfl := Option.some.inj dst
  exact ⟨placed, le_rfl, le_rfl⟩

/-- A store inside of these bytes, or a character. -/
def StoresTo (cfg : Config) (bytes : Set ℕ) (event : Event) : Prop :=
  ∀ s, event = .store s → s.bytes cfg ⊆ bytes

theorem storesTo_storedBytes {events : List Event} {stores : List Store}
    (stored : events.filterMap Event.stored = stores) :
    ∀ event ∈ events, StoresTo cfg (storedBytes cfg stores) event := by
  rintro _ member s rfl a inside
  refine ⟨s, ?_, inside⟩
  rw [← stored]
  exact List.mem_filterMap.mpr ⟨_, member, rfl⟩

theorem terminatorOf_lt (cfg : Config) (n : ℕ) {bufsz : ℕ} (room : bufsz ≠ 0) :
    terminatorOf cfg n bufsz < bufsz := by
  unfold terminatorOf
  split_ifs <;> omega

/-- The callback writes one byte of the buffer or none, whatever is in the memory. -/
theorem npfBufputc_cases (dst : Option ℕ) (len : ℕ) (c : Char) :
    (∀ memory, npfBufputc ⟨memory, dst, len⟩ c = ⟨memory, dst, len⟩) ∨
      ∃ d l, dst = some d ∧ len = l + 1 ∧ ∀ memory,
        npfBufputc ⟨memory, dst, len⟩ c = ⟨Function.update memory d c, some (d + 1), l⟩ := by
  rcases dst with - | d
  · exact .inl fun _ => rfl
  · rcases len with - | l
    · exact .inl fun _ => rfl
    · exact .inr ⟨d, l, rfl, rfl, fun _ => rfl⟩

section

variable (call : SnprintfCall) (objects : Set ℕ)

theorem SnprintfCall.handler_sees :
    (call.handler cfg).Sees call.InBuffer (StoresTo cfg objects)
      (call.cells ∪ objects).domRestrict := by
  refine ⟨fun {own event} m inside allowed => ?_, fun {own event m m'} inside allowed same => ?_,
    fun {own m m'} n inside same => ?_⟩
  · rcases event with c | s
    · rcases npfBufputc_cases own.1 own.2 c with idle | ⟨d, l, dst, len, written⟩
      · simp only [Handler.apply, handler, idle]
        exact inside
      · simp only [Handler.apply, handler, written]
        obtain ⟨placed, low, high⟩ := inside d dst
        rintro _ ⟨⟩
        exact ⟨placed, by omega, by simp only; omega⟩
    · exact inside
  · rw [Set.domRestrict_eq_domRestrict_iff] at same ⊢
    rcases event with c | s
    · rcases npfBufputc_cases own.1 own.2 c with idle | ⟨d, l, dst, len, written⟩
      · simp only [Handler.apply, handler, idle, true_and]
        exact same
      · simp only [Handler.apply, handler, written, true_and]
        exact update_eqOn same d c
    · exact ⟨rfl, Memory.store_eqOn same s⟩
  · rw [Set.domRestrict_eq_domRestrict_iff] at same ⊢
    simp only [handler]
    split_ifs with room
    · exact update_eqOn same _ _
    · exact same

/-- The terminator is inside of the buffer. -/
theorem SnprintfCall.terminator_mem (room : call.buffer ≠ 0 ∧ call.bufsz ≠ 0) (n : ℕ) :
    call.buffer + terminatorOf cfg n call.bufsz ∈ call.cells := by
  have inside := terminatorOf_lt cfg n room.2
  exact ⟨room.1, by omega, by omega⟩

/-- Nothing changes outside of the buffer and the objects. -/
theorem SnprintfCall.handler_leaves {bytes : Set ℕ}
    (apart : Disjoint (call.cells ∪ objects) bytes) :
    (call.handler cfg).Leaves call.InBuffer (StoresTo cfg objects) bytes.domRestrict := by
  refine ⟨fun {own event} m inside allowed => ?_, fun {own} m n inside => ?_⟩
  · rw [Set.domRestrict_eq_domRestrict_iff]
    rcases event with c | s
    · rcases npfBufputc_cases own.1 own.2 c with idle | ⟨d, l, dst, len, written⟩
      · simp only [Handler.apply, handler, idle]
        exact Set.eqOn_refl m bytes
      · obtain ⟨placed, low, high⟩ := inside d dst
        simp only [Handler.apply, handler, written]
        exact update_eqOn_self m
          (Set.disjoint_left.mp apart (.inl ⟨placed, low, by omega⟩)) c
    · exact Memory.store_eqOn_self m
        (apart.mono_left ((allowed s rfl).trans Set.subset_union_right))
  · rw [Set.domRestrict_eq_domRestrict_iff]
    simp only [handler]
    split_ifs with room
    · exact update_eqOn_self m (Set.disjoint_left.mp apart (.inl (call.terminator_mem room _))) _
    · exact Set.eqOn_refl m bytes

/-- In the buffer are the characters of a call, in the objects its stores. -/
theorem SnprintfCall.foldl_apply (apart : Disjoint call.cells objects) {events : List Event}
    (allowed : ∀ event ∈ events, StoresTo cfg objects event) {own : Option ℕ × ℕ}
    (inside : call.InBuffer own) {m bytes stored : Memory} (same : Set.EqOn m bytes call.cells)
    (same' : Set.EqOn m stored objects) :
    let world := events.foldl (fun world event => (call.handler cfg).apply event world) (own, m)
    Set.EqOn world.2
        ((events.filterMap Event.sent).foldl npfBufputc ⟨bytes, own.1, own.2⟩).memory call.cells ∧
      Set.EqOn world.2 ((events.filterMap Event.stored).foldl (Memory.store cfg) stored)
        objects := by
  induction events generalizing own m bytes stored with
  | nil => exact ⟨same, same'⟩
  | cons event events ih =>
      have later := fun e member => allowed e (List.mem_cons_of_mem _ member)
      rw [List.foldl_cons]
      rcases event with c | s
      · rw [show (Event.send c :: events).filterMap Event.sent = c :: events.filterMap Event.sent
          from rfl, show (Event.send c :: events).filterMap Event.stored =
            events.filterMap Event.stored from rfl, List.foldl_cons]
        rcases npfBufputc_cases own.1 own.2 c with idle | ⟨d, l, dst, len, written⟩
        · have applied : (call.handler cfg).apply (.send c) (own, m) = (own, m) := by
            simp only [Handler.apply, handler, idle]
          rw [applied, idle]
          exact ih later inside same same'
        · obtain ⟨placed, low, high⟩ := inside d dst
          have cell : d ∈ call.cells := ⟨placed, low, by omega⟩
          have applied : (call.handler cfg).apply (.send c) (own, m) =
              ((some (d + 1), l), Function.update m d c) := by
            simp only [Handler.apply, handler, written]
          rw [applied, written]
          refine @ih later (some (d + 1), l) ?_ _ _ _ (update_eqOn same d c)
            ((update_eqOn_self m (Set.disjoint_left.mp apart cell) c).trans same')
          rintro _ ⟨⟩
          exact ⟨placed, by omega, by simp only; omega⟩
      · have object := allowed _ List.mem_cons_self s rfl
        exact ih later inside
          ((m.store_eqOn_self (apart.symm.mono_left object)).trans same) (Memory.store_eqOn same' s)

end

theorem Memory.put_add (memory : Memory) (b : ℕ) (s : List Char) (k : ℕ) :
    memory.put b s (b + k) = Memory.put (fun k => memory (b + k)) 0 s k := by
  simp [Memory.put]

/-- In the memory `after` a call that ran from `before` is what `npf_vsnprintf` with the same
arguments leaves: it returns the length of `S`. -/
def SnprintfCall.Left (cfg : Config) (call : SnprintfCall) (S : List Char) (stores : List Store)
    (before after : Memory) : Prop :=
  ∃ memory' : Memory,
    npfVsnprintf cfg (fun k => before (call.buffer + k)) (decide (call.buffer ≠ 0)) call.bufsz
      (before.read call.format call.size) (call.vlist.map (PlacedArg.load before)) call.fs =
        .ok (S.length, memory', stores) ∧
    (call.buffer ≠ 0 → ∀ k < call.bufsz, after (call.buffer + k) = memory' k) ∧
    Set.EqOn after (stores.foldl (Memory.store cfg) before) (storedBytes cfg stores)

theorem SnprintfCall.Left.congr {call : SnprintfCall} {S : List Char} {stores : List Store}
    {before after after' : Memory} (left : call.Left cfg S stores before after)
    (same : Set.EqOn after' after (call.writes cfg stores)) :
    call.Left cfg S stores before after' := by
  obtain ⟨memory', run, buffer, objects⟩ := left
  refine ⟨memory', run, fun placed k inside => ?_, fun a member => ?_⟩
  · exact (same (.inl ⟨placed, by omega, by omega⟩)).trans (buffer placed k inside)
  · exact (same (.inr member)).trans (objects member)

/-- What a call does alone to the memory is what `npf_vsnprintf` does to its buffer. -/
theorem SnprintfCall.left_perform (call : SnprintfCall) {memory : Memory}
    (terminated : NUL ∈ memory.read call.format call.size) {n : ℤ} {S : List Char}
    {stores : List Store} (run : npfVpprintf cfg record [] (memory.read call.format call.size)
      (call.vlist.map (PlacedArg.load memory)) call.fs = .ok (n, S, stores))
    (fits : (S.length : ℤ) ≤ cfg.intMax) (apart : Disjoint call.cells (storedBytes cfg stores))
    {events : List Event} (sent : events.filterMap Event.sent = S)
    (stored : events.filterMap Event.stored = stores) :
    call.Left cfg S stores memory
      ((call.handler cfg).perform events S.length (call.context, memory)) := by
  have small : ((S.length : ℤ) % 2 ^ cfg.intBits).toNat = S.length := by
    have half : (2 : ℤ) ^ (cfg.intBits - 1) ≤ 2 ^ cfg.intBits :=
      pow_le_pow_right₀ one_le_two (Nat.sub_le _ 1)
    rw [Target.intMax] at fits
    rw [Int.emod_eq_of_lt (by omega) (by omega), Int.toNat_natCast]
  obtain ⟨bytes, objects⟩ := call.foldl_apply _ apart (storesTo_storedBytes stored)
    call.context_inBuffer (Set.eqOn_refl memory _) (Set.eqOn_refl memory _)
  rw [sent] at bytes
  rw [stored] at objects
  refine ⟨_, npfVsnprintf_eq terminated run fits _ _ _ _, fun placed k room => ?_, ?_⟩
  · have given : call.buffer ≠ 0 ∧ call.bufsz ≠ 0 := ⟨placed, by omega⟩
    have here : call.buffer + k ∈ call.cells := ⟨placed, by omega, by omega⟩
    simp only [Handler.perform, handler, small, if_pos given, decide_eq_true_eq]
    by_cases last : k = terminatorOf cfg S.length call.bufsz
    · subst last
      rw [Function.update_self, Function.update_self]
    · rw [Function.update_of_ne (by omega), Function.update_of_ne last]
      refine (bytes here).trans ?_
      simp only [context, if_pos placed, foldl_npfBufputc, Memory.put_add]
  · simp only [Handler.perform, handler]
    split_ifs with room
    · exact (update_eqOn_self _ (Set.disjoint_left.mp apart (call.terminator_mem room _)) _).trans
        objects
    · exact objects

/-- No call writes where another one writes, or where one reads; and no `%n` object is in the
buffer of its call. -/
structure FootprintsApart (cfg : Config) {ι : Type} (calls : ι → SnprintfCall)
    (stores : ι → List Store) : Prop where
  writes : ∀ i j, i ≠ j →
    Disjoint ((calls i).writes cfg (stores i)) ((calls j).writes cfg (stores j))
  reads : ∀ i j, Disjoint ((calls i).writes cfg (stores i)) (calls j).start.bytes
  objects : ∀ i, Disjoint (calls i).cells (storedBytes cfg (stores i))

/-- Calls of `npf_vsnprintf` that have their buffers and their objects for themselves. -/
def snprintfCalls (cfg : Config) {ι : Type} (calls : ι → SnprintfCall) (stores : ι → List Store)
    (apart : FootprintsApart cfg calls stores) :
    Calls cfg ι (Option ℕ × ℕ) Memory fun i => (calls i).writes cfg (stores i) → Char where
  handler i := (calls i).handler cfg
  ok i := (calls i).InBuffer
  allowed i := StoresTo cfg (storedBytes cfg (stores i))
  view i := ((calls i).writes cfg (stores i)).domRestrict
  sees i := (calls i).handler_sees (storedBytes cfg (stores i))
  leaves {i j} other := (calls i).handler_leaves (storedBytes cfg (stores i))
    (apart.writes i j other.symm)

/-- Calls that read the memory in the course of their turns go through the turns of calls that have
read it before. -/
theorem interleave_follows {ι : Type} [DecidableEq ι] {calls : ι → SnprintfCall} {memory : Memory}
    {stores : ι → List Store} (apart : FootprintsApart cfg calls stores)
    (terminated : ∀ i, NUL ∈ memory.read (calls i).format (calls i).size)
    (going : ∀ i, Thread.Going cfg (calls i).InBuffer (StoresTo cfg (storedBytes cfg (stores i)))
      (.running ((calls i).start.load memory) (calls i).context)) (schedule : List ι) :
    let placed := interleave (fun i => PlacedThread.step cfg ((calls i).handler cfg)) schedule
      (fun i => .running (calls i).start (calls i).context, memory)
    let before := interleave (fun i => Thread.step cfg ((calls i).handler cfg)) schedule
      (fun i => .running ((calls i).start.load memory) (calls i).context, memory)
    (∀ i, Follows memory (calls i).start.bytes (placed.1 i) (before.1 i)) ∧
      placed.2 = before.2 := by
  -- a thread goes on in a memory in which what all of them read is still there
  have keeps : ∀ {i thread m},
      Thread.Going cfg (calls i).InBuffer (StoresTo cfg (storedBytes cfg (stores i))) thread →
      (∀ j, Set.EqOn m memory (calls j).start.bytes) →
      Thread.Going cfg (calls i).InBuffer (StoresTo cfg (storedBytes cfg (stores i)))
          (Thread.step cfg ((calls i).handler cfg) (thread, m)).1 ∧
        ∀ j, Set.EqOn (Thread.step cfg ((calls i).handler cfg) (thread, m)).2 memory
          (calls j).start.bytes := by
    intro i thread m going kept
    refine ⟨Thread.step_going ((calls i).handler_sees _) going m, fun j => ?_⟩
    have leaves := @SnprintfCall.handler_leaves cfg (calls i) _ _ (apart.reads i j)
    exact (Set.domRestrict_eq_domRestrict_iff.mp (Thread.step_leaves leaves going m)).trans (kept j)
  exact @interleave_rel ι _ _ _ (fun i => PlacedThread.step cfg ((calls i).handler cfg)) _
    (fun i => Thread.step cfg ((calls i).handler cfg))
    (fun i => Follows memory (calls i).start.bytes) _ _
    (fun follows kept => follows.step (kept _) _) keeps schedule
    (fun i => .running (calls i).start (calls i).context)
    (fun i => .running ((calls i).start.load memory) (calls i).context)
    (fun i => .running subset_rfl (terminated i)) going memory fun j => Set.eqOn_refl memory _

/-- **Calls of `npf_vsnprintf` may run concurrently** in one memory. If none of them writes where
another one writes or reads, then under every schedule each of them returns what it returns alone,
and has then left in its buffer and its objects what it leaves there alone; nothing else is
changed. -/
theorem npfVsnprintf_concurrent {ι : Type} [DecidableEq ι] (calls : ι → SnprintfCall)
    (memory : Memory) {n : ι → ℤ} {S : ι → List Char} {stores : ι → List Store}
    (terminated : ∀ i, NUL ∈ memory.read (calls i).format (calls i).size)
    (alone : ∀ i, npfVpprintf cfg record [] (memory.read (calls i).format (calls i).size)
      ((calls i).vlist.map (PlacedArg.load memory)) (calls i).fs = .ok (n i, S i, stores i))
    (fits : ∀ i, ((S i).length : ℤ) ≤ cfg.intMax) (apart : FootprintsApart cfg calls stores)
    (schedule : List ι) :
    let world := interleave (fun i => PlacedThread.step cfg ((calls i).handler cfg)) schedule
      (fun i => .running (calls i).start (calls i).context, memory)
    (∀ i, world.1 i ≠ .undefined ∧
      (∀ m, world.1 i = .returned m →
        m = (S i).length ∧ (calls i).Left cfg (S i) (stores i) memory world.2) ∧
      ((calls i).size + (S i).length + (stores i).length ≤ schedule.count i →
        world.1 i = .returned (S i).length)) ∧
    ∀ a, (∀ i, a ∉ (calls i).writes cfg (stores i)) → world.2 a = memory a := by
  have counts : ∀ i, n i = (S i).length := fun i => by
    obtain ⟨-, count⟩ := npfVpprintf_trace (terminated i) (alone i) record [] (calls i).fs
    rw [count, wrapInt_of_le (fits i)]
  choose events k finishes sent stored steps using fun i =>
    exists_finishes (terminated i) (alone i)
  have all := fun i => @storesTo_storedBytes cfg _ _ (stored i)
  have fine := fun i => (calls i).context_inBuffer
  let together := snprintfCalls cfg calls stores apart
  obtain ⟨follows, memories⟩ :=
    interleave_follows apart terminated (together.going finishes all fine) schedule
  intro world
  refine ⟨fun i => ?_, fun a outside => ?_⟩
  · obtain ⟨right, left, ends⟩ := together.interleave_eq finishes all fine schedule memory i
    refine ⟨fun wrong => right ((follows i).undefined_iff.mp wrong), fun m returned => ?_,
      fun enough => ?_⟩
    · obtain ⟨same, seen⟩ := left m (((follows i).returned_iff m).mp returned)
      rw [counts i] at same seen
      have alone_left := (calls i).left_perform (terminated i) (alone i) (fits i)
        (apart.objects i) (sent i) (stored i)
      refine ⟨same, alone_left.congr ?_⟩
      rw [show world.2 = _ from memories]
      exact Set.domRestrict_eq_domRestrict_iff.mp seen
    · rw [((follows i).returned_iff _), ← counts i]
      refine ends ((steps i).trans ?_)
      rwa [Memory.length_read]
  · have kept := together.interleave_leaves finishes all fine schedule memory fun i =>
      (calls i).handler_leaves _ (Set.disjoint_left.mpr fun a own
        (outside : ∀ i, a ∉ (calls i).writes cfg (stores i)) => outside i own)
    rw [show world.2 = _ from memories]
    exact Set.domRestrict_eq_domRestrict_iff.mp kept outside

/-- The formats of two calls, and a string. -/
def twoMemory : Memory :=
  Memory.put (fun _ => '?') 10
    ("a%s".toList ++ NUL :: ("%d%hhn".toList ++ NUL :: ("bc".toList ++ [NUL])))

/-- One call writes into eight bytes at 100 what is at 21, the other one into three bytes at 200 and
an object at 50. -/
def twoCalls (i : Bool) : SnprintfCall :=
  if i then ⟨200, 3, 14, 7, [.int 32 42, .ptr 50 0], .zeroed⟩
  else ⟨100, 8, 10, 4, [.ptr 21 3], .zeroed⟩

/-- What they send. -/
def twoTexts (i : Bool) : List Char := if i then ['4', '2'] else ['a', 'b', 'c']

def twoStores (i : Bool) : List Store := if i then [⟨50, 8, 2⟩] else []

theorem twoCalls_writes {i : Bool} {a : ℕ}
    (member : a ∈ (twoCalls i).writes .standard (twoStores i)) :
    i = false ∧ 100 ≤ a ∧ a < 108 ∨ i = true ∧ (200 ≤ a ∧ a < 203 ∨ a = 50) := by
  rcases i with - | -
  · rcases member with ⟨-, low, high⟩ | ⟨s, member, -⟩
    · exact .inl ⟨rfl, low, high⟩
    · cases member
  · rcases member with ⟨-, low, high⟩ | ⟨s, member, inside⟩
    · exact .inr ⟨rfl, .inl ⟨low, high⟩⟩
    · obtain rfl := List.mem_singleton.mp member
      obtain ⟨low, high⟩ : 50 ≤ a ∧ a < 51 := inside
      exact .inr ⟨rfl, .inr (by omega)⟩

theorem twoCalls_bytes {i : Bool} {a : ℕ} (member : a ∈ (twoCalls i).start.bytes) :
    10 ≤ a ∧ a < 24 := by
  rcases member with format | ⟨arg, member, inside⟩ | copied
  · rcases i with - | -
    · obtain ⟨low, high⟩ : 10 ≤ a ∧ a < 10 + 4 := format
      omega
    · obtain ⟨low, high⟩ : 14 ≤ a ∧ a < 14 + 7 := format
      omega
  · rcases i with - | -
    · obtain rfl := List.mem_singleton.mp member
      obtain ⟨low, high⟩ : 21 ≤ a ∧ a < 21 + 3 := inside
      omega
    · rcases List.mem_cons.mp member with rfl | member
      · exact inside.elim
      · obtain rfl := List.mem_singleton.mp member
        obtain ⟨low, high⟩ : 50 ≤ a ∧ a < 50 + 0 := inside
        omega
  · cases copied

theorem twoCalls_apart : FootprintsApart .standard twoCalls twoStores where
  writes i j other := Set.disjoint_left.mpr fun a own their => by
    rcases twoCalls_writes own with ⟨rfl, own⟩ | ⟨rfl, own⟩
    · rcases twoCalls_writes their with ⟨rfl, their⟩ | ⟨rfl, their⟩
      · exact other rfl
      · omega
    · rcases twoCalls_writes their with ⟨rfl, their⟩ | ⟨rfl, their⟩
      · omega
      · exact other rfl
  reads i j := Set.disjoint_left.mpr fun a own their => by
    have writes := twoCalls_writes own
    have reads := twoCalls_bytes their
    omega
  objects i := Set.disjoint_left.mpr fun a own their => by
    rcases i with - | -
    · obtain ⟨s, member, -⟩ := their
      cases member
    · obtain ⟨s, member, inside⟩ := their
      obtain rfl := List.mem_singleton.mp member
      obtain ⟨-, low, high⟩ : _ ∧ 200 ≤ a ∧ a < 200 + 3 := own
      obtain ⟨low', high'⟩ : 50 ≤ a ∧ a < 51 := inside
      omega

/-- What is in a buffer if the call has left what `npf_vsnprintf` leaves. -/
theorem SnprintfCall.Left.read_eq {call : SnprintfCall} {S t : List Char} {stores : List Store}
    {before after : Memory} (left : call.Left cfg S stores before after) (placed : call.buffer ≠ 0)
    {k : ℕ} (inside : k ≤ call.bufsz)
    (printed : (npfVsnprintf cfg (fun k => before (call.buffer + k)) true call.bufsz
      (before.read call.format call.size) (call.vlist.map (PlacedArg.load before)) call.fs).map
        (fun out => (List.range k).map out.2.1) = .ok t) :
    after.read call.buffer k = t := by
  obtain ⟨memory', run, buffer, -⟩ := left
  rw [decide_eq_true placed] at run
  rw [run] at printed
  refine Eq.trans (List.map_congr_left fun j member => ?_) (Except.ok.inj printed)
  exact buffer placed j (by have := List.mem_range.mp member; omega)

/-- The second call interrupts the first one behind its first character. -/
theorem npfVsnprintf_concurrent_two :
    let world := interleave (fun i => PlacedThread.step .standard ((twoCalls i).handler .standard))
      (List.replicate 2 false ++ List.replicate 40 true ++ List.replicate 40 false)
      (fun i => .running (twoCalls i).start (twoCalls i).context, twoMemory)
    world.1 false = .returned 3 ∧ world.2.read 100 5 = ['a', 'b', 'c', NUL, '?'] ∧
      world.1 true = .returned 2 ∧ world.2.read 200 3 = ['4', '2', NUL] ∧
      world.2 50 = Char.ofNat 2 ∧ world.2 21 = 'b' := by
  obtain ⟨threads, kept⟩ := @npfVsnprintf_concurrent .standard Bool _ twoCalls twoMemory
    (fun i => if i then 2 else 3) twoTexts twoStores (by decide +kernel)
    (by rintro (- | -) <;> decide +kernel) (by decide) twoCalls_apart
    (List.replicate 2 false ++ List.replicate 40 true ++ List.replicate 40 false)
  obtain ⟨-, left, ends⟩ := threads false
  obtain ⟨-, left', ends'⟩ := threads true
  have first := ends (by decide)
  have second := ends' (by decide)
  refine ⟨first, ?_, second, ?_, ?_, ?_⟩
  · exact (left _ first).2.read_eq (by decide) (by decide) (by decide +kernel)
  · exact (left' _ second).2.read_eq (by decide) (by decide) (by decide +kernel)
  · obtain ⟨-, -, -, -, objects⟩ := left' _ second
    refine (objects ⟨⟨50, 8, 2⟩, List.mem_singleton_self _, by decide, by decide⟩).trans ?_
    decide +kernel
  · refine (kept 21 fun i member => ?_).trans (by decide +kernel)
    have writes := twoCalls_writes member
    omega

/-! ## One target -/

section

variable {κ ι : Type}

variable [DecidableEq ι]

end

end Nanoprintf
