import Mathlib.Logic.Function.Iterate
import Mathlib.Data.List.Count
import Mathlib.Tactic

/-!
# Threads that share a memory

Threads take atomic steps in the order of a schedule. Each has a state of its own,
and sees the memory through a view. Where no step changes what another thread sees,
a thread does not notice the others: under every schedule it is where it would be
after as many steps alone.
-/

set_option autoImplicit false

namespace Foundations

variable {ι σ μ ω : Type} {ν : ι → Type}

/-- A run under a schedule, from the states of the threads and the memory. -/
def interleave [DecidableEq ι] (step : ι → σ × μ → σ × μ) :
    List ι → (ι → σ) × μ → (ι → σ) × μ
  | [], world => world
  | i :: schedule, (state, memory) =>
    interleave step schedule
      (Function.update state i (step i (state i, memory)).1, (step i (state i, memory)).2)

/-- Every thread keeps its invariant, depends on the memory that it sees only, and
changes nothing that another one sees. -/
structure Apart (step : ι → σ × μ → σ × μ) (view : (i : ι) → μ → ν i) (inv : ι → σ → Prop) :
    Prop where
  keeps : ∀ {i s} (m : μ), inv i s → inv i (step i (s, m)).1
  sees : ∀ {i s} {m m' : μ}, inv i s → view i m = view i m' →
    (step i (s, m)).1 = (step i (s, m')).1 ∧
      view i (step i (s, m)).2 = view i (step i (s, m')).2
  leaves : ∀ {i j s} (m : μ), inv i s → j ≠ i → view j (step i (s, m)).2 = view j m

section

variable [DecidableEq ι] {step : ι → σ × μ → σ × μ} {view : (i : ι) → μ → ν i}
  {inv : ι → σ → Prop}

theorem update_inv {state : ι → σ} (invs : ∀ i, inv i (state i)) {i : ι} {s : σ} (one : inv i s) :
    ∀ j, inv j (Function.update state i s j) := by
  intro j
  by_cases same : j = i
  · subst same
    rwa [Function.update_self]
  · rw [Function.update_of_ne same]
    exact invs j

theorem Apart.interleave_inv (apart : Apart step view inv) (schedule : List ι)
    {state : ι → σ} (invs : ∀ i, inv i (state i)) (memory : μ) (i : ι) :
    inv i ((interleave step schedule (state, memory)).1 i) := by
  induction schedule generalizing state memory with
  | nil => exact invs i
  | cons j schedule ih => exact ih (update_inv invs (apart.keeps memory (invs j))) _

/-- **A thread does not notice the others.** -/
theorem Apart.interleave_eq (apart : Apart step view inv) (schedule : List ι) {state : ι → σ}
    (invs : ∀ i, inv i (state i)) {memory memory' : μ} {i : ι}
    (same : view i memory = view i memory') :
    (interleave step schedule (state, memory)).1 i =
        ((step i)^[schedule.count i] (state i, memory')).1 ∧
      view i (interleave step schedule (state, memory)).2 =
        view i ((step i)^[schedule.count i] (state i, memory')).2 := by
  induction schedule generalizing state memory memory' with
  | nil => exact ⟨rfl, same⟩
  | cons j schedule ih =>
      have kept := update_inv invs (apart.keeps memory (invs j))
      rw [interleave]
      by_cases turn : j = i
      · subst turn
        obtain ⟨own, seen⟩ := apart.sees (invs j) same
        have later := ih kept seen
        rw [Function.update_self, own] at later
        rw [List.count_cons_self, Function.iterate_succ_apply]
        exact own ▸ later
      · have later := ih kept ((apart.leaves memory (invs j) (Ne.symm turn)).trans same)
        rw [Function.update_of_ne (Ne.symm turn)] at later
        rw [List.count_cons_of_ne turn]
        exact later

/-- What no step changes no run changes. -/
theorem Apart.interleave_keeps (apart : Apart step view inv) {seen : μ → ω}
    (unchanged : ∀ {i s} (m : μ), inv i s → seen (step i (s, m)).2 = seen m) (schedule : List ι)
    {state : ι → σ} (invs : ∀ i, inv i (state i)) (memory : μ) :
    seen (interleave step schedule (state, memory)).2 = seen memory := by
  induction schedule generalizing state memory with
  | nil => rfl
  | cons j schedule ih =>
      exact (ih (update_inv invs (apart.keeps memory (invs j))) _).trans
        (unchanged memory (invs j))

/-- Threads that read the memory as they go do what threads do that have read it before, as long
as no step changes what is read: `rel` says that a thread has read what the other one is going
to read, `kept` that this is still in the memory. -/
theorem interleave_rel {σ' : Type} {step' : ι → σ' × μ → σ' × μ} {rel : ι → σ → σ' → Prop}
    {inv' : ι → σ' → Prop} {kept : μ → Prop}
    (follows : ∀ {i s s' m}, rel i s s' → kept m → rel i (step i (s, m)).1 (step' i (s', m)).1 ∧
      (step i (s, m)).2 = (step' i (s', m)).2)
    (keeps : ∀ {i s' m}, inv' i s' → kept m → inv' i (step' i (s', m)).1 ∧
      kept (step' i (s', m)).2) (schedule : List ι) {state : ι → σ} {state' : ι → σ'}
    (rels : ∀ i, rel i (state i) (state' i)) (invs : ∀ i, inv' i (state' i)) {memory : μ}
    (start : kept memory) :
    (∀ i, rel i ((interleave step schedule (state, memory)).1 i)
      ((interleave step' schedule (state', memory)).1 i)) ∧
      (interleave step schedule (state, memory)).2 =
        (interleave step' schedule (state', memory)).2 := by
  induction schedule generalizing state state' memory with
  | nil => exact ⟨rels, rfl⟩
  | cons j schedule ih =>
      obtain ⟨own, same⟩ := follows (rels j) start
      obtain ⟨one, still⟩ := keeps (invs j) start
      rw [interleave, interleave, same]
      refine ih (fun i => ?_) (update_inv invs one) still
      by_cases turn : i = j
      · subst turn
        rwa [Function.update_self, Function.update_self]
      · rw [Function.update_of_ne turn, Function.update_of_ne turn]
        exact rels i

end

end Foundations
