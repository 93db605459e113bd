import Mathlib.Logic.Function.Basic
import Mathlib.Data.List.Basic
import Mathlib.Tactic

/-!
# Bounded buffers whose misuse is observable

A program that computes with an array of fixed size goes wrong in two ways: it
touches an index outside the array, or it reads a cell that nothing has written.
A buffer here is a bounded array of optional cells, and every access runs in an
exception monad, so a run that ends normally is a run in which neither happened.

The specification of a piece of a buffer is `Holds`: the cells from an index on
contain a list. The rules of this file say what each access does to it, and what
it leaves alone. `copyUp` and `copyDown` are the two loops that move a run of
cells inside one buffer; each is correct for overlapping ranges in the direction
that reads a cell before it is overwritten.
-/

set_option autoImplicit false

namespace Foundations

/-- Why a run stops before its end: an access outside its object, a read of a
cell that was never written, or a departure `e` the program itself asks for. -/
inductive Stop (ε : Type) where
  | bounds
  | unset
  | leave (e : ε)
  deriving DecidableEq, Repr

/-- An array of `cap` cells, each written or not. -/
structure Buffer (α : Type) (cap : Nat) where
  cell : Nat → Option α

namespace Buffer

variable {α ε : Type} {cap : Nat}

/-- The array before anything is written to it. -/
def blank : Buffer α cap := ⟨fun _ => none⟩

/-- Store one cell. -/
def write (b : Buffer α cap) (i : Nat) (a : α) : Except (Stop ε) (Buffer α cap) :=
  if i < cap then .ok ⟨Function.update b.cell i (some a)⟩ else .error .bounds

/-- Load one cell. -/
def read (b : Buffer α cap) (i : Nat) : Except (Stop ε) α :=
  if i < cap then
    match b.cell i with
    | some a => .ok a
    | none => .error .unset
  else .error .bounds

/-- Store the same value in `n` cells, in ascending order. -/
def fill (b : Buffer α cap) (i : Nat) (a : α) : Nat → Except (Stop ε) (Buffer α cap)
  | 0 => .ok b
  | n + 1 => do
      let b ← b.write i a
      b.fill (i + 1) a n

/-- Copy `n` cells in ascending order: `dst + i := src + i`. -/
def copyUp (b : Buffer α cap) (src dst : Nat) : Nat → Except (Stop ε) (Buffer α cap)
  | 0 => .ok b
  | n + 1 => do
      let a ← b.read src
      let b ← b.write dst a
      b.copyUp (src + 1) (dst + 1) n

/-- Copy `n` cells in descending order: `dst + n - 1 - i := src + n - 1 - i`. -/
def copyDown (b : Buffer α cap) (src dst : Nat) : Nat → Except (Stop ε) (Buffer α cap)
  | 0 => .ok b
  | n + 1 => do
      let a ← b.read (src + n)
      let b ← b.write (dst + n) a
      b.copyDown src dst n

/-! ## What a piece of a buffer contains -/

/-- The cells from `i` on contain the list. -/
def Holds (b : Buffer α cap) : Nat → List α → Prop
  | _, [] => True
  | i, a :: as => b.cell i = some a ∧ b.Holds (i + 1) as

@[simp] theorem holds_nil (b : Buffer α cap) (i : Nat) : b.Holds i [] := trivial

@[simp] theorem holds_cons (b : Buffer α cap) (i : Nat) (a : α) (as : List α) :
    b.Holds i (a :: as) ↔ b.cell i = some a ∧ b.Holds (i + 1) as := Iff.rfl

instance decidableHolds [DecidableEq α] (b : Buffer α cap) :
    (i : Nat) → (as : List α) → Decidable (b.Holds i as)
  | _, [] => isTrue trivial
  | i, _ :: as =>
    have := decidableHolds b (i + 1) as
    inferInstanceAs (Decidable (_ ∧ _))

theorem holds_append (b : Buffer α cap) (i : Nat) (as bs : List α) :
    b.Holds i (as ++ bs) ↔ b.Holds i as ∧ b.Holds (i + as.length) bs := by
  induction as generalizing i with
  | nil => simp
  | cons a as ih =>
      simp only [List.cons_append, holds_cons, ih, List.length_cons]
      rw [show i + (as.length + 1) = i + 1 + as.length by omega]
      exact and_assoc.symm

/-- A piece is determined cell by cell. -/
theorem holds_iff (b : Buffer α cap) (i : Nat) (as : List α) :
    b.Holds i as ↔ ∀ j, j < as.length → b.cell (i + j) = as[j]? := by
  induction as generalizing i with
  | nil => simp
  | cons a as ih =>
      rw [holds_cons, ih]
      constructor
      · rintro ⟨head, tail⟩ j bound
        cases j with
        | zero => simpa using head
        | succ j =>
            rw [List.getElem?_cons_succ, ← tail j (by simpa using bound)]
            congr 1
            omega
      · intro all
        refine ⟨by simpa using all 0 (by simp), fun j bound => ?_⟩
        have shifted := all (j + 1) (by simpa using bound)
        rw [List.getElem?_cons_succ] at shifted
        rw [← shifted]
        congr 1
        omega

/-- Two buffers that agree on a range hold the same piece there. -/
theorem Holds.congr {b c : Buffer α cap} {i : Nat} {as : List α} (holds : b.Holds i as)
    (same : ∀ j, i ≤ j → j < i + as.length → c.cell j = b.cell j) : c.Holds i as := by
  rw [holds_iff] at holds ⊢
  intro j bound
  rw [same (i + j) (by omega) (by omega), holds j bound]

theorem Holds.take {b : Buffer α cap} {i : Nat} {as : List α} (holds : b.Holds i as) (n : Nat) :
    b.Holds i (as.take n) := by
  have split := (holds_append b i (as.take n) (as.drop n)).mp (by rwa [List.take_append_drop])
  exact split.1

theorem Holds.drop {b : Buffer α cap} {i : Nat} {as : List α} (holds : b.Holds i as) {n : Nat}
    (bound : n ≤ as.length) : b.Holds (i + n) (as.drop n) := by
  have split := (holds_append b i (as.take n) (as.drop n)).mp (by rwa [List.take_append_drop])
  rw [List.length_take, min_eq_left bound] at split
  exact split.2

/-- A buffer holds one list of a given length at an index. -/
theorem Holds.unique {b : Buffer α cap} {i : Nat} {as bs : List α} (first : b.Holds i as)
    (second : b.Holds i bs) (same : as.length = bs.length) : as = bs := by
  rw [holds_iff] at first second
  apply List.ext_getElem?
  intro j
  by_cases bound : j < as.length
  · rw [← first j bound, second j (same ▸ bound)]
  · rw [List.getElem?_eq_none (by omega), List.getElem?_eq_none (by omega)]

/-! ## Rules for the accesses -/

theorem read_eq {b : Buffer α cap} {i : Nat} {a : α} (inside : i < cap)
    (stored : b.cell i = some a) : b.read (ε := ε) i = .ok a := by
  simp [read, inside, stored]

theorem write_eq (b : Buffer α cap) {i : Nat} (a : α) (inside : i < cap) :
    b.write (ε := ε) i a = .ok ⟨Function.update b.cell i (some a)⟩ := by
  simp [write, inside]

/-- A piece away from the stored cell is kept. -/
theorem Holds.update {b : Buffer α cap} {i k : Nat} {as : List α} (holds : b.Holds i as)
    (a : α) (apart : k < i ∨ i + as.length ≤ k) :
    (⟨Function.update b.cell k (some a)⟩ : Buffer α cap).Holds i as := by
  refine holds.congr fun j lower upper => ?_
  exact Function.update_of_ne (by omega) _ _

/-- Storing the head of a piece whose tail is in place. -/
theorem Holds.update_cons {b : Buffer α cap} {i : Nat} {as : List α} (holds : b.Holds (i + 1) as)
    (a : α) : (⟨Function.update b.cell i (some a)⟩ : Buffer α cap).Holds i (a :: as) :=
  ⟨Function.update_self .., holds.update a (.inl (by omega))⟩

/-- Storing one cell past a piece. -/
theorem Holds.update_concat {b : Buffer α cap} {i k : Nat} {as : List α} (holds : b.Holds i as)
    (a : α) (next : k = i + as.length) :
    (⟨Function.update b.cell k (some a)⟩ : Buffer α cap).Holds i (as ++ [a]) := by
  rw [holds_append]
  refine ⟨holds.update a (.inr (by omega)), ?_, trivial⟩
  rw [← next]
  exact Function.update_self ..

/-- `fill` stores the copies and leaves every other cell. -/
theorem fill_eq (b : Buffer α cap) (i : Nat) (a : α) (n : Nat) (inside : i + n ≤ cap) :
    ∃ c : Buffer α cap, b.fill (ε := ε) i a n = .ok c ∧ c.Holds i (List.replicate n a) ∧
      ∀ j, j < i ∨ i + n ≤ j → c.cell j = b.cell j := by
  induction n generalizing b i with
  | zero => exact ⟨b, rfl, trivial, fun _ _ => rfl⟩
  | succ n ih =>
      obtain ⟨c, run, holds, frame⟩ := ih ⟨Function.update b.cell i (some a)⟩ (i + 1) (by omega)
      refine ⟨c, ?_, ⟨?_, holds⟩, fun j outside => ?_⟩
      · rw [fill, write_eq b a (by omega)]
        exact run
      · rw [frame i (.inl (by omega))]
        exact Function.update_self ..
      · rw [frame j (by omega)]
        exact Function.update_of_ne (by omega) _ _

/-- `copyUp` moves a piece towards the bottom of the buffer and leaves the cells
outside its destination. -/
theorem copyUp_eq (b : Buffer α cap) {src dst : Nat} {as : List α} (holds : b.Holds src as)
    (inside : src + as.length ≤ cap) (below : dst ≤ src) :
    ∃ c : Buffer α cap, b.copyUp (ε := ε) src dst as.length = .ok c ∧ c.Holds dst as ∧
      ∀ j, j < dst ∨ dst + as.length ≤ j → c.cell j = b.cell j := by
  induction as generalizing b src dst with
  | nil => exact ⟨b, rfl, trivial, fun _ _ => rfl⟩
  | cons a as ih =>
      rw [List.length_cons] at inside
      have tail : (⟨Function.update b.cell dst (some a)⟩ : Buffer α cap).Holds (src + 1) as :=
        holds.2.update a (.inl (by omega))
      obtain ⟨c, run, copied, frame⟩ := ih _ tail (by omega) (by omega : dst + 1 ≤ src + 1)
      refine ⟨c, ?_, ⟨?_, copied⟩, fun j outside => ?_⟩
      · rw [List.length_cons, copyUp, read_eq (by omega) holds.1]
        simp only [bind, Except.bind, write_eq b a (show dst < cap by omega)]
        exact run
      · rw [frame dst (.inl (by omega))]
        exact Function.update_self ..
      · rw [List.length_cons] at outside
        rw [frame j (by omega)]
        exact Function.update_of_ne (by omega) _ _

/-- Filling on from the end of a piece that starts at the bottom. -/
theorem Holds.fill_append {b : Buffer α cap} {as : List α} (holds : b.Holds 0 as) (a : α) (n : Nat)
    (inside : as.length + n ≤ cap) :
    ∃ c : Buffer α cap, b.fill (ε := ε) as.length a n = .ok c ∧
      c.Holds 0 (as ++ List.replicate n a) ∧ ∀ j, as.length + n ≤ j → c.cell j = b.cell j := by
  obtain ⟨c, run, filled, frame⟩ := fill_eq (ε := ε) b as.length a n inside
  refine ⟨c, run, (holds_append ..).mpr ⟨?_, by rwa [Nat.zero_add]⟩, fun j above =>
    frame j (.inr above)⟩
  exact holds.congr fun j _ bound => frame j (.inl (by omega))

/-- Copying on from the end of a piece that starts at the bottom. -/
theorem Holds.copyUp_append {b : Buffer α cap} {as bs : List α} {src : Nat} (holds : b.Holds 0 as)
    (source : b.Holds src bs) (inside : src + bs.length ≤ cap) (below : as.length ≤ src) :
    ∃ c : Buffer α cap, b.copyUp (ε := ε) src as.length bs.length = .ok c ∧
      c.Holds 0 (as ++ bs) ∧ ∀ j, as.length + bs.length ≤ j → c.cell j = b.cell j := by
  obtain ⟨c, run, copied, frame⟩ := copyUp_eq (ε := ε) b source inside below
  refine ⟨c, run, (holds_append ..).mpr ⟨?_, by rwa [Nat.zero_add]⟩, fun j above =>
    frame j (.inr above)⟩
  exact holds.congr fun j _ bound => frame j (.inl (by omega))

/-- `copyDown` moves a piece towards the top of the buffer and leaves the cells
outside its destination. -/
theorem copyDown_eq (b : Buffer α cap) {src dst : Nat} {as : List α} (holds : b.Holds src as)
    (inside : dst + as.length ≤ cap) (above : src ≤ dst) :
    ∃ c : Buffer α cap, b.copyDown (ε := ε) src dst as.length = .ok c ∧ c.Holds dst as ∧
      ∀ j, j < dst ∨ dst + as.length ≤ j → c.cell j = b.cell j := by
  induction as using List.reverseRecOn generalizing b with
  | nil => exact ⟨b, rfl, trivial, fun _ _ => rfl⟩
  | append_singleton as a ih =>
      rw [List.length_append, List.length_singleton] at inside
      obtain ⟨front, last, -⟩ := (holds_append ..).mp holds
      have kept : (⟨Function.update b.cell (dst + as.length) (some a)⟩ : Buffer α cap).Holds
          src as := front.update a (.inr (by omega))
      obtain ⟨c, run, copied, frame⟩ := ih _ kept (by omega)
      refine ⟨c, ?_, (holds_append ..).mpr ⟨copied, ?_, trivial⟩, fun j outside => ?_⟩
      · rw [List.length_append, List.length_singleton, copyDown,
          read_eq (by omega : src + as.length < cap) last]
        simp only [bind, Except.bind, write_eq b a (show dst + as.length < cap by omega)]
        exact run
      · rw [frame _ (.inr le_rfl)]
        exact Function.update_self ..
      · rw [List.length_append, List.length_singleton] at outside
        rw [frame j (by omega)]
        exact Function.update_of_ne (by omega) _ _

end Buffer

end Foundations
