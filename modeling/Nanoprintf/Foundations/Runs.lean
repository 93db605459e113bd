import Mathlib.Tactic

/-!
# Runs that may stop

Computations in `Except`, taken apart: a sequence ends normally if and only if
its parts do, one after the other.
-/

set_option autoImplicit false

namespace Foundations

universe u v

variable {ε : Type u} {α β γ : Type v}

theorem bind_eq_ok {x : Except ε α} {f : α → Except ε β} {b : β} :
    x >>= f = .ok b ↔ ∃ a, x = .ok a ∧ f a = .ok b := by
  rcases x with e | a
  · exact ⟨nofun, nofun⟩
  · exact ⟨fun run => ⟨a, rfl, run⟩, fun ⟨_, same, run⟩ => Except.ok.inj same ▸ run⟩

theorem pure_eq_ok {a b : α} : (pure a : Except ε α) = .ok b ↔ a = b :=
  ⟨Except.ok.inj, congrArg Except.ok⟩

theorem map_eq_ok {x : Except ε α} {f : α → β} {b : β} :
    x.map f = .ok b ↔ ∃ a, x = .ok a ∧ f a = b := by
  rcases x with e | a
  · exact ⟨nofun, nofun⟩
  · exact ⟨fun run => ⟨a, rfl, Except.ok.inj run⟩,
      fun ⟨_, same, run⟩ => Except.ok.inj same ▸ run ▸ rfl⟩

/-- Two computations with one image stop alike or end alike. -/
theorem of_map_eq_map {x : Except ε α} {y : Except ε β} {f : α → γ} {g : β → γ}
    (same : x.map f = y.map g) :
    (∃ e, x = .error e ∧ y = .error e) ∨ ∃ a b, x = .ok a ∧ y = .ok b ∧ f a = g b := by
  rcases x with e | a <;> rcases y with e' | b
  · exact .inl ⟨e, rfl, congrArg Except.error (Except.error.inj same).symm⟩
  · cases same
  · cases same
  · exact .inr ⟨a, b, rfl, rfl, Except.ok.inj same⟩

end Foundations
