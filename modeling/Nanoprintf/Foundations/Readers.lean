import Mathlib.Tactic

/-!
# Readers of a list

A reader takes items from the front of a list and returns the others. `Takes`
names the kinds of what it takes, and says that the others make no difference:
readers in sequence take the kinds of one and then those of the other. `Agree`
is about two readers of two lists that are related item by item: where both end
normally, their results are related and so is what they leave. `AgreeOn` is the
same for items that are related as the kind of each asks.
-/

set_option autoImplicit false

namespace Foundations

variable {ε ι κ α β : Type} {R : ι → κ → Prop} {kinds kinds' : List κ}
  {read read' : List ι → Except ε (α × List ι)}

/-- The reader ends normally only by taking items of these kinds from the front
of the list, and does not look at the others. -/
def Takes (R : ι → κ → Prop) (kinds : List κ) (read : List ι → Except ε (α × List ι)) : Prop :=
  ∀ items a rest, read items = .ok (a, rest) →
    ∃ used, List.Forall₂ R used kinds ∧ items = used ++ rest ∧
      ∀ more, read (used ++ more) = .ok (a, more)

theorem Takes.congr (takes : Takes R kinds read) (same : ∀ items, read' items = read items) :
    Takes R kinds read' :=
  (funext same : read' = read) ▸ takes

theorem Takes.pure (a : α) : Takes R [] fun items => (.ok (a, items) : Except ε (α × List ι)) := by
  intro items b rest run
  obtain ⟨rfl, rfl⟩ := Prod.mk.inj (Except.ok.inj run)
  exact ⟨[], .nil, rfl, fun _ => rfl⟩

theorem Takes.error (kinds : List κ) (e : ε) :
    Takes R kinds fun _ => (.error e : Except ε (α × List ι)) :=
  fun _ _ _ run => by cases run

theorem Takes.bind {next : α → List ι → Except ε (β × List ι)} (first : Takes R kinds read)
    (second : ∀ a, Takes R kinds' (next a)) :
    Takes R (kinds ++ kinds') fun items => read items >>= fun p => next p.1 p.2 := by
  intro items b rest run
  rcases one : read items with e | ⟨a, middle⟩
  · simp [one, Bind.bind, Except.bind] at run
  · obtain ⟨used, shape, rfl, frame⟩ := first items a middle one
    simp only [one, Bind.bind, Except.bind] at run
    obtain ⟨used', shape', rfl, frame'⟩ := second a middle b rest run
    refine ⟨used ++ used', List.rel_append shape shape', (List.append_assoc ..).symm,
      fun more => ?_⟩
    simp only [List.append_assoc, frame]
    exact frame' more

theorem Takes.map (takes : Takes R kinds read) (f : α → β) :
    Takes R kinds fun items => (read items).map (Prod.map f id) := by
  intro items b rest run
  rcases one : read items with e | ⟨a, middle⟩
  · simp [one, Except.map] at run
  · obtain ⟨used, shape, rfl, frame⟩ := takes items a middle one
    simp only [one, Except.map, Except.ok.injEq] at run
    obtain ⟨rfl, rfl⟩ := run
    exact ⟨used, shape, rfl, fun more => by simp [frame, Except.map]⟩

variable {items rest : List ι} {a : α}

theorem Takes.suffix (takes : Takes R kinds read) (run : read items = .ok (a, rest)) :
    rest <:+ items := by
  obtain ⟨used, -, rfl, -⟩ := takes items a rest run
  exact List.suffix_append used rest

/-- Items behind the list are left behind the others. -/
theorem Takes.append (takes : Takes R kinds read) (run : read items = .ok (a, rest))
    (more : List ι) : read (items ++ more) = .ok (a, rest ++ more) := by
  obtain ⟨used, -, rfl, frame⟩ := takes items a rest run
  rw [List.append_assoc]
  exact frame (rest ++ more)

/-! ## Two readers -/

section

variable {ι' γ δ : Type} {S : ι → ι' → Prop} {T : α → γ → Prop} {U : β → δ → Prop}
  {other : List ι' → Except ε (γ × List ι')}

/-- Where both readers end normally, they do so with related results. -/
def Agree (S : ι → ι' → Prop) (T : α → γ → Prop) (read : List ι → Except ε (α × List ι))
    (other : List ι' → Except ε (γ × List ι')) : Prop :=
  ∀ items items' a rest c rest', List.Forall₂ S items items' → read items = .ok (a, rest) →
    other items' = .ok (c, rest') → T a c ∧ List.Forall₂ S rest rest'

theorem Agree.congr {other' : List ι' → Except ε (γ × List ι')} (agree : Agree S T read other)
    (same : ∀ items, read' items = read items) (same' : ∀ items, other' items = other items) :
    Agree S T read' other' := by
  rw [show read' = read from funext same, show other' = other from funext same']
  exact agree

/-- What one reader always returns may be asked of it. -/
theorem Agree.and {Q : α → Prop} (agree : Agree S T read other)
    (always : ∀ items a rest, read items = .ok (a, rest) → Q a) :
    Agree S (fun a c => T a c ∧ Q a) read other := by
  intro items items' a rest c rest' related run run'
  obtain ⟨alike, left⟩ := agree items items' a rest c rest' related run run'
  exact ⟨⟨alike, always items a rest run⟩, left⟩

theorem Agree.bind {next : α → List ι → Except ε (β × List ι)}
    {next' : γ → List ι' → Except ε (δ × List ι')} (first : Agree S T read other)
    (second : ∀ a c, T a c → Agree S U (next a) (next' c)) :
    Agree S U (fun items => read items >>= fun p => next p.1 p.2)
      (fun items => other items >>= fun p => next' p.1 p.2) := by
  intro items items' b rest d rest' related run run'
  rcases one : read items with e | ⟨a, middle⟩
  · simp [one, Bind.bind, Except.bind] at run
  rcases one' : other items' with e | ⟨c, middle'⟩
  · simp [one', Bind.bind, Except.bind] at run'
  simp only [one, Bind.bind, Except.bind] at run
  simp only [one', Bind.bind, Except.bind] at run'
  obtain ⟨alike, left⟩ := first items items' a middle c middle' related one one'
  exact second a c alike middle middle' b rest d rest' left run run'

theorem eq_of_forall₂ {S : ι → ι → Prop} {used used' : List ι}
    (same : ∀ k ∈ kinds, ∀ i j, R i k → R j k → S i j → i = j) (shape : List.Forall₂ R used kinds)
    (shape' : List.Forall₂ R used' kinds) (related : List.Forall₂ S used used') : used = used' := by
  induction shape generalizing used' with
  | nil => exact (List.forall₂_nil_left_iff.mp related).symm
  | cons one shape ih =>
      obtain ⟨j, js, alike, others, rfl⟩ := List.forall₂_cons_left_iff.mp related
      obtain ⟨one', shape'⟩ := List.forall₂_cons.mp shape'
      rw [same _ List.mem_cons_self _ _ one one' alike,
        ih (fun k member => same k (List.mem_cons_of_mem _ member)) shape' others]

/-- A reader agrees with itself on items that are the same if they are of its kinds. -/
theorem Takes.agree {S : ι → ι → Prop} (takes : Takes R kinds read)
    (same : ∀ k ∈ kinds, ∀ i j, R i k → R j k → S i j → i = j) : Agree S Eq read read := by
  intro items items' a rest c rest' related run run'
  obtain ⟨used, shape, rfl, frame⟩ := takes items a rest run
  obtain ⟨used', shape', rfl, -⟩ := takes items' c rest' run'
  have lengths : used.length = used'.length := shape.length_eq.trans shape'.length_eq.symm
  have first := List.forall₂_take used.length related
  have others := List.forall₂_drop used.length related
  rw [List.take_left, lengths, List.take_left] at first
  rw [List.drop_left, lengths, List.drop_left] at others
  obtain rfl := eq_of_forall₂ same shape shape' first
  rw [frame] at run'
  exact ⟨(Prod.mk.inj (Except.ok.inj run')).1, others⟩

end

/-! ## Two readers of items that are related by kind -/

theorem exists_append_of_forall₂ {items : List ι} (shape : List.Forall₂ R items (kinds ++ kinds')) :
    ∃ taken left, items = taken ++ left ∧ List.Forall₂ R taken kinds ∧
      List.Forall₂ R left kinds' :=
  ⟨_, _, (List.take_append_drop ..).symm, List.forall₂_take_append _ _ _ shape,
    List.forall₂_drop_append _ _ _ shape⟩

section

variable {ι' γ δ : Type} {S : κ → ι → ι' → Prop} {T : α → γ → Prop} {U : β → δ → Prop}
  {other other' : List ι' → Except ε (γ × List ι')}

/-- Where both readers end normally with items in front that are related as their kinds ask,
they take these and no others, and their results are related. -/
def AgreeOn (S : κ → ι → ι' → Prop) (kinds : List κ) (T : α → γ → Prop)
    (read : List ι → Except ε (α × List ι)) (other : List ι' → Except ε (γ × List ι')) : Prop :=
  ∀ (pairs : List (ι × ι')) more more' a rest c rest',
    List.Forall₂ (fun p k => S k p.1 p.2) pairs kinds →
    read (pairs.map Prod.fst ++ more) = .ok (a, rest) →
    other (pairs.map Prod.snd ++ more') = .ok (c, rest') → T a c ∧ rest = more ∧ rest' = more'

theorem AgreeOn.congr (agree : AgreeOn S kinds T read other)
    (same : ∀ items, read' items = read items) (same' : ∀ items, other' items = other items) :
    AgreeOn S kinds T read' other' := by
  rw [show read' = read from funext same, show other' = other from funext same']
  exact agree

theorem AgreeOn.pure {a : α} {c : γ} (alike : T a c) :
    AgreeOn S [] T (fun items => (.ok (a, items) : Except ε (α × List ι)))
      (fun items => (.ok (c, items) : Except ε (γ × List ι'))) := by
  intro pairs more more' b rest d rest' shape run run'
  cases shape
  obtain ⟨rfl, rfl⟩ := Prod.mk.inj (Except.ok.inj run)
  obtain ⟨rfl, rfl⟩ := Prod.mk.inj (Except.ok.inj run')
  exact ⟨alike, rfl, rfl⟩

/-- Readers that take nothing and return what is known before. -/
theorem AgreeOn.known {x : Except ε α} {y : Except ε γ} {f : α → β} {g : γ → δ}
    (alike : ∀ a c, x = .ok a → y = .ok c → U (f a) (g c)) :
    AgreeOn S [] U (fun items => x.map fun a => (f a, items))
      (fun items => y.map fun c => (g c, items)) := by
  rcases x with e | a
  · intro pairs more more' b rest d rest' shape run
    cases run
  rcases y with e | c
  · intro pairs more more' b rest d rest' shape run run'
    cases run'
  exact AgreeOn.pure (alike a c rfl rfl)

theorem AgreeOn.and {Q : α → Prop} (agree : AgreeOn S kinds T read other)
    (always : ∀ items a rest, read items = .ok (a, rest) → Q a) :
    AgreeOn S kinds (fun a c => T a c ∧ Q a) read other := by
  intro pairs more more' a rest c rest' shape run run'
  obtain ⟨alike, left⟩ := agree pairs more more' a rest c rest' shape run run'
  exact ⟨⟨alike, always _ a rest run⟩, left⟩

theorem AgreeOn.bind {next : α → List ι → Except ε (β × List ι)}
    {next' : γ → List ι' → Except ε (δ × List ι')} (first : AgreeOn S kinds T read other)
    (second : ∀ a c, T a c → AgreeOn S kinds' U (next a) (next' c)) :
    AgreeOn S (kinds ++ kinds') U (fun items => read items >>= fun p => next p.1 p.2)
      (fun items => other items >>= fun p => next' p.1 p.2) := by
  intro pairs more more' b rest d rest' shape run run'
  obtain ⟨taken, left, rfl, front, back⟩ := exists_append_of_forall₂ shape
  rw [List.map_append, List.append_assoc] at run run'
  rcases one : read (taken.map Prod.fst ++ (left.map Prod.fst ++ more)) with e | ⟨a, middle⟩
  · simp [one, Bind.bind, Except.bind] at run
  rcases one' : other (taken.map Prod.snd ++ (left.map Prod.snd ++ more')) with e | ⟨c, middle'⟩
  · simp [one', Bind.bind, Except.bind] at run'
  simp only [one, Bind.bind, Except.bind] at run
  simp only [one', Bind.bind, Except.bind] at run'
  obtain ⟨alike, rfl, rfl⟩ := first taken _ _ a middle c middle' front one one'
  exact second a c alike left more more' b rest d rest' back run run'

theorem AgreeOn.map {f : α → β} {g : γ → δ} (agree : AgreeOn S kinds T read other)
    (alike : ∀ a c, T a c → U (f a) (g c)) :
    AgreeOn S kinds U (fun items => (read items).map (Prod.map f id))
      (fun items => (other items).map (Prod.map g id)) := by
  have returned : ∀ a c, T a c →
      AgreeOn S [] U (fun items => (.ok (f a, items) : Except ε (β × List ι)))
        (fun items => (.ok (g c, items) : Except ε (δ × List ι'))) :=
    fun a c related => AgreeOn.pure (alike a c related)
  have parts := agree.bind returned
  rw [List.append_nil] at parts
  refine parts.congr (fun items => ?_) fun items => ?_
  · rcases read items with e | ⟨a, rest⟩ <;> rfl
  · rcases other items with e | ⟨c, rest⟩ <;> rfl

end

end Foundations
