import Crs.Heap.Indices

/-!
# Exchanging two heaps

`swap` exchanges the vectors and leaves each comparator object where it is. The
elements arrive complete, but the order that they are in was made by the other
comparator. Two heaps stay sound over a run exactly if, whenever they are exchanged,
each vector happens to be a heap for the comparator that it goes to.
-/

namespace Crs.Heap

open Foundation

variable {α : Type*} {h : Heap α} {p q : Heap α × Heap α}

/-- `std::vector::swap` on the two base objects; the comparators stay. -/
def swap (a b : Heap α) : Heap α × Heap α :=
  ({ a with elems := b.elems }, { b with elems := a.elems })

@[simp] theorem contents_swap_fst (a b : Heap α) : contents (swap a b).1 = contents b := rfl
@[simp] theorem contents_swap_snd (a b : Heap α) : contents (swap a b).2 = contents a := rfl

/-- A call on one of two heaps, or their exchange. -/
inductive PairOp (α : Type*) where
  | first (op : Op α)
  | second (op : Op α)
  | swap

/-- Two heaps of one type under their calls. -/
def pair : Machine (Heap α × Heap α) (PairOp α) (Option (Reply α)) where
  step p
    | .first op => (machine.step p.1 op).map fun next => (some next.1, (next.2, p.2))
    | .second op => (machine.step p.2 op).map fun next => (some next.1, (p.1, next.2))
    | .swap => some (none, swap p.1 p.2)

/-- The calls on one heap have the same requirements as before. -/
def PairAllowed (p : Heap α × Heap α) : PairOp α → Prop
  | .first op => Allowed p.1 op
  | .second op => Allowed p.2 op
  | .swap => True

instance (p : Heap α × Heap α) : (op : PairOp α) → Decidable (PairAllowed p op)
  | .first op => inferInstanceAs (Decidable (Allowed p.1 op))
  | .second op => inferInstanceAs (Decidable (Allowed p.2 op))
  | .swap => inferInstanceAs (Decidable True)

/-- The heap order for the heap's own comparator, and with it the result of `get`. -/
structure Sound (h : Heap α) : Prop where
  ordered : WellOrdered h
  least : ∀ x h', h.get = some (x, h') → ∀ y ∈ contents h, ¬ Before h.comp y x

/-- The heap order is enough for the first element to be least. -/
theorem WellOrdered.sound [IsStrictWeakOrder α (Before h.comp)] (ordered : WellOrdered h) :
    Sound h where
  ordered := ordered
  least x h' got := by
    have atRoot : h.elems[0]? = some x := by
      simp only [get, peek, Option.bind_eq_bind, Option.bind_eq_some_iff] at got
      obtain ⟨r, atRoot, result⟩ := got
      rwa [← (Prod.mk.inj (Option.some.inj result)).1]
    obtain ⟨nonempty, -⟩ := Array.getElem?_eq_some_iff.mp atRoot
    obtain ⟨x', h'', got', -, -, -, least⟩ := get_spec ordered nonempty
    obtain ⟨rfl, -⟩ := Prod.mk.inj (Option.some.inj (got.symm.trans got'))
    exact least

/-- Each vector is a heap for the comparator of the other one. -/
def Exchangeable (p : Heap α × Heap α) : Prop :=
  HeapOrder.Ordered (Before p.1.comp) p.2.elems p.2.elems.size ∧
    HeapOrder.Ordered (Before p.2.comp) p.1.elems p.1.elems.size

/-- Comparators that agree make every exchange of ordered heaps a good one. -/
theorem exchangeable_of_comp_eq (same : p.1.comp = p.2.comp) (first : WellOrdered p.1)
    (second : WellOrdered p.2) : Exchangeable p := by
  constructor
  · rw [same]
    exact second
  · rw [← same]
    exact first

section Run

variable {compA compB : α → α → Bool}

/-- The two objects with the comparators that they were made with. -/
structure Carries (compA compB : α → α → Bool) (p : Heap α × Heap α) : Prop where
  first : p.1.comp = compA
  second : p.2.comp = compB

/-- An allowed call on an ordered heap keeps its comparator and its order. -/
theorem step_keeps [IsStrictWeakOrder α (Before h.comp)] (ordered : WellOrdered h) {op : Op α}
    {reply : Reply α} {h' : Heap α} (allowed : Allowed h op)
    (step : machine.step h op = some (reply, h')) : h'.comp = h.comp ∧ WellOrdered h' := by
  obtain ⟨reply', u, spec⟩ := exists_step ordered allowed
  obtain ⟨rfl, rfl⟩ := Prod.mk.inj (Option.some.inj (step.symm.trans spec.step))
  exact ⟨spec.comp_eq, spec.ordered⟩

variable [IsStrictWeakOrder α (Before compA)] [IsStrictWeakOrder α (Before compB)]

/-- One step from two sound heaps: the comparators stay, and both heaps are sound again
exactly if the step is no exchange of unsuitable vectors. -/
theorem pair_step {op : PairOp α} {o : Option (Reply α)} (carries : Carries compA compB p)
    (holds : Sound p.1 ∧ Sound p.2) (step : (pair.guard PairAllowed).step p op = some (o, q)) :
    Carries compA compB q ∧ (Sound q.1 ∧ Sound q.2 ↔ (op = .swap → Exchangeable p)) := by
  obtain ⟨allowed, step⟩ := Machine.guard_step_iff.mp step
  obtain ⟨firstComp, secondComp⟩ := carries
  have orderA : IsStrictWeakOrder α (Before p.1.comp) := firstComp ▸ inferInstance
  have orderB : IsStrictWeakOrder α (Before p.2.comp) := secondComp ▸ inferInstance
  cases op with
  | first op =>
      obtain ⟨next, stepped, same⟩ := Option.map_eq_some_iff.mp step
      obtain ⟨-, rfl⟩ := Prod.mk.inj same
      obtain ⟨comp_eq, ordered⟩ := step_keeps holds.1.ordered allowed stepped
      have order : IsStrictWeakOrder α (Before next.2.comp) := comp_eq ▸ orderA
      exact ⟨⟨comp_eq.trans firstComp, secondComp⟩, by simpa using ⟨ordered.sound, holds.2⟩⟩
  | second op =>
      obtain ⟨next, stepped, same⟩ := Option.map_eq_some_iff.mp step
      obtain ⟨-, rfl⟩ := Prod.mk.inj same
      obtain ⟨comp_eq, ordered⟩ := step_keeps holds.2.ordered allowed stepped
      have order : IsStrictWeakOrder α (Before next.2.comp) := comp_eq ▸ orderB
      exact ⟨⟨firstComp, comp_eq.trans secondComp⟩, by simpa using ⟨holds.1, ordered.sound⟩⟩
  | swap =>
      obtain ⟨-, rfl⟩ := Prod.mk.inj (Option.some.inj step)
      have firstOrder : IsStrictWeakOrder α (Before (swap p.1 p.2).1.comp) := orderA
      have secondOrder : IsStrictWeakOrder α (Before (swap p.1 p.2).2.comp) := orderB
      refine ⟨⟨firstComp, secondComp⟩, ?_, ?_⟩
      · rintro ⟨first, second⟩ -
        exact ⟨first.ordered, second.ordered⟩
      · intro suits
        obtain ⟨first, second⟩ := suits rfl
        have firstOrdered : WellOrdered (swap p.1 p.2).1 := first
        have secondOrdered : WellOrdered (swap p.1 p.2).2 := second
        exact ⟨firstOrdered.sound, secondOrdered.sound⟩

theorem new_sound (comp : α → α → Bool) [order : IsStrictWeakOrder α (Before comp)] :
    Sound (new comp) :=
  have : IsStrictWeakOrder α (Before (new comp).comp) := order
  (new_wellOrdered comp).sound

/-- With one comparator for both heaps every run keeps them sound. -/
theorem run_sound_of_comp_eq {history : List (PairOp α × Option (Reply α))}
    (run : (pair.guard PairAllowed).Run (new compA, new compA) history p) :
    Sound p.1 ∧ Sound p.2 := by
  suffices all : Carries compA compA p ∧ Sound p.1 ∧ Sound p.2 from all.2
  apply run.state_invariant (P := fun p => Carries compA compA p ∧ Sound p.1 ∧ Sound p.2)
  · exact ⟨⟨rfl, rfl⟩, new_sound compA, new_sound compA⟩
  · rintro p op o q ⟨carries, holds⟩ step
    obtain ⟨carries', exactly⟩ := pair_step carries holds step
    have same : p.1.comp = p.2.comp := carries.first.trans carries.second.symm
    exact ⟨carries', exactly.mpr fun _ =>
      exchangeable_of_comp_eq same holds.1.ordered holds.2.ordered⟩

end Run

section Orders

/-- The greatest natural number first. -/
abbrev greater (x y : ℕ) : Bool := decide (y < x)

private theorem less_order : IsStrictWeakOrder ℕ (Before less) where
  irrefl := by simp
  trans := by
    simp only [Before, decide_eq_true_eq]
    omega
  incomp_trans := by
    simp only [Before, decide_eq_true_eq]
    omega

private theorem greater_order : IsStrictWeakOrder ℕ (Before greater) where
  irrefl := by simp
  trans := by
    simp only [Before, decide_eq_true_eq]
    omega
  incomp_trans := by
    simp only [Before, decide_eq_true_eq]
    omega

private theorem greater_run : (pair.guard PairAllowed).Run (new less, new greater)
    [(.second (.insert 5), some (.inserted 0)), (.second (.insert 4), some (.inserted 1))]
    (new less, ⟨greater, #[5, 4]⟩) := by
  have five : (new greater).insert 5 = (⟨greater, #[5]⟩, 0) := insert_stays rfl (by decide)
  have four : (⟨greater, #[5]⟩ : Heap ℕ).insert 4 = (⟨greater, #[5, 4]⟩, 1) :=
    insert_stays rfl (by decide)
  apply Machine.Run.cons (t := (new less, ⟨greater, #[5]⟩))
  · apply Machine.guard_step_iff.mpr
    exact ⟨trivial, by simp [pair, machine, five]⟩
  · apply Machine.Run.single
    apply Machine.guard_step_iff.mpr
    exact ⟨trivial, by simp [pair, machine, four]⟩

end Orders

end Crs.Heap
