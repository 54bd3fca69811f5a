import Crs.Heap.Run

/-!
# Removal with arbitrary indices

`remove` compares its index with the size before it moves elements, but the pop at
the end belongs to every path. An index inside the heap takes out the element that
it names. An index outside the heap takes out the last element of the vector, and on
an empty heap there is none to pop.

`calls` is the heap under its public interface with nothing assumed about the
indices. Each call reports the element that its arguments name, so a run discards
nothing else exactly if what was put in is what is stored or was named.
-/

namespace Crs.Heap

open Foundation

variable {α : Type*} {h h' : Heap α}

/-- An index outside the heap: no element moves, and the last one is popped. -/
theorem remove_outside {node : Nat} (outside : h.size ≤ node) :
    h.remove node = if h.elems.isEmpty then none else some { h with elems := h.elems.pop } := by
  have unmoved : ¬ (node < h.elems.size ∧ node ≠ h.elems.size - 1) := by
    rintro ⟨inside, -⟩
    exact absurd inside (not_lt.mpr outside)
  rw [remove, dif_neg unmoved]

/-- An index inside the heap: the element that it names leaves. -/
theorem contents_remove {node : Nat} (named : node < h.size) (removed : h.remove node = some h') :
    ∃ x, h.elemAt node = some x ∧ contents h = x ::ₘ contents h' := by
  have inside : node < h.elems.size := named
  have hlast : h.elems.size - 1 < h.elems.size := by omega
  have atNode : h.elems[node]? = some h.elems[node] := Array.getElem?_eq_getElem inside
  refine ⟨h.elems[node], atNode, ?_⟩
  simp only [remove, Option.ite_none_left_eq_some, Option.some.injEq] at removed
  obtain ⟨-, rfl⟩ := removed
  obtain last | inner := eq_or_ne node (h.elems.size - 1)
  · rw [dif_neg fun moved => moved.2 last]
    apply contents_pop (.refl _)
    rw [← last, atNode]
  · have below : node < h.elems.size - 1 := by omega
    rw [dif_pos ⟨inside, inner⟩]
    apply contents_pop
    · apply (bubledown_perm h.comp _ _).trans
      exact (bubleup_perm h.comp _).trans (Array.swap_perm inside hlast)
    · rw [bubledown_getElem?_of_le h.comp _ _ below le_rfl,
        bubleup_getElem?_of_lt h.comp _ below, HeapOrder.getElem?_swap_eq,
        Equiv.swap_apply_right, atNode]

theorem contents_insert (val : α) : contents (h.insert val).1 = val ::ₘ contents h := by
  have last : (h.elems.push val).size - 1 < (h.elems.push val).size := by simp
  refine (Multiset.coe_eq_coe.mpr (bubleup_perm h.comp last).toList).trans ?_
  simp [contents, Multiset.coe_eq_coe]

theorem contents_get {x : α} (got : h.get = some (x, h')) : contents h = x ::ₘ contents h' := by
  simp only [get, peek, Option.bind_eq_bind, Option.bind_eq_some_iff] at got
  obtain ⟨r, atRoot, result⟩ := got
  have nonempty := (Array.getElem?_eq_some_iff.mp atRoot).1
  obtain ⟨rfl, rfl⟩ := Prod.mk.inj (Option.some.inj result)
  by_cases moved : 1 < h.elems.size
  · have hlast : h.elems.size - 1 < h.elems.size := by omega
    rw [dif_pos moved]
    apply contents_pop
    · exact (bubledown_perm h.comp _ _).trans (Array.swap_perm nonempty hlast)
    · rw [bubledown_getElem?_of_le h.comp _ _ (by omega) le_rfl, HeapOrder.getElem?_swap_eq,
        Equiv.swap_apply_right, atRoot]
  · rw [dif_neg moved]
    apply contents_pop (.refl _)
    rw [show h.elems.size - 1 = 0 by omega, atRoot]

/-- An element that does not precede its ancestor stays where it was appended. -/
theorem insert_stays {val : α} {pushed : Array α}
    (appended : h.elems.push val = pushed) (stays : ∀ (within : pushed.size - 1 < pushed.size)
      (inner : ancestorIndex (pushed.size - 1) < pushed.size - 1),
      h.comp pushed[pushed.size - 1] (pushed[ancestorIndex (pushed.size - 1)]) = false) :
    h.insert val = (⟨h.comp, pushed⟩, pushed.size - 1) := by
  subst appended
  have last : (h.elems.push val).size - 1 < (h.elems.push val).size := by simp
  have unmoved : bubleup h.comp (h.elems.push val) ((h.elems.push val).size - 1) last =
      (h.elems.push val, (h.elems.push val).size - 1) := by
    rw [bubleup]
    split
    · rename_i inner
      rw [if_neg (by simpa using stays last inner)]
    · rfl
  simp only [insert, unmoved]

/-- The heap under all calls. The observation is the element that the call names. -/
def calls : Machine (Heap α) (Op α) (Option α) where
  step h
    | .insert val => some (none, (h.insert val).1)
    | .remove node => (h.remove node).map fun h' => (h.elemAt node, h')
    | .get => h.get.map fun result => (some result.1, result.2)

/-- The elements that the calls of a history put in. -/
def put (history : List (Op α × Option α)) : Multiset α :=
  (history.map fun entry => entry.1.puts).sum

/-- The elements that the calls of a history named. -/
def named (history : List (Op α × Option α)) : Multiset α := history.filterMap (·.2)

/-- What was put in is stored or was named by a call that took it out. -/
def DiscardsNamedOnly (history : List (Op α × Option α)) (h : Heap α) : Prop :=
  contents h + named history = put history

/-- `remove` is called with an index inside the heap. -/
def ValidIndex (h : Heap α) (op : Op α) : Prop := ∀ node, op = .remove node → node < h.size

theorem put_snoc (history : List (Op α × Option α)) (op : Op α) (o : Option α) :
    put (history ++ [(op, o)]) = put history + op.puts := by
  simp [put]

theorem named_snoc (history : List (Op α × Option α)) (op : Op α) (o : Option α) :
    named (history ++ [(op, o)]) = named history + (o.toList : Multiset α) := by
  rw [named, Machine.filterMap_snoc, ← Multiset.coe_add]
  rfl

/-- One call: what leaves the heap is what the call names, and besides that one element
exactly if an index outside the heap was given. -/
theorem step_balance {op : Op α} {o : Option α} (step : calls.step h op = some (o, h')) :
    ∃ lost : Multiset α, contents h' + (o.toList : Multiset α) + lost = contents h + op.puts ∧
      (lost = 0 ↔ ValidIndex h op) := by
  cases op with
  | insert val =>
      obtain ⟨rfl, rfl⟩ := Prod.mk.inj (Option.some.inj step)
      refine ⟨0, ?_, by simp [ValidIndex]⟩
      simp [contents_insert, Op.puts, ← Multiset.singleton_add, add_comm]
  | get =>
      obtain ⟨result, got, same⟩ := Option.map_eq_some_iff.mp step
      obtain ⟨rfl, rfl⟩ := Prod.mk.inj same
      refine ⟨0, ?_, by simp [ValidIndex]⟩
      rw [contents_get got, ← Multiset.singleton_add]
      simp [Op.puts, add_comm]
  | remove node =>
      obtain ⟨after, removed, same⟩ := Option.map_eq_some_iff.mp step
      obtain ⟨rfl, rfl⟩ := Prod.mk.inj same
      by_cases inside : node < h.size
      · obtain ⟨x, atNode, left⟩ := contents_remove inside removed
        refine ⟨0, ?_, by simpa [ValidIndex] using inside⟩
        rw [left, atNode, ← Multiset.singleton_add]
        simp [Op.puts, add_comm]
      · have outside : h.size ≤ node := not_lt.mp inside
        rw [remove_outside outside] at removed
        simp only [Option.ite_none_left_eq_some, Option.some.injEq] at removed
        obtain ⟨nonempty, rfl⟩ := removed
        have positive : 0 < h.elems.size :=
          Array.size_pos_iff.mpr fun empty => nonempty (by simp [empty])
        have last : h.elems[h.elems.size - 1]? = some h.elems[h.elems.size - 1] :=
          Array.getElem?_eq_getElem (by omega)
        have unnamed : h.elemAt node = none := Array.getElem?_eq_none outside
        refine ⟨{h.elems[h.elems.size - 1]}, ?_, by simpa [ValidIndex] using outside⟩
        rw [contents_pop (.refl _) last, unnamed, ← Multiset.singleton_add]
        simp [Op.puts, add_comm]

/-- In every reachable heap, an index outside the heap never leaves the size and the
contents as they are: the call faults or an element is lost. A run discards only
elements that its calls name exactly if each index of `remove` was inside the heap. -/
theorem run_discards_iff {comp : α → α → Bool} {history : List (Op α × Option α)}
    (run : calls.Run (new comp) history h) :
    (∀ node, h.size ≤ node → h.remove node = none ∨
      ∃ h', h.remove node = some h' ∧ h'.size ≠ h.size ∧ contents h' ≠ contents h) ∧
    (Machine.Throughout calls (new comp) DiscardsNamedOnly history ↔
      Machine.BeforeEach calls (new comp) (fun _ h op => ValidIndex h op) history) := by
  constructor
  · intro node outside
    rw [remove_outside outside]
    obtain empty | nonempty : h.elems = #[] ∨ 0 < h.elems.size :=
      h.elems.size.eq_zero_or_pos.imp_left Array.eq_empty_of_size_eq_zero
    · exact .inl (by simp [empty])
    · refine .inr ⟨{ h with elems := h.elems.pop }, ?_, ?_, ?_⟩
      · rw [if_neg]
        simpa using Array.ne_empty_of_size_pos nonempty
      · simp only [size, Array.size_pop]
        omega
      · intro same
        have fewer := congrArg Multiset.card same
        simp [contents] at fewer
        omega
  · refine run.throughout_iff (I := fun _ _ => True) (by simp [DiscardsNamedOnly, named, put])
      trivial (fun _ _ _ _ _ _ _ _ => trivial) ?_
    intro history h op o h' holds _ step
    obtain ⟨lost, balance, exactly⟩ := step_balance step
    rw [← exactly, DiscardsNamedOnly, put_snoc, named_snoc, ← holds]
    have moved : contents h + named history + op.puts =
        contents h' + (named history + (o.toList : Multiset α)) + lost := by
      rw [add_right_comm, ← balance]
      ac_rfl
    rw [moved]
    exact left_eq_add

/-- The least natural number first. -/
abbrev less (x y : ℕ) : Bool := decide (x < y)

private theorem new_run (val : ℕ) :
    calls.Run (new less) [(.insert val, none)] ⟨less, #[val]⟩ := by
  have inserted : (new less).insert val = (⟨less, #[val]⟩, 0) :=
    insert_stays rfl fun _ inner => absurd inner (Nat.lt_irrefl 0)
  apply Machine.Run.single
  simp [calls, inserted]

/-- One element, and the index that is the size: the element is gone. -/
theorem run_discards_iff_one : ∃ node, (1 ≤ node) ∧
    ((⟨less, #[3]⟩ : Heap ℕ).remove node = none ∨
      ∃ h', (⟨less, #[3]⟩ : Heap ℕ).remove node = some h' ∧ h'.size ≠ 1 ∧
        contents h' ≠ contents ⟨less, #[3]⟩) :=
  ⟨1, le_rfl, (run_discards_iff (new_run 3)).1 1 le_rfl⟩

/-- The index that the heap's own size gives discards an element. -/
theorem remove_size_discards :
    ¬ ∀ (h : Heap ℕ) node, calls.Reachable (new less) h → h.size ≤ node →
      ∃ h', h.remove node = some h' ∧ h'.size = h.size ∧ contents h' = contents h := by
  intro always
  obtain ⟨h', removed, size, -⟩ := always ⟨less, #[3]⟩ 1 ⟨_, new_run 3⟩ le_rfl
  obtain rfl : h' = ⟨less, #[]⟩ := (Option.some.inj removed).symm
  exact absurd size (by decide)

end Crs.Heap
