import Crs.Foundation.Machine
import Crs.Heap.Basic
import Mathlib.Algebra.Order.Group.Multiset
import Mathlib.Order.RelClasses

/-!
# Runs of the heap

`contents` forgets the positions. Each operation has one specification: the heap
stays ordered, the comparator stays, and the contents change by one element. The
run invariant says that the contents and what was taken out together are what was
put in, and draining is the repeated use of `get_spec`.
-/

namespace Crs.Heap

open Foundation

variable {α : Type*}

/-- The stored elements without their positions. -/
def contents (h : Heap α) : Multiset α := h.elems.toList

/-- No element precedes its parent. -/
def WellOrdered (h : Heap α) : Prop :=
  HeapOrder.Ordered (Before h.comp) h.elems h.elems.size

theorem new_wellOrdered (comp : α → α → Bool) : WellOrdered (new comp) := by
  intro c _ below
  simp [new] at below

@[simp] theorem contents_new (comp : α → α → Bool) : contents (new comp) = 0 := rfl

/-- Popping takes the last element from the contents. -/
theorem contents_pop {h : Heap α} {b : Array α} {x : α} (perm : b.Perm h.elems)
    (last : b[h.elems.size - 1]? = some x) :
    contents h = x ::ₘ contents { h with elems := b.pop } := by
  have size : b.size = h.elems.size := by simpa using perm.toList.length_eq
  rw [← size] at last
  have nonempty : b.size - 1 < b.size := (Array.getElem?_eq_some_iff.mp last).1
  have split : b.pop.push x = b := by
    apply Array.ext_getElem?
    intro i
    rw [Array.getElem?_push, Array.getElem?_pop, Array.size_pop]
    obtain final | earlier := eq_or_ne i (b.size - 1)
    · rw [if_pos final, final, last]
    · rw [if_neg earlier]
      split
      · rfl
      · exact (Array.getElem?_eq_none (by omega)).symm
  have listed : b.toList = b.pop.toList ++ [x] := by
    conv => lhs; rw [← split, Array.toList_push]
  rw [contents, ← Multiset.coe_eq_coe.mpr perm.toList, listed, ← Multiset.coe_add, add_comm]
  rfl

/-- It also keeps the order before the last element. -/
private theorem pop_spec {h : Heap α} {b : Array α} {x : α} (perm : b.Perm h.elems)
    (ordered : HeapOrder.Ordered (Before h.comp) b (h.elems.size - 1))
    (last : b[h.elems.size - 1]? = some x) :
    WellOrdered { h with elems := b.pop } ∧
      contents h = x ::ₘ contents { h with elems := b.pop } := by
  have size : b.size = h.elems.size := by simpa using perm.toList.length_eq
  rw [← size] at ordered
  exact ⟨ordered.pop, contents_pop perm last⟩

section Operations

variable {h : Heap α} [IsStrictWeakOrder α (Before h.comp)]

/-- `insert` adds its argument and returns where it is. -/
theorem insert_spec (ordered : WellOrdered h) (val : α) :
    (h.insert val).1.comp = h.comp ∧ WellOrdered (h.insert val).1 ∧
      contents (h.insert val).1 = val ::ₘ contents h ∧
      (h.insert val).1.elemAt (h.insert val).2 = some val := by
  have last : (h.elems.push val).size - 1 < (h.elems.push val).size := by simp
  have sifted := bubleup_ordered last last le_rfl (by simpa using ordered.push val)
  refine ⟨rfl, ?_, ?_, ?_⟩
  · simpa [WellOrdered, insert] using sifted
  · have moved := (bubleup_perm h.comp last).toList
    refine (Multiset.coe_eq_coe.mpr moved).trans ?_
    simp [contents, Multiset.coe_eq_coe]
  · have found := bubleup_found h.comp last
    simpa [insert, elemAt] using found

/-- `remove` takes out the element that its position names. -/
theorem remove_spec (ordered : WellOrdered h) {node : Nat} (named : node < h.elems.size) :
    ∃ x h', h.elemAt node = some x ∧ h.remove node = some h' ∧ h'.comp = h.comp ∧
      WellOrdered h' ∧ contents h = x ::ₘ contents h' := by
  have prefixOrdered := ordered.mono (Nat.sub_le h.elems.size 1)
  have atNode : h.elems[node]? = some h.elems[node] := Array.getElem?_eq_getElem named
  obtain inner | inside := eq_or_ne node (h.elems.size - 1)
  · obtain ⟨wellOrdered, taken⟩ := pop_spec (.refl _) prefixOrdered
      (x := h.elems[node]) (by rw [← inner, atNode])
    refine ⟨_, { h with elems := h.elems.pop }, atNode, ?_, rfl, wellOrdered, taken⟩
    have nonempty : h.elems ≠ #[] := Array.ne_empty_of_size_pos (by omega)
    simp [remove, inner, nonempty]
  · have below : node < h.elems.size - 1 := by omega
    have hlast : h.elems.size - 1 < h.elems.size := by omega
    have hole := prefixOrdered.swap_outside (Nat.sub_le _ _) le_rfl named hlast
    have swapLast : (h.elems.swap node (h.elems.size - 1))[h.elems.size - 1]? =
        some h.elems[node] := by
      rw [HeapOrder.getElem?_swap_eq, Equiv.swap_apply_right, atNode]
    have hnode : node < (h.elems.swap node (h.elems.size - 1)).size := by simpa using named
    have hsz : h.elems.size - 1 ≤ (h.elems.swap node (h.elems.size - 1)).size := by simp
    have raisedOrder := bubleup_downOrdered hnode below hsz hole
    have raisedLast := (bubleup_getElem?_of_lt h.comp hnode below).trans swapLast
    have raisedPerm := (bubleup_perm h.comp hnode).trans (Array.swap_perm named hlast)
    obtain ⟨wellOrdered, taken⟩ := pop_spec
      ((bubledown_perm h.comp (by simpa using hnode) (by simp)).trans raisedPerm)
      (bubledown_ordered (by simpa using hnode) (by simp) raisedOrder)
      ((bubledown_getElem?_of_le h.comp (by simpa using hnode) (by simp) below le_rfl).trans
        raisedLast)
    refine ⟨_, _, atNode, ?_, ?_, wellOrdered, taken⟩
    · simp [remove, named, inside]
      exact Array.ne_empty_of_size_pos (by simp; omega)
    · rfl

/-- `get` returns an element that nothing stored precedes, and takes it out. -/
theorem get_spec (ordered : WellOrdered h) (nonempty : 0 < h.elems.size) :
    ∃ x h', h.get = some (x, h') ∧ h'.comp = h.comp ∧ WellOrdered h' ∧
      contents h = x ::ₘ contents h' ∧ ∀ y ∈ contents h, ¬ Before h.comp y x := by
  have prefixOrdered := ordered.mono (Nat.sub_le h.elems.size 1)
  have atRoot : h.elems[0]? = some h.elems[0] := Array.getElem?_eq_getElem nonempty
  have least : ∀ y ∈ contents h, ¬ Before h.comp y h.elems[0] := by
    intro y stored
    obtain ⟨i, bound, rfl⟩ := Array.mem_iff_getElem.mp (Array.mem_toList_iff.mp stored)
    exact ordered.root_le le_rfl bound _ _ atRoot (Array.getElem?_eq_getElem bound)
  by_cases moved : 1 < h.elems.size
  · have below : 0 < h.elems.size - 1 := by omega
    have hlast : h.elems.size - 1 < h.elems.size := by omega
    have hole := prefixOrdered.swap_outside (Nat.sub_le _ _) le_rfl nonempty hlast
    have swapLast : (h.elems.swap 0 (h.elems.size - 1))[h.elems.size - 1]? =
        some h.elems[0] := by
      rw [HeapOrder.getElem?_swap_eq, Equiv.swap_apply_right, atRoot]
    have hroot : 0 < (h.elems.swap 0 (h.elems.size - 1)).size := by simpa using nonempty
    have hsz : h.elems.size - 1 ≤ (h.elems.swap 0 (h.elems.size - 1)).size := by simp
    obtain ⟨wellOrdered, taken⟩ := pop_spec
      ((bubledown_perm h.comp hroot hsz).trans (Array.swap_perm nonempty hlast))
      (bubledown_ordered hroot hsz (hole.downOrdered fun pos => absurd pos (lt_irrefl 0)))
      ((bubledown_getElem?_of_le h.comp hroot hsz below le_rfl).trans swapLast)
    refine ⟨_, _, ?_, ?_, wellOrdered, taken, least⟩
    · simp [get, peek, atRoot, moved]
    · rfl
  · have single : h.elems.size - 1 = 0 := by omega
    obtain ⟨wellOrdered, taken⟩ := pop_spec (.refl _) prefixOrdered (x := h.elems[0])
      (by rw [single, atRoot])
    exact ⟨_, { h with elems := h.elems.pop }, by simp [get, peek, nonempty, moved], rfl,
      wellOrdered, taken, least⟩

end Operations

/-- One call on a heap. -/
inductive Op (α : Type*) where
  | insert (val : α)
  | remove (node : Nat)
  | get

/-- What a call returns. A caller of `remove` knows the element through `at`. -/
inductive Reply (α : Type*) where
  | inserted (node : Nat)
  | removed (x : α)
  | got (x : α)

/-- The heap under its calls. -/
def machine : Machine (Heap α) (Op α) (Reply α) where
  step h
    | .insert val => some (.inserted (h.insert val).2, (h.insert val).1)
    | .remove node => do
        let x ← h.elemAt node
        let h' ← h.remove node
        return (.removed x, h')
    | .get => do
        let (x, h') ← h.get
        return (.got x, h')

/-- What the calls require: a position inside the heap, a heap that is not empty. -/
def Allowed (h : Heap α) : Op α → Prop
  | .insert _ => True
  | .remove node => node < h.size
  | .get => 0 < h.size

instance (h : Heap α) : (op : Op α) → Decidable (Allowed h op)
  | .insert _ => inferInstanceAs (Decidable True)
  | .remove node => inferInstanceAs (Decidable (node < h.size))
  | .get => inferInstanceAs (Decidable (0 < h.size))

/-- What one call put in. -/
def Op.puts : Op α → Multiset α
  | .insert val => {val}
  | _ => 0

/-- What one call took out. -/
def Reply.takes : Reply α → Multiset α
  | .inserted _ => 0
  | .removed x => {x}
  | .got x => {x}

/-- The elements that a history put in. -/
def inserted (history : List (Op α × Reply α)) : Multiset α :=
  (history.map fun entry => entry.1.puts).sum

/-- The elements that a history took out. -/
def taken (history : List (Op α × Reply α)) : Multiset α :=
  (history.map fun entry => entry.2.takes).sum

/-- The facts that hold after every history: the order, the comparator, and that
the stored elements are those put in and not taken out. -/
structure Invariant (comp : α → α → Bool) (history : List (Op α × Reply α)) (h : Heap α) :
    Prop where
  comp_eq : h.comp = comp
  ordered : WellOrdered h
  balance : contents h + taken history = inserted history

/-- The facts about a single allowed call. -/
structure StepSpec (h : Heap α) (op : Op α) (reply : Reply α) (h' : Heap α) : Prop where
  step : machine.step h op = some (reply, h')
  comp_eq : h'.comp = h.comp
  ordered : WellOrdered h'
  balance : contents h' + reply.takes = contents h + op.puts
  found : ∀ val, op = .insert val → ∃ i, reply = .inserted i ∧ h'.elemAt i = some val
  named : ∀ node, op = .remove node → ∃ x, reply = .removed x ∧ h.elemAt node = some x
  least : op = .get → ∃ x, reply = .got x ∧ ∀ y ∈ contents h', ¬ Before h.comp y x

section Run

variable {comp : α → α → Bool}

/-- Every allowed call on an ordered heap succeeds and does what it should. -/
theorem exists_step {h : Heap α} [IsStrictWeakOrder α (Before h.comp)] (ordered : WellOrdered h)
    {op : Op α} (allowed : Allowed h op) : ∃ reply h', StepSpec h op reply h' := by
  cases op with
  | insert val =>
      obtain ⟨comp_eq, ordered', added, found⟩ := insert_spec ordered val
      refine ⟨_, _, rfl, comp_eq, ordered', ?_, ?_, by simp, by simp⟩
      · simp [Reply.takes, Op.puts, added, Multiset.singleton_add, add_comm]
      · rintro val' ⟨⟩
        exact ⟨_, rfl, found⟩
  | remove node =>
      obtain ⟨x, h', atNode, removed, comp_eq, ordered', split⟩ := remove_spec ordered allowed
      refine ⟨.removed x, h', by simp [machine, atNode, removed], comp_eq, ordered', ?_, by simp,
        ?_, by simp⟩
      · simp [Reply.takes, Op.puts, split, Multiset.singleton_add, add_comm]
      · rintro node' ⟨⟩
        exact ⟨x, rfl, atNode⟩
  | get =>
      obtain ⟨x, h', got, comp_eq, ordered', split, least⟩ := get_spec ordered allowed
      refine ⟨.got x, h', by simp [machine, got], comp_eq, ordered', ?_, by simp, by simp, ?_⟩
      · simp [Reply.takes, Op.puts, split, Multiset.singleton_add, add_comm]
      · rintro -
        exact ⟨x, rfl, fun y stored => least y (by simp [split, stored])⟩

variable [IsStrictWeakOrder α (Before comp)]

/-- The invariant holds after every history of allowed calls. -/
theorem invariant_of_run {history : List (Op α × Reply α)} {h : Heap α}
    (run : Machine.Run (machine.guard Allowed) (new comp) history h) :
    Invariant comp history h := by
  refine run.invariant ⟨rfl, new_wellOrdered comp, by simp [inserted, taken]⟩ ?_
  intro history t op reply u _ holds step
  obtain ⟨allowed, step⟩ := Machine.guard_step_iff.mp step
  have order : IsStrictWeakOrder α (Before t.comp) := holds.comp_eq ▸ inferInstance
  obtain ⟨reply', u', spec⟩ := exists_step holds.ordered allowed
  obtain ⟨rfl, rfl⟩ := Prod.mk.inj (Option.some.inj (step.symm.trans spec.step))
  refine ⟨spec.comp_eq.trans holds.comp_eq, spec.ordered, ?_⟩
  have history_taken : taken (history ++ [(op, reply)]) = taken history + reply.takes := by
    simp [taken]
  have history_inserted : inserted (history ++ [(op, reply)]) = inserted history + op.puts := by
    simp [inserted]
  calc contents u + taken (history ++ [(op, reply)])
      = (contents u + reply.takes) + taken history := by
        rw [history_taken, add_comm (taken history), add_assoc]
    _ = (contents t + taken history) + op.puts := by rw [spec.balance, add_right_comm]
    _ = inserted (history ++ [(op, reply)]) := by rw [holds.balance, history_inserted]

end Run

theorem size_get {h h' : Heap α} {x : α} (got : h.get = some (x, h')) :
    h'.elems.size < h.elems.size := by
  simp only [get, peek, Option.bind_eq_bind, Option.bind_eq_some_iff] at got
  obtain ⟨r, atRoot, result⟩ := got
  have nonempty := (Array.getElem?_eq_some_iff.mp atRoot).1
  obtain ⟨-, rfl⟩ := Prod.mk.inj (Option.some.inj result)
  split <;> simp <;> omega

/-- Repeated `get` until the heap is empty. -/
def drain (h : Heap α) : List α :=
  match got : h.get with
  | none => []
  | some (x, h') =>
      have := size_get got
      x :: drain h'
termination_by h.elems.size

theorem drain_of_get {h h' : Heap α} {x : α} (got : h.get = some (x, h')) :
    drain h = x :: drain h' := by
  rw [drain]
  split
  · rename_i none_eq
    exact absurd (got.symm.trans none_eq) (by simp)
  · rename_i some_eq
    obtain ⟨rfl, rfl⟩ := Prod.mk.inj (Option.some.inj (got.symm.trans some_eq))
    rfl

theorem drain_of_empty {h : Heap α} (empty : h.elems = #[]) : drain h = [] := by
  rw [drain]
  split
  · rfl
  · rename_i got
    exact absurd (size_get got) (by simp [empty])

theorem drain_spec {h : Heap α} [IsStrictWeakOrder α (Before h.comp)] (ordered : WellOrdered h) :
    (drain h).Pairwise (fun x y => ¬ Before h.comp y x) ∧ (drain h : Multiset α) = contents h := by
  induction size : h.elems.size using Nat.strongRecOn generalizing h with
  | ind n ih =>
      subst size
      by_cases nonempty : 0 < h.elems.size
      · obtain ⟨x, h', got, comp_eq, ordered', split, least⟩ := get_spec ordered nonempty
        have order : IsStrictWeakOrder α (Before h'.comp) := comp_eq.symm ▸ inferInstance
        obtain ⟨sorted, same⟩ := ih h'.elems.size (size_get got) ordered' rfl
        rw [drain_of_get got]
        refine ⟨List.pairwise_cons.mpr ⟨fun y drained => least y ?_, comp_eq ▸ sorted⟩, ?_⟩
        · rw [split, ← same]
          exact Multiset.mem_cons_of_mem (Multiset.mem_coe.mpr drained)
        · rw [split, ← same, Multiset.cons_coe]
      · have empty : h.elems = #[] := Array.eq_empty_of_size_eq_zero (by omega)
        rw [drain_of_empty empty, contents, empty]
        exact ⟨.nil, rfl⟩

section Run

variable {comp : α → α → Bool} [IsStrictWeakOrder α (Before comp)]

end Run

end Crs.Heap
