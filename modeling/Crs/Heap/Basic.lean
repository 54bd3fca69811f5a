import Crs.Foundation.HeapOrder
import Mathlib.Data.Multiset.Basic

/-!
# The vector-based heap

The heap is a vector whose first element is least for the comparator object that
the heap carries. The two sift loops keep the source's index arithmetic, and
their bounds are arguments, so every element access is inside the vector. A sift
permutes the vector; `bubleup_spec` and `bubledown_spec` say what each direction
needs of the order and what it restores.

`remove` sifts the moved element up and then down from the same position. Either
the first sift moves it, and the second finds an ordered heap, or it does not and
the second starts from the order that it needs.
-/

namespace Crs

open Foundation

/-- A vector with the comparator that orders it. -/
structure Heap (α : Type*) where
  comp : α → α → Bool
  elems : Array α

namespace Heap

variable {α : Type*}

/-- An empty heap. The capacity that the constructor reserves is not observable. -/
def new (comp : α → α → Bool) : Heap α := ⟨comp, #[]⟩

def size (h : Heap α) : Nat := h.elems.size

/-- The position above a node. The root is its own ancestor. -/
def ancestorIndex (node : Nat) : Nat :=
  if node = 0 then 0
  else if node &&& 1 ≠ 0 then node >>> 1
  else (node - 1) >>> 1

/-- The first position below a node. -/
def descendantIndex (node : Nat) : Nat := (node <<< 1) + 1

/-- The source's case split on the parity is one division. -/
theorem ancestorIndex_eq (node : Nat) : ancestorIndex node = HeapOrder.parent node := by
  simp only [ancestorIndex, HeapOrder.parent, Nat.and_one_is_mod, Nat.shiftRight_eq_div_pow]
  split
  · omega
  · split <;> omega

theorem descendantIndex_eq (node : Nat) : descendantIndex node = 2 * node + 1 := by
  simp only [descendantIndex, Nat.shiftLeft_eq]
  omega

/-- Sift a node up while it precedes its ancestor; the final position is returned. -/
def bubleup (comp : α → α → Bool) (a : Array α) (node : Nat) (hnode : node < a.size) :
    Array α × Nat :=
  if inner : ancestorIndex node < node then
    if comp a[node] a[ancestorIndex node] then
      bubleup comp (a.swap node (ancestorIndex node)) (ancestorIndex node)
        (by simpa using inner.trans hnode)
    else (a, node)
  else (a, node)
termination_by node

/-- The descendant that a node is compared with: the second one if it precedes the first. -/
def pickDescendant (comp : α → α → Bool) (a : Array α) (desc sz : Nat) (hdesc : desc < sz)
    (hsz : sz ≤ a.size) : Fin sz :=
  if second : desc + 1 < sz then
    if comp a[desc + 1] a[desc] then ⟨desc + 1, second⟩ else ⟨desc, hdesc⟩
  else ⟨desc, hdesc⟩

theorem pickDescendant_eq_or (comp : α → α → Bool) (a : Array α) (desc sz : Nat)
    (hdesc : desc < sz) (hsz : sz ≤ a.size) :
    (pickDescendant comp a desc sz hdesc hsz).val = desc ∨
      (pickDescendant comp a desc sz hdesc hsz).val = desc + 1 := by
  simp only [pickDescendant]
  split
  · split <;> simp
  · simp

/-- Sift a node down while one of its descendants below `sz` precedes it. -/
def bubledown (comp : α → α → Bool) (a : Array α) (node sz : Nat) (hnode : node < a.size)
    (hsz : sz ≤ a.size) : Array α :=
  if hdesc : descendantIndex node < sz then
    let desc := pickDescendant comp a (descendantIndex node) sz hdesc hsz
    have hd : desc.val < a.size := Nat.lt_of_lt_of_le desc.isLt hsz
    if comp a[desc.val] a[node] then
      bubledown comp (a.swap node desc.val) desc.val sz (by simpa using hd) (by simpa using hsz)
    else a
  else a
termination_by sz - node
decreasing_by
  have deeper := pickDescendant_eq_or comp a _ sz hdesc hsz
  rw [descendantIndex_eq] at hdesc
  simp only [descendantIndex_eq] at deeper ⊢
  omega

@[simp] theorem size_bubleup (comp : α → α → Bool) (a : Array α) (node : Nat)
    (hnode : node < a.size) : (bubleup comp a node hnode).1.size = a.size := by
  fun_induction bubleup comp a node hnode with
  | case1 a node hnode inner less ih => simpa using ih
  | case2 => rfl
  | case3 => rfl

@[simp] theorem size_bubledown (comp : α → α → Bool) (a : Array α) (node sz : Nat)
    (hnode : node < a.size) (hsz : sz ≤ a.size) :
    (bubledown comp a node sz hnode hsz).size = a.size := by
  fun_induction bubledown comp a node sz hnode hsz with
  | case1 a node hnode hsz hdesc desc hd less ih => simpa using ih
  | case2 => rfl
  | case3 => rfl

/-- Append an element and sift it up. The result is its position. -/
def insert (h : Heap α) (val : α) : Heap α × Nat :=
  let pushed := h.elems.push val
  let sifted := bubleup h.comp pushed (pushed.size - 1) (by simp [pushed])
  ({ h with elems := sifted.1 }, sifted.2)

/-- Remove the element at a position: the last element takes its place and is
sifted both ways. Popping an empty vector is a fault. -/
def remove (h : Heap α) (node : Nat) : Option (Heap α) :=
  let elems :=
    if moved : node < h.elems.size ∧ node ≠ h.elems.size - 1 then
      let swapped := h.elems.swap node (h.elems.size - 1)
      let raised := (bubleup h.comp swapped node (by simpa [swapped] using moved.1)).1
      bubledown h.comp raised node (h.elems.size - 1) (by simpa [raised, swapped] using moved.1)
        (by simp [raised, swapped])
    else h.elems
  if elems.isEmpty then none else some { h with elems := elems.pop }

/-- The element that `at` names; the index operator is not range checked. -/
def elemAt (h : Heap α) (node : Nat) : Option α := h.elems[node]?

/-- The first element. -/
def peek (h : Heap α) : Option α := h.elems[0]?

/-- Return and remove the first element. An empty heap is a fault. -/
def get (h : Heap α) : Option (α × Heap α) := do
  let r ← h.peek
  let elems :=
    if moved : 1 < h.elems.size then
      let swapped := h.elems.swap 0 (h.elems.size - 1)
      bubledown h.comp swapped 0 (h.elems.size - 1) (by simp [swapped]; omega) (by simp [swapped])
    else h.elems
  return (r, { h with elems := elems.pop })

/-- The comparator as a relation. -/
abbrev Before (comp : α → α → Bool) (x y : α) : Prop := comp x y = true

section Sift

variable {a : Array α} {node sz n : Nat}

theorem bubleup_perm (comp : α → α → Bool) (hnode : node < a.size) :
    (bubleup comp a node hnode).1.Perm a := by
  fun_induction bubleup comp a node hnode with
  | case1 a node hnode inner less ih => exact ih.trans (Array.swap_perm _ _)
  | case2 => exact .refl _
  | case3 => exact .refl _

/-- The element that was sifted is at the returned position. -/
theorem bubleup_found (comp : α → α → Bool) (hnode : node < a.size) :
    (bubleup comp a node hnode).1[(bubleup comp a node hnode).2]? = a[node]? := by
  fun_induction bubleup comp a node hnode with
  | case1 a node hnode inner less ih =>
      rw [ih, HeapOrder.getElem?_swap_eq, Equiv.swap_apply_right]
  | case2 => rfl
  | case3 => rfl

theorem bubleup_getElem?_of_lt (comp : α → α → Bool) (hnode : node < a.size) {k : Nat}
    (after : node < k) :
    (bubleup comp a node hnode).1[k]? = a[k]? := by
  fun_induction bubleup comp a node hnode with
  | case1 a node hnode inner less ih =>
      rw [ih (inner.trans after), HeapOrder.getElem?_swap_eq,
        Equiv.swap_apply_of_ne_of_ne after.ne' (inner.trans after).ne']
  | case2 => rfl
  | case3 => rfl

theorem bubledown_perm (comp : α → α → Bool) (hnode : node < a.size) (hsz : sz ≤ a.size) :
    (bubledown comp a node sz hnode hsz).Perm a := by
  fun_induction bubledown comp a node sz hnode hsz with
  | case1 a node hnode hsz hdesc desc hd less ih => exact ih.trans (Array.swap_perm _ _)
  | case2 => exact .refl _
  | case3 => exact .refl _

theorem bubledown_getElem?_of_le (comp : α → α → Bool) (hnode : node < a.size)
    (hsz : sz ≤ a.size) (below : node < sz) {k : Nat} (after : sz ≤ k) :
    (bubledown comp a node sz hnode hsz)[k]? = a[k]? := by
  fun_induction bubledown comp a node sz hnode hsz with
  | case1 a node hnode hsz hdesc desc hd less ih =>
      rw [ih desc.isLt, HeapOrder.getElem?_swap_eq,
        Equiv.swap_apply_of_ne_of_ne (below.trans_le after).ne' (desc.isLt.trans_le after).ne']
  | case2 => rfl
  | case3 => rfl

variable {comp : α → α → Bool} [IsStrictWeakOrder α (Before comp)]

/-- Sifting up repairs the edge above the node. -/
theorem bubleup_ordered (hnode : node < a.size) (below : node < n) (size : n ≤ a.size)
    (h : HeapOrder.UpOrdered (Before comp) a n node) :
    HeapOrder.Ordered (Before comp) (bubleup comp a node hnode).1 n := by
  fun_induction bubleup comp a node hnode with
  | case1 a node hnode inner less ih =>
      refine ih (inner.trans below) (by simpa using size) ?_
      simp only [ancestorIndex_eq] at inner less ⊢
      exact h.swap_parent (by omega) hnode (inner.trans hnode) below less
  | case2 a node hnode inner stop =>
      refine h.ordered fun _ => ?_
      rw [ancestorIndex_eq] at inner
      refine .of_not_lt (Array.getElem?_eq_getElem (inner.trans hnode))
        (Array.getElem?_eq_getElem hnode) ?_
      simpa only [ancestorIndex_eq] using stop
  | case3 a node hnode root =>
      rw [ancestorIndex_eq] at root
      exact h.ordered fun pos => absurd (HeapOrder.parent_lt pos) root

/-- After sifting up, at most the edges below the node are broken. -/
theorem bubleup_downOrdered (hnode : node < a.size) (below : node < n) (size : n ≤ a.size)
    (h : HeapOrder.HoleOrdered (Before comp) a n node) :
    HeapOrder.DownOrdered (Before comp) (bubleup comp a node hnode).1 n node := by
  by_cases moves : ∃ inner : HeapOrder.parent node < node,
      have hparent := inner.trans hnode
      comp a[node] a[HeapOrder.parent node] = true
  · obtain ⟨inner, less⟩ := moves
    have pos : 0 < node := by omega
    refine (bubleup_ordered hnode below size (h.upOrdered pos hnode ?_)).downOrdered
      (by simpa using size) node
    intro x p atX atP
    rw [Array.getElem?_eq_getElem hnode] at atX
    rw [Array.getElem?_eq_getElem (inner.trans hnode)] at atP
    obtain rfl := Option.some.inj atX
    obtain rfl := Option.some.inj atP
    exact less
  · have unmoved : (bubleup comp a node hnode).1 = a := by
      rw [bubleup]
      simp only [ancestorIndex_eq]
      split
      · split
        · exact (moves ⟨‹_›, ‹_›⟩).elim
        · rfl
      · rfl
    rw [unmoved]
    refine h.downOrdered fun pos => ?_
    have inner := HeapOrder.parent_lt pos
    exact .of_not_lt (Array.getElem?_eq_getElem (inner.trans hnode))
      (Array.getElem?_eq_getElem hnode) fun less => moves ⟨inner, less⟩

/-- The picked descendant is preceded by none of the node's children. -/
theorem pickDescendant_least (hdesc : descendantIndex node < sz) (hsz : sz ≤ a.size) :
    let desc := (pickDescendant comp a (descendantIndex node) sz hdesc hsz).val
    ∀ d, 0 < d → d < sz → HeapOrder.parent d = node →
      HeapOrder.Edge (Before comp) a desc d := by
  intro desc d pos below child
  have either := (HeapOrder.parent_eq_iff pos).mp child
  have hd : d < a.size := below.trans_le hsz
  simp only [desc, pickDescendant, descendantIndex_eq] at hdesc ⊢
  have hfirst : 2 * node + 1 < a.size := hdesc.trans_le hsz
  split
  · have hsecond : 2 * node + 1 + 1 < a.size := by omega
    split
    · obtain rfl | rfl := either
      · exact .of_not_lt (Array.getElem?_eq_getElem hsecond) (Array.getElem?_eq_getElem hfirst)
          (HeapOrder.not_lt_of_lt ‹_›)
      · exact .refl _ a _
    · obtain rfl | rfl := either
      · exact .refl _ a _
      · exact .of_not_lt (Array.getElem?_eq_getElem hfirst) (Array.getElem?_eq_getElem hsecond) ‹_›
  · obtain rfl : d = 2 * node + 1 := by omega
    exact .refl _ a _

/-- Sifting down repairs the edges below the node. -/
theorem bubledown_ordered (hnode : node < a.size) (hsz : sz ≤ a.size)
    (h : HeapOrder.DownOrdered (Before comp) a sz node) :
    HeapOrder.Ordered (Before comp) (bubledown comp a node sz hnode hsz) sz := by
  fun_induction bubledown comp a node sz hnode hsz with
  | case1 a node hnode hsz hdesc desc hd less ih =>
      have first := descendantIndex_eq node
      have deeper : desc.val = descendantIndex node ∨ desc.val = descendantIndex node + 1 :=
        pickDescendant_eq_or comp a _ sz hdesc hsz
      have child : HeapOrder.parent desc.val = node :=
        (HeapOrder.parent_eq_iff (by omega)).mpr (by omega)
      exact ih (h.swap_child (by omega) desc.isLt child hnode hd less
        (pickDescendant_least hdesc hsz))
  | case2 a node hnode hsz hdesc desc hd stop =>
      refine h.ordered fun c pos below child => ?_
      refine HeapOrder.Edge.trans (i := desc.val) ?_
        (pickDescendant_least hdesc hsz c pos below child) hd
      exact .of_not_lt (Array.getElem?_eq_getElem hnode) (Array.getElem?_eq_getElem hd) stop
  | case3 a node hnode hsz leaf =>
      refine h.ordered fun c pos below child => ?_
      rw [descendantIndex_eq] at leaf
      have := (HeapOrder.parent_eq_iff pos).mp child
      omega

end Sift

end Heap
end Crs
