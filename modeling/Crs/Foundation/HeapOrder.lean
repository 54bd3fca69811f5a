import Mathlib.Data.List.Basic
import Mathlib.Logic.Equiv.Basic
import Mathlib.Order.Defs.Unbundled

/-!
# Heap order on array prefixes

A prefix of an array is read as a complete binary tree: position `c > 0` has the
parent `(c - 1) / 2`. `Ordered` says that no element precedes its parent under a
strict weak order. Sifting breaks the order around one position only, and the two
directions break it differently: `UpOrdered` leaves out the edge above the
position, `DownOrdered` the edges below it. Both keep the comparison between its
children and its parent, which is what a swap in either direction needs.

Elements are read with `a[i]?`, so the statements carry no bounds proofs.
-/

namespace Foundation.HeapOrder

variable {α : Type*} {lt : α → α → Prop} {a : Array α} {n i c : Nat}

/-- The position above `c`. It is only meaningful for `0 < c`. -/
def parent (c : Nat) : Nat := (c - 1) / 2

theorem parent_lt (h : 0 < c) : parent c < c := by
  simp only [parent]
  omega

theorem parent_eq_iff (h : 0 < c) : parent c = i ↔ c = 2 * i + 1 ∨ c = 2 * i + 2 := by
  simp only [parent]
  omega

/-- The element at `c` does not precede the one at `p`. -/
def Edge (lt : α → α → Prop) (a : Array α) (p c : Nat) : Prop :=
  ∀ x y, a[p]? = some x → a[c]? = some y → ¬ lt y x

/-- No element of the first `n` precedes its parent. -/
def Ordered (lt : α → α → Prop) (a : Array α) (n : Nat) : Prop :=
  ∀ c, 0 < c → c < n → Edge lt a (parent c) c

theorem Ordered.mono {m : Nat} (h : Ordered lt a n) (le : m ≤ n) : Ordered lt a m :=
  fun c pos below => h c pos (Nat.lt_of_lt_of_le below le)

/-- The children of `i` do not precede the parent of `i`. -/
def Grand (lt : α → α → Prop) (a : Array α) (n i : Nat) : Prop :=
  0 < i → ∀ c, 0 < c → c < n → parent c = i → Edge lt a (parent i) c

/-- The order holds except for the edges that touch `i`. -/
structure HoleOrdered (lt : α → α → Prop) (a : Array α) (n i : Nat) : Prop where
  edge : ∀ c, 0 < c → c < n → c ≠ i → parent c ≠ i → Edge lt a (parent c) c
  grand : Grand lt a n i

/-- The order holds except for the edge above `i`. -/
structure UpOrdered (lt : α → α → Prop) (a : Array α) (n i : Nat) : Prop where
  edge : ∀ c, 0 < c → c < n → c ≠ i → Edge lt a (parent c) c
  grand : Grand lt a n i

/-- The order holds except for the edges below `i`. -/
structure DownOrdered (lt : α → α → Prop) (a : Array α) (n i : Nat) : Prop where
  edge : ∀ c, 0 < c → c < n → parent c ≠ i → Edge lt a (parent c) c
  grand : Grand lt a n i

theorem getElem?_swap_eq {i j : Nat} (hi : i < a.size) (hj : j < a.size) (k : Nat) :
    (a.swap i j hi hj)[k]? = a[Equiv.swap i j k]? := by
  rw [Array.getElem?_swap, Equiv.swap_apply_def]
  grind

/-- An edge of the swapped array is an edge of the array between the swapped positions. -/
theorem edge_swap_iff {i j p : Nat} (hi : i < a.size) (hj : j < a.size) :
    Edge lt (a.swap i j hi hj) p c ↔ Edge lt a (Equiv.swap i j p) (Equiv.swap i j c) := by
  simp only [Edge, getElem?_swap_eq]

theorem Edge.of_not_lt {p : Nat} {x y : α} (atX : a[p]? = some x) (atY : a[c]? = some y)
    (le : ¬ lt y x) : Edge lt a p c := by
  intro x' y' atX' atY'
  obtain rfl := Option.some.inj (atX.symm.trans atX')
  obtain rfl := Option.some.inj (atY.symm.trans atY')
  exact le

/-- An element that does not precede its parent leaves the edges below it. -/
theorem HoleOrdered.downOrdered (h : HoleOrdered lt a n i)
    (le : 0 < i → Edge lt a (parent i) i) : DownOrdered lt a n i where
  edge c childPos below child := by
    obtain hole | other := eq_or_ne c i
    · subst hole
      exact le childPos
    · exact h.edge c childPos below other child
  grand := h.grand

theorem UpOrdered.ordered (h : UpOrdered lt a n i) (le : 0 < i → Edge lt a (parent i) i) :
    Ordered lt a n := by
  intro c pos below
  obtain hole | other := eq_or_ne c i
  · subst hole
    exact le pos
  · exact h.edge c pos below other

theorem DownOrdered.ordered (h : DownOrdered lt a n i)
    (le : ∀ c, 0 < c → c < n → parent c = i → Edge lt a i c) : Ordered lt a n := by
  intro c pos below
  obtain child | elsewhere := eq_or_ne (parent c) i
  · exact child ▸ le c pos below child
  · exact h.edge c pos below elsewhere

/-- Appending an element breaks at most the edge above it. -/
theorem Ordered.push (h : Ordered lt a a.size) (x : α) :
    UpOrdered lt (a.push x) (a.push x).size a.size where
  edge c pos below ne := by
    rw [Array.size_push] at below
    have inner := parent_lt pos
    intro y z atY atZ
    rw [Array.getElem?_push, if_neg (by omega)] at atY atZ
    exact h c pos (by omega) y z atY atZ
  grand pos c childPos below child := by
    rw [Array.size_push] at below
    have deeper := parent_lt childPos
    omega

/-- Dropping the last element keeps the order of those before it. -/
theorem Ordered.pop (h : Ordered lt a (a.size - 1)) : Ordered lt a.pop a.pop.size := by
  rw [Array.size_pop]
  intro c pos below x y atX atY
  have inner := parent_lt pos
  rw [Array.getElem?_pop, if_pos (by omega)] at atX atY
  exact h c pos below x y atX atY

section StrictWeakOrder

variable [IsStrictWeakOrder α lt]

theorem not_lt_of_lt {x y : α} (h : lt x y) : ¬ lt y x :=
  fun h' => Std.Irrefl.irrefl x (IsTrans.trans x y x h h')

/-- Not preceding is transitive. -/
theorem not_lt_trans {x y z : α} (xy : ¬ lt x y) (yz : ¬ lt y z) : ¬ lt x z := by
  intro xz
  by_cases yx : lt y x
  · exact yz (IsTrans.trans y x z yx xz)
  · by_cases zy : lt z y
    · exact xy (IsTrans.trans x z y xz zy)
    · exact (IsStrictWeakOrder.incomp_trans x y z ⟨xy, yx⟩ ⟨yz, zy⟩).1 xz

/-- An element that precedes `y` is not preceded by what `y` is not preceded by. -/
theorem not_lt_of_lt_of_not_lt {x y z : α} (xy : lt x y) (zy : ¬ lt z y) : ¬ lt z x :=
  fun zx => zy (IsTrans.trans z x y zx xy)

theorem Edge.refl (lt : α → α → Prop) [IsStrictWeakOrder α lt] (a : Array α) (c : Nat) :
    Edge lt a c c := by
  intro x y atX atY
  obtain rfl := Option.some.inj (atX.symm.trans atY)
  exact Std.Irrefl.irrefl x

/-- Two edges in a row order the ends. -/
theorem Edge.trans {p : Nat} (up : Edge lt a p i) (down : Edge lt a i c) (hi : i < a.size) :
    Edge lt a p c := by
  intro x z atP atC
  have atI : a[i]? = some a[i] := Array.getElem?_eq_getElem hi
  exact not_lt_trans (down _ z atI atC) (up x _ atP atI)

theorem Ordered.grand (h : Ordered lt a n) (size : n ≤ a.size) (i : Nat) : Grand lt a n i := by
  intro pos c childPos below child
  have inner := parent_lt childPos
  exact (h i pos (by omega)).trans (child ▸ h c childPos below) (by omega)

theorem Ordered.downOrdered (h : Ordered lt a n) (size : n ≤ a.size) (i : Nat) :
    DownOrdered lt a n i where
  edge c pos below _ := h c pos below
  grand := h.grand size i

/-- Nothing precedes an element of the root's tree, so nothing precedes the root. -/
theorem Ordered.root_le (h : Ordered lt a n) (size : n ≤ a.size) {c : Nat} (below : c < n) :
    Edge lt a 0 c := by
  induction c using Nat.strongRecOn with
  | ind c ih =>
      by_cases pos : 0 < c
      · have inner := parent_lt pos
        exact (ih (parent c) inner (by omega)).trans (h c pos below) (by omega)
      · obtain rfl : c = 0 := by omega
        exact .refl lt a 0

/-- An element that precedes its parent is not preceded by its children. -/
theorem HoleOrdered.upOrdered (h : HoleOrdered lt a n i) (pos : 0 < i) (hi : i < a.size)
    (less : ∀ x p, a[i]? = some x → a[parent i]? = some p → lt x p) : UpOrdered lt a n i where
  edge c childPos below ne := by
    obtain child | elsewhere := eq_or_ne (parent c) i
    · intro x y atX atY
      rw [child] at atX
      have inner := parent_lt pos
      have atP : a[parent i]? = some (a[parent i]) := Array.getElem?_eq_getElem (by omega)
      exact not_lt_of_lt_of_not_lt (less x _ atX atP)
        (h.grand pos c childPos below child _ y atP atY)
    · exact h.edge c childPos below ne elsewhere
  grand := h.grand

/-- Replacing an element by one from behind the prefix breaks the edges that touch it. -/
theorem Ordered.swap_outside {j : Nat} (h : Ordered lt a n) (size : n ≤ a.size)
    (outside : n ≤ j) (hi : i < a.size) (hj : j < a.size) :
    HoleOrdered lt (a.swap i j hi hj) n i where
  edge c pos cBelow ne child := by
    have inner := parent_lt pos
    rw [edge_swap_iff, Equiv.swap_apply_of_ne_of_ne ne (by omega),
      Equiv.swap_apply_of_ne_of_ne child (by omega)]
    exact h c pos cBelow
  grand pos c childPos cBelow child := by
    have inner := parent_lt pos
    have deeper := parent_lt childPos
    rw [edge_swap_iff, Equiv.swap_apply_of_ne_of_ne (by omega) (by omega),
      Equiv.swap_apply_of_ne_of_ne (by omega) (by omega)]
    exact h.grand size i pos c childPos cBelow child

/-- Swapping an element with the parent it precedes moves the hole up. -/
theorem UpOrdered.swap_parent (h : UpOrdered lt a n i) (pos : 0 < i) (hi : i < a.size)
    (hp : parent i < a.size) (below : i < n) (less : lt a[i] a[parent i]) :
    UpOrdered lt (a.swap i (parent i) hi hp) n (parent i) := by
  have inner := parent_lt pos
  have swapped : ∀ c, Edge lt a (parent i) c → Edge lt a i c := fun c old =>  by
    intro x y atX atY
    obtain rfl := Option.some.inj ((Array.getElem?_eq_getElem hi).symm.trans atX)
    exact not_lt_of_lt_of_not_lt less (old _ y (Array.getElem?_eq_getElem hp) atY)
  constructor
  · intro c childPos childBelow ne
    have deeper := parent_lt childPos
    rw [edge_swap_iff]
    obtain hole | other := eq_or_ne c i
    · subst hole
      rw [Equiv.swap_apply_left, Equiv.swap_apply_right]
      exact .of_not_lt (Array.getElem?_eq_getElem hi) (Array.getElem?_eq_getElem hp)
        (not_lt_of_lt less)
    · rw [Equiv.swap_apply_of_ne_of_ne other ne]
      obtain sibling | apart := eq_or_ne (parent c) (parent i)
      · rw [sibling, Equiv.swap_apply_right]
        exact swapped c (sibling ▸ h.edge c childPos childBelow other)
      · obtain child | elsewhere := eq_or_ne (parent c) i
        · rw [child, Equiv.swap_apply_left]
          exact h.grand pos c childPos childBelow child
        · rw [Equiv.swap_apply_of_ne_of_ne elsewhere apart]
          exact h.edge c childPos childBelow other
  · intro parentPos c childPos childBelow child
    have higher := parent_lt parentPos
    have above : Edge lt a (parent (parent i)) (parent i) :=
      h.edge (parent i) parentPos (by omega) (by omega)
    have deeper := parent_lt childPos
    rw [edge_swap_iff, Equiv.swap_apply_of_ne_of_ne (by omega : parent (parent i) ≠ i) (by omega)]
    obtain hole | other := eq_or_ne c i
    · rw [hole, Equiv.swap_apply_left]
      exact above
    · rw [Equiv.swap_apply_of_ne_of_ne other (by omega)]
      exact above.trans (child ▸ h.edge c childPos childBelow other) hp

/-- Swapping an element with its least child moves the hole down. -/
theorem DownOrdered.swap_child (h : DownOrdered lt a n i) (childPos : 0 < c) (below : c < n)
    (child : parent c = i) (hi : i < a.size) (hc : c < a.size) (less : lt a[c] a[i])
    (least : ∀ d, 0 < d → d < n → parent d = i → Edge lt a c d) :
    DownOrdered lt (a.swap i c hi hc) n c := by
  have inner := parent_lt childPos
  constructor
  · intro d pos dBelow ne
    have higher := parent_lt pos
    rw [edge_swap_iff]
    obtain hole | other := eq_or_ne d i
    · subst hole
      rw [Equiv.swap_apply_left, Equiv.swap_apply_of_ne_of_ne (by omega) (by omega)]
      exact h.grand pos c childPos below child
    · obtain under | apart := eq_or_ne (parent d) i
      · rw [under, Equiv.swap_apply_left]
        obtain same | distinct := eq_or_ne d c
        · rw [same, Equiv.swap_apply_right]
          exact .of_not_lt (Array.getElem?_eq_getElem hc) (Array.getElem?_eq_getElem hi)
            (not_lt_of_lt less)
        · rw [Equiv.swap_apply_of_ne_of_ne other distinct]
          exact least d pos dBelow under
      · rw [Equiv.swap_apply_of_ne_of_ne apart ne, Equiv.swap_apply_of_ne_of_ne other
          (fun same => apart (same ▸ child))]
        exact h.edge d pos dBelow apart
  · intro _ d pos dBelow under
    have deeper := parent_lt pos
    rw [edge_swap_iff, child, Equiv.swap_apply_left,
      Equiv.swap_apply_of_ne_of_ne (by omega) (by omega)]
    exact under ▸ h.edge d pos dBelow (by omega)

end StrictWeakOrder

end Foundation.HeapOrder
