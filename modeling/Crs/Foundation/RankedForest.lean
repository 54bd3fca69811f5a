import Mathlib.Data.Finset.Lattice.Fold
import Mathlib.Data.Fintype.Card
import Mathlib.Data.Nat.Log
import Mathlib.Logic.Relation
import Mathlib.SetTheory.Cardinal.Finite

/-!
# Forests linked by rank

Every element has one link, an element that links to itself is a root, and `root`
names the end of the links. Ranks grow along the links, and the class of a root
has at least as many elements as two to the power of its rank, so a chain of links
is short.

A forest changes in two ways. `compress` moves the link of one element to its root
and leaves the classes alone. `link` hangs one root below another one; the rank of
the upper root may grow as far as the two classes together allow.
-/

namespace Foundation

open Finset

/-- A relation with one more edge. -/
def withEdge {V : Type*} (r : V → V → Prop) (a b u v : V) : Prop := r u v ∨ u = a ∧ v = b

/-- Links with their ends, and ranks that the classes are large enough for. -/
structure RankedForest (V : Type*) [Fintype V] [DecidableEq V] where
  up : V → V
  root : V → V
  rank : V → Nat
  up_root : ∀ v, up (root v) = root v
  root_up : ∀ v, root (up v) = root v
  root_of_up : ∀ v, up v = v → root v = v
  rank_lt : ∀ v, up v ≠ v → rank v < rank (up v)
  large : ∀ r, root r = r → 2 ^ rank r ≤ #{v | root v = r}

namespace RankedForest

variable {V : Type*} [Fintype V] [DecidableEq V] (f : RankedForest V)

@[simp] theorem root_root (v : V) : f.root (f.root v) = f.root v :=
  f.root_of_up _ (f.up_root v)

theorem up_eq_self_iff {v : V} : f.up v = v ↔ f.root v = v := by
  constructor
  · exact f.root_of_up v
  · intro isRoot
    rw [← isRoot, f.up_root]

/-- The elements that are their own root. -/
def roots : Finset V := {v | f.root v = v}

@[simp] theorem mem_roots {v : V} : v ∈ f.roots ↔ f.root v = v := by simp [roots]

theorem root_mem_roots (v : V) : f.root v ∈ f.roots := by simp

/-- The ranks grow along the links, so the links can be followed to their end. -/
theorem link_induction {P : V → Prop} (atRoot : ∀ v, f.up v = v → P v)
    (along : ∀ v, f.up v ≠ v → P (f.up v) → P v) (v : V) : P v := by
  obtain ⟨bound, below⟩ : ∃ bound, ∀ v, f.rank v ≤ bound :=
    ⟨univ.sup f.rank, fun v => le_sup (mem_univ v)⟩
  induction left : bound - f.rank v using Nat.strong_induction_on generalizing v with
  | _ left ih =>
      obtain fixed | moves := eq_or_ne (f.up v) v
      · exact atRoot v fixed
      · have grows := f.rank_lt v moves
        have := below (f.up v)
        exact along v moves (ih _ (by omega) _ rfl)

theorem rank_le_root (v : V) : f.rank v ≤ f.rank (f.root v) := by
  induction v using f.link_induction with
  | atRoot v fixed => rw [f.root_of_up v fixed]
  | along v moves ih =>
      rw [f.root_up] at ih
      exact (f.rank_lt v moves).le.trans ih

theorem rank_lt_root {v : V} (inner : f.root v ≠ v) : f.rank v < f.rank (f.root v) := by
  have moves : f.up v ≠ v := fun fixed => inner (f.root_of_up v fixed)
  have above := f.rank_le_root (f.up v)
  rw [f.root_up] at above
  exact (f.rank_lt v moves).trans_le above

/-- Two to the power of a rank is at most the number of elements. -/
theorem two_pow_rank_le (v : V) : 2 ^ f.rank v ≤ Fintype.card V := calc
  2 ^ f.rank v ≤ 2 ^ f.rank (f.root v) := Nat.pow_le_pow_right (by omega) (f.rank_le_root v)
  _ ≤ #{u | f.root u = f.root v} := f.large _ (f.root_root v)
  _ ≤ Fintype.card V := card_le_univ _

/-- No rank is higher than the logarithm of the number of elements. -/
theorem rank_le_log (v : V) : f.rank v ≤ Nat.log 2 (Fintype.card V) :=
  Nat.le_log_of_pow_le (by decide) (f.two_pow_rank_le v)

theorem rank_lt_card (v : V) : f.rank v < Fintype.card V :=
  Nat.lt_two_pow_self.trans_le (f.two_pow_rank_le v)

/-- A root that nothing else links to is alone in its class. -/
theorem root_eq_iff_of_alone {v : V} (alone : ∀ u, f.up u = v ↔ u = v) (u : V) :
    f.root u = v ↔ u = v := by
  induction u using f.link_induction with
  | atRoot u fixed => rw [f.root_of_up u fixed]
  | along u moves ih =>
      rw [alone] at ih
      rwa [f.root_up] at ih

/-- Every element is a root of rank zero. -/
def discrete : RankedForest V where
  up := id
  root := id
  rank := 0
  up_root _ := rfl
  root_up _ := rfl
  root_of_up _ _ := rfl
  rank_lt _ moves := absurd rfl moves
  large r _ := by
    have : r ∈ ({v | id v = r} : Finset V) := by simp
    exact card_pos.mpr ⟨r, this⟩

/-- Link one element to its root directly. -/
def compress (v : V) : RankedForest V where
  up := Function.update f.up v (f.root v)
  root := f.root
  rank := f.rank
  up_root u := by
    obtain same | other := eq_or_ne (f.root u) v
    · rw [← same]
      simp
    · rw [Function.update_of_ne other, f.up_root]
  root_up u := by
    obtain same | other := eq_or_ne u v
    · simp [same]
    · rw [Function.update_of_ne other, f.root_up]
  root_of_up u fixed := by
    obtain same | other := eq_or_ne u v
    · subst same
      simpa using fixed
    · rw [Function.update_of_ne other] at fixed
      exact f.root_of_up u fixed
  rank_lt u moves := by
    obtain same | other := eq_or_ne u v
    · subst same
      rw [Function.update_self] at moves ⊢
      exact f.rank_lt_root moves
    · rw [Function.update_of_ne other] at moves ⊢
      exact f.rank_lt u moves
  large := f.large

@[simp] theorem compress_root (v : V) : (f.compress v).root = f.root := rfl
@[simp] theorem compress_rank (v : V) : (f.compress v).rank = f.rank := rfl
@[simp] theorem compress_roots (v : V) : (f.compress v).roots = f.roots := rfl
@[simp] theorem compress_up (v : V) : (f.compress v).up = Function.update f.up v (f.root v) := rfl

/-- The roots after the class of `x` was given to `y`. -/
def redirect (x y v : V) : V := if f.root v = x then y else f.root v

section Link

variable {x y : V} {k : Nat}

private theorem class_of_upper (xroot : f.root x = x) (yroot : f.root y = y) (distinct : x ≠ y) :
    2 ^ f.rank x + 2 ^ f.rank y ≤ #{v | f.redirect x y v = y} := by
  have split : ({v | f.redirect x y v = y} : Finset V) =
      ({v | f.root v = x} : Finset V) ∪ ({v | f.root v = y} : Finset V) := by
    apply Finset.ext
    intro v
    by_cases moved : f.root v = x <;> simp [redirect, moved]
  have disjoint : Disjoint ({v | f.root v = x} : Finset V) ({v | f.root v = y} : Finset V) := by
    apply disjoint_filter.mpr
    intro v _ toX toY
    exact distinct (toX.symm.trans toY)
  rw [split, card_union_of_disjoint disjoint]
  exact Nat.add_le_add (f.large x xroot) (f.large y yroot)

/-- Hang the root `x` below the root `y`, whose rank becomes `k`. -/
def link (x y : V) (k : Nat) (xroot : f.root x = x) (yroot : f.root y = y) (distinct : x ≠ y)
    (above : f.rank x < k) (grown : f.rank y ≤ k)
    (enough : 2 ^ k ≤ 2 ^ f.rank x + 2 ^ f.rank y) : RankedForest V where
  up := Function.update f.up x y
  root := f.redirect x y
  rank := Function.update f.rank y k
  up_root v := by
    have yfixed := f.up_eq_self_iff.mpr yroot
    obtain moved | stays := eq_or_ne (f.root v) x
    · simp [redirect, moved, Function.update_of_ne distinct.symm, yfixed]
    · simp [redirect, stays, f.up_root]
  root_up v := by
    obtain same | other := eq_or_ne v x
    · simp [same, redirect, xroot, yroot]
    · simp [redirect, other, f.root_up]
  root_of_up v fixed := by
    obtain same | other := eq_or_ne v x
    · subst same
      rw [Function.update_self] at fixed
      exact absurd fixed.symm distinct
    · rw [Function.update_of_ne other] at fixed
      simp [redirect, f.root_of_up v fixed, other]
  rank_lt v moves := by
    have yfixed := f.up_eq_self_iff.mpr yroot
    obtain same | other := eq_or_ne v x
    · subst same
      simpa [Function.update_of_ne distinct] using above
    · rw [Function.update_of_ne other] at moves ⊢
      have lower : v ≠ y := fun eq => moves (eq ▸ yfixed)
      have grows := f.rank_lt v moves
      rw [Function.update_of_ne lower]
      obtain top | lower := eq_or_ne (f.up v) y
      · rw [top] at grows
        simpa [top] using grows.trans_le grown
      · simpa [Function.update_of_ne lower] using grows
  large r isRoot := by
    obtain top | lower := eq_or_ne r y
    · subst top
      simpa using enough.trans (f.class_of_upper xroot yroot distinct)
    · have kept : f.root r = r ∧ r ≠ x := by
        simp only [redirect] at isRoot
        split at isRoot
        · exact absurd isRoot.symm lower
        · rename_i other
          exact ⟨isRoot, fun eq => other (isRoot.trans eq)⟩
      rw [Function.update_of_ne lower]
      refine (f.large r kept.1).trans (card_le_card ?_)
      intro v inClass
      simp only [mem_filter, mem_univ, true_and] at inClass ⊢
      simp [redirect, inClass, kept.2]

variable (xroot : f.root x = x) (yroot : f.root y = y) (distinct : x ≠ y)
  (above : f.rank x < k) (grown : f.rank y ≤ k) (enough : 2 ^ k ≤ 2 ^ f.rank x + 2 ^ f.rank y)

@[simp] theorem link_root :
    (f.link x y k xroot yroot distinct above grown enough).root = f.redirect x y := rfl
@[simp] theorem link_up :
    (f.link x y k xroot yroot distinct above grown enough).up = Function.update f.up x y := rfl
@[simp] theorem link_rank :
    (f.link x y k xroot yroot distinct above grown enough).rank = Function.update f.rank y k := rfl

/-- Linking takes exactly the lower root from the roots. -/
theorem link_roots :
    (f.link x y k xroot yroot distinct above grown enough).roots = f.roots.erase x := by
  apply Finset.ext
  intro v
  simp only [mem_roots, link_root, mem_erase, redirect]
  constructor
  · intro isRoot
    split at isRoot
    · subst isRoot
      exact ⟨distinct.symm, yroot⟩
    · rename_i other
      exact ⟨fun eq => other (isRoot.trans eq), isRoot⟩
  · intro ⟨other, isRoot⟩
    simp [isRoot, other]

theorem card_link_roots :
    #(f.link x y k xroot yroot distinct above grown enough).roots + 1 = #f.roots := by
  rw [link_roots]
  exact card_erase_add_one (by simpa using xroot)

end Link

/-- The classes of the forest are the components of a relation. -/
def Generated (r : V → V → Prop) : Prop := ∀ u v, f.root u = f.root v ↔ Relation.EqvGen r u v

theorem discrete_generated : (discrete : RankedForest V).Generated fun _ _ => False := by
  intro u v
  constructor
  · intro (same : u = v)
    exact same ▸ .refl u
  · intro connected
    induction connected with
    | rel _ _ edge => exact edge.elim
    | refl => rfl
    | symm _ _ _ ih => exact ih.symm
    | trans _ _ _ _ _ ih₁ ih₂ => exact ih₁.trans ih₂

namespace Generated

variable {f} {r : V → V → Prop} {a b x y : V} {k : Nat}

/-- Components of a relation whose edges stay inside the classes stay inside them. -/
private theorem sound {g : RankedForest V} {s : V → V → Prop}
    (edges : ∀ u v, s u v → g.root u = g.root v) {u v : V} (connected : Relation.EqvGen s u v) :
    g.root u = g.root v := by
  induction connected with
  | rel u v edge => exact edges u v edge
  | refl => rfl
  | symm _ _ _ ih => exact ih.symm
  | trans _ _ _ _ _ ih₁ ih₂ => exact ih₁.trans ih₂

private theorem edge_root (generated : f.Generated r) {u v : V} (edge : r u v) :
    f.root u = f.root v :=
  (generated u v).mpr (.rel _ _ edge)

private theorem widen (generated : f.Generated r) {u v : V} (same : f.root u = f.root v) :
    Relation.EqvGen (withEdge r a b) u v :=
  ((generated u v).mp same).mono fun _ _ => .inl

/-- An edge inside a class changes no class. -/
theorem inside (generated : f.Generated r) (same : f.root a = f.root b) :
    f.Generated (withEdge r a b) := by
  intro u v
  constructor
  · exact generated.widen
  · apply sound
    intro u v edge
    obtain old | ⟨rfl, rfl⟩ := edge
    · exact generated.edge_root old
    · exact same

/-- An edge between two classes is what hanging either root below the other one adds. -/
theorem link (generated : f.Generated r) (xroot : f.root x = x) (yroot : f.root y = y)
    (distinct : x ≠ y) (above : f.rank x < k) (grown : f.rank y ≤ k)
    (enough : 2 ^ k ≤ 2 ^ f.rank x + 2 ^ f.rank y)
    (ends : f.root a = x ∧ f.root b = y ∨ f.root a = y ∧ f.root b = x) :
    (f.link x y k xroot yroot distinct above grown enough).Generated (withEdge r a b) := by
  have bridge : ∀ u v, f.root u = x → f.root v = y → Relation.EqvGen (withEdge r a b) u v := by
    intro u v toX toY
    have edge : Relation.EqvGen (withEdge r a b) a b := .rel _ _ (.inr ⟨rfl, rfl⟩)
    obtain ⟨atX, atY⟩ | ⟨atY, atX⟩ := ends
    · exact (generated.widen (toX.trans atX.symm)).trans _ _ _
        (edge.trans _ _ _ (generated.widen (atY.trans toY.symm)))
    · exact (generated.widen (toX.trans atX.symm)).trans _ _ _
        ((edge.symm _ _).trans _ _ _ (generated.widen (atY.trans toY.symm)))
  intro u v
  constructor
  · intro (same : f.redirect x y u = f.redirect x y v)
    simp only [redirect] at same
    split at same <;> split at same
    · rename_i toX toX'
      exact generated.widen (toX.trans toX'.symm)
    · rename_i toX _
      exact bridge u v toX same.symm
    · rename_i _ toX
      exact (bridge v u toX same).symm
    · exact generated.widen same
  · apply sound
    intro u v edge
    obtain old | ⟨rfl, rfl⟩ := edge
    · simp only [link_root, redirect, generated.edge_root old]
    · obtain ⟨atX, atY⟩ | ⟨atY, atX⟩ := ends <;> simp [redirect, atX, atY]

/-- There is one root for every component. -/
theorem card_roots (generated : f.Generated r) :
    #f.roots = Nat.card (Quotient (Relation.EqvGen.setoid r)) := by
  have onto : Function.Bijective fun v : f.roots =>
      (Quotient.mk (Relation.EqvGen.setoid r) v.val) := by
    constructor
    · intro u v same
      have connected : f.root u.val = f.root v.val := (generated _ _).mpr (Quotient.exact same)
      rw [f.mem_roots.mp u.property, f.mem_roots.mp v.property] at connected
      exact Subtype.ext connected
    · intro c
      induction c using Quotient.inductionOn with
      | _ v =>
          refine ⟨⟨f.root v, f.root_mem_roots v⟩, Quotient.sound ?_⟩
          exact (generated _ _).mp (f.root_root v)
  rw [← Nat.card_eq_of_bijective _ onto, Nat.card_eq_fintype_card, Fintype.card_coe]

end Generated
end RankedForest

section Direction

variable {V : Type*} {r s : V → V → Prop}

private theorem EqvGen.of_symm (incl : ∀ u v, r u v → s u v ∨ s v u) {u v : V}
    (connected : Relation.EqvGen r u v) : Relation.EqvGen s u v := by
  induction connected with
  | rel u v edge =>
      obtain forth | back := incl u v edge
      · exact .rel _ _ forth
      · exact .symm _ _ (.rel _ _ back)
  | refl u => exact .refl u
  | symm _ _ _ ih => exact .symm _ _ ih
  | trans _ _ _ _ _ ih₁ ih₂ => exact .trans _ _ _ ih₁ ih₂

/-- The components do not depend on the direction of the edges. -/
theorem eqvGen_eq_of_symm (same : ∀ u v, r u v ∨ r v u ↔ s u v ∨ s v u) :
    Relation.EqvGen r = Relation.EqvGen s := by
  funext u v
  apply propext
  constructor
  · exact EqvGen.of_symm fun u v edge => (same u v).mp (.inl edge)
  · exact EqvGen.of_symm fun u v edge => (same u v).mpr (.inl edge)

end Direction
end Foundation
