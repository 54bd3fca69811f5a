import Mathlib.Data.List.Basic
import Mathlib.Logic.Relation

/-!
# Acyclic relations on finitely many nodes

A recursion along an acyclic relation needs no more fuel than there are nodes.
-/

namespace Foundation

open Relation

variable {α : Type*}

/-- No node leads back to itself. -/
def Acyclic (r : α → α → Prop) : Prop :=
  ∀ a, ¬TransGen r a a

theorem Acyclic.of_rank {r : α → α → Prop} (rank : α → ℕ) (down : ∀ a b, r a b → rank b < rank a) :
    Acyclic r := by
  have lower {a b : α} (path : TransGen r a b) : rank b < rank a := by
    induction path with
    | single step => exact down _ _ step
    | tail _ step ih => exact Nat.lt_trans (down _ _ step) ih
  exact fun a cycle => Nat.lt_irrefl _ (lower cycle)

/-- Each step along the relation may take one unit of fuel. -/
theorem Acyclic.fuel_induction {r : α → α → Prop} (acyclic : Acyclic r) {P : ℕ → α → Prop}
    (step : ∀ fuel a, (∀ b, r a b → P fuel b) → P (fuel + 1) a) {nodes : List α} {a : α}
    (reach : ∀ b, ReflTransGen r a b → b ∈ nodes) : P nodes.length a := by
  classical
  induction n : nodes.length generalizing nodes a with
  | zero =>
    have here := reach a .refl
    simp [List.eq_nil_of_length_eq_zero n] at here
  | succ n' ih =>
    apply step
    intro b next
    have here := reach a .refl
    have others : ∀ c, ReflTransGen r b c → c ∈ nodes.erase a := by
      intro c path
      have other : c ≠ a := by
        rintro rfl
        exact acyclic c (TransGen.head' next path)
      exact (List.mem_erase_of_ne other).mpr (reach c (path.head next))
    exact ih others (by rw [List.length_erase_of_mem here, n, Nat.add_sub_cancel])

theorem Acyclic.mono {r r' : α → α → Prop} (acyclic : Acyclic r) (le : ∀ a b, r' a b → r a b) :
    Acyclic r' :=
  fun a cycle => acyclic a (TransGen.mono le _ _ cycle)

section Insert

variable {r : α → α → Prop} {a b : α}

/-- The relation with one more edge. -/
def InsertEdge (r : α → α → Prop) (a b : α) (x y : α) : Prop :=
  r x y ∨ x = a ∧ y = b

/-- A path is an old one, or it takes the new edge, and then once is enough. -/
theorem reflTransGen_insertEdge {x y : α} : ReflTransGen (InsertEdge r a b) x y ↔
    ReflTransGen r x y ∨ ReflTransGen r x a ∧ ReflTransGen r b y := by
  constructor
  · intro path
    induction path with
    | refl => exact .inl .refl
    | tail _ step ih =>
      obtain old | ⟨rfl, rfl⟩ := step
      · exact ih.imp (·.tail old) fun through => ⟨through.1, through.2.tail old⟩
      · exact .inr ⟨ih.elim id (·.1), .refl⟩
  · have old {x y : α} (path : ReflTransGen r x y) : ReflTransGen (InsertEdge r a b) x y :=
      ReflTransGen.mono (fun _ _ step => .inl step) _ _ path
    rintro (path | ⟨first, last⟩)
    · exact old path
    · exact ((old first).tail (.inr ⟨rfl, rfl⟩)).trans (old last)

/-- The new edge closes no cycle where it does not lead back. -/
theorem Acyclic.insertEdge (acyclic : Acyclic r) (open_end : ¬ReflTransGen r b a) :
    Acyclic (InsertEdge r a b) := by
  intro x cycle
  obtain ⟨y, step, path⟩ := TransGen.head'_iff.mp cycle
  rw [reflTransGen_insertEdge] at path
  obtain old | ⟨rfl, rfl⟩ := step
  · obtain path | ⟨first, last⟩ := path
    · exact acyclic x (TransGen.head' old path)
    · exact open_end (last.trans (first.head old))
  · exact open_end (path.elim id fun through => through.1)

end Insert

/-- What happens behind a node that is not reached does not matter. -/
theorem reflTransGen_congr_off {r r' : α → α → Prop} {a root : α}
    (same : ∀ x, x ≠ a → ∀ y, r' x y ↔ r x y) (off : ¬ReflTransGen r root a) {x : α} :
    ReflTransGen r' root x ↔ ReflTransGen r root x := by
  constructor
  · intro path
    induction path with
    | refl => exact .refl
    | tail _ step ih => exact ih.tail ((same _ (fun here => off (here ▸ ih)) _).mp step)
  · intro path
    induction path with
    | refl => exact .refl
    | tail path step ih => exact ih.tail ((same _ (fun here => off (here ▸ path)) _).mpr step)

/-- A relation on numbers that has grown: what is new from `n` on only leads upwards. -/
structure Grows (n : ℕ) (r r' : ℕ → ℕ → Prop) : Prop where
  old : ∀ x y, r x y → r' x y
  inner : ∀ x y, r' x y → x < n → y < n → r x y
  upwards : ∀ x y, r' x y → n ≤ x → x < y

namespace Grows

variable {n : ℕ} {r r' : ℕ → ℕ → Prop} {x y : ℕ}

theorem lt_of_transGen (grows : Grows n r r') (path : TransGen r' x y) (new : n ≤ x) :
    x < y := by
  induction path with
  | single step => exact grows.upwards _ _ step new
  | tail _ step ih =>
    exact Nat.lt_trans ih (grows.upwards _ _ step (Nat.le_of_lt (Nat.lt_of_le_of_lt new ih)))

/-- A path to an old number is an old one. -/
theorem reflTransGen_iff (grows : Grows n r r') (inside : y < n) :
    ReflTransGen r' x y ↔ ReflTransGen r x y := by
  constructor
  · intro path
    induction path with
    | refl => exact .refl
    | @tail b c _ step ih =>
      have before : b < n := by
        by_contra new
        have up := grows.upwards b c step (Nat.not_lt.mp new)
        omega
      exact (ih before).tail (grows.inner b c step before inside)
  · exact fun path => ReflTransGen.mono grows.old _ _ path

theorem acyclic (grows : Grows n r r') (acyclic : Acyclic r) : Acyclic r' := by
  intro x cycle
  by_cases new : n ≤ x
  · exact Nat.lt_irrefl x (grows.lt_of_transGen cycle new)
  · rw [Nat.not_le] at new
    obtain ⟨y, path, step⟩ := TransGen.tail'_iff.mp cycle
    have before : y < n := by
      by_contra other
      have up := grows.upwards y x step (Nat.not_lt.mp other)
      omega
    exact acyclic x (TransGen.tail' ((grows.reflTransGen_iff before).mp path)
      (grows.inner y x step before new))

end Grows

end Foundation
