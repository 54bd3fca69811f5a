import Mathlib.Data.Int.Init
import Mathlib.Data.List.Basic
import Mathlib.Data.List.Pairwise

/-!
# Stable partitions

A stable partition of a list by a predicate has the chosen elements in front, and keeps the order
of these and of the others. `deref` and `store` access a list at a position, as an iterator does;
outside the list they are none.
-/

namespace Foundation

variable {α : Type*}

structure StablePartition (p : α → Bool) (l r : List α) : Prop where
  perm : r.Perm l
  front : r.Pairwise fun a b => p b = true → p a = true
  chosen : r.filter p = l.filter p
  others : r.filter (!p ·) = l.filter (!p ·)

theorem stablePartition_filter (p : α → Bool) (l : List α) :
    StablePartition p l (l.filter p ++ l.filter (!p ·)) where
  perm := List.filter_append_perm p l
  front := by
    refine List.pairwise_append.mpr ⟨?_, ?_, ?_⟩
    · refine List.pairwise_of_forall_mem_list fun a member _ _ _ => ?_
      exact (List.mem_filter.mp member).2
    · refine List.pairwise_of_forall_mem_list fun _ _ b member chosen => ?_
      simp [chosen] at member
    · exact fun a member _ _ _ => (List.mem_filter.mp member).2
  chosen := by simp [List.filter_filter]
  others := by simp [List.filter_filter]

section Positions

def deref (l : List α) (p : ℤ) : Option α := if 0 ≤ p then l[p.toNat]? else none

def store (l : List α) (p : ℤ) (a : α) : Option (List α) :=
  if 0 ≤ p ∧ p < l.length then some (l.set p.toNat a) else none

@[simp] theorem deref_append (front behind : List α) (a : α) :
    deref (front ++ a :: behind) front.length = some a := by
  simp [deref]

@[simp] theorem store_append (front behind : List α) (a b : α) :
    store (front ++ a :: behind) front.length b = some (front ++ b :: behind) := by
  have inside : 0 ≤ (front.length : ℤ) ∧
      (front.length : ℤ) < (front ++ a :: behind).length := by
    rw [List.length_append, List.length_cons]
    omega
  rw [store, if_pos inside]
  simp

end Positions

end Foundation
