import Mathlib.Data.List.Basic
import Mathlib.Data.List.Pairwise
import Mathlib.Order.Lattice
import Mathlib.Order.Monotone.Defs

/-!
# Scans of positions

A scan for the maximum visits positions in some order and takes a position over
when it is strictly better than the best one so far. `Leads` says what it
arrives at: the greatest value and, among equals, the position visited first.
The order of the visits is given by a rank, so two scans of the same positions
are compared by their ranks.

`foldl_keep` is about scans for an outermost position. One that walks inwards
and stops at the first hit finds what one that walks outwards and keeps the last
hit ends with.
-/

namespace Foundation.Scan

variable {ι α β : Type*} [LinearOrder α] [LinearOrder β] {f : ι → α} {rank : ι → β}
variable {l : List ι} {i j : ι}

/-- In an order of visits, what has been seen ranks in front of the next position. -/
theorem rank_le_of_pairwise {seen more : List ι}
    (order : (seen ++ i :: more).Pairwise fun j k => rank j < rank k) :
    ∀ k ∈ seen, rank k ≤ rank i := by
  intro k member
  obtain ⟨-, -, across⟩ := List.pairwise_append.mp order
  exact (across k member i List.mem_cons_self).le

/-- `i` is the best of the positions `l`: greatest by `f`, and first by `rank` among equals. -/
def Leads (f : ι → α) (rank : ι → β) (l : List ι) (i : ι) : Prop :=
  i ∈ l ∧ ∀ j ∈ l, f j < f i ∨ f j = f i ∧ rank i ≤ rank j

namespace Leads

theorem mem (best : Leads f rank l i) : i ∈ l := best.1

theorem singleton (f : ι → α) (rank : ι → β) (i : ι) : Leads f rank [i] i := by
  simp [Leads]

theorem le (best : Leads f rank l i) (member : j ∈ l) : f j ≤ f i := by
  rcases best.2 j member with less | ⟨same, -⟩
  · exact less.le
  · exact same.le

/-- A position visited later takes over only by a greater value. -/
theorem snoc (best : Leads f rank l i) (later : ∀ k ∈ l, rank k ≤ rank j) :
    Leads f rank (l ++ [j]) (if f i < f j then j else i) := by
  split
  case isTrue better =>
    refine ⟨by simp, fun k member => ?_⟩
    rcases List.mem_append.mp member with before | new
    · exact .inl ((best.le before).trans_lt better)
    · obtain rfl := List.mem_singleton.mp new
      exact .inr ⟨rfl, le_rfl⟩
  case isFalse worse =>
    refine ⟨List.mem_append_left _ best.mem, fun k member => ?_⟩
    rcases List.mem_append.mp member with before | new
    · exact best.2 k before
    · obtain rfl := List.mem_singleton.mp new
      rcases (not_lt.mp worse).lt_or_eq with less | same
      · exact .inl less
      · exact .inr ⟨same, later i best.mem⟩

/-- Only the values at the positions matter. -/
theorem congr {f' : ι → α} (best : Leads f rank l i) (same : ∀ k ∈ l, f' k = f k) :
    Leads f' rank l i := by
  refine ⟨best.mem, fun k member => ?_⟩
  rw [same k member, same i best.mem]
  exact best.2 k member

/-- A strictly monotone change of the values keeps the leader. -/
theorem map {γ : Type*} [LinearOrder γ] {g : α → γ} (mono : StrictMono g)
    (best : Leads f rank l i) : Leads (fun k => g (f k)) rank l i := by
  refine ⟨best.mem, fun k member => ?_⟩
  rcases best.2 k member with less | ⟨same, order⟩
  · exact .inl (mono less)
  · exact .inr ⟨congrArg g same, order⟩

/-- With no two positions of one rank, a leader is the position that ranks first among the
positions with the greatest value. -/
theorem eq_iff (distinct : ∀ k ∈ l, ∀ k' ∈ l, rank k = rank k' → k = k')
    (best : Leads f rank l i) (member : j ∈ l) (top : ∀ k ∈ l, f k ≤ f j) :
    i = j ↔ ∀ k ∈ l, f k = f j → rank j ≤ rank k := by
  constructor
  · rintro rfl k visited same
    rcases best.2 k visited with less | ⟨-, order⟩
    · exact absurd same less.ne
    · exact order
  · intro first
    have same : f i = f j := le_antisymm (top i best.mem) (best.le member)
    rcases best.2 j member with less | ⟨-, order⟩
    · exact absurd same less.ne'
    · exact distinct i best.mem j member (le_antisymm order (first i best.mem same))

theorem unique (distinct : ∀ k ∈ l, ∀ k' ∈ l, rank k = rank k' → k = k')
    (best : Leads f rank l i) (best' : Leads f rank l j) : i = j := by
  refine (eq_iff distinct best best'.mem fun k => best'.le).mpr fun k member same => ?_
  rcases best'.2 k member with less | ⟨-, order⟩
  · exact absurd same less.ne
  · exact order

end Leads

/-- Keeping the last hit of a walk is stopping at the first hit of the walk back. -/
theorem foldl_keep (p : ι → Prop) [DecidablePred p] (l : List ι) (start : ι) :
    l.foldl (fun kept i => if p i then i else kept) start =
      (l.reverse.find? fun i => p i).getD start := by
  induction l generalizing start with
  | nil => simp
  | cons i l ih =>
    rw [List.foldl_cons, ih, List.reverse_cons, List.find?_append]
    cases l.reverse.find? fun i => p i with
    | some k => simp
    | none =>
      by_cases hit : p i
      · simp [hit]
      · simp [hit]

end Foundation.Scan
