import Crs.DisjointSet.Classes

/-!
# Ranks, links and the length of the walks

A link is a stored parent other than the element itself. Ranks grow along the links,
although `find` moves links and leaves the rank of a compressed element as it was,
and the class of a root has at least two to the power of its rank elements. A chain
of links is therefore no longer than the logarithm of the number of elements, and
the loop of `find` ends.
-/

namespace Crs.DisjointSet

open Foundation Finset

variable {n : Nat} {d : DisjointSet} {f : RankedForest (Fin n)}

/-- The stored parent of `u` is another element `v`. -/
def Link (d : DisjointSet) (u v : Nat) : Prop := d.getParent u = some v ∧ v ≠ npos ∧ u ≠ v

instance (d : DisjointSet) (u v : Nat) : Decidable (Link d u v) :=
  inferInstanceAs (Decidable (_ ∧ _ ∧ _))

/-- What the ranks say about a vector of `n` points. -/
structure Ranked (n : Nat) (d : DisjointSet) : Prop where
  /-- The rank grows along each link. -/
  grows : ∀ u v, Link d u v → ∃ low high, d.getRank u = some low ∧ d.getRank v = some high ∧
    low < high
  /-- No link leads to an element that still holds the marker. -/
  stamped : ∀ u v, Link d u v → ∃ parent, d.getParent v = some parent ∧ parent ≠ npos
  /-- The class of a root is large enough for its rank. -/
  large : ∀ r : Fin n, OwnRoot d r → ∃ k, d.getRank r = some k ∧ 2 ^ k ≤ #(classOf n d r)
  /-- `find` ends on each element. -/
  ends : ∀ v : Fin n, ∃ root d', d.find v = some (root, d')
  /-- A chain of links is short. -/
  short : ∀ u path, List.IsChain (Link d) (u :: path) → path.length ≤ Nat.log 2 n
  /-- No rank is high. -/
  low : ∀ v k, d.getRank v = some k → k ≤ Nat.log 2 n

namespace Represents

variable (rep : Represents d f)
include rep

/-- A link of the vector is a link of the forest. -/
theorem up_of_link {u v : Nat} (link : Link d u v) :
    ∃ x : Fin n, u = x.val ∧ v = (f.up x).val ∧ f.up x ≠ x := by
  obtain ⟨stored, marked, other⟩ := link
  have within : u < n := by
    rw [getParent, Option.map_eq_some_iff] at stored
    obtain ⟨point, atU, -⟩ := stored
    rw [← rep.size]
    exact (Array.getElem?_eq_some_iff.mp atU).1
  obtain ⟨point, atX, kept⟩ := rep.stored ⟨u, within⟩
  have parent : point.parent = v := by simpa [getParent, atX] using stored
  have up : v = (f.up ⟨u, within⟩).val :=
    parent ▸ kept.parent.resolve_right fun fresh => marked (parent.symm.trans fresh.1)
  refine ⟨⟨u, within⟩, rfl, up, ?_⟩
  intro fixed
  rw [fixed] at up
  exact other up.symm

/-- Along a chain of links the rank grows by at least one with each link. -/
theorem rank_of_chain (x : Fin n) (path : List Nat) (chain : List.IsChain (Link d) (x :: path)) :
    ∃ y : Fin n, path.length + f.rank x ≤ f.rank y := by
  induction path generalizing x with
  | nil => exact ⟨x, by simp⟩
  | cons v path ih =>
      rw [List.isChain_cons_cons] at chain
      obtain ⟨x', here, up, moves⟩ := rep.up_of_link chain.1
      obtain rfl := Fin.ext here
      have grows := f.rank_lt x moves
      obtain ⟨y, above⟩ := ih (f.up x) (up ▸ chain.2)
      refine ⟨y, ?_⟩
      rw [List.length_cons]
      omega

theorem ranked : Ranked n d where
  grows u v link := by
    obtain ⟨x, rfl, rfl, moves⟩ := rep.up_of_link link
    exact ⟨_, _, rep.getRank_eq x, rep.getRank_eq (f.up x), f.rank_lt x moves⟩
  stamped u v link := by
    obtain ⟨x, rfl, rfl, moves⟩ := rep.up_of_link link
    exact ⟨_, rep.getParent_of_linked rfl moves.symm, index_ne_npos rep.sized _⟩
  large r own := by
    have isRoot := (rep.ownRoot_iff r).mp own
    refine ⟨_, rep.getRank_eq r, (f.large r isRoot).trans (card_le_card ?_)⟩
    intro v inClass
    rw [rep.mem_classOf, isRoot]
    simpa [eq_comm] using inClass
  ends v := by
    obtain ⟨d', found, -⟩ := rep.find_spec v
    exact ⟨_, d', found⟩
  short u path chain := by
    cases path with
    | nil => exact Nat.zero_le _
    | cons v path =>
        obtain ⟨x, rfl, -⟩ := rep.up_of_link (List.isChain_cons_cons.mp chain).1
        obtain ⟨y, above⟩ := rep.rank_of_chain x _ chain
        exact (Nat.le_of_add_right_le above).trans (by simpa using f.rank_le_log y)
  low v k stored := by
    have within : v < n := by
      rw [getRank, Option.map_eq_some_iff] at stored
      obtain ⟨point, atV, -⟩ := stored
      rw [← rep.size]
      exact (Array.getElem?_eq_some_iff.mp atV).1
    have known := rep.getRank_eq ⟨v, within⟩
    rw [show d.getRank v = _ from known] at stored
    rw [← Option.some.inj stored]
    simpa using f.rank_le_log ⟨v, within⟩

end Represents

/-- The ranks of every state that `find`, `join` and `clear` reach. -/
theorem run_ranked (sized : n < 2 ^ 64) {history : List (Call n × Option Nat)}
    (run : (keepingMachine n).Run (new n) history d) : Ranked n d := by
  obtain ⟨f, rep, -⟩ := run_denotes sized run
  exact rep.ranked

/-- Two classes of two elements that are joined: a chain of two links. -/
theorem run_ranked_four : ∃ history d, (keepingMachine 4).Run (new 4) history d ∧
    Link d 3 2 ∧ Link d 2 0 ∧ Ranked 4 d := by
  have executed : ∃ history d, (keepingMachine 4).exec (new 4)
      [.join 0 1, .join 2 3, .join 0 2] = some (history, d) ∧ Link d 3 2 ∧ Link d 2 0 :=
    ⟨_, _, rfl, by decide, by decide⟩
  obtain ⟨history, d, computed, first, second⟩ := executed
  have run := Machine.run_of_exec computed
  exact ⟨history, d, run, first, second, run_ranked (by decide) run⟩

end Crs.DisjointSet
