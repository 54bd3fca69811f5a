import Crs.DisjointSet.Basic
import Crs.Foundation.RankedForest

/-!
# The sets are the components of the joined pairs

The vector represents a forest linked by rank. `find` compresses it, `join` links
two of its roots and `clear` starts it again, so the classes of the forest are
always the components of the pairs that were joined. A point that holds `npos`
stands for a root that nothing else links to, which is why a walk never meets one.
-/

namespace Crs.DisjointSet

open Foundation Finset

variable {n : Nat} {d : DisjointSet} {f : RankedForest (Fin n)} {r : Fin n → Fin n → Prop}

/-- What the vector holds for an element of the forest. -/
structure Stored (f : RankedForest (Fin n)) (v : Fin n) (point : PointData) : Prop where
  rank : point.rank = f.rank v
  parent : point.parent = f.up v ∨ point.parent = npos ∧ ∀ u, f.up u = v ↔ u = v

structure Represents (d : DisjointSet) (f : RankedForest (Fin n)) : Prop where
  sized : n < 2 ^ 64
  size : d.cont.size = n
  stored : ∀ v : Fin n, ∃ point, d.cont[v.val]? = some point ∧ Stored f v point
  ngroups : d.ngroups = #f.roots

/-- The object represents some forest with these components. -/
def Denotes (d : DisjointSet) (r : Fin n → Fin n → Prop) : Prop :=
  ∃ f : RankedForest (Fin n), Represents d f ∧ f.Generated r

theorem index_ne_npos (sized : n < 2 ^ 64) (v : Fin n) : v.val ≠ npos := by
  have := v.isLt
  simp only [npos]
  omega

/-- A fresh vector of `n` points is the forest without links. -/
theorem represents_discrete (sized : n < 2 ^ 64) :
    Represents (new n) (.discrete : RankedForest (Fin n)) where
  sized := sized
  size := by simp [new]
  stored v := by
    refine ⟨{}, by simp [new], rfl, .inr ⟨rfl, fun u => ?_⟩⟩
    rfl
  ngroups := by simp [new, RankedForest.roots, RankedForest.discrete]

theorem denotes_new (sized : n < 2 ^ 64) : Denotes (new n) fun _ _ : Fin n => False :=
  ⟨.discrete, represents_discrete sized, RankedForest.discrete_generated⟩

section Writes

/-- A write of a parent reaches one point. -/
theorem setParent_spec (size : d.cont.size = n) (v : Fin n) (parent : Nat) :
    ∃ d', d.setParent v parent = some d' ∧ d'.cont.size = n ∧ d'.ngroups = d.ngroups ∧
      ∀ (u : Fin n) point, d.cont[u.val]? = some point →
        d'.cont[u.val]? = some (if v = u then { point with parent } else point) := by
  have bound : v.val < d.cont.size := size ▸ v.isLt
  refine ⟨_, if_pos bound, by simpa using size, rfl, fun u point atU => ?_⟩
  obtain same | other := eq_or_ne v u
  · simp [Array.getElem?_modify, same, atU]
  · simp [Array.getElem?_modify, other, atU, Fin.val_inj]

theorem incrementRank_spec (size : d.cont.size = n) (v : Fin n) :
    ∃ d', d.incrementRank v = some d' ∧ d'.cont.size = n ∧ d'.ngroups = d.ngroups ∧
      ∀ (u : Fin n) point, d.cont[u.val]? = some point → d'.cont[u.val]? =
        some (if v = u then { point with rank := increment point.rank } else point) := by
  have bound : v.val < d.cont.size := size ▸ v.isLt
  refine ⟨_, if_pos bound, by simpa using size, rfl, fun u point atU => ?_⟩
  obtain same | other := eq_or_ne v u
  · simp [Array.getElem?_modify, same, atU]
  · simp [Array.getElem?_modify, other, atU, Fin.val_inj]

end Writes

namespace Represents

variable (rep : Represents d f)
include rep

theorem getRank_eq (v : Fin n) : d.getRank v = some (f.rank v) := by
  obtain ⟨point, atV, stored⟩ := rep.stored v
  simp [getRank, atV, stored.rank]

/-- An element that another one links to has been visited. -/
theorem getParent_of_linked {u v : Fin n} (linked : f.up u = v) (other : u ≠ v) :
    d.getParent v = some (f.up v).val := by
  obtain ⟨point, atV, stored⟩ := rep.stored v
  obtain parent | ⟨_, alone⟩ := stored.parent
  · simp [getParent, atV, parent]
  · exact absurd ((alone u).mp linked) other

/-- From a visited element the walk ends at its root, within the length of the vector. -/
theorem walk_eq (fuel : Nat) (v : Fin n) (visited : d.getParent v = some (f.up v).val)
    (enough : n ≤ f.rank v + fuel) : d.walk fuel v = some (f.root v).val := by
  induction fuel generalizing v with
  | zero =>
      have := f.rank_lt_card v
      rw [Fintype.card_fin] at this
      omega
  | succ fuel ih =>
      obtain fixed | onward := eq_or_ne (f.up v) v
      · simp [walk, visited, fixed, f.root_of_up v fixed]
      · have moves : (v : Nat) ≠ f.up v := fun eq => onward (Fin.ext eq.symm)
        have grows := f.rank_lt v onward
        have rest := ih (f.up v) (rep.getParent_of_linked rfl (Ne.symm onward)) (by omega)
        rw [f.root_up] at rest
        simp [walk, visited, moves, rest]

/-- Storing the root of an element as its parent compresses the forest. -/
theorem of_setParent {d' : DisjointSet} {v : Fin n} (written : d.setParent v (f.root v) = some d') :
    Represents d' (f.compress v) := by
  obtain ⟨_, same, size, ngroups, points⟩ := setParent_spec rep.size v (f.root v)
  obtain rfl := Option.some.inj (same.symm.trans written)
  refine ⟨rep.sized, size, fun u => ?_, ngroups.trans rep.ngroups⟩
  obtain ⟨point, atU, stored⟩ := rep.stored u
  refine ⟨_, points u point atU, ?_⟩
  obtain here | elsewhere := eq_or_ne v u
  · subst here
    exact ⟨by simpa using stored.rank, .inl (by simp)⟩
  · rw [if_neg elsewhere]
    refine ⟨stored.rank, ?_⟩
    obtain parent | ⟨fresh, alone⟩ := stored.parent
    · exact .inl (by simpa [Function.update_of_ne (Ne.symm elsewhere)] using parent)
    · refine .inr ⟨fresh, fun w => ?_⟩
      obtain moved | stays := eq_or_ne w v
      · simpa [moved] using f.root_eq_iff_of_alone alone v
      · simpa [Function.update_of_ne stays] using alone w

/-- `find` returns the root and compresses the path of its argument. -/
theorem find_spec (v : Fin n) : ∃ d', d.find v = some ((f.root v).val, d') ∧
    Represents d' (f.compress v) ∧ d'.getParent (f.root v) = some (f.root v).val ∧
      ∀ u : Fin n, d.getParent u = some u.val → d'.getParent u = some u.val := by
  obtain ⟨d', written, _, _, points⟩ := setParent_spec rep.size v (f.root v)
  have compressed := rep.of_setParent written
  refine ⟨d', ?_, compressed, ?_, ?_⟩
  · obtain ⟨point, atV, stored⟩ := rep.stored v
    obtain fresh | stamped := eq_or_ne point.parent npos
    · -- An unvisited element is a root, so `make_set` writes what a walk would.
      have alone : f.up v = v := by
        obtain parent | ⟨_, alone⟩ := stored.parent
        · exact absurd (parent.symm.trans fresh) (index_ne_npos rep.sized _)
        · exact (alone v).mpr rfl
      have root := f.root_of_up v alone
      rw [root] at written ⊢
      simp [find, makeSet, getParent, atV, fresh, written]
    · have parent : point.parent = f.up v :=
        stored.parent.resolve_right fun marked => stamped marked.1
      have visited : d.getParent v = some (f.up v).val := by simp [getParent, atV, parent]
      have walked : d.walk d.cont.size (f.up v) = some (f.root v).val := by
        have upVisited : d.getParent (f.up v) = some (f.up (f.up v)).val := by
          obtain fixed | moves := eq_or_ne (f.up v) v
          · rw [fixed, visited, fixed]
          · exact rep.getParent_of_linked rfl (Ne.symm moves)
        rw [rep.walk_eq _ _ upVisited (by rw [rep.size]; omega), f.root_up]
      rw [parent] at stamped
      simp [find, visited, stamped, walked, written]
  · obtain root | inner := eq_or_ne (f.root v) v
    · obtain ⟨point, atV, _⟩ := rep.stored v
      simp [getParent, root, points v point atV]
    · have linked := compressed.getParent_of_linked (u := v) rfl (by simpa using Ne.symm inner)
      simpa [Function.update_of_ne inner, f.up_root] using linked
  · intro u visited
    obtain ⟨point, atU, stored⟩ := rep.stored u
    have parent : point.parent = u := by simpa [getParent, atU] using visited
    obtain here | elsewhere := eq_or_ne v u
    · have fixed : f.up v = v := by
        subst here
        obtain link | ⟨fresh, _⟩ := stored.parent
        · exact Fin.ext (link.symm.trans parent)
        · exact absurd (parent.symm.trans fresh) (index_ne_npos rep.sized _)
      subst here
      simp [getParent, points v point atU, f.root_of_up v fixed]
    · simp [getParent, points u point atU, elsewhere, parent]

/-- The writes of a join hang the root `x` below the visited root `y`. -/
theorem of_link {d' : DisjointSet} {x y : Fin n} {k : Nat} (xroot : f.root x = x)
    (yroot : f.root y = y) (distinct : x ≠ y) (above : f.rank x < k) (grown : f.rank y ≤ k)
    (enough : 2 ^ k ≤ 2 ^ f.rank x + 2 ^ f.rank y) (visited : d.getParent y = some y.val)
    (size : d'.cont.size = n) (ngroups : d'.ngroups = decrement d.ngroups)
    (points : ∀ (u : Fin n) point, d.cont[u.val]? = some point → d'.cont[u.val]? =
      some ⟨if x = u then y else point.parent, if y = u then k else point.rank⟩) :
    Represents d' (f.link x y k xroot yroot distinct above grown enough) := by
  have fewer := f.card_link_roots xroot yroot distinct above grown enough
  refine ⟨rep.sized, size, fun u => ?_, ?_⟩
  · obtain ⟨point, atU, stored⟩ := rep.stored u
    refine ⟨_, points u point atU, ?_, ?_⟩
    · obtain top | lower := eq_or_ne y u
      · simp [top]
      · simp [lower, Function.update_of_ne (Ne.symm lower), stored.rank]
    · obtain moved | stays := eq_or_ne x u
      · simp [moved]
      · obtain parent | ⟨fresh, alone⟩ := stored.parent
        · exact .inl (by simp [stays, Function.update_of_ne (Ne.symm stays), parent])
        · have other : y ≠ u := by
            intro top
            subst top
            have parent : point.parent = y := by simpa [getParent, atU] using visited
            exact index_ne_npos rep.sized y (parent.symm.trans fresh)
          refine .inr ⟨by simp [stays, fresh], fun w => ?_⟩
          obtain lower | others := eq_or_ne w x
          · simp [lower, stays, other]
          · simpa [Function.update_of_ne others] using alone w
  · have bound : #f.roots ≤ n := by simpa using card_le_univ f.roots
    have sized := rep.sized
    rw [ngroups, rep.ngroups, ← fewer, decrement_succ (by omega)]

section Hang

variable {x y : Fin n} (xroot : f.root x = x) (yroot : f.root y = y) (distinct : x ≠ y)
  (visited : d.getParent y = some y.val)
include visited

/-- The lower of two ranks: one write. -/
theorem hang_lower (less : f.rank x < f.rank y) : ∃ d', d.setParent x y = some d' ∧
    Represents { d' with ngroups := decrement d'.ngroups }
      (f.link x y (f.rank y) xroot yroot distinct less le_rfl (by simp)) := by
  obtain ⟨d', written, size, ngroups, points⟩ := setParent_spec rep.size x y
  refine ⟨d', written, rep.of_link xroot yroot distinct less le_rfl (by simp) visited size ?_ ?_⟩
  · rw [ngroups]
  · intro u point atU
    obtain ⟨_, atU', stored⟩ := rep.stored u
    obtain rfl := Option.some.inj (atU.symm.trans atU')
    have rank : (if y = u then f.rank y else point.rank) = point.rank := by
      split
      · rename_i top
        rw [stored.rank, top]
      · rfl
    rw [rank, points u point atU]
    split <;> rfl

/-- Equal ranks: the rank of the upper root grows by one, far below the range of `size_t`. -/
theorem hang_tied (tied : f.rank x = f.rank y) : ∃ d₁ d₂, d.setParent x y = some d₁ ∧
    d₁.incrementRank y = some d₂ ∧ Represents { d₂ with ngroups := decrement d₂.ngroups }
      (f.link x y (f.rank y + 1) xroot yroot distinct (by omega) (by omega)
        (by rw [tied, pow_succ]; omega)) := by
  obtain ⟨d₁, written, size₁, ngroups₁, points₁⟩ := setParent_spec rep.size x y
  obtain ⟨d₂, raised, size₂, ngroups₂, points₂⟩ := incrementRank_spec size₁ y
  refine ⟨d₁, d₂, written, raised,
    rep.of_link xroot yroot distinct (by omega) (by omega) _ visited size₂ ?_ ?_⟩
  · rw [ngroups₂, ngroups₁]
  · intro u point atU
    obtain ⟨_, atU', stored⟩ := rep.stored u
    obtain rfl := Option.some.inj (atU.symm.trans atU')
    have small : increment (f.rank y) = f.rank y + 1 := by
      have below := f.rank_lt_card y
      have sized := rep.sized
      rw [Fintype.card_fin] at below
      exact increment_of_lt (by omega)
    rw [points₂ u _ (points₁ u point atU)]
    obtain top | lower := eq_or_ne y u
    · subst top
      simp [stored.rank, small, distinct]
    · by_cases moved : x = u <;> simp [lower, moved]

end Hang

/-- What a link of the roots of `a` and `b` denotes. -/
theorem denotes_link (generated : f.Generated r) {d' : DisjointSet} {a b x y : Fin n} {k : Nat}
    (xroot : f.root x = x) (yroot : f.root y = y) (distinct : x ≠ y) (above : f.rank x < k)
    (grown : f.rank y ≤ k) (enough : 2 ^ k ≤ 2 ^ f.rank x + 2 ^ f.rank y)
    (ends : f.root a = x ∧ f.root b = y ∨ f.root a = y ∧ f.root b = x)
    (linked : Represents d' (f.link x y k xroot yroot distinct above grown enough)) :
    Denotes d' (withEdge r a b) ∧ d'.ngroups ≤ d.ngroups := by
  refine ⟨⟨_, linked, generated.link xroot yroot distinct above grown enough ends⟩, ?_⟩
  have fewer := f.card_link_roots xroot yroot distinct above grown enough
  rw [← linked.ngroups, ← rep.ngroups] at fewer
  omega

/-- `join` adds an edge between its arguments, and the number of groups does not grow. -/
theorem join_spec (generated : f.Generated r) (a b : Fin n) :
    ∃ d', d.join a b = some d' ∧ Denotes d' (withEdge r a b) ∧ d'.ngroups ≤ d.ngroups := by
  obtain ⟨d₁, foundX, rep₁, visitedX₁, -⟩ := rep.find_spec a
  obtain ⟨d₂, foundY, rep₂, visitedY, kept⟩ := rep₁.find_spec b
  have visitedX := kept _ visitedX₁
  rw [RankedForest.compress_root] at foundY visitedY
  have rankX := rep₂.getRank_eq (f.root a)
  have rankY := rep₂.getRank_eq (f.root b)
  have counted : d₂.ngroups = d.ngroups := rep₂.ngroups.trans rep.ngroups.symm
  have generated₂ : ((f.compress a).compress b).Generated r := generated
  have rootX : ((f.compress a).compress b).root a = f.root a := rfl
  have rootY : ((f.compress a).compress b).root b = f.root b := rfl
  have fixedX : ((f.compress a).compress b).root (f.root a) = f.root a := f.root_root a
  have fixedY : ((f.compress a).compress b).root (f.root b) = f.root b := f.root_root b
  simp only [join, foundX, foundY, Option.bind_eq_bind, Option.bind_some, rankX, rankY]
  generalize (f.compress a).compress b = g at *
  generalize f.root a = x at *
  generalize f.root b = y at *
  obtain same | other := eq_or_ne x y
  · refine ⟨d₂, by simp [same], ⟨g, rep₂, generated₂.inside ?_⟩, counted.le⟩
    rw [rootX, rootY, same]
  · have differ : (x : Nat) ≠ y := fun eq => other (Fin.ext eq)
    rw [← counted]
    obtain less | tied | more := lt_trichotomy (g.rank x) (g.rank y)
    · obtain ⟨d₃, written, rep₃⟩ := rep₂.hang_lower fixedX fixedY other visitedY less
      refine ⟨_, ?_, rep₂.denotes_link generated₂ _ _ _ _ _ _ (.inl ⟨rootX, rootY⟩) rep₃⟩
      simp [differ, less, written]
    · obtain ⟨d₃, d₄, written, raised, rep₄⟩ :=
        rep₂.hang_tied fixedY fixedX (Ne.symm other) visitedX tied.symm
      refine ⟨_, ?_, rep₂.denotes_link generated₂ _ _ _ _ _ _ (.inr ⟨rootX, rootY⟩) rep₄⟩
      simp [differ, tied, written, raised]
    · obtain ⟨d₃, written, rep₃⟩ :=
        rep₂.hang_lower fixedY fixedX (Ne.symm other) visitedX more
      refine ⟨_, ?_, rep₂.denotes_link generated₂ _ _ _ _ _ _ (.inr ⟨rootX, rootY⟩) rep₃⟩
      simp [differ, more, more.le, written]

end Represents

end Crs.DisjointSet
