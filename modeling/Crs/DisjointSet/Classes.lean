import Crs.DisjointSet.Run

/-!
# The number of groups is the number of classes

Two elements are in one class if `find` gives them the same root. `join` counts the
classes down and `clear` starts the count again, while `make_set` only stores a
parent. For an element that represents its own class this changes nothing. Any other
element leaves its class, with everything below it, and is a class that the counter
does not know.
-/

namespace Crs.DisjointSet

open Foundation Finset

variable {n : Nat} {d d' : DisjointSet} {f : RankedForest (Fin n)}

/-- The elements `u` with `find (v) == find (u)`. -/
def classOf (n : Nat) (d : DisjointSet) (v : Fin n) : Finset (Fin n) :=
  univ.filter fun u => d.same v u = some true

/-- The distinct classes. -/
def classes (n : Nat) (d : DisjointSet) : Finset (Finset (Fin n)) := univ.image (classOf n d)

/-- `find (v) == v`. -/
def OwnRoot (d : DisjointSet) (v : Fin n) : Prop := (d.find v).map Prod.fst = some v.val

section Forest

variable (rep : Represents d f)
include rep

theorem Represents.same_iff (u v : Fin n) : d.same u v = some true ↔ f.root u = f.root v := by
  obtain ⟨d₁, foundU, rep₁, -⟩ := rep.find_spec u
  obtain ⟨d₂, foundV, -⟩ := rep₁.find_spec v
  simp [DisjointSet.same, foundU, foundV, Fin.val_inj]

theorem Represents.ownRoot_iff (v : Fin n) : OwnRoot d v ↔ f.root v = v := by
  obtain ⟨d', found, -⟩ := rep.find_spec v
  simp [OwnRoot, found, Fin.val_inj]

theorem Represents.mem_classOf {u v : Fin n} : u ∈ classOf n d v ↔ f.root v = f.root u := by
  simp [classOf, rep.same_iff]

/-- There is one class for every root. -/
theorem Represents.card_classes : #(classes n d) = #f.roots := by
  have byRoot : classes n d = f.roots.image (classOf n d) := by
    apply Finset.ext
    intro c
    simp only [classes, mem_image, mem_univ, true_and]
    constructor
    · rintro ⟨v, rfl⟩
      refine ⟨f.root v, f.root_mem_roots v, ?_⟩
      apply Finset.ext
      intro u
      rw [rep.mem_classOf, rep.mem_classOf, f.root_root]
    · rintro ⟨v, -, rfl⟩
      exact ⟨v, rfl⟩
  rw [byRoot]
  apply card_image_of_injOn
  intro u atU v atV same
  have inside : v ∈ classOf n d u := by
    rw [same]
    exact rep.mem_classOf.mpr rfl
  have roots := rep.mem_classOf.mp inside
  rwa [f.mem_roots.mp atU, f.mem_roots.mp atV] at roots

end Forest

section Detached

/-- An element whose stored parent is itself, or none yet. -/
def Alone (d : DisjointSet) (v : Fin n) : Prop :=
  d.getParent v = some v.val ∨ d.getParent v = some npos

/-- The write of `make_set`. -/
theorem setParent_self (size : d.cont.size = n) (v : Fin n) : ∃ d', d.setParent v v = some d' ∧
    d'.cont.size = n ∧ d'.ngroups = d.ngroups ∧ Alone d' v ∧
      ∀ u : Fin n, Alone d u → Alone d' u := by
  obtain ⟨d', written, size', ngroups, points⟩ := setParent_spec size v v
  have read : ∀ u : Fin n, d'.getParent u = if v = u then some v.val else d.getParent u := by
    intro u
    have within : u.val < d.cont.size := size ▸ u.isLt
    have atU := Array.getElem?_eq_getElem within
    rw [getParent, points u _ atU, getParent, atU]
    split <;> rfl
  refine ⟨d', written, size', ngroups, .inl (by simp [read]), ?_⟩
  intro u aloneU
  obtain same | other := eq_or_ne v u
  · exact .inl (by simp [read, same])
  · simpa [Alone, read, other] using aloneU

/-- Such an element is its own root, and `find` on it leaves the others as they are. -/
theorem Alone.find {v : Fin n} (size : d.cont.size = n) (alone : Alone d v) :
    ∃ d', d.find v = some (v.val, d') ∧ d'.cont.size = n ∧
      ∀ u : Fin n, Alone d u → Alone d' u := by
  obtain ⟨d', written, size', -, -, kept⟩ := setParent_self size v
  refine ⟨d', ?_, size', kept⟩
  by_cases fresh : d.getParent v = some npos
  · simp [DisjointSet.find, fresh, makeSet, written]
  · have own := alone.resolve_right fresh
    have visited : v.val ≠ npos := fun marked => fresh (marked ▸ own)
    have walked : d.walk d.cont.size v = some v.val := by
      obtain ⟨k, more⟩ : ∃ k, d.cont.size = k + 1 :=
        Nat.exists_eq_succ_of_ne_zero (by rw [size]; exact v.pos.ne')
      simp [more, walk, own]
    simp [DisjointSet.find, own, visited, walked, written]

/-- Elements that stand alone are in different classes. -/
theorem card_le_classes (size : d.cont.size = n) {apart : Finset (Fin n)}
    (alone : ∀ v ∈ apart, Alone d v) : (#apart) ≤ #(classes n d) := by
  have same_iff : ∀ u ∈ apart, ∀ v ∈ apart, d.same u v = some true ↔ u = v := by
    intro u inU v inV
    obtain ⟨d₁, foundU, size₁, kept⟩ := (alone u inU).find size
    obtain ⟨d₂, foundV, -⟩ := (kept v (alone v inV)).find size₁
    simp [DisjointSet.same, foundU, foundV, Fin.val_inj]
  apply card_le_card_of_injOn (classOf n d)
  · intro v _
    exact mem_image_of_mem _ (mem_univ v)
  · intro u inU v inV same
    have inside : v ∈ classOf n d u := by
      rw [same]
      simp [classOf, (same_iff v inV v inV).mpr]
    exact (same_iff u inU v inV).mp (by simpa [classOf] using inside)

/-- `make_set` on an element below a root: one class more than the counter says. -/
theorem Represents.makeSet_detaches (rep : Represents d f) {v : Fin n} (below : f.root v ≠ v) :
    ∃ d', d.makeSet v = some (v.val, d') ∧ d'.ngroups < #(classes n d') := by
  obtain ⟨d', written, size, ngroups, aloneV, kept⟩ := setParent_self rep.size v
  refine ⟨d', by simp [makeSet, written], ?_⟩
  have alone : ∀ u ∈ insert v f.roots, Alone d' u := by
    intro u inside
    obtain rfl | isRoot := mem_insert.mp inside
    · exact aloneV
    · apply kept
      obtain ⟨point, atU, stored⟩ := rep.stored u
      have fixed := f.up_eq_self_iff.mpr (f.mem_roots.mp isRoot)
      obtain parent | ⟨fresh, -⟩ := stored.parent
      · exact .inl (by simp [getParent, atU, parent, fixed])
      · exact .inr (by simp [getParent, atU, fresh])
  have more := card_le_classes size alone
  rw [card_insert_of_notMem (by simpa using below)] at more
  rw [ngroups, rep.ngroups]
  omega

end Detached

/-- A forest is generated by its own classes. -/
theorem generated_self (f : RankedForest (Fin n)) :
    f.Generated fun u v => f.root u = f.root v := by
  have equivalence : Equivalence fun u v => f.root u = f.root v :=
    ⟨fun _ => rfl, Eq.symm, Eq.trans⟩
  intro u v
  exact equivalence.eqvGen_iff.symm

/-- One call of the interface on a forest: it does not fail, and only a `make_set` on an
element below a root leaves the forests. -/
theorem Represents.step (rep : Represents d f) (call : Call n) :
    ∃ out d', (machine n).step d call = some (out, d') ∧
      ((∃ f' : RankedForest (Fin n), Represents d' f') ∨
        ∃ v, call = .makeSet v ∧ f.root v ≠ v ∧ d'.ngroups < #(classes n d')) := by
  cases call with
  | find v =>
      obtain ⟨d', found, rep', -⟩ := rep.find_spec v
      exact ⟨some (f.root v).val, d', by simp [machine, found], .inl ⟨_, rep'⟩⟩
  | join u v =>
      obtain ⟨d', united, ⟨f', rep', -⟩, -⟩ := rep.join_spec (generated_self f) u v
      exact ⟨none, d', by simp [machine, united], .inl ⟨f', rep'⟩⟩
  | clear =>
      have fresh : d.clear = new n := by simp [DisjointSet.clear, new, rep.size]
      exact ⟨none, d.clear, rfl, .inl ⟨_, fresh ▸ represents_discrete rep.sized⟩⟩
  | makeSet v =>
      obtain isRoot | below := eq_or_ne (f.root v) v
      · obtain ⟨d', written, -⟩ := setParent_self rep.size v
        refine ⟨some v.val, d', by simp [machine, makeSet, written], .inl ⟨f.compress v, ?_⟩⟩
        apply rep.of_setParent
        rwa [isRoot]
      · obtain ⟨d', made, more⟩ := rep.makeSet_detaches below
        exact ⟨some v.val, d', by simp [machine, made], .inr ⟨v, rfl, below, more⟩⟩

/-- `make_set` is called on an element that represents its own class. -/
def KeepsClasses (d : DisjointSet) (call : Call n) : Prop :=
  ∀ v, call = .makeSet v → OwnRoot d v

/-- The number of groups is the number of classes in all states of a run exactly if each
`make_set` of the run is on an element that represents its own class. -/
theorem run_ngroups_iff (sized : n < 2 ^ 64) {history : List (Call n × Option Nat)}
    (run : (machine n).Run (new n) history d) :
    Machine.Throughout (machine n) (new n) (fun _ d => d.ngroups = #(classes n d)) history ↔
      Machine.BeforeEach (machine n) (new n) (fun _ d call => KeepsClasses d call) history := by
  apply run.throughout_iff (I := fun _ d => d.ngroups = #(classes n d) →
    ∃ f : RankedForest (Fin n), Represents d f)
  · have rep := represents_discrete sized
    exact rep.ngroups.trans rep.card_classes.symm
  · exact fun _ => ⟨_, represents_discrete sized⟩
  · intro history d call out d' holds support step counted
    obtain ⟨f, rep⟩ := support holds
    obtain ⟨out', e, step', forest | ⟨v, -, -, more⟩⟩ := rep.step call
    · obtain ⟨rfl, rfl⟩ : out = out' ∧ d' = e := by simpa [step] using step'
      exact forest
    · obtain ⟨rfl, rfl⟩ : out = out' ∧ d' = e := by simpa [step] using step'
      exact absurd counted more.ne
  · intro history d call out d' holds support step
    obtain ⟨f, rep⟩ := support holds
    obtain ⟨out', e, step', outcome⟩ := rep.step call
    obtain ⟨rfl, rfl⟩ : out = out' ∧ d' = e := by simpa [step] using step'
    constructor
    · rintro counted v rfl
      rw [rep.ownRoot_iff]
      by_contra below
      obtain ⟨e, made, more⟩ := rep.makeSet_detaches below
      obtain ⟨-, rfl⟩ : out = some v.val ∧ d' = e := by simpa [machine, made, eq_comm] using step
      exact absurd counted more.ne
    · intro keeps
      obtain ⟨f', rep'⟩ | ⟨v, rfl, below, -⟩ := outcome
      · exact rep'.ngroups.trans rep'.card_classes.symm
      · exact absurd ((rep.ownRoot_iff v).mp (keeps v rfl)) below

/-- A `make_set` on an element that is still alone. -/
theorem run_ngroups_iff_two : ∃ history d, (machine 2).Run (new 2) history d ∧
    Machine.Throughout (machine 2) (new 2) (fun _ d => d.ngroups = #(classes 2 d)) history := by
  have step : (machine 2).step (new 2) (.makeSet 1) =
      some (some 1, ⟨#[{}, ⟨1, 0⟩], 2⟩) := rfl
  have run := Machine.Run.snoc .nil step
  refine ⟨_, _, run, (run_ngroups_iff (by decide) run).mpr ?_⟩
  refine (Machine.beforeEach_snoc (C := fun _ d call => KeepsClasses d call) .nil).mpr
    ⟨fun _ _ _ _ before => by simp at before, ?_⟩
  rintro v ⟨⟩
  rfl

/-- `join (0, 1)` and then `make_set (1)`: two classes, and the counter says one. -/
theorem makeSet_not_counted : ¬ ∀ history d, (machine 2).Run (new 2) history d →
    d.ngroups = #(classes 2 d) := by
  intro always
  have executed : ∃ history d, (machine 2).exec (new 2) [.join 0 1, .makeSet 1] =
      some (history, d) ∧ d.ngroups ≠ #(classes 2 d) := ⟨_, _, rfl, by decide⟩
  obtain ⟨history, d, computed, differ⟩ := executed
  exact differ (always history d (Machine.run_of_exec computed))

end Crs.DisjointSet
