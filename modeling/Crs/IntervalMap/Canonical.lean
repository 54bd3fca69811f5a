import Crs.Foundation.Machine
import Crs.IntervalMap.Basic
import Mathlib.Data.List.Chain
import Mathlib.Data.Set.Lattice
import Mathlib.Data.Set.Piecewise
import Mathlib.Order.CompletePartialOrder
import Mathlib.Order.Interval.Set.Defs
import Mathlib.Order.Nat

/-!
# Interval maps as functions

The purpose of an interval map is to be a function on keys that is overridden on
intervals. `overlay` is that abstract operation, and `machine_refines` connects
it to the container. The value before a cut of the keys is computed once, in
`valueWhere_assigned`: with the cut `(· ≤ k)` it gives the look-up after `assign`,
with the cut `(· < k)` the left neighbour of an entry, hence canonicity.

A canonical container is determined by its function: its keys are the points at
which the function is not constant on any interval ending there.
-/

namespace Crs.IntervalMap

open Foundation

universe u

variable {K V : Type u} [LinearOrder K]

/-- The arguments of one call of `assign`. -/
structure Assign (K V : Type u) where
  keyBegin : K
  keyEnd : K
  val : V

/-- Override a function on the interval of a call. -/
def overlay (f : K → V) (c : Assign K V) : K → V :=
  (Set.Ico c.keyBegin c.keyEnd).piecewise (fun _ => c.val) f

/-- Overlays on disjoint intervals commute. -/
theorem overlay_comm {c d : Assign K V}
    (disjoint : Disjoint (Set.Ico c.keyBegin c.keyEnd) (Set.Ico d.keyBegin d.keyEnd)) (f : K → V) :
    overlay (overlay f c) d = overlay (overlay f d) c := by
  funext k
  have apart : ¬ (k ∈ Set.Ico c.keyBegin c.keyEnd ∧ k ∈ Set.Ico d.keyBegin d.keyEnd) :=
    fun both => Set.disjoint_left.mp disjoint both.1 both.2
  simp only [overlay, Set.piecewise]
  split <;> split <;> first | rfl | exact absurd ⟨‹_›, ‹_›⟩ apart

theorem overlay_idem (f : K → V) (c : Assign K V) : overlay (overlay f c) c = overlay f c := by
  funext k
  simp only [overlay, Set.piecewise]
  split <;> rfl

theorem specRun_overlay (f : K → V) (calls : List (Assign K V)) :
    Machine.specRun (fun (f : K → V) c => (decide (c.keyBegin < c.keyEnd), overlay f c)) f calls =
      (calls.map fun c => (c, decide (c.keyBegin < c.keyEnd)), calls.foldl overlay f) := by
  induction calls generalizing f with
  | nil => rfl
  | cons c calls ih => rw [Machine.specRun, ih]; rfl

/-- The container under calls of `assign`; a call reports its return value. -/
def machine [BEq V] : Machine (IntervalMap K V) (Assign K V) Bool where
  step m c := m.assign c.keyBegin c.keyEnd c.val

/-- The subscript operator finds the last entry up to the key. -/
theorem lookup_eq (m : IntervalMap K V) (k : K) : m.lookup k = m.map.valueWhere (· ≤ k) := by
  have cut : m.map.lastWhere (fun j => (j : WithTop K) < m.map.upperBound k) =
      m.map.lastWhere (· ≤ k) :=
    OrderedMap.lastWhere_congr fun j w => and_congr_left OrderedMap.lt_upperBound_iff
  simp only [lookup, OrderedMap.prev, cut, OrderedMap.valueWhere]
  cases last : m.map.lastWhere (· ≤ k) with
  | none => rfl
  | some e => simpa using (OrderedMap.lastWhere_eq_some_iff.mp last).1

section Cuts

variable [BEq V] {map map' : OrderedMap K V} {keyBegin keyEnd : K} {val : V}
variable {p : K → Prop} [DecidablePred p]

/-- Below the left border nothing changes. -/
private theorem valueWhere_assigned_before
    (look : ∀ k, map'.get? k = assigned map keyBegin keyEnd val k)
    (down : ∀ i j, i ≤ j → p j → p i) (before : ¬ p keyBegin) :
    map'.valueWhere p = map.valueWhere p := by
  refine OrderedMap.valueWhere_congr fun j w => and_congr_right fun below => ?_
  have lt : j < keyBegin := not_le.mp fun le => before (down _ _ le below)
  rw [look, assigned, if_pos lt]

variable [LawfulBEq V]

/-- A cut inside the interval sees the assigned value. -/
private theorem valueWhere_assigned_inside
    (look : ∀ k, map'.get? k = assigned map keyBegin keyEnd val k)
    (down : ∀ i j, i ≤ j → p j → p i) (fromBegin : p keyBegin) (toEnd : ¬ p keyEnd) :
    map'.valueWhere p = some val := by
  have lt : ∀ j, p j → j < keyEnd := fun j below => not_le.mp fun le => toEnd (down _ _ le below)
  by_cases joined : map.valueWhere (· < keyBegin) = some val
  · rw [← joined]
    refine OrderedMap.valueWhere_congr fun j w => ?_
    have := lt j
    have := down j keyBegin
    rw [look, assigned]
    grind
  · have stored : map'.get? keyBegin = some val := by simp [look, assigned, joined]
    refine OrderedMap.valueWhere_eq_some stored fromBegin fun j w at_j below => ?_
    have := lt j below
    rw [look, assigned] at at_j
    grind

/-- Past the right border the values are the old ones. -/
private theorem valueWhere_assigned_after [OrderBot K] (rooted : Rooted map)
    (nonempty : keyBegin < keyEnd) (look : ∀ k, map'.get? k = assigned map keyBegin keyEnd val k)
    (down : ∀ i j, i ≤ j → p j → p i) (past : p keyEnd) :
    map'.valueWhere p = map.valueWhere p := by
  obtain ⟨root, least⟩ := rooted
  obtain ⟨j, w, last, _⟩ := OrderedMap.exists_lastWhere (p := p) least (down _ _ bot_le past)
  obtain ⟨stored, below, greatest⟩ := OrderedMap.lastWhere_eq_some_iff.mp last
  have old : map.valueWhere p = some w := by
    rw [OrderedMap.valueWhere, last]
    rfl
  rw [old]
  by_cases later : keyEnd < j
  · have kept : map'.get? j = some w := by
      rw [look, assigned]
      grind
    refine OrderedMap.valueWhere_eq_some kept below fun i u at_i below_i => ?_
    rw [look, assigned] at at_i
    grind
  · -- no entry lies between the right border and the cut
    have current : map.valueWhere (· ≤ keyEnd) = some w :=
      OrderedMap.valueWhere_eq_some stored (not_lt.mp later)
        fun i u at_i le => greatest i u at_i (down _ _ le past)
    obtain joined | apart := eq_or_ne w val
    · rw [joined, ← valueWhere_assigned_inside (p := (· < keyEnd)) look
        (fun _ _ le lt => le.trans_lt lt) nonempty (lt_irrefl _)]
      refine OrderedMap.valueWhere_congr fun i u => ?_
      have := down i keyEnd
      have := greatest i u
      rw [look, assigned, current]
      grind
    · have kept : map'.get? keyEnd = some w := by
        rw [look, assigned, current]
        simp [nonempty.not_gt, nonempty.ne', apart]
      refine OrderedMap.valueWhere_eq_some kept past fun i u at_i below_i => ?_
      have := greatest i u
      rw [look, assigned] at at_i
      grind

/-- The value before any cut after an assignment. -/
theorem valueWhere_assigned [OrderBot K] (rooted : Rooted map) (nonempty : keyBegin < keyEnd)
    (look : ∀ k, map'.get? k = assigned map keyBegin keyEnd val k)
    (down : ∀ i j, i ≤ j → p j → p i) [Decidable (p keyBegin ∧ ¬ p keyEnd)] :
    map'.valueWhere p = if p keyBegin ∧ ¬ p keyEnd then some val else map.valueWhere p := by
  by_cases fromBegin : p keyBegin
  · by_cases past : p keyEnd
    · simpa [past] using valueWhere_assigned_after rooted nonempty look down past
    · simpa [fromBegin, past] using valueWhere_assigned_inside look down fromBegin past
  · simpa [fromBegin] using valueWhere_assigned_before look down fromBegin

end Cuts

/-- The representation promised by the header: the least key is stored, and no
entry repeats the value of the entry before it. -/
structure Canonical [OrderBot K] (m : IntervalMap K V) : Prop where
  rooted : Rooted m.map
  distinct : ∀ k v, m.map.get? k = some v → m.map.valueWhere (· < k) ≠ some v

/-- An interval map that carries its canonical form. -/
structure CanonicalMap (K V : Type u) [LinearOrder K] [OrderBot K] where
  container : IntervalMap K V
  canonical : Canonical container

section Function

variable [OrderBot K] {m : IntervalMap K V}

/-- Every key has a value once the least key is stored. -/
theorem lookup_isSome (rooted : Rooted m.map) (k : K) : (m.lookup k).isSome := by
  obtain ⟨v, least⟩ := rooted
  obtain ⟨j, w, last, _⟩ := OrderedMap.exists_lastWhere (p := (· ≤ k)) least bot_le
  rw [lookup_eq, OrderedMap.valueWhere, last]
  rfl

/-- A value at the least key is stored there. -/
theorem rooted_of_valueWhere {map : OrderedMap K V}
    (h : (map.valueWhere (· ≤ ⊥)).isSome) : Rooted map := by
  rw [OrderedMap.valueWhere, Option.isSome_map] at h
  obtain ⟨⟨k, v⟩, last⟩ := Option.isSome_iff_exists.mp h
  obtain ⟨stored, bottom, _⟩ := OrderedMap.lastWhere_eq_some_iff.mp last
  exact ⟨v, le_bot_iff.mp bottom ▸ stored⟩

/-- The function that a canonical container stands for. -/
def CanonicalMap.denote (m : CanonicalMap K V) (k : K) : V :=
  (m.container.lookup k).get (lookup_isSome m.canonical.rooted k)

theorem CanonicalMap.lookup_eq_denote (m : CanonicalMap K V) (k : K) :
    m.container.lookup k = some (m.denote k) :=
  (Option.some_get _).symm

theorem CanonicalMap.valueWhere_eq_denote (m : CanonicalMap K V) (k : K) :
    m.container.map.valueWhere (· ≤ k) = some (m.denote k) := by
  rw [← lookup_eq, lookup_eq_denote]

/-- A point at which a function is not constant on any interval ending there. The
least key is such a point. -/
def Breakpoint (f : K → V) (k : K) : Prop := ∀ j, j < k → ∃ i, j ≤ i ∧ i < k ∧ f i ≠ f k

/-- The entries of a canonical container are the breakpoints of its function. -/
theorem CanonicalMap.get?_eq_some_iff (m : CanonicalMap K V) {k : K} {v : V} :
    m.container.map.get? k = some v ↔ m.denote k = v ∧ Breakpoint m.denote k := by
  obtain ⟨root, least⟩ := m.canonical.rooted
  constructor
  · intro stored
    have value : m.denote k = v := by
      refine Option.some.inj ((m.valueWhere_eq_denote k).symm.trans ?_)
      exact OrderedMap.valueWhere_eq_some stored le_rfl fun _ _ _ le => le
    refine ⟨value, fun j lt => ?_⟩
    obtain ⟨i, w, last, _⟩ :=
      OrderedMap.exists_lastWhere (p := (· < k)) least (bot_le.trans_lt lt)
    obtain ⟨at_i, i_lt, greatest⟩ := OrderedMap.lastWhere_eq_some_iff.mp last
    have differs : w ≠ v := by
      rintro rfl
      refine m.canonical.distinct k w stored ?_
      rw [OrderedMap.valueWhere, last]
      rfl
    have between : max i j < k := max_lt i_lt lt
    have value' : m.denote (max i j) = w := by
      refine Option.some.inj ((m.valueWhere_eq_denote _).symm.trans ?_)
      exact OrderedMap.valueWhere_eq_some at_i (le_max_left _ _)
        fun i' u at_i' le => greatest i' u at_i' (le.trans_lt between)
    exact ⟨max i j, le_max_right _ _, between, by rwa [value', value]⟩
  · rintro ⟨rfl, breakpoint⟩
    obtain ⟨i, w, last, _⟩ := OrderedMap.exists_lastWhere (p := (· ≤ k)) least bot_le
    obtain ⟨at_i, i_le, greatest⟩ := OrderedMap.lastWhere_eq_some_iff.mp last
    have constant : ∀ j, i ≤ j → j ≤ k → m.denote j = w := fun j le upTo => by
      refine Option.some.inj ((m.valueWhere_eq_denote j).symm.trans ?_)
      exact OrderedMap.valueWhere_eq_some at_i le
        fun i' u at_i' le' => greatest i' u at_i' (le'.trans upTo)
    obtain rfl | lt := i_le.eq_or_lt
    · rw [at_i, constant i le_rfl le_rfl]
    · obtain ⟨j, le, j_lt, differs⟩ := breakpoint i lt
      exact absurd ((constant j le j_lt.le).trans (constant k lt.le le_rfl).symm) differs

/-- The function determines the container. -/
theorem CanonicalMap.denote_injective :
    Function.Injective (CanonicalMap.denote : CanonicalMap K V → K → V) := by
  intro m m' h
  have equal : m.container.map = m'.container.map := by
    refine OrderedMap.ext_get? fun k => Option.ext fun v => ?_
    rw [m.get?_eq_some_iff, m'.get?_eq_some_iff, h]
  obtain ⟨⟨map⟩, _⟩ := m
  obtain ⟨⟨map'⟩, _⟩ := m'
  obtain rfl : map = map' := equal
  rfl

theorem container_eq_of_lookup_eq {m m' : IntervalMap K V} (canonical : Canonical m)
    (canonical' : Canonical m') (same : ∀ k, m.lookup k = m'.lookup k) : m = m' := by
  have equal : (⟨m, canonical⟩ : CanonicalMap K V) = ⟨m', canonical'⟩ := by
    refine CanonicalMap.denote_injective (funext fun k => Option.some.inj ?_)
    rw [← CanonicalMap.lookup_eq_denote, ← CanonicalMap.lookup_eq_denote, same]
  exact congrArg CanonicalMap.container equal

/-- Neighbouring entries of a canonical container hold different values. -/
theorem Canonical.isChain (canonical : Canonical m) :
    m.map.entries.IsChain fun a b => a.2 ≠ b.2 := by
  refine List.isChain_iff_forall_rel_of_append_cons_cons.mpr ?_
  intro a b front rest split same
  have order := m.map.sorted
  rw [split] at order
  have fromA := (List.pairwise_append.mp order).2.1
  have memberA : m.map.get? a.1 = some a.2 := OrderedMap.get?_eq_some_iff.mpr (by simp [split])
  have memberB : m.map.get? b.1 = some b.2 := OrderedMap.get?_eq_some_iff.mpr (by simp [split])
  refine canonical.distinct b.1 b.2 memberB (same ▸ ?_)
  refine OrderedMap.valueWhere_eq_some memberA
    ((List.pairwise_cons.mp fromA).1 b (by simp)) fun j w stored lt => ?_
  have member := OrderedMap.get?_eq_some_iff.mp stored
  simp only [split, List.mem_append, List.mem_cons] at member
  obtain before | rfl | rfl | after := member
  · exact ((List.pairwise_append.mp order).2.2 _ before a (by simp)).le
  · exact le_rfl
  · exact absurd lt (lt_irrefl _)
  · exact absurd lt ((List.pairwise_cons.mp (List.pairwise_cons.mp fromA).2).1 _ after).asymm

end Function

section Assign

variable [OrderBot K]

theorem new_canonical (val : V) : Canonical (new val : IntervalMap K V) where
  rooted := ⟨val, by simp [new]⟩
  distinct k v stored same := by
    obtain ⟨⟨j, w⟩, last, _⟩ := Option.map_eq_some_iff.mp same
    obtain ⟨at_j, lt, _⟩ := OrderedMap.lastWhere_eq_some_iff.mp last
    obtain ⟨rfl, -⟩ : k = ⊥ ∧ val = v := by simpa [new] using stored
    exact absurd lt not_lt_bot

theorem new_denote (v₀ : V) :
    CanonicalMap.denote ⟨(new v₀ : IntervalMap K V), new_canonical v₀⟩ = fun _ => v₀ := by
  refine funext fun k => Option.some.inj ?_
  rw [← CanonicalMap.valueWhere_eq_denote]
  refine OrderedMap.valueWhere_eq_some (k := ⊥) (by simp [new]) bot_le fun j w stored _ => ?_
  obtain ⟨rfl, -⟩ : j = ⊥ ∧ v₀ = w := by simpa [new] using stored
  exact le_rfl

variable [BEq V] [LawfulBEq V]

/-- `assign` keeps the canonical form, and overrides the function. -/
theorem assign_canonical {m : IntervalMap K V} (canonical : Canonical m) (c : Assign K V) :
    ∃ m', machine.step m c = some (decide (c.keyBegin < c.keyEnd), m') ∧ Canonical m' ∧
      ∀ k, m'.map.valueWhere (· ≤ k) =
        if k ∈ Set.Ico c.keyBegin c.keyEnd then some c.val else m.map.valueWhere (· ≤ k) := by
  by_cases nonempty : c.keyBegin < c.keyEnd
  · obtain ⟨m', result, look⟩ := assign_eq_some canonical.rooted nonempty c.val
    have value : ∀ k, m'.map.valueWhere (· ≤ k) =
        if k ∈ Set.Ico c.keyBegin c.keyEnd then some c.val else m.map.valueWhere (· ≤ k) := by
      intro k
      rw [valueWhere_assigned canonical.rooted nonempty look fun _ _ le => le.trans]
      simp [Set.mem_Ico]
    refine ⟨m', by simpa [machine, nonempty] using result, ⟨?_, fun k v stored => ?_⟩, value⟩
    · refine rooted_of_valueWhere ?_
      rw [value]
      split
      · rfl
      · simpa [lookup_eq] using lookup_isSome canonical.rooted ⊥
    · rw [valueWhere_assigned canonical.rooted nonempty look fun _ _ le lt => le.trans_lt lt]
      have old := canonical.distinct k v
      rw [look, assigned] at stored
      obtain atBegin | after := eq_or_ne k c.keyBegin
      · subst atBegin
        grind
      · grind
  · refine ⟨m, by simp [machine, assign, nonempty], canonical, fun k => ?_⟩
    simp [Set.Ico_eq_empty nonempty]

/-- A call of `assign` on a canonical map overlays its function. -/
theorem CanonicalMap.exists_assign (m : CanonicalMap K V) (c : Assign K V) :
    ∃ m' : CanonicalMap K V, machine.step m.container c =
      some (decide (c.keyBegin < c.keyEnd), m'.container) ∧ m'.denote = overlay m.denote c := by
  obtain ⟨m', step, canonical, value⟩ := assign_canonical m.canonical c
  refine ⟨⟨m', canonical⟩, step, funext fun k => Option.some.inj ?_⟩
  rw [← valueWhere_eq_denote, value, valueWhere_eq_denote, overlay, Set.piecewise]
  split <;> rfl

/-- The container refines overlaying functions, and stays canonical. -/
theorem machine_refines :
    machine.Refines (fun (f : K → V) c => (decide (c.keyBegin < c.keyEnd), overlay f c))
      fun m f => ∃ canonical : Canonical m, CanonicalMap.denote ⟨m, canonical⟩ = f := by
  rintro m f c ⟨canonical, rfl⟩
  obtain ⟨m', step, value⟩ := CanonicalMap.exists_assign ⟨m, canonical⟩ c
  exact ⟨m'.container, step, m'.canonical, value⟩

/-- Any history of calls runs without a fault, reports which intervals were not
empty, and leaves the overlaid function. -/
theorem exec_assign (v₀ : V) (calls : List (Assign K V)) :
    ∃ m, machine.exec (new v₀) calls =
        some (calls.map fun c => (c, decide (c.keyBegin < c.keyEnd)), m) ∧
      (∀ k, m.lookup k = some (calls.foldl overlay (fun _ => v₀) k)) ∧
      ∀ c : Assign K V, ¬ c.keyBegin < c.keyEnd → machine.step m c = some (false, m) := by
  obtain ⟨m, run, canonical, value⟩ :=
    machine_refines.exec (s := new v₀) ⟨new_canonical v₀, new_denote v₀⟩ calls
  rw [specRun_overlay] at run value
  refine ⟨m, run, fun k => ?_, fun c empty => by simp [machine, assign, empty]⟩
  rw [CanonicalMap.lookup_eq_denote ⟨m, canonical⟩, value]

theorem exec_assign_letters : ∃ m : IntervalMap ℕ Char,
    machine.exec (new 'A') [⟨3, 5, 'B'⟩, ⟨4, 4, 'C'⟩] =
      some ([(⟨3, 5, 'B'⟩, true), (⟨4, 4, 'C'⟩, false)], m) ∧
    m.lookup 4 = some 'B' ∧ m.lookup 5 = some 'A' := by
  obtain ⟨m, run, value, _⟩ := exec_assign (K := ℕ) 'A' [⟨3, 5, 'B'⟩, ⟨4, 4, 'C'⟩]
  exact ⟨m, run, (value 4).trans (by decide), (value 5).trans (by decide)⟩

theorem canonical_of_reachable {v₀ : V} {m : IntervalMap K V}
    (reached : machine.Reachable (new v₀) m) : Canonical m := by
  obtain ⟨history, run⟩ := reached
  refine run.state_invariant (new_canonical v₀) fun t c o u canonical step => ?_
  obtain ⟨u', step', canonical', _⟩ := assign_canonical canonical c
  rw [step'] at step
  obtain ⟨-, rfl⟩ := Prod.mk.inj (Option.some.inj step)
  exact canonical'

/-- A reached container is canonical, so that it is a function of its look-ups. -/
theorem reachable_canonical {v₀ : V} {m : IntervalMap K V}
    (reached : machine.Reachable (new v₀) m) :
    (m.map.get? ⊥).isSome ∧ (m.map.entries.IsChain fun a b => a.2 ≠ b.2) ∧
    (∀ v₁ m', machine.Reachable (new v₁) m' → (∀ k, m.lookup k = m'.lookup k) →
      m.map.entries = m'.map.entries ∧ m.size = m'.size) ∧
    (∀ c d : Assign K V,
      Disjoint (Set.Ico c.keyBegin c.keyEnd) (Set.Ico d.keyBegin d.keyEnd) →
      ∃ h h' m', machine.exec m [c, d] = some (h, m') ∧ machine.exec m [d, c] = some (h', m')) ∧
    ∀ c, ∃ b m', machine.step m c = some (b, m') ∧ machine.step m' c = some (b, m') := by
  have canonical := canonical_of_reachable reached
  refine ⟨?_, canonical.isChain, fun v₁ m' reached' same => ?_, fun c d disjoint => ?_, fun c => ?_⟩
  · obtain ⟨v, least⟩ := canonical.rooted
    rw [least]
    rfl
  · have equal := container_eq_of_lookup_eq canonical (canonical_of_reachable reached') same
    exact ⟨by rw [equal], by rw [equal]⟩
  · obtain ⟨mc, stepC, valueC⟩ := CanonicalMap.exists_assign ⟨m, canonical⟩ c
    obtain ⟨mcd, stepCD, valueCD⟩ := mc.exists_assign d
    obtain ⟨md, stepD, valueD⟩ := CanonicalMap.exists_assign ⟨m, canonical⟩ d
    obtain ⟨mdc, stepDC, valueDC⟩ := md.exists_assign c
    have equal : mcd = mdc := CanonicalMap.denote_injective (by
      rw [valueCD, valueDC, valueC, valueD, overlay_comm disjoint])
    exact ⟨_, _, mcd.container, Machine.exec_cons stepC (Machine.exec_cons stepCD rfl),
      Machine.exec_cons stepD (Machine.exec_cons (equal ▸ stepDC) rfl)⟩
  · obtain ⟨mc, stepC, valueC⟩ := CanonicalMap.exists_assign ⟨m, canonical⟩ c
    obtain ⟨mcc, stepCC, valueCC⟩ := mc.exists_assign c
    have equal : mcc = mc := CanonicalMap.denote_injective (by
      rw [valueCC, valueC, overlay_idem])
    exact ⟨_, mc.container, stepC, equal ▸ stepCC⟩

theorem reachable_canonical_letters :
    ([(0, 'A'), (3, 'B'), (5, 'A')] : List (ℕ × Char)).IsChain fun a b => a.2 ≠ b.2 := by
  let m : IntervalMap ℕ Char := ⟨⟨[(0, 'A'), (3, 'B'), (5, 'A')], by decide⟩⟩
  have reached : machine.Reachable (new 'A') m :=
    ⟨[(⟨3, 5, 'B'⟩, true)], .single rfl⟩
  exact (reachable_canonical reached).2.1

end Assign

end Crs.IntervalMap
