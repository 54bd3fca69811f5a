import Mathlib.Data.List.Basic
import Mathlib.Data.List.Pairwise
import Mathlib.Order.WithBot
import Mathlib.Order.Interval.Set.Basic

/-!
# Ordered maps with iterators

An `OrderedMap` is a list of entries with strictly increasing keys; the order is
a field, so an unordered container cannot be built. Node-based ordered maps keep
their iterators valid across insertions, and an iterator is determined by the key
of its node. An iterator is therefore a key or the end position, `WithTop K`,
and the order of positions is the order of `WithTop K`.

`prev` answers `none` where decrementing leaves the container, and `eraseRange`
answers `none` unless both ends are valid and in order. `lastWhere` looks at the
entries below a cut; both look-up by the greatest key not above a given one and
the neighbour on the left are instances of it.
-/

namespace Foundation

/-- Entries sorted strictly by key. -/
structure OrderedMap (K V : Type*) [LT K] where
  entries : List (K × V)
  sorted : entries.Pairwise fun a b => a.1 < b.1

namespace OrderedMap

variable {K V : Type*} [LinearOrder K] {m : OrderedMap K V} {k : K} {v : V}

@[ext] theorem ext_entries {m m' : OrderedMap K V} (h : m.entries = m'.entries) : m = m' := by
  cases m
  cases m'
  simp_all

/-- The value stored under a key. -/
def get? (m : OrderedMap K V) (k : K) : Option V :=
  (m.entries.find? fun e => e.1 = k).map Prod.snd

/-- Sorted keys are unique. -/
theorem eq_of_key_eq {a b : K × V} (ha : a ∈ m.entries) (hb : b ∈ m.entries)
    (h : a.1 = b.1) : a = b := by
  by_contra ne
  have : Std.Symm fun a b : K × V => a.1 ≠ b.1 := ⟨fun _ _ => Ne.symm⟩
  exact (m.sorted.imp LT.lt.ne).forall ha hb ne h

theorem get?_eq_some_iff : m.get? k = some v ↔ (k, v) ∈ m.entries := by
  simp only [get?, Option.map_eq_some_iff, Prod.exists, exists_eq_right]
  constructor
  · rintro ⟨j, found⟩
    obtain rfl : j = k := by simpa using List.find?_some found
    exact List.mem_of_find?_eq_some found
  · intro member
    cases found : m.entries.find? (fun e => decide (e.1 = k)) with
    | none => simpa using List.find?_eq_none.mp found _ member
    | some e =>
        have key : e.1 = k := by simpa using List.find?_some found
        obtain rfl := eq_of_key_eq (List.mem_of_find?_eq_some found) member key
        exact ⟨k, rfl⟩

/-- Two ordered maps with the same look-ups hold the same entries. -/
theorem ext_get? {m m' : OrderedMap K V} (h : ∀ k, m.get? k = m'.get? k) : m = m' := by
  apply ext_entries
  refine List.Perm.eq_of_pairwise (fun a b _ _ ab ba => absurd ab ba.asymm) m.sorted m'.sorted ?_
  refine (List.perm_ext_iff_of_nodup (m.sorted.imp fun h e => h.ne (congrArg _ e))
    (m'.sorted.imp fun h e => h.ne (congrArg _ e))).mpr fun e => ?_
  rw [← get?_eq_some_iff, ← get?_eq_some_iff, h]

/-- The map with one entry. -/
def singleton (k : K) (v : V) : OrderedMap K V := ⟨[(k, v)], List.pairwise_singleton _ _⟩

@[simp] theorem get?_singleton (k : K) (v : V) (j : K) :
    (singleton k v).get? j = if j = k then some v else none := by
  simp only [singleton, get?, List.find?_singleton]
  split <;> simp_all [eq_comm]

/-- Add an entry whose key is not stored yet. -/
def insertNew (m : OrderedMap K V) (k : K) (v : V) : OrderedMap K V where
  entries := m.entries.filter (fun e => e.1 < k) ++ (k, v) :: m.entries.filter (fun e => k < e.1)
  sorted := by
    refine List.pairwise_append.mpr ⟨m.sorted.filter _, ?_, ?_⟩
    · exact List.pairwise_cons.mpr ⟨by simp, m.sorted.filter _⟩
    · intro a ha b hb
      have below : a.1 < k := by simpa using (List.mem_filter.mp ha).2
      rcases List.mem_cons.mp hb with rfl | hb
      · exact below
      · exact below.trans (by simpa using (List.mem_filter.mp hb).2)

/-- Insertion does not overwrite; the flag says whether the key was new. -/
def insert (m : OrderedMap K V) (k : K) (v : V) : OrderedMap K V × Bool :=
  if (m.get? k).isSome then (m, false) else (m.insertNew k v, true)

/-- Store a value through an iterator at `k`. -/
def setValue (m : OrderedMap K V) (k : K) (v : V) : OrderedMap K V where
  entries := m.entries.map fun e => (e.1, if e.1 = k then v else e.2)
  sorted := List.pairwise_map.mpr m.sorted

@[simp] theorem get?_setValue (m : OrderedMap K V) (k : K) (v : V) (j : K) :
    (m.setValue k v).get? j = if j = k then (m.get? k).map (fun _ => v) else m.get? j := by
  ext w
  rw [get?_eq_some_iff]
  obtain same | other := eq_or_ne j k
  · subst same
    simp [setValue, get?_eq_some_iff]
  · simp [setValue, get?_eq_some_iff, other]

/-- Inserting a new key is a point update of the look-ups. -/
theorem get?_insertNew (h : m.get? k = none) (v : V) (j : K) :
    (m.insertNew k v).get? j = if j = k then some v else m.get? j := by
  ext w
  rw [get?_eq_some_iff]
  obtain same | other := eq_or_ne j k
  · subst same
    simp [insertNew, eq_comm]
  · rcases lt_or_gt_of_ne other with lt | gt
    · simp [insertNew, get?_eq_some_iff, other, lt, lt.asymm]
    · simp [insertNew, get?_eq_some_iff, other, gt, gt.asymm]

/-- Storing through an iterator exchanges one entry. -/
theorem exists_entries_setValue (stored : m.get? k = some v) : ∃ front back,
    m.entries = front ++ (k, v) :: back ∧
      ∀ w, (m.setValue k w).entries = front ++ (k, w) :: back := by
  obtain ⟨front, back, split⟩ := List.append_of_mem (get?_eq_some_iff.mp stored)
  have order := m.sorted
  rw [split] at order
  obtain ⟨-, rest, across⟩ := List.pairwise_append.mp order
  have kept : ∀ (l : List (K × V)) (w : V), (∀ e ∈ l, e.1 ≠ k) →
      l.map (fun e => (e.1, if e.1 = k then w else e.2)) = l := by
    intro l w other
    refine (List.map_congr_left fun e member => ?_).trans (List.map_id l)
    simp [other e member]
  refine ⟨front, back, split, fun w => ?_⟩
  have before := kept front w fun e member => (across e member (k, v) (by simp)).ne
  have behind := kept back w fun e member => ((List.pairwise_cons.mp rest).1 e member).ne'
  simp only [setValue, split, List.map_append, List.map_cons, before, behind, if_true]

/-- A new entry is added to the entries there are. -/
theorem entries_insertNew_perm (new : m.get? k = none) (v : V) :
    (m.insertNew k v).entries.Perm ((k, v) :: m.entries) := by
  have other : ∀ e ∈ m.entries, e.1 ≠ k := by
    rintro ⟨j, w⟩ member rfl
    rw [get?_eq_some_iff.mpr member] at new
    cases new
  have above : m.entries.filter (fun e => k < e.1) =
      m.entries.filter fun e => !decide (e.1 < k) := by
    refine List.filter_congr fun e member => ?_
    have := other e member
    grind
  refine List.perm_middle.trans (.cons _ ?_)
  rw [above]
  exact List.filter_append_perm _ _

/-! ### Entries below a cut -/

/-- The last entry whose key satisfies `p`. -/
def lastWhere (m : OrderedMap K V) (p : K → Prop) [DecidablePred p] : Option (K × V) :=
  (m.entries.filter fun e => p e.1).getLast?

private theorem getLast?_eq_some_iff_of_sorted {l : List (K × V)} {e : K × V}
    (sorted : l.Pairwise fun a b => a.1 < b.1) :
    l.getLast? = some e ↔ e ∈ l ∧ ∀ a ∈ l, a.1 ≤ e.1 := by
  constructor
  · intro h
    obtain ⟨front, rfl⟩ := List.getLast?_eq_some_iff.mp h
    refine ⟨by simp, fun a ha => ?_⟩
    rcases List.mem_append.mp ha with before | same
    · exact ((List.pairwise_append.mp sorted).2.2 a before e (by simp)).le
    · exact (congrArg Prod.fst (List.mem_singleton.mp same)).le
  · rintro ⟨member, greatest⟩
    obtain ⟨front, rest, rfl⟩ := List.append_of_mem member
    cases rest with
    | nil => simp
    | cons a rest =>
        have lt : e.1 < a.1 :=
          (List.pairwise_cons.mp (List.pairwise_append.mp sorted).2.1).1 a (by simp)
        exact absurd (greatest a (by simp)) (not_le.mpr lt)

theorem lastWhere_eq_some_iff {p : K → Prop} [DecidablePred p] :
    m.lastWhere p = some (k, v) ↔
      m.get? k = some v ∧ p k ∧ ∀ j w, m.get? j = some w → p j → j ≤ k := by
  rw [lastWhere, getLast?_eq_some_iff_of_sorted (m.sorted.filter _), get?_eq_some_iff]
  simp only [List.mem_filter, decide_eq_true_eq, Prod.forall, and_imp, and_assoc,
    get?_eq_some_iff]

theorem lastWhere_eq_none_iff {p : K → Prop} [DecidablePred p] :
    m.lastWhere p = none ↔ ∀ j w, m.get? j = some w → ¬ p j := by
  simp [lastWhere, get?_eq_some_iff]

/-- Some entry lies below the cut, so there is a last one. -/
theorem exists_lastWhere {p : K → Prop} [DecidablePred p] (stored : m.get? k = some v)
    (below : p k) : ∃ j w, m.lastWhere p = some (j, w) ∧ k ≤ j := by
  cases last : m.lastWhere p with
  | none => exact absurd below (lastWhere_eq_none_iff.mp last k v stored)
  | some e => exact ⟨e.1, e.2, rfl, (lastWhere_eq_some_iff.mp last).2.2 k v stored below⟩

/-- The last entry below a cut depends on the entries below the cut only. -/
theorem lastWhere_congr {m m' : OrderedMap K V} {p q : K → Prop} [DecidablePred p]
    [DecidablePred q] (h : ∀ j w, p j ∧ m.get? j = some w ↔ q j ∧ m'.get? j = some w) :
    m.lastWhere p = m'.lastWhere q := by
  ext ⟨k, v⟩
  have stored := h k v
  have above : (∀ j w, m.get? j = some w → p j → j ≤ k) ↔
      ∀ j w, m'.get? j = some w → q j → j ≤ k :=
    forall₂_congr fun j w => by have := h j w; tauto
  rw [lastWhere_eq_some_iff, lastWhere_eq_some_iff, above]
  tauto

/-- The value of the last entry below a cut. -/
def valueWhere (m : OrderedMap K V) (p : K → Prop) [DecidablePred p] : Option V :=
  (m.lastWhere p).map Prod.snd

theorem valueWhere_eq_some {p : K → Prop} [DecidablePred p] (stored : m.get? k = some v)
    (below : p k) (last : ∀ j w, m.get? j = some w → p j → j ≤ k) :
    m.valueWhere p = some v := by
  rw [valueWhere, lastWhere_eq_some_iff.mpr ⟨stored, below, last⟩]
  rfl

theorem valueWhere_congr {m m' : OrderedMap K V} {p q : K → Prop} [DecidablePred p]
    [DecidablePred q] (h : ∀ j w, p j ∧ m.get? j = some w ↔ q j ∧ m'.get? j = some w) :
    m.valueWhere p = m'.valueWhere q :=
  congrArg (Option.map Prod.snd) (lastWhere_congr h)

/-! ### Iterators -/

/-- The first position, or the end of an empty container. -/
def begin (m : OrderedMap K V) : WithTop K :=
  m.entries.head?.elim ⊤ fun e => (e.1 : WithTop K)

/-- Decrement an iterator; `none` at the first position. -/
def prev (m : OrderedMap K V) (it : WithTop K) : Option K :=
  (m.lastWhere fun k => (k : WithTop K) < it).map Prod.fst

/-- The first position after every key up to `k`. -/
def upperBound (m : OrderedMap K V) (k : K) : WithTop K :=
  (m.entries.find? fun e => k < e.1).elim ⊤ fun e => (e.1 : WithTop K)

/-- The first position not before the key `k`. -/
def lowerBound (m : OrderedMap K V) (k : K) : WithTop K :=
  (m.entries.find? fun e => k ≤ e.1).elim ⊤ fun e => (e.1 : WithTop K)

/-- Increment an iterator at the key `k`. -/
def next (m : OrderedMap K V) (k : K) : WithTop K := m.upperBound k

/-- Remove the entry with a key, and tell whether there was one. -/
def erase (m : OrderedMap K V) (k : K) : OrderedMap K V × Bool :=
  (⟨m.entries.filter fun e => e.1 ≠ k, m.sorted.filter _⟩, (m.get? k).isSome)

@[simp] theorem get?_erase (m : OrderedMap K V) (k j : K) :
    (m.erase k).1.get? j = if j = k then none else m.get? j := by
  ext w
  rw [get?_eq_some_iff]
  obtain same | other := eq_or_ne j k
  · subst same
    simp [erase]
  · simp [erase, get?_eq_some_iff, other]

/-- An iterator points at an entry or at the end. -/
def Valid (m : OrderedMap K V) (it : WithTop K) : Prop :=
  it = ⊤ ∨ ∃ e ∈ m.entries, it = (e.1 : WithTop K)

instance (m : OrderedMap K V) (it : WithTop K) : Decidable (m.Valid it) :=
  inferInstanceAs (Decidable (it = ⊤ ∨ ∃ e ∈ m.entries, it = (e.1 : WithTop K)))

/-- Erase the entries from `first` up to `last`. The range is well formed when
both ends are valid positions and `last` is not before `first`. -/
def eraseRange (m : OrderedMap K V) (first last : WithTop K) : Option (OrderedMap K V) :=
  if m.Valid first ∧ m.Valid last ∧ first ≤ last then
    some ⟨m.entries.filter fun e => ¬ (first ≤ (e.1 : WithTop K) ∧ (e.1 : WithTop K) < last),
      m.sorted.filter _⟩
  else none

theorem valid_coe (stored : m.get? k = some v) : m.Valid (k : WithTop K) :=
  Or.inr ⟨(k, v), get?_eq_some_iff.mp stored, rfl⟩

theorem valid_upperBound (m : OrderedMap K V) (k : K) : m.Valid (m.upperBound k) := by
  unfold upperBound
  cases found : m.entries.find? (fun e => decide (k < e.1)) with
  | none => exact Or.inl rfl
  | some e => exact Or.inr ⟨e, List.mem_of_find?_eq_some found, rfl⟩

/-- The stored keys before `upperBound k` are those up to `k`. -/
theorem lt_upperBound_iff {j : K} {w : V} (stored : m.get? j = some w) :
    (j : WithTop K) < m.upperBound k ↔ j ≤ k := by
  have member := get?_eq_some_iff.mp stored
  unfold upperBound
  cases found : m.entries.find? (fun e => decide (k < e.1)) with
  | none =>
      have none_above : ¬ k < j := by simpa using List.find?_eq_none.mp found _ member
      simpa using none_above
  | some e =>
      obtain ⟨above, front, rest, split, below⟩ := List.find?_eq_some_iff_append.mp found
      simp only [decide_eq_true_eq] at above
      simp only [Option.elim_some, WithTop.coe_lt_coe]
      refine ⟨fun before => ?_, fun upTo => upTo.trans_lt above⟩
      have order := m.sorted
      rw [split] at member order
      rcases List.mem_append.mp member with inFront | inRest
      · simpa using below _ inFront
      · rcases List.mem_cons.mp inRest with same | later
        · exact absurd (congrArg Prod.fst same) before.ne
        · have after := (List.pairwise_cons.mp (List.pairwise_append.mp order).2.1).1 _ later
          exact absurd before after.asymm

/-- With a key not below `k`, the lower bound is the least of these keys. -/
theorem exists_lowerBound {j : K} {w : V} (stored : m.get? j = some w) (above : k ≤ j) :
    ∃ (l : K) (u : V), m.lowerBound k = (l : WithTop K) ∧ m.get? l = some u ∧ k ≤ l ∧
      ∀ i x, m.get? i = some x → (i : WithTop K) < m.lowerBound k → i < k := by
  have member := get?_eq_some_iff.mp stored
  unfold lowerBound
  cases found : m.entries.find? (fun e => decide (k ≤ e.1)) with
  | none => exact absurd above (by simpa using List.find?_eq_none.mp found _ member)
  | some e =>
      obtain ⟨least, front, rest, split, below⟩ := List.find?_eq_some_iff_append.mp found
      simp only [decide_eq_true_eq] at least
      refine ⟨e.1, e.2, rfl, get?_eq_some_iff.mpr (List.mem_of_find?_eq_some found), least,
        fun i x inside before => ?_⟩
      have order := m.sorted
      have here := get?_eq_some_iff.mp inside
      simp only [Option.elim_some, WithTop.coe_lt_coe] at before
      rw [split] at here order
      rcases List.mem_append.mp here with inFront | inRest
      · simpa using below _ inFront
      · rcases List.mem_cons.mp inRest with same | later
        · exact absurd before (congrArg Prod.fst same).ge.not_gt
        · exact absurd before
            ((List.pairwise_cons.mp (List.pairwise_append.mp order).2.1).1 _ later).asymm

theorem begin_eq_coe_iff :
    m.begin = (k : WithTop K) ↔ (∃ v, m.get? k = some v) ∧ ∀ j w, m.get? j = some w → k ≤ j := by
  unfold begin
  have order := m.sorted
  simp only [get?_eq_some_iff]
  generalize m.entries = entries at order ⊢
  cases entries with
  | nil => simp
  | cons e rest =>
      obtain ⟨first, value⟩ := e
      have least := (List.pairwise_cons.mp order).1
      simp only [List.head?_cons, Option.elim_some, WithTop.coe_inj, List.mem_cons]
      constructor
      · rintro rfl
        refine ⟨⟨value, Or.inl rfl⟩, fun j w member => ?_⟩
        rcases member with same | later
        · exact (congrArg Prod.fst same).ge
        · exact (least _ later).le
      · rintro ⟨⟨w, same | later⟩, lower⟩
        · exact (congrArg Prod.fst same).symm
        · exact absurd (lower first value (Or.inl rfl)) (not_le.mpr (least _ later))

theorem prev_eq_some_iff {it : WithTop K} :
    m.prev it = some k ↔ ∃ v, m.lastWhere (fun j => (j : WithTop K) < it) = some (k, v) := by
  simp [prev]

/-- A well-formed range is erased exactly. -/
theorem eraseRange_eq_some {first last : WithTop K} (validFirst : m.Valid first)
    (validLast : m.Valid last) (ordered : first ≤ last) :
    ∃ m', m.eraseRange first last = some m' ∧
      ∀ j, m'.get? j = if first ≤ (j : WithTop K) ∧ (j : WithTop K) < last then none
        else m.get? j := by
  refine ⟨_, if_pos ⟨validFirst, validLast, ordered⟩, fun j => ?_⟩
  ext w
  rw [get?_eq_some_iff]
  by_cases inside : first ≤ (j : WithTop K) ∧ (j : WithTop K) < last
  · simp [inside]
  · simp only [List.mem_filter, inside, if_false, get?_eq_some_iff]
    simp

end OrderedMap
end Foundation
