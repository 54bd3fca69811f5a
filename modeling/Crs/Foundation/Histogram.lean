import Crs.Foundation.OrderedMap

/-!
# Histograms

A histogram is an ordered map from values to counts, filled one value after
another. `Counts` states what it has to hold for the list of values added so
far; histograms of the same values are equal, whatever the order they came in.
-/

namespace Foundation

variable {K : Type*} [LinearOrder K]

namespace OrderedMap

/-- The map without entries. -/
def empty {V : Type*} : OrderedMap K V := ⟨[], List.Pairwise.nil⟩

@[simp] theorem get?_empty {V : Type*} (k : K) : (empty : OrderedMap K V).get? k = none := rfl

/-- One more of the value `k`. -/
def tally (m : OrderedMap K ℕ) (k : K) : OrderedMap K ℕ :=
  match m.get? k with
  | none => m.insertNew k 1
  | some count => m.setValue k (count + 1)

theorem get?_tally (m : OrderedMap K ℕ) (k j : K) :
    (m.tally k).get? j = if j = k then some ((m.get? k).getD 0 + 1) else m.get? j := by
  unfold tally
  cases stored : m.get? k with
  | none => exact get?_insertNew stored 1 j
  | some count => simp [stored]

/-- Each value of the list is counted as often as it occurs, and no other value is. -/
def Counts (m : OrderedMap K ℕ) (values : List K) : Prop :=
  ∀ k, m.get? k = if k ∈ values then some (values.count k) else none

namespace Counts

variable {m m' : OrderedMap K ℕ} {values values' : List K}

theorem empty : (OrderedMap.empty : OrderedMap K ℕ).Counts [] := by
  intro k
  simp

theorem snoc (counted : m.Counts values) (k : K) : (m.tally k).Counts (values ++ [k]) := by
  intro j
  rw [get?_tally, counted, counted]
  obtain rfl | other := eq_or_ne j k
  · by_cases known : j ∈ values
    · simp [known]
    · simp [known, List.count_eq_zero_of_not_mem]
  · simp [other, other.symm]

theorem foldl (counted : m.Counts values) (more : List K) :
    (more.foldl tally m).Counts (values ++ more) := by
  induction more generalizing m values with
  | nil => simpa using counted
  | cons k more ih => simpa using ih (counted.snoc k)

theorem perm (counted : m.Counts values) (same : values.Perm values') : m.Counts values' := by
  intro k
  rw [counted, same.count_eq]
  simp only [same.mem_iff]

/-- The counts determine the map. -/
theorem unique (counted : m.Counts values) (counted' : m'.Counts values) : m = m' := by
  apply ext_get?
  intro k
  rw [counted, counted']

end Counts

end OrderedMap

end Foundation
