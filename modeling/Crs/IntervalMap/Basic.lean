import Crs.Foundation.OrderedMap

/-!
# The interval map container

`IntervalMap` associates every key with the value stored at the greatest key not
above it. `assign` follows the source statement by statement: both borders are
inserted, a new right border continues the value on its left, and the two
iterators are moved by the four comparisons before one range is erased.

Decrementing the first iterator, dereferencing a missing node and erasing a
malformed range are faults, and a fault is `none`. `assign_eq_some` shows that
none of them happens once the least key is stored, and gives the look-ups of the
resulting container. Everything later about `assign` follows from it.
-/

namespace Crs

open Foundation

universe u

/-- The wrapped container. The bottom element of `K` is its numeric minimum. -/
structure IntervalMap (K V : Type u) [LT K] where
  map : OrderedMap K V

namespace IntervalMap

variable {K V : Type u} [LinearOrder K]

/-- The constructor associates the whole range of keys with `val`. -/
def new [OrderBot K] (val : V) : IntervalMap K V := ⟨OrderedMap.singleton ⊥ val⟩

/-- The subscript operator: the entry before the upper bound of `key`. -/
def lookup (m : IntervalMap K V) (key : K) : Option V := do
  let it ← m.map.prev (m.map.upperBound key)
  m.map.get? it

/-- The number of stored entries. -/
def size (m : IntervalMap K V) : Nat := m.map.entries.length

section Assign

variable [BEq V]

/-- Insert the right border. Where it is new, its value is that of the entry before. -/
def insertRight (map : OrderedMap K V) (keyEnd : K) (val : V) : Option (OrderedMap K V) := do
  let right := map.insert keyEnd val
  if right.2 then
    let it ← right.1.prev keyEnd
    let itSecond ← right.1.get? it
    let rightSecond ← right.1.get? keyEnd
    if !(itSecond == rightSecond) then
      return right.1.setValue keyEnd itSecond
    else
      return right.1
  else
    return right.1

/-- Insert the left border, and overwrite its value where it was stored before. -/
def insertLeft (map : OrderedMap K V) (keyBegin : K) (val : V) : OrderedMap K V :=
  let left := map.insert keyBegin val
  if left.2 then left.1 else left.1.setValue keyBegin val

/-- The values of `it` and `left.first` after the left neighbour has been examined. -/
def leftBorder (map : OrderedMap K V) (keyBegin : K) : Option (K × WithTop K) := do
  if (keyBegin : WithTop K) ≠ map.begin then
    let it ← map.prev keyBegin
    let itSecond ← map.get? it
    let leftSecond ← map.get? keyBegin
    if !(itSecond == leftSecond) then
      return (keyBegin, map.next keyBegin)
    else
      return (it, keyBegin)
  else
    return (keyBegin, map.next keyBegin)

/-- The value of `right.first` after the comparison with the entry at `it`. -/
def rightBorder (map : OrderedMap K V) (it keyEnd : K) : Option (WithTop K) := do
  if (keyEnd : WithTop K) ≠ ⊤ then
    let itSecond ← map.get? it
    let rightSecond ← map.get? keyEnd
    if itSecond == rightSecond then
      return map.next keyEnd
    else
      return keyEnd
  else
    return keyEnd

/-- Assign `val` to the interval from `keyBegin` up to, not including, `keyEnd`. -/
def assign (m : IntervalMap K V) (keyBegin keyEnd : K) (val : V) :
    Option (Bool × IntervalMap K V) := do
  if ¬ keyBegin < keyEnd then
    return (false, m)
  else
    let map ← insertRight m.map keyEnd val
    let map := insertLeft map keyBegin val
    let (it, left) ← leftBorder map keyBegin
    let right ← rightBorder map it keyEnd
    let map ← map.eraseRange left right
    return (true, ⟨map⟩)

end Assign

theorem get?_insertLeft (map : OrderedMap K V) (keyBegin : K) (val : V) (k : K) :
    (insertLeft map keyBegin val).get? k = if k = keyBegin then some val else map.get? k := by
  cases stored : map.get? keyBegin with
  | some w => simp [insertLeft, OrderedMap.insert, stored]
  | none => simp [insertLeft, OrderedMap.insert, stored, OrderedMap.get?_insertNew stored]

/-- The erased range includes the right border exactly when its value is the assigned one. -/
theorem rightBorder_eq_some [BEq V] [LawfulBEq V] {map : OrderedMap K V} {keyEnd it : K}
    {val w : V} (atIt : map.get? it = some val)
    (stored : map.get? keyEnd = some w) :
    ∃ right, rightBorder map it keyEnd = some right ∧ map.Valid right ∧
      (keyEnd : WithTop K) ≤ right ∧
      ∀ j u, map.get? j = some u →
        ((j : WithTop K) < right ↔ j < keyEnd ∨ j = keyEnd ∧ w = val) := by
  obtain same | other := eq_or_ne val w
  · refine ⟨map.next keyEnd, by simp [rightBorder, atIt, stored, same], map.valid_upperBound _,
      ((OrderedMap.lt_upperBound_iff stored).mpr le_rfl).le, fun j u at_j => ?_⟩
    simpa [OrderedMap.next, same, le_iff_lt_or_eq] using OrderedMap.lt_upperBound_iff at_j
  · refine ⟨keyEnd, by simp [rightBorder, atIt, stored, other], OrderedMap.valid_coe stored,
      le_rfl, fun j u at_j => ?_⟩
    simp [Ne.symm other]

/-- The least key is stored, so that every key has an entry at or before it. -/
def Rooted [OrderBot K] (map : OrderedMap K V) : Prop := ∃ v, map.get? ⊥ = some v

section Stages

variable [OrderBot K] {map : OrderedMap K V} {keyBegin keyEnd : K} {val : V}

private theorem prev_of_rooted (rooted : Rooted map) {k : K} (above : ⊥ < k) :
    ∃ j w, map.prev k = some j ∧ map.get? j = some w ∧ map.valueWhere (· < k) = some w := by
  obtain ⟨v, least⟩ := rooted
  obtain ⟨j, w, last, _⟩ := OrderedMap.exists_lastWhere (p := (· < k)) least above
  have cut : map.lastWhere (fun i => (i : WithTop K) < k) = map.lastWhere (· < k) :=
    OrderedMap.lastWhere_congr fun i w => by rw [WithTop.coe_lt_coe]
  refine ⟨j, w, OrderedMap.prev_eq_some_iff.mpr ⟨w, cut.trans last⟩,
    (OrderedMap.lastWhere_eq_some_iff.mp last).1, ?_⟩
  rw [OrderedMap.valueWhere, last]
  rfl

variable [BEq V] [LawfulBEq V]

/-- The right border carries the value that the key had before. -/
theorem insertRight_eq_some (rooted : Rooted map) (above : ⊥ < keyEnd) (val : V) :
    ∃ map', insertRight map keyEnd val = some map' ∧
      ∀ k, map'.get? k = if k = keyEnd then map.valueWhere (· ≤ keyEnd) else map.get? k := by
  cases stored : map.get? keyEnd with
  | some w =>
      have current : map.valueWhere (· ≤ keyEnd) = some w :=
        OrderedMap.valueWhere_eq_some stored le_rfl fun _ _ _ le => le
      refine ⟨map, by simp [insertRight, OrderedMap.insert, stored], fun k => ?_⟩
      split <;> simp_all
  | none =>
      have added := OrderedMap.get?_insertNew stored val
      have rooted' : Rooted (map.insertNew keyEnd val) := by
        obtain ⟨v, least⟩ := rooted
        exact ⟨v, by rw [added, if_neg above.ne, least]⟩
      obtain ⟨it, before, decrement, atIt, below⟩ := prev_of_rooted rooted' above
      have current : map.valueWhere (· ≤ keyEnd) = some before := by
        rw [← below]
        refine OrderedMap.valueWhere_congr fun j w => ?_
        rw [added j]
        split <;> simp_all [le_iff_lt_or_eq]
      have atEnd : (map.insertNew keyEnd val).get? keyEnd = some val := by simp [added]
      obtain same | other := eq_or_ne before val
      · refine ⟨map.insertNew keyEnd val, ?_, fun k => ?_⟩
        · simp [insertRight, OrderedMap.insert, stored, decrement, atIt, atEnd, same]
        · rw [added, current, same]
      · refine ⟨(map.insertNew keyEnd val).setValue keyEnd before, ?_, fun k => ?_⟩
        · simp [insertRight, OrderedMap.insert, stored, decrement, atIt, atEnd, other]
        · rw [OrderedMap.get?_setValue, added, added, current]
          split <;> simp

/-- After the left border is examined, `it` has the assigned value, and the erased
range starts at the border exactly when the entry before it has that value too. -/
theorem leftBorder_eq_some (rooted : Rooted map) (stored : map.get? keyBegin = some val) :
    ∃ it left, leftBorder map keyBegin = some (it, left) ∧ map.get? it = some val ∧
      map.Valid left ∧ left ≤ map.upperBound keyBegin ∧
      ∀ j w, map.get? j = some w → (left ≤ (j : WithTop K) ↔
        keyBegin < j ∨ j = keyBegin ∧ map.valueWhere (· < keyBegin) = some val) := by
  have after : ∀ j w, map.get? j = some w →
      (map.next keyBegin ≤ (j : WithTop K) ↔ keyBegin < j) := fun j w at_j => by
    rw [← not_lt, OrderedMap.next, OrderedMap.lt_upperBound_iff at_j, not_le]
  obtain first | later := eq_or_ne (keyBegin : WithTop K) map.begin
  · refine ⟨keyBegin, map.next keyBegin, by simp [leftBorder, first], stored,
      map.valid_upperBound _, le_rfl, fun j w at_j => ?_⟩
    have none_before : map.valueWhere (· < keyBegin) = none := by
      have lower := (OrderedMap.begin_eq_coe_iff.mp first.symm).2
      rw [OrderedMap.valueWhere, OrderedMap.lastWhere_eq_none_iff.mpr fun j w at_j =>
        (lower j w at_j).not_gt]
      rfl
    simpa [none_before] using after j w at_j
  · have above : ⊥ < keyBegin := by
      refine bot_lt_iff_ne_bot.mpr fun bottom => later ?_
      subst bottom
      exact (OrderedMap.begin_eq_coe_iff.mpr ⟨rooted, fun _ _ _ => bot_le⟩).symm
    obtain ⟨it, before, decrement, atIt, below⟩ := prev_of_rooted rooted above
    obtain same | other := eq_or_ne before val
    · subst same
      refine ⟨it, keyBegin, by simp [leftBorder, later, decrement, atIt, stored], atIt,
        OrderedMap.valid_coe stored, ?_, fun j w at_j => ?_⟩
      · exact ((OrderedMap.lt_upperBound_iff stored).mpr le_rfl).le
      · simp [below, le_iff_lt_or_eq, eq_comm]
    · refine ⟨keyBegin, map.next keyBegin,
        by simp [leftBorder, later, decrement, atIt, stored, other],
        stored, map.valid_upperBound _, le_rfl, fun j w at_j => ?_⟩
      simpa [below, other] using after j w at_j

/-- The look-ups of the container after `val` was assigned to `[keyBegin, keyEnd)`.
A border is stored exactly when the value changes there. -/
def assigned (map : OrderedMap K V) (keyBegin keyEnd : K) (val : V) (k : K) : Option V :=
  if k < keyBegin then map.get? k
  else if k = keyBegin then
    if map.valueWhere (· < keyBegin) == some val then none else some val
  else if k < keyEnd then none
  else if k = keyEnd then
    if map.valueWhere (· ≤ keyEnd) == some val then none else map.valueWhere (· ≤ keyEnd)
  else map.get? k

/-- On a non-empty interval `assign` meets no iterator fault, and this is its result. -/
theorem assign_eq_some {m : IntervalMap K V} (rooted : Rooted m.map)
    (nonempty : keyBegin < keyEnd) (val : V) :
    ∃ m', m.assign keyBegin keyEnd val = some (true, m') ∧
      ∀ k, m'.map.get? k = assigned m.map keyBegin keyEnd val k := by
  have above : ⊥ < keyEnd := bot_le.trans_lt nonempty
  obtain ⟨map₁, insertedRight, look₁⟩ := insertRight_eq_some rooted above val
  have look₂ := get?_insertLeft map₁ keyBegin val
  generalize insertedLeft : insertLeft map₁ keyBegin val = map₂ at look₂
  obtain ⟨root, least⟩ := rooted
  have rooted₂ : Rooted map₂ := by
    obtain bottom | other := eq_or_ne (⊥ : K) keyBegin
    · exact ⟨val, by rw [look₂, if_pos bottom]⟩
    · exact ⟨root, by rw [look₂, if_neg other, look₁, if_neg above.ne, least]⟩
  have atBegin : map₂.get? keyBegin = some val := by simp [look₂]
  obtain ⟨j, w, last, _⟩ := OrderedMap.exists_lastWhere (p := (· ≤ keyEnd)) least above.le
  have current : m.map.valueWhere (· ≤ keyEnd) = some w := by
    rw [OrderedMap.valueWhere, last]
    rfl
  have atEnd : map₂.get? keyEnd = some w := by simp [look₂, look₁, nonempty.ne', current]
  obtain ⟨it, left, examinedLeft, atIt, validLeft, leftBefore, fromLeft⟩ :=
    leftBorder_eq_some rooted₂ atBegin
  obtain ⟨right, examinedRight, validRight, rightAfter, toRight⟩ :=
    rightBorder_eq_some atIt atEnd
  have ordered : left ≤ right := by
    refine leftBefore.trans (le_trans ?_ rightAfter)
    rw [← not_lt, OrderedMap.lt_upperBound_iff atEnd, not_le]
    exact nonempty
  obtain ⟨map₃, erased, look₃⟩ := OrderedMap.eraseRange_eq_some validLeft validRight ordered
  refine ⟨⟨map₃⟩, ?_, fun k => ?_⟩
  · simp [assign, nonempty, insertedRight, insertedLeft, examinedLeft, examinedRight, erased]
  · have before : map₂.valueWhere (· < keyBegin) = m.map.valueWhere (· < keyBegin) := by
      refine OrderedMap.valueWhere_congr fun i u => and_congr_right fun lt => ?_
      rw [look₂, if_neg lt.ne, look₁, if_neg (lt.trans nonempty).ne]
    have look : map₂.get? k = if k = keyBegin then some val else
        if k = keyEnd then some w else m.map.get? k := by rw [look₂, look₁, current]
    rw [look₃, assigned, current]
    cases stored : map₂.get? k with
    | none => grind
    | some u =>
        have erasedIff := and_congr (fromLeft k u stored) (toRight k u stored)
        rw [before] at erasedIff
        grind

end Stages

end IntervalMap
end Crs
