import Crs.Peak.Bounds

/-!
# Measuring the peak of smoothed data

`peakCenter` finds the maximum, and measures the peak at three heights. The
bounded functions say when it stays inside its arrays: the first value is read
whatever the number of data. A quotient by zero, which the centroid is where no
value is above the level, is zero here.
-/

namespace Crs.Peak

open Foundation

/-- The body of the loop of `centroid`, with the sums of the weights and of the weighted values. -/
def weigh (x y : Data) (absoluteLevel : ℚ) (sums : ℚ × ℚ) (i : ℕ) : ℚ × ℚ :=
  if absoluteLevel < y i then (sums.1 + y i, sums.2 + y i * x i) else sums

def centroid (nData : ℕ) (x y : Data) (absoluteLevel : ℚ) : ℚ :=
  let sums := (List.range nData).foldl (weigh x y absoluteLevel) (0, 0)
  sums.2 / sums.1

/-- One measurement of `peakCenter`. -/
def measureAt (nData : ℕ) (x y : Data) (peakMaximum : IntDoublePair) (height : ℚ) :
    PeakWidthData :=
  let idxSlope := measPeak nData y peakMaximum height
  { height, idxSlope
    width := x idxSlope.second - x idxSlope.first
    center := (x idxSlope.second + x idxSlope.first) / 2
    centroid := centroid nData x y (height * peakMaximum.second) }

/-- Nothing of the measurements from before is left. -/
def peakCenter (nData : ℕ) (x y : Data) : PeakCenterData :=
  let peakMaximum := findMaximum nData y
  let height50 := measureAt nData x y peakMaximum (1 / 2)
  let height10 := measureAt nData x y peakMaximum (1 / 10)
  let height98 := measureAt nData x y peakMaximum (98 / 100)
  { peakMaximum, height50, height10
    height98 := { height98 with width := height10.width - height98.width } }

namespace Bounded

def findMaximum (nData : ℤ) (y : BoundedArray ℚ) : Option IntDoublePair := do
  (List.range' 1 (nData - 1).toNat).foldlM (fun (result : IntDoublePair) (i : ℕ) => do
    let here ← y.get i
    some (if result.second < here then { first := i, second := here } else result))
    { first := 0, second := ← y.get 0 }

def slopeLevel (y : BoundedArray ℚ) (maxPosition : IntDoublePair) (height : ℚ) : Option ℚ := do
  if isZero maxPosition.second then
    let top ← y.get maxPosition.first
    some (top * height)
  else
    some (maxPosition.second * height)

def findLevelLeft (_nData : ℤ) (y : BoundedArray ℚ) (maxPosition : IntDoublePair) (height : ℚ) :
    Option ℕ := do
  let level ← slopeLevel y maxPosition height
  let found ← (List.range maxPosition.first).findM? fun (i : ℕ) =>
    (y.get i).map fun here => decide (level < here)
  some (found.getD maxPosition.first)

def findLevelRight (nData : ℤ) (y : BoundedArray ℚ) (maxPosition : IntDoublePair) (height : ℚ) :
    Option ℕ := do
  let level ← slopeLevel y maxPosition height
  let next := maxPosition.first + 1
  let found ← (List.range' next (nData - next).toNat).reverse.findM? fun (i : ℕ) =>
    (y.get i).map fun here => decide (level < here)
  some (found.getD maxPosition.first)

def measPeak (nData : ℤ) (y : BoundedArray ℚ) (maxPosition : IntDoublePair) (height : ℚ) :
    Option IntPair := do
  let first ← findLevelLeft nData y maxPosition height
  let second ← findLevelRight nData y maxPosition height
  some { first, second }

def centroid (nData : ℤ) (x y : BoundedArray ℚ) (absoluteLevel : ℚ) : Option ℚ := do
  let sums ← (List.range nData.toNat).foldlM (fun (sums : ℚ × ℚ) (i : ℕ) => do
    let weight ← y.get i
    if absoluteLevel < weight then
      let position ← x.get i
      some (sums.1 + weight, sums.2 + weight * position)
    else
      some sums) (0, 0)
  some (sums.2 / sums.1)

def measureAt (nData : ℤ) (x y : BoundedArray ℚ) (peakMaximum : IntDoublePair) (height : ℚ) :
    Option PeakWidthData := do
  let idxSlope ← measPeak nData y peakMaximum height
  let (second, first) ← ends x idxSlope
  let centroid ← centroid nData x y (height * peakMaximum.second)
  some { height, idxSlope, width := second - first, center := (second + first) / 2, centroid }

def peakCenter (nData : ℤ) (x y : BoundedArray ℚ) : Option PeakCenterData := do
  let peakMaximum ← findMaximum nData y
  let height50 ← measureAt nData x y peakMaximum (1 / 2)
  let height10 ← measureAt nData x y peakMaximum (1 / 10)
  let height98 ← measureAt nData x y peakMaximum (98 / 100)
  some { peakMaximum, height50, height10
         height98 := { height98 with width := height10.width - height98.width } }

section Center

variable {nData : ℤ} {size : ℕ} {x y : BoundedArray ℚ} {peak : IntDoublePair}

theorem findMaximum_eq (positive : 0 < size) (fits : nData ≤ size) (readable : size ≤ y.size) :
    findMaximum nData y = some (Peak.findMaximum nData.toNat y.data) ∧
      (Peak.findMaximum nData.toNat y.data).first < size := by
  have count : (nData - 1).toNat = nData.toNat - 1 := by omega
  have first : y.get 0 = some (y.data 0) :=
    BoundedArray.get_natCast (i := 0) (positive.trans_le readable)
  rw [findMaximum, first, count]
  refine foldlM_eq_some (P := fun (result : IntDoublePair) => result.first < size) ?_ positive
  intro result inside i member
  rw [List.mem_range'_1] at member
  have below : i < size := by omega
  rw [BoundedArray.get_natCast (below.trans_le readable)]
  refine ⟨rfl, ?_⟩
  unfold keepMaximum
  split
  · exact below
  · exact inside

/-- The first value is read in any case, and each of the others is read once. -/
theorem findMaximum_of_lt (short : (y.size : ℤ) < max 1 nData) : findMaximum nData y = none := by
  rw [findMaximum]
  by_cases empty : y.size = 0
  · have first : y.get 0 = none := if_neg fun inside => by omega
    rw [first]
    rfl
  · have member : y.size ∈ List.range' 1 (nData - 1).toNat := by
      rw [List.mem_range'_1]
      omega
    have outside : y.get y.size = none := if_neg fun inside => by omega
    cases y.get 0 with
    | none => rfl
    | some top =>
      refine foldlM_eq_none member fun result => ?_
      rw [outside]
      rfl

theorem slopeLevel_eq (inside : peak.first < y.size) (height : ℚ) :
    slopeLevel y peak height = some (Peak.slopeLevel y.data peak height) := by
  unfold slopeLevel Peak.slopeLevel
  rw [BoundedArray.get_natCast inside]
  split <;> rfl

/-- A search for a slope finds an index of the list, or stays at the maximum. -/
theorem findM?_level {l : List ℕ} (inside : peak.first < size) (below : ∀ i ∈ l, i < size)
    (readable : size ≤ y.size) (level : ℚ) :
    (l.findM? fun (i : ℕ) => (y.get i).map fun here => decide (level < here)) =
        some (l.find? fun i => level < y.data i) ∧
      (l.find? fun i => level < y.data i).getD peak.first < size := by
  constructor
  · refine findM?_eq_some fun i member => ?_
    rw [BoundedArray.get_natCast ((below i member).trans_le readable)]
    rfl
  · cases found : l.find? fun i => level < y.data i with
    | none => exact inside
    | some i => exact below i (List.mem_of_find?_eq_some found)

theorem findLevelLeft_eq (inside : peak.first < size) (readable : size ≤ y.size) (nData : ℤ)
    (height : ℚ) :
    findLevelLeft nData y peak height =
        some (Peak.findLevelLeft nData.toNat y.data peak height) ∧
      Peak.findLevelLeft nData.toNat y.data peak height < size := by
  have below : ∀ i ∈ List.range peak.first, i < size :=
    fun i member => (List.mem_range.mp member).trans inside
  obtain ⟨found, slope⟩ := findM?_level inside below readable (Peak.slopeLevel y.data peak height)
  rw [findLevelLeft, slopeLevel_eq (inside.trans_le readable)]
  simp only [Option.bind_eq_bind, Option.bind_some, found]
  exact ⟨rfl, slope⟩

theorem findLevelRight_eq (inside : peak.first < size) (fits : nData ≤ size)
    (readable : size ≤ y.size) (height : ℚ) :
    findLevelRight nData y peak height =
        some (Peak.findLevelRight nData.toNat y.data peak height) ∧
      Peak.findLevelRight nData.toNat y.data peak height < size := by
  have count : (nData - (peak.first + 1 : ℕ)).toNat = nData.toNat - (peak.first + 1) := by omega
  have below : ∀ i ∈ (List.range' (peak.first + 1) (nData.toNat - (peak.first + 1))).reverse,
      i < size := by
    intro i member
    rw [List.mem_reverse, List.mem_range'_1] at member
    omega
  obtain ⟨found, slope⟩ := findM?_level inside below readable (Peak.slopeLevel y.data peak height)
  rw [findLevelRight, slopeLevel_eq (inside.trans_le readable)]
  simp only [Option.bind_eq_bind, Option.bind_some, count, found]
  exact ⟨rfl, slope⟩

theorem measPeak_eq (inside : peak.first < size) (fits : nData ≤ size) (readable : size ≤ y.size)
    (height : ℚ) :
    measPeak nData y peak height = some (Peak.measPeak nData.toNat y.data peak height) ∧
      Below size (Peak.measPeak nData.toNat y.data peak height) := by
  obtain ⟨left, left_below⟩ := findLevelLeft_eq inside readable nData height
  obtain ⟨right, right_below⟩ := findLevelRight_eq inside fits readable height
  rw [measPeak, left, right]
  exact ⟨rfl, left_below, right_below⟩

theorem centroid_eq (readable_x : nData ≤ x.size) (readable : nData ≤ y.size) (level : ℚ) :
    centroid nData x y level = some (Peak.centroid nData.toNat x.data y.data level) := by
  have each (sums : ℚ × ℚ) (_ : True) : ∀ i ∈ List.range nData.toNat,
      (do
        let weight ← y.get (i : ℕ)
        if level < weight then
          let position ← x.get (i : ℕ)
          some (sums.1 + weight, sums.2 + weight * position)
        else
          some sums) = some (weigh x.data y.data level sums i) ∧ True := by
    intro i member
    rw [List.mem_range] at member
    rw [BoundedArray.get_natCast (by omega), BoundedArray.get_natCast (by omega)]
    refine ⟨?_, trivial⟩
    simp only [Option.bind_eq_bind, Option.bind_some, weigh]
    split <;> rfl
  obtain ⟨sums, -⟩ := foldlM_eq_some each trivial
  rw [centroid, sums]
  rfl

theorem measureAt_eq (inside : peak.first < size) (fits : nData ≤ size)
    (readable_x : size ≤ x.size) (readable : size ≤ y.size) (height : ℚ) :
    measureAt nData x y peak height =
      some (Peak.measureAt nData.toNat x.data y.data peak height) := by
  obtain ⟨slopes, below⟩ := measPeak_eq inside fits readable height
  have covers_x : nData ≤ x.size := fits.trans (Int.ofNat_le.mpr readable_x)
  have covers : nData ≤ y.size := fits.trans (Int.ofNat_le.mpr readable)
  have center := centroid_eq covers_x covers (height * peak.second)
  have read := ends_eq readable_x below
  rw [measureAt, slopes]
  simp only [Option.bind_eq_bind, Option.bind_some, read, center]
  rfl

/-- With the first value and all the data inside, every access is. -/
theorem peakCenter_eq (positive : 0 < size) (fits : nData ≤ size) (readable_x : size ≤ x.size)
    (readable : size ≤ y.size) :
    peakCenter nData x y = some (Peak.peakCenter nData.toNat x.data y.data) := by
  obtain ⟨maximum, inside⟩ := findMaximum_eq positive fits readable
  rw [peakCenter, maximum]
  simp only [Option.bind_eq_bind, Option.bind_some,
    measureAt_eq inside fits readable_x readable]
  rfl

theorem peakCenter_isSome_iff (readable_x : max 1 nData ≤ x.size) :
    (peakCenter nData x y).isSome ↔ max 1 nData ≤ y.size := by
  constructor
  · intro done
    by_contra short
    rw [peakCenter, findMaximum_of_lt (not_le.mp short)] at done
    cases done
  · intro readable
    have positive : 0 < max 1 nData.toNat := by omega
    have fits : nData ≤ (max 1 nData.toNat : ℕ) := by omega
    rw [peakCenter_eq positive fits (by omega) (by omega)]
    rfl

end Center

end Bounded

end Crs.Peak
