import Crs.Foundation.BoundedArray
import Crs.Peak.Passes

/-!
# Smoothing within bounds

The smoothing functions again, with arrays that have bounds and indices that are
integers: an access outside an array is none. `yo` has `size` elements. Where
the edges fit into the data, they do what they do on arrays without bounds;
otherwise an index counted down from the end of the data is negative.
-/

namespace Crs.Peak

open Foundation

namespace Bounded

def averageAt (halfPoints : ℕ) (y : BoundedArray ℚ) (i : ℤ) : Option ℚ := do
  let sum ← (List.range' 1 halfPoints).foldlM (fun sum (j : ℕ) => do
    let left ← y.get (i - j)
    let right ← y.get (i + j)
    some (sum + (left + right))) (← y.get i)
  some (sum / (2 * halfPoints + 1))

def fltMovingAverage (nData : ℤ) (_x y yo : BoundedArray ℚ) (nFilterSize : ℤ) :
    Option (BoundedArray ℚ) := do
  let half := halfPoints nFilterSize
  let yo ← (List.range' half (nData - half - half).toNat).foldlM
    (fun yo (i : ℕ) => do yo.set i (← averageAt half y i)) yo
  let yo ← yo.copy y 0 half
  yo.copy y (nData - half) half

/-- The step behind the end that an empty histogram would take is not followed. -/
def background (nData : ℤ) (y : BoundedArray ℚ) : Option ℚ := do
  let hist ← (List.range nData.toNat).foldlM (fun (hist : OrderedMap ℚ ℕ) (i : ℕ) => do
    let intensity ← y.get i
    some (hist.tally intensity)) OrderedMap.empty
  some (tracedLevel hist)

section EstimateGuess

variable (size : ℕ)

def get (g : Guess) (i : ℤ) : Option ℚ := (BoundedArray.mk size g.yo).get i

def set (g : Guess) (i : ℤ) (v : ℚ) : Option Guess :=
  ((BoundedArray.mk size g.yo).set i v).map fun yo => { g with yo := yo.data }

/-- An index that was accessed is not negative. -/
def visit (y : BoundedArray ℚ) (value : Option ℚ) (g : Guess) (i : ℤ) : Option Guess := do
  let g ← set size g i (← value)
  let top ← get size g g.pcd.peakMaximum.first
  let here ← get size g i
  let intensity ← y.get i
  some { g with
    pcd.peakMaximum.first := if top < here then i.toNat else g.pcd.peakMaximum.first
    hist := g.hist.tally intensity }

def visitEdges (nData : ℤ) (half : ℕ) (y : BoundedArray ℚ) (g : Guess) : Option Guess :=
  (List.range half).foldlM (fun g (i : ℕ) => do
    let g ← visit size y (y.get i) g i
    visit size y (y.get (nData - i - 1)) g (nData - i - 1)) g

def visitMiddle (nData : ℤ) (half : ℕ) (y : BoundedArray ℚ) (g : Guess) : Option Guess :=
  (List.range' half (nData - half - half).toNat).foldlM
    (fun g (i : ℕ) => visit size y (averageAt half y i) g i) g

def smooth (nData : ℤ) (half : ℕ) (y : BoundedArray ℚ) (g : Guess) : Option Guess := do
  let g := { g with hist := OrderedMap.empty, pcd.peakMaximum.first := 0 }
  visitMiddle size nData half y (← visitEdges size nData half y g)

def level (g : Guess) : Option Guess := do
  let bgLevel := tracedLevel g.hist
  let top := (← get size g g.pcd.peakMaximum.first) - bgLevel
  let g ← set size g g.pcd.peakMaximum.first top
  some { g with bgLevel, pcd.peakMaximum.second := top }

def walk (mark : PeakCenterData → ℕ → ℚ → PeakCenterData) (g : Guess) (i : ℕ) :
    Option Guess := do
  let value := (← get size g i) - g.bgLevel
  let g ← set size g i value
  some { g with pcd := mark g.pcd i value }

def walkLeft (g : Guess) : Option Guess :=
  (List.range g.pcd.peakMaximum.first).reverse.foldlM (walk size PeakCenterData.markFirst) g

def walkRight (nData : ℤ) (g : Guess) : Option Guess :=
  let next := g.pcd.peakMaximum.first + 1
  (List.range' next (nData - next).toNat).foldlM (walk size PeakCenterData.markSecond) g

def measure (nData : ℤ) (g : Guess) : Option Guess := do
  let g ← level size g
  walkRight size nData (← walkLeft size { g with pcd := g.pcd.start })

end EstimateGuess

def ends (x : BoundedArray ℚ) (slope : IntPair) : Option (ℚ × ℚ) := do
  let second ← x.get slope.second
  let first ← x.get slope.first
  some (second, first)

/-- The parameters at the end, behind the accesses that they take. -/
def finish (x : BoundedArray ℚ) (p : PeakCenterData) : Option PeakCenterData := do
  let _ ← ends x p.height50.idxSlope
  let _ ← ends x p.height10.idxSlope
  let _ ← ends x p.height98.idxSlope
  some (p.finish x.data)

def estimateGuess (nData : ℤ) (x y : BoundedArray ℚ) (size : ℕ) (g : Guess) (nFilterSize : ℤ) :
    Option Guess := do
  let g ← smooth size nData (halfPoints nFilterSize) y g
  let g ← measure size nData g
  some { g with pcd := (← finish x g.pcd) }

section Averages

variable {x y yo : BoundedArray ℚ} {nData half i : ℕ} {nFilterSize : ℤ}

theorem averageAt_eq (left : half ≤ i) (right : i + half < y.size) :
    averageAt half y i = some (Peak.averageAt half y.data i) := by
  have each (sum : ℚ) (_ : True) : ∀ j ∈ List.range' 1 half,
      (do
        let left ← y.get (i - (j : ℕ))
        let right ← y.get (i + (j : ℕ))
        some (sum + (left + right))) = some (sum + (y.data (i - j) + y.data (i + j))) ∧ True := by
    intro j member
    rw [List.mem_range'_1] at member
    have front : (i : ℤ) - j = ((i - j : ℕ) : ℤ) := by omega
    have behind : (i : ℤ) + j = ((i + j : ℕ) : ℤ) := by omega
    rw [front, behind, BoundedArray.get_natCast (by omega), BoundedArray.get_natCast (by omega)]
    exact ⟨rfl, trivial⟩
  obtain ⟨sum, -⟩ := foldlM_eq_some (s := y.data i) each trivial
  rw [averageAt, BoundedArray.get_natCast (by omega)]
  simp only [Option.bind_eq_bind, Option.bind_some] at sum ⊢
  rw [sum]
  rfl

/-- Smoothing fits into arrays that are as long as the data, if the edges fit into the data. -/
theorem fltMovingAverage_eq (fits : halfPoints nFilterSize ≤ nData) (readable : nData ≤ y.size)
    (writable : nData ≤ yo.size) : fltMovingAverage nData x y yo nFilterSize =
      some { yo with data := Peak.fltMovingAverage nData x.data y.data yo.data nFilterSize } := by
  set half := halfPoints nFilterSize with half_eq
  have count : ((nData : ℤ) - half - half).toNat = nData - half - half := by omega
  have each (out : BoundedArray ℚ) (same : out.size = yo.size) :
      ∀ i ∈ List.range' half (nData - half - half),
        (do out.set (i : ℕ) (← averageAt half y i)) =
          some { out with data := Function.update out.data i (Peak.averageAt half y.data i) } ∧
        out.size = yo.size := by
    intro i member
    rw [List.mem_range'_1] at member
    rw [averageAt_eq member.1 (by omega)]
    exact ⟨BoundedArray.set_mk (by omega) _, same⟩
  obtain ⟨middle, -⟩ := foldlM_eq_some each rfl
  rw [BoundedArray.foldl_data fun data i => Function.update data i (Peak.averageAt half y.data i)]
    at middle
  -- both edges, into whatever the loop has left
  have copied (out : Data) : (BoundedArray.mk yo.size out).copy y 0 half =
      some ⟨yo.size, copyPoints out y.data 0 half⟩ := by
    have readable_edge : 0 + half ≤ y.size := by omega
    have writable_edge : 0 + half ≤ yo.size := by omega
    exact BoundedArray.copy_natCast readable_edge writable_edge
  have copied_end (out : Data) : (BoundedArray.mk yo.size out).copy y (nData - half) half =
      some ⟨yo.size, copyPoints out y.data (nData - half) half⟩ := by
    have readable_edge : nData - half + half ≤ y.size := by omega
    have writable_edge : nData - half + half ≤ yo.size := by omega
    rw [← Int.ofNat_sub fits]
    exact BoundedArray.copy_natCast readable_edge writable_edge
  simp only [Option.bind_eq_bind] at middle
  simp only [fltMovingAverage, ← half_eq, count, Option.bind_eq_bind, middle, Option.bind_some,
    copied, copied_end]
  rfl

theorem fltMovingAverage_of_lt {nData : ℤ} (short : nData < halfPoints nFilterSize) :
    fltMovingAverage nData x y yo nFilterSize = none := by
  have fails (out : BoundedArray ℚ) :
      out.copy y (nData - halfPoints nFilterSize) (halfPoints nFilterSize) = none :=
    BoundedArray.copy_of_neg (halfPoints_pos nFilterSize) (by omega)
  simp only [fltMovingAverage, fails, Option.bind_eq_bind, Option.bind_fun_none]

theorem background_eq {nData : ℤ} (readable : nData ≤ y.size) :
    background nData y = some (Peak.background nData.toNat y.data) := by
  have each (hist : OrderedMap ℚ ℕ) (_ : True) : ∀ i ∈ List.range nData.toNat,
      (do
        let intensity ← y.get (i : ℕ)
        some (hist.tally intensity)) = some (hist.tally (y.data i)) ∧ True := by
    intro i member
    rw [List.mem_range] at member
    rw [BoundedArray.get_natCast (by omega)]
    exact ⟨rfl, trivial⟩
  obtain ⟨counted, -⟩ := foldlM_eq_some each trivial
  rw [background, counted]
  rfl

end Averages

section Passes

variable {size nData half i : ℕ} {x y : BoundedArray ℚ} {g : Guess} {nFilterSize : ℤ}

theorem get_eq (inside : i < size) (g : Guess) : get size g i = some (g.yo i) :=
  BoundedArray.get_natCast (a := ⟨size, g.yo⟩) inside

theorem set_eq (inside : i < size) (g : Guess) (v : ℚ) :
    set size g i v = some { g with yo := Function.update g.yo i v } := by
  rw [set, BoundedArray.set_mk inside]
  rfl

def Below (nData : ℕ) (slope : IntPair) : Prop := slope.first < nData ∧ slope.second < nData

/-- The indices that the first pass leaves are those of data. -/
structure Kept (nData : ℕ) (g : Guess) : Prop where
  peak : g.pcd.peakMaximum.first < nData
  slope98 : Below nData g.pcd.height98.idxSlope

theorem visit_eq (written : nData ≤ size) (readable : nData ≤ y.size) (kept : Kept nData g)
    (below : i < nData) (value : Data) :
    visit size y (some (value i)) g i = some (g.visit y.data value i) ∧
      Kept nData (g.visit y.data value i) := by
  constructor
  · simp only [visit, Option.bind_eq_bind, Option.bind_some]
    rw [set_eq (below.trans_le written), Option.bind_some, get_eq (kept.peak.trans_le written),
      Option.bind_some, get_eq (below.trans_le written), Option.bind_some,
      BoundedArray.get_natCast (below.trans_le readable), Option.bind_some]
    rfl
  · refine ⟨?_, kept.slope98⟩
    simp only [Guess.visit]
    split
    · exact below
    · exact kept.peak

theorem visitEdges_eq (written : nData ≤ size) (readable : nData ≤ y.size) (fits : half ≤ nData)
    (kept : Kept nData g) :
    visitEdges size nData half y g = some (g.visitEdges nData half y.data) ∧
      Kept nData (g.visitEdges nData half y.data) := by
  refine foldlM_eq_some (fun g kept i member => ?_) kept
  have inside : i < half := List.mem_range.mp member
  have mirrored : (nData : ℤ) - i - 1 = ((nData - i - 1 : ℕ) : ℤ) := by omega
  obtain ⟨front, kept_front⟩ := visit_eq written readable kept (by omega : i < nData) y.data
  obtain ⟨back, kept_back⟩ :=
    visit_eq written readable kept_front (by omega : nData - i - 1 < nData) y.data
  rw [mirrored, BoundedArray.get_natCast (by omega), BoundedArray.get_natCast (by omega), front]
  exact ⟨back, kept_back⟩

theorem visitMiddle_eq (written : nData ≤ size) (readable : nData ≤ y.size)
    (kept : Kept nData g) :
    visitMiddle size nData half y g = some (g.visitMiddle nData half y.data) ∧
      Kept nData (g.visitMiddle nData half y.data) := by
  have count : ((nData : ℤ) - half - half).toNat = nData - half - half := by omega
  rw [visitMiddle, count]
  refine foldlM_eq_some (fun g kept i member => ?_) kept
  rw [List.mem_range'_1] at member
  rw [averageAt_eq member.1 (by omega)]
  exact visit_eq written readable kept (by omega) _

theorem smooth_eq (written : nData ≤ size) (readable : nData ≤ y.size) (fits : half ≤ nData)
    (nonempty : 0 < nData) (slope98 : Below nData g.pcd.height98.idxSlope) :
    smooth size nData half y g = some (g.smooth nData half y.data) ∧
      Kept nData (g.smooth nData half y.data) := by
  obtain ⟨edges, kept⟩ := visitEdges_eq written readable fits
    (g := { g with hist := OrderedMap.empty, pcd.peakMaximum.first := 0 })
    ⟨nonempty, slope98⟩
  rw [smooth]
  simp only [Option.bind_eq_bind]
  rw [edges]
  exact visitMiddle_eq written readable kept

/-- An edge that does not fit into the data is counted down to a negative index. -/
theorem smooth_of_lt {nData : ℤ} (positive : 0 < half) (short : nData < half) (g : Guess) :
    smooth size nData half y g = none := by
  have member : nData.toNat ∈ List.range half := List.mem_range.mpr (by omega)
  have negative : y.get (nData - nData.toNat - 1) = none := BoundedArray.get_of_neg (by omega)
  have fails : ∀ g i, visit size y none g i = none := fun _ _ => rfl
  have edges : ∀ g, visitEdges size nData half y g = none := by
    intro g
    refine foldlM_eq_none member fun g => ?_
    simp only [negative, fails, Option.bind_eq_bind, Option.bind_fun_none]
  rw [smooth]
  simp only [edges, Option.bind_eq_bind, Option.bind_none]

/-- The indices of a measurement are those of data. -/
structure Inside (nData : ℕ) (p : PeakCenterData) : Prop where
  peak : p.peakMaximum.first < nData
  slope50 : Below nData p.height50.idxSlope
  slope10 : Below nData p.height10.idxSlope
  slope98 : Below nData p.height98.idxSlope

theorem Below.markFirst {w : PeakWidthData} (inside : Below nData w.idxSlope) (below : i < nData)
    (value : ℚ) : Below nData (w.markFirst i value).idxSlope := by
  unfold PeakWidthData.markFirst
  split
  · exact ⟨below, inside.2⟩
  · exact inside

theorem Below.markSecond {w : PeakWidthData} (inside : Below nData w.idxSlope) (below : i < nData)
    (value : ℚ) : Below nData (w.markSecond i value).idxSlope := by
  unfold PeakWidthData.markSecond
  split
  · exact ⟨inside.1, below⟩
  · exact inside

theorem Inside.markFirst {p : PeakCenterData} (inside : Inside nData p) (below : i < nData)
    (value : ℚ) : Inside nData (p.markFirst i value) :=
  ⟨inside.peak, inside.slope50.markFirst below value, inside.slope10.markFirst below value,
    inside.slope98.markFirst below value⟩

theorem Inside.markSecond {p : PeakCenterData} (inside : Inside nData p) (below : i < nData)
    (value : ℚ) : Inside nData (p.markSecond i value) :=
  ⟨inside.peak, inside.slope50.markSecond below value, inside.slope10.markSecond below value,
    inside.slope98.markSecond below value⟩

theorem walk_eq (written : nData ≤ size) (below : i < nData)
    (mark : PeakCenterData → ℕ → ℚ → PeakCenterData) (g : Guess) :
    walk size mark g i = some (g.walk mark i) := by
  simp only [walk, get_eq (below.trans_le written), set_eq (below.trans_le written),
    Option.bind_eq_bind, Option.bind_some]
  rfl

theorem walkLeft_eq (written : nData ≤ size) (inside : Inside nData g.pcd) :
    walkLeft size g = some g.walkLeft ∧ Inside nData g.walkLeft.pcd := by
  have peak := inside.peak
  refine foldlM_eq_some (P := fun (g : Guess) => Inside nData g.pcd) (fun g inside i member => ?_)
    inside
  have below : i < nData := by
    rw [List.mem_reverse, List.mem_range] at member
    exact member.trans peak
  exact ⟨walk_eq written below _ g, inside.markFirst below _⟩

theorem walkRight_eq (written : nData ≤ size) (inside : Inside nData g.pcd) :
    walkRight size nData g = some (g.walkRight nData) ∧ Inside nData (g.walkRight nData).pcd := by
  have count : ((nData : ℤ) - ((g.pcd.peakMaximum.first + 1 : ℕ) : ℤ)).toNat =
      nData - (g.pcd.peakMaximum.first + 1) := by omega
  rw [walkRight]
  simp only [count]
  refine foldlM_eq_some (P := fun (g : Guess) => Inside nData g.pcd) (fun g inside i member => ?_)
    inside
  have below : i < nData := by
    rw [List.mem_range'_1] at member
    omega
  exact ⟨walk_eq written below _ g, inside.markSecond below _⟩

theorem measure_eq (written : nData ≤ size) (kept : Kept nData g) :
    measure size nData g = some (g.measure nData) ∧ Inside nData (g.measure nData).pcd := by
  have leveled : level size g = some g.level := by
    simp only [level, get_eq (kept.peak.trans_le written), set_eq (kept.peak.trans_le written),
      Option.bind_eq_bind, Option.bind_some]
    rfl
  have started : Inside nData g.level.pcd.start :=
    ⟨kept.peak, ⟨kept.peak, kept.peak⟩, ⟨kept.peak, kept.peak⟩, kept.slope98⟩
  obtain ⟨left, inside⟩ := walkLeft_eq written (g := { g.level with pcd := g.level.pcd.start })
    started
  rw [measure]
  simp only [leveled, Option.bind_eq_bind, Option.bind_some]
  rw [left]
  exact walkRight_eq written inside

theorem ends_eq {slope : IntPair} (readable : nData ≤ x.size) (below : Below nData slope) :
    ends x slope = some (x.data slope.second, x.data slope.first) := by
  rw [ends, BoundedArray.get_natCast (below.2.trans_le readable),
    BoundedArray.get_natCast (below.1.trans_le readable)]
  rfl

theorem finish_eq {p : PeakCenterData} (readable : nData ≤ x.size) (inside : Inside nData p) :
    finish x p = some (p.finish x.data) := by
  simp only [finish, ends_eq readable inside.slope50, ends_eq readable inside.slope10,
    ends_eq readable inside.slope98, Option.bind_eq_bind, Option.bind_some]

/-- Where the edges fit into the data, every access is inside. -/
theorem estimateGuess_eq (fits : halfPoints nFilterSize ≤ nData) (readable_x : nData ≤ x.size)
    (readable : nData ≤ y.size) (written : nData ≤ size)
    (slope98 : Below nData g.pcd.height98.idxSlope) :
    estimateGuess nData x y size g nFilterSize =
      some (Peak.estimateGuess nData x.data y.data g nFilterSize) := by
  have nonempty : 0 < nData := (halfPoints_pos nFilterSize).trans_le fits
  obtain ⟨smoothed, kept⟩ := smooth_eq written readable fits nonempty slope98
  obtain ⟨measured, inside⟩ := measure_eq written kept
  simp only [estimateGuess, smoothed, measured, finish_eq readable_x inside, Option.bind_eq_bind,
    Option.bind_some]
  rfl

theorem estimateGuess_of_lt {nData : ℤ} (short : nData < halfPoints nFilterSize) :
    estimateGuess nData x y size g nFilterSize = none := by
  rw [estimateGuess, smooth_of_lt (halfPoints_pos nFilterSize) short]
  rfl

end Passes

end Bounded

end Crs.Peak
