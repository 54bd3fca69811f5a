import Crs.Peak.Agreement

/-!
# What earlier spectra leave behind

`estimateGuess` writes to structures that hold the results for an earlier
spectrum. Its results are compared for any two earlier contents. Everything is
calculated anew but the slopes at 98 percent, which are only set where a point
is above their level.
-/

namespace Crs.Peak

open Foundation Scan

variable {nData : ℕ} {nFilterSize : ℤ} {x y : Data}

theorem outermost_start_iff {level : ℚ} {value : ℕ → ℚ} {l : List ℕ} :
    (∀ start start', outermost level value l start = outermost level value l start') ↔
      ∃ i ∈ l, level < value i := by
  simp only [outermost]
  cases found : l.reverse.find? fun i => level < value i with
  | none =>
    simp only [List.find?_eq_none, List.mem_reverse, decide_eq_true_eq] at found
    constructor
    · intro all
      exact absurd (all 0 1) (by simp)
    · rintro ⟨i, member, above⟩
      exact absurd above (found i member)
  | some i =>
    have member := List.mem_reverse.mp (List.mem_of_find?_eq_some found)
    simpa using ⟨i, member, by simpa using List.find?_some found⟩

/-- The parameters of a peak, in terms of the maximum, the corrected data, and the slopes that the
measurement at 98 percent starts from. -/
def reported (nData : ℕ) (x value : Data) (peak : IntDoublePair) (idxSlope98 : IntPair) :
    PeakCenterData :=
  let p : PeakCenterData := {
    peakMaximum := peak
    height50 := { height := 1 / 2 * peak.second, idxSlope := ⟨peak.first, peak.first⟩ }
    height10 := { height := 1 / 10 * peak.second, idxSlope := ⟨peak.first, peak.first⟩ }
    height98 := { height := 98 / 100 * peak.second, idxSlope := idxSlope98 } }
  (p.between value (leftOf peak.first) (rightOf nData peak.first)).finish x

theorem estimateGuess_pcd (wide : 2 * halfPoints nFilterSize + 1 ≤ nData) (x y out : Data)
    (g : Guess) :
    (estimateGuess nData x y g nFilterSize).pcd =
      reported nData x (corrected nData x y out nFilterSize)
        (estimateGuess nData x y g nFilterSize).pcd.peakMaximum g.pcd.height98.idxSlope := by
  have seen := visited_smooth (y := y) wide (halfPoints_pos nFilterSize) g
  have inside := (mem_visits wide).mp seen.peak.mem
  have pcd := measure_pcd inside fun i => smooth_corrected wide x y out g
  have kept := smooth_height98 (y := y) wide g
  rw [estimateGuess]
  dsimp only
  rw [pcd, ← kept]
  rfl

theorem reported_iff (x value : Data) (peak : IntDoublePair) :
    (∀ slope slope', reported nData x value peak slope = reported nData x value peak slope') ↔
      (∃ i ∈ leftOf peak.first, 98 / 100 * peak.second < value i) ∧
        ∃ i ∈ rightOf nData peak.first, 98 / 100 * peak.second < value i := by
  constructor
  · intro all
    constructor
    · refine outermost_start_iff.mp fun start start' => ?_
      exact congrArg (·.height98.idxSlope.first) (all ⟨start, 0⟩ ⟨start', 0⟩)
    · refine outermost_start_iff.mp fun start start' => ?_
      exact congrArg (·.height98.idxSlope.second) (all ⟨0, start⟩ ⟨0, start'⟩)
  · rintro ⟨left, right⟩ slope slope'
    have first := outermost_start_iff.mpr left slope.first slope'.first
    have second := outermost_start_iff.mpr right slope.second slope'.second
    simp only [reported, PeakCenterData.between, PeakWidthData.between, first, second]

/-- Two runs have the same results, as far as there are data. -/
structure SameResults (nData : ℕ) (r r' : Guess) : Prop where
  pcd : r.pcd = r'.pcd
  bgLevel : r.bgLevel = r'.bgLevel
  yo : ∀ i < nData, r.yo i = r'.yo i
  hist : r.hist = r'.hist

/-- A smoothed point is above 98 percent of the maximum, both over the background. -/
def High (nData : ℕ) (y : Data) (nFilterSize : ℤ) (peak i : ℕ) : Prop :=
  98 / 100 * (smoothAt nData (halfPoints nFilterSize) y peak - background nData y) <
    smoothAt nData (halfPoints nFilterSize) y i - background nData y

/-- There are such points on both sides of the maximum, which is the first one visited. -/
def HighOnBothSides (nData : ℕ) (y : Data) (nFilterSize : ℤ) : Prop :=
  ∃ peak, Leads (smoothAt nData (halfPoints nFilterSize) y)
      (visitRank nData (halfPoints nFilterSize)) (visits nData (halfPoints nFilterSize)) peak ∧
    (∃ i < peak, High nData y nFilterSize peak i) ∧
      ∃ i, peak < i ∧ i < nData ∧ High nData y nFilterSize peak i

theorem Processed.peakMaximum_eq {out : Data} {g g' r r' : Guess}
    (wide : 2 * halfPoints nFilterSize + 1 ≤ nData)
    (processed : Processed nData x y out nFilterSize g r)
    (processed' : Processed nData x y out nFilterSize g' r') :
    r.pcd.peakMaximum = r'.pcd.peakMaximum := by
  have first := processed.best.unique (visitRank_inj wide) processed'.best
  have second : r.pcd.peakMaximum.second = r'.pcd.peakMaximum.second := by
    rw [processed.top, processed'.top, first]
  exact congrArg₂ IntDoublePair.mk first second

/-- What the structures held before does not matter, just if the slopes at 98 percent are set on
both sides. -/
theorem sameResults_iff (wide : 2 * halfPoints nFilterSize + 1 ≤ nData) (x y : Data) :
    (∀ g g', SameResults nData (estimateGuess nData x y g nFilterSize)
      (estimateGuess nData x y g' nFilterSize)) ↔ HighOnBothSides nData y nFilterSize := by
  -- the plain functions may smooth into any array
  have processed := fun g => estimateGuess_spec wide x y y g
  have peak_eq := fun g => (processed g).peakMaximum_eq wide (processed {})
  set peak := (estimateGuess nData x y {} nFilterSize).pcd.peakMaximum
  have pcd (g : Guess) : (estimateGuess nData x y g nFilterSize).pcd =
      reported nData x (corrected nData x y y nFilterSize) peak g.pcd.height98.idxSlope := by
    rw [estimateGuess_pcd wide x y y g, peak_eq]
  have results : (∀ g g', SameResults nData (estimateGuess nData x y g nFilterSize)
      (estimateGuess nData x y g' nFilterSize)) ↔
      ∀ slope slope', reported nData x (corrected nData x y y nFilterSize) peak slope =
        reported nData x (corrected nData x y y nFilterSize) peak slope' := by
    constructor
    · intro same slope slope'
      have equal := (same { pcd.height98.idxSlope := slope }
        { pcd.height98.idxSlope := slope' }).pcd
      rwa [pcd, pcd] at equal
    · intro same g g'
      have bgLevel := (processed g).bgLevel.trans (processed g').bgLevel.symm
      refine ⟨?_, bgLevel, fun i below => ?_, (processed g).hist.unique (processed g').hist⟩
      · rw [pcd, pcd]
        exact same _ _
      · rw [(processed g).yo i below, (processed g').yo i below, bgLevel]
  have best := (processed {}).best
  have inside : peak.first < nData := (mem_visits wide).mp best.mem
  have value {i : ℕ} (below : i < nData) : corrected nData x y y nFilterSize i =
      smoothAt nData (halfPoints nFilterSize) y i - background nData y := by
    rw [corrected, fltMovingAverage_eq wide x y y below]
  have top : peak.second = smoothAt nData (halfPoints nFilterSize) y peak.first -
      background nData y := (processed {}).top.trans (value inside)
  have high {i : ℕ} (below : i < nData) :
      98 / 100 * peak.second < corrected nData x y y nFilterSize i ↔
        High nData y nFilterSize peak.first i := by
    rw [High, value below, top]
  have left : (∃ i ∈ leftOf peak.first,
      98 / 100 * peak.second < corrected nData x y y nFilterSize i) ↔
        ∃ i < peak.first, High nData y nFilterSize peak.first i := by
    refine exists_congr fun i => ?_
    rw [mem_leftOf]
    exact and_congr_right fun before => high (before.trans inside)
  have right : (∃ i ∈ rightOf nData peak.first,
      98 / 100 * peak.second < corrected nData x y y nFilterSize i) ↔
        ∃ i, peak.first < i ∧ i < nData ∧ High nData y nFilterSize peak.first i := by
    refine exists_congr fun i => ?_
    rw [mem_rightOf, and_assoc]
    exact and_congr_right fun _ => and_congr_right high
  rw [results, reported_iff, left, right]
  constructor
  · intro sides
    exact ⟨peak.first, best, sides⟩
  · rintro ⟨other, leads, sides⟩
    rwa [best.unique (visitRank_inj wide) leads]

/-- The middle one of three points is the maximum, and its neighbours come close. -/
theorem sameResults_flat : 2 * halfPoints 3 + 1 ≤ 3 ∧
    SameResults 3 (estimateGuess 3 Nat.cast (fun i => [99, 102, 99].getD i 0) {} 3)
      (estimateGuess 3 Nat.cast (fun i => [99, 102, 99].getD i 0)
        { pcd.height98.idxSlope := ⟨2, 2⟩ } 3) := by
  refine ⟨by decide, (sameResults_iff (by decide) _ _).mpr ⟨1, ?_, ⟨0, by decide, ?_⟩, 2, by decide,
    by decide, ?_⟩ _ _⟩
  · unfold Leads
    decide +kernel
  · unfold High
    decide +kernel
  · unfold High
    decide +kernel

/-- The neighbours of a sharp maximum are not above the level, and the slopes stay. -/
theorem not_sameResults_sharp :
    ¬∀ (nData : ℕ) (nFilterSize : ℤ), 2 * halfPoints nFilterSize + 1 ≤ nData →
      ∀ (x y : Data) (g g' : Guess), SameResults nData (estimateGuess nData x y g nFilterSize)
        (estimateGuess nData x y g' nFilterSize) := by
  intro all
  have slopes := congrArg (·.height98.idxSlope.first) (all 3 3 (by decide) Nat.cast
    (fun i => [0, 6, 0].getD i 0) {} { pcd.height98.idxSlope := ⟨2, 2⟩ }).pcd
  revert slopes
  decide +kernel

end Crs.Peak
