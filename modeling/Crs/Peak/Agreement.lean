import Crs.Peak.Passes

/-!
# The optimised preprocessing against the plain functions

`estimateGuess_spec` states what the optimised function computes on any data. It
agrees with the plain functions but for the choice between equal maxima:
`findMaximum` takes the first one, while the first pass has seen the right edge
before the inner points. `agrees_iff` says on which data this makes no difference.
-/

namespace Crs.Peak

open Foundation Scan

theorem foldl_keepMaximum {y : Data} {rank : ℕ → ℕ} {seen : List ℕ} {result : IntDoublePair}
    (best : Leads y rank seen result.first) (value : result.second = y result.first) {more : List ℕ}
    (order : (seen ++ more).Pairwise fun i j => rank i < rank j) :
    Leads y rank (seen ++ more) (more.foldl (keepMaximum y) result).first ∧
      (more.foldl (keepMaximum y) result).second =
        y (more.foldl (keepMaximum y) result).first := by
  induction more generalizing seen result with
  | nil => simpa using ⟨best, value⟩
  | cons i more ih =>
    have first : (keepMaximum y result i).first =
        if y result.first < y i then i else result.first := by
      rw [keepMaximum, value]
      split <;> rfl
    have next : Leads y rank (seen ++ [i]) (keepMaximum y result i).first := by
      rw [first]
      exact best.snoc (rank_le_of_pairwise order)
    have kept : (keepMaximum y result i).second = y (keepMaximum y result i).first := by
      unfold keepMaximum
      split
      · rfl
      · exact value
    simpa using ih next kept (by simpa using order)

/-- `findMaximum` finds the first of the greatest values. -/
theorem findMaximum_spec {nData : ℕ} (some : 0 < nData) (y : Data) :
    Leads y id (List.range nData) (findMaximum nData y).first ∧
      (findMaximum nData y).second = y (findMaximum nData y).first := by
  have split : List.range nData = [0] ++ List.range' 1 (nData - 1) := by
    obtain ⟨n, rfl⟩ := Nat.exists_eq_succ_of_ne_zero some.ne'
    simp [List.range_eq_range', List.range'_succ]
  rw [split]
  apply foldl_keepMaximum (Leads.singleton y id 0) rfl
  rw [← split]
  exact List.pairwise_lt_range

theorem findMaximum_eq_iff {nData : ℕ} (some : 0 < nData) {y : Data} {i : ℕ} :
    (findMaximum nData y).first = i ↔ Leads y id (List.range nData) i := by
  obtain ⟨best, -⟩ := findMaximum_spec some y
  constructor
  · rintro rfl
    exact best
  · exact best.unique fun k _ k' _ same => same

/-- Both slopes, as searches for an outermost index. -/
theorem measPeak_eq {nData : ℕ} {y : Data} {maxPosition : IntDoublePair}
    (value : maxPosition.second = y maxPosition.first) (height : ℚ) :
    measPeak nData y maxPosition height =
      { first := outermost (height * maxPosition.second) y (leftOf maxPosition.first)
          maxPosition.first
        second := outermost (height * maxPosition.second) y (rightOf nData maxPosition.first)
          maxPosition.first } := by
  have level : slopeLevel y maxPosition height = height * maxPosition.second := by
    rw [slopeLevel, ← value, ite_self, mul_comm]
  simp only [measPeak, findLevelLeft, findLevelRight, level, outermost, leftOf, rightOf,
    List.reverse_reverse]

section Spec

variable {nData : ℕ} {nFilterSize : ℤ}

/-- The background is traced in the histogram of the intensities, whoever filled it. -/
theorem background_eq {hist : OrderedMap ℚ ℕ} {y : Data}
    (counted : hist.Counts ((List.range nData).map y)) : background nData y = tracedLevel hist := by
  have plain := OrderedMap.Counts.empty.foldl ((List.range nData).map y)
  rw [List.foldl_map] at plain
  rw [background, plain.unique counted]

theorem between_congr (p : PeakCenterData) {value value' : ℕ → ℚ} {before after : List ℕ}
    (left : ∀ i ∈ before, value i = value' i) (right : ∀ i ∈ after, value i = value' i) :
    p.between value before after = p.between value' before after := by
  simp only [PeakCenterData.between, PeakWidthData.between, outermost_congr left,
    outermost_congr right]

/-- The level leaves the maximum corrected, and the second pass corrects the rest. -/
theorem level_value {g : Guess} {value : Data}
    (same : ∀ i < nData, g.yo i - tracedLevel g.hist = value i) {i : ℕ} (below : i < nData)
    (other : i ≠ g.pcd.peakMaximum.first) : g.level.yo i - g.level.bgLevel = value i := by
  have kept : g.level.yo i = g.yo i := Function.update_of_ne other _ _
  rw [kept]
  exact same i below

theorem measure_pcd {g : Guess} {value : Data} (inside : g.pcd.peakMaximum.first < nData)
    (same : ∀ i < nData, g.yo i - tracedLevel g.hist = value i) :
    (g.measure nData).pcd =
      ({ g.pcd with
        peakMaximum.second := value g.pcd.peakMaximum.first } : PeakCenterData).start.between value
          (leftOf g.pcd.peakMaximum.first) (rightOf nData g.pcd.peakMaximum.first) := by
  have walked : g.measure nData = _ :=
    walkRight_walkLeft (g := { g.level with pcd := g.level.pcd.start }) inside
  have left : ∀ i ∈ leftOf g.pcd.peakMaximum.first, g.level.yo i - g.level.bgLevel = value i := by
    intro i member
    have before := mem_leftOf.mp member
    exact level_value same (before.trans inside) before.ne
  have right : ∀ i ∈ rightOf nData g.pcd.peakMaximum.first,
      g.level.yo i - g.level.bgLevel = value i := by
    intro i member
    obtain ⟨behind, below⟩ := mem_rightOf.mp member
    exact level_value same below behind.ne'
  rw [walked, ← same _ inside]
  exact between_congr _ left right

/-- What the second pass makes of smoothed data with a maximum. -/
structure Measured (nData : ℕ) (g r : Guess) (peak : IntDoublePair) (value : Data) : Prop where
  peakMaximum : r.pcd.peakMaximum = peak
  bgLevel : r.bgLevel = tracedLevel g.hist
  hist : r.hist = g.hist
  yo : ∀ i < nData, r.yo i = value i
  slopes50 : r.pcd.height50.idxSlope = measPeak nData value peak (1 / 2)
  slopes10 : r.pcd.height10.idxSlope = measPeak nData value peak (1 / 10)
  slopes98 : r.pcd.height98.idxSlope =
    { first := outermost (98 / 100 * peak.second) value (leftOf peak.first)
        g.pcd.height98.idxSlope.first
      second := outermost (98 / 100 * peak.second) value (rightOf nData peak.first)
        g.pcd.height98.idxSlope.second }

theorem measure_spec {g : Guess} {value : Data} (inside : g.pcd.peakMaximum.first < nData)
    (same : ∀ i < nData, g.yo i - tracedLevel g.hist = value i) :
    Measured nData g (g.measure nData)
      { first := g.pcd.peakMaximum.first, second := value g.pcd.peakMaximum.first } value := by
  have walked : g.measure nData = _ :=
    walkRight_walkLeft (g := { g.level with pcd := g.level.pcd.start }) inside
  have pcd := measure_pcd inside same
  constructor
  case peakMaximum =>
    rw [pcd]
    rfl
  case bgLevel =>
    rw [walked]
    rfl
  case hist =>
    rw [walked]
    rfl
  case yo =>
    intro i below
    rw [walked]
    by_cases here : i = g.pcd.peakMaximum.first
    · have top : g.level.yo i = value i := by
        rw [here]
        exact (Function.update_self _ _ _).trans (same _ inside)
      exact (if_neg fun h => h.2 here).trans top
    · exact (if_pos ⟨below, here⟩).trans (level_value same below here)
  case slopes50 =>
    rw [pcd]
    exact (measPeak_eq rfl (1 / 2)).symm
  case slopes10 =>
    rw [pcd]
    exact (measPeak_eq rfl (1 / 10)).symm
  case slopes98 =>
    rw [pcd]
    rfl

/-- The data as the plain functions prepare them. -/
def corrected (nData : ℕ) (x y out : Data) (nFilterSize : ℤ) : Data :=
  fun i => fltMovingAverage nData x y out nFilterSize i - background nData y

/-- What the optimised function computes, on any data: all that the plain functions do, around
the first maximum in the order of its visits. The slopes at 98 percent are not reset: where no
point on a side is above the level, the index that `g` came with stays. -/
structure Processed (nData : ℕ) (x y out : Data) (nFilterSize : ℤ) (g r : Guess) : Prop where
  best : Leads (smoothAt nData (halfPoints nFilterSize) y)
    (visitRank nData (halfPoints nFilterSize)) (visits nData (halfPoints nFilterSize))
    r.pcd.peakMaximum.first
  top : r.pcd.peakMaximum.second = corrected nData x y out nFilterSize r.pcd.peakMaximum.first
  bgLevel : r.bgLevel = background nData y
  yo : ∀ i < nData, r.yo i = fltMovingAverage nData x y out nFilterSize i - r.bgLevel
  hist : r.hist.Counts ((List.range nData).map y)
  slopes50 : r.pcd.height50.idxSlope =
    measPeak nData (corrected nData x y out nFilterSize) r.pcd.peakMaximum (1 / 2)
  slopes10 : r.pcd.height10.idxSlope =
    measPeak nData (corrected nData x y out nFilterSize) r.pcd.peakMaximum (1 / 10)
  slopes98 : r.pcd.height98.idxSlope =
    { first := outermost (98 / 100 * r.pcd.peakMaximum.second)
        (corrected nData x y out nFilterSize) (leftOf r.pcd.peakMaximum.first)
        g.pcd.height98.idxSlope.first
      second := outermost (98 / 100 * r.pcd.peakMaximum.second)
        (corrected nData x y out nFilterSize) (rightOf nData r.pcd.peakMaximum.first)
        g.pcd.height98.idxSlope.second }

/-- The parameters calculated at the end do not matter for it. -/
theorem Processed.finish {x y out : Data} {g r : Guess}
    (processed : Processed nData x y out nFilterSize g r) :
    Processed nData x y out nFilterSize g { r with pcd := r.pcd.finish x } :=
  ⟨processed.best, processed.top, processed.bgLevel, processed.yo, processed.hist,
    processed.slopes50, processed.slopes10, processed.slopes98⟩

theorem counts_smooth (wide : 2 * halfPoints nFilterSize + 1 ≤ nData) (y : Data) (g : Guess) :
    (g.smooth nData (halfPoints nFilterSize) y).hist.Counts ((List.range nData).map y) :=
  (visited_smooth wide (halfPoints_pos nFilterSize) g).counted.perm ((visits_perm wide).map y)

/-- The first pass prepares the data as the plain functions do. -/
theorem smooth_corrected (wide : 2 * halfPoints nFilterSize + 1 ≤ nData) (x y out : Data)
    (g : Guess) {i : ℕ} (below : i < nData) :
    (g.smooth nData (halfPoints nFilterSize) y).yo i -
        tracedLevel (g.smooth nData (halfPoints nFilterSize) y).hist =
      corrected nData x y out nFilterSize i := by
  have seen := visited_smooth (y := y) wide (halfPoints_pos nFilterSize) g
  rw [seen.written i ((mem_visits wide).mpr below), corrected,
    background_eq (counts_smooth wide y g), fltMovingAverage_eq wide x y out below]

theorem estimateGuess_spec (wide : 2 * halfPoints nFilterSize + 1 ≤ nData) (x y out : Data)
    (g : Guess) :
    Processed nData x y out nFilterSize g (estimateGuess nData x y g nFilterSize) := by
  have seen := visited_smooth (y := y) wide (halfPoints_pos nFilterSize) g
  have kept := smooth_height98 (y := y) wide g
  set smoothed := g.smooth nData (halfPoints nFilterSize) y
  have inside : smoothed.pcd.peakMaximum.first < nData := (mem_visits wide).mp seen.peak.mem
  have counted : smoothed.hist.Counts ((List.range nData).map y) := counts_smooth wide y g
  have level := background_eq counted
  have measured := measure_spec inside fun i => smooth_corrected wide x y out g
  apply Processed.finish
  constructor
  case best =>
    rw [measured.peakMaximum]
    exact seen.peak
  case top => rw [measured.peakMaximum]
  case bgLevel => exact measured.bgLevel.trans level.symm
  case yo =>
    intro i below
    rw [measured.yo i below, corrected, level, measured.bgLevel]
  case hist =>
    rw [measured.hist]
    exact counted
  case slopes50 => rw [measured.slopes50, measured.peakMaximum]
  case slopes10 => rw [measured.slopes10, measured.peakMaximum]
  case slopes98 => rw [measured.slopes98, measured.peakMaximum, kept]

/-- The results of the optimised function are those of the plain functions. -/
structure Agrees (nData : ℕ) (x y out : Data) (nFilterSize : ℤ) (r : Guess) : Prop where
  bgLevel : r.bgLevel = background nData y
  yo : ∀ i < nData, r.yo i = fltMovingAverage nData x y out nFilterSize i - r.bgLevel
  peakMaximum : r.pcd.peakMaximum.first =
    (findMaximum nData (fltMovingAverage nData x y out nFilterSize)).first
  hist : r.hist.Counts ((List.range nData).map y)
  slopes50 : r.pcd.height50.idxSlope =
    measPeak nData (corrected nData x y out nFilterSize)
      (findMaximum nData (corrected nData x y out nFilterSize)) (1 / 2)
  slopes10 : r.pcd.height10.idxSlope =
    measPeak nData (corrected nData x y out nFilterSize)
      (findMaximum nData (corrected nData x y out nFilterSize)) (1 / 10)

/-- Wherever one of the last `half` points reaches the maximum, it is the first point to reach it
or the maximum is reached as near to the front as that point is to the end. -/
def NoTieAtEnd (nData half : ℕ) (value : Data) : Prop :=
  ∀ j < half, (∀ i < nData, value i ≤ value (nData - 1 - j)) →
    (∀ i < nData - 1 - j, value i < value (nData - 1 - j)) ∨
      ∃ i ≤ j, value i = value (nData - 1 - j)

/-- The first pass finds the first maximum exactly on data without such a tie. -/
theorem visited_first_iff {half : ℕ} (wide : 2 * half + 1 ≤ nData) {value : Data} {peak first : ℕ}
    (visited : Leads value (visitRank nData half) (visits nData half) peak)
    (plain : Leads value id (List.range nData) first) :
    peak = first ↔ NoTieAtEnd nData half value := by
  have inside : first < nData := List.mem_range.mp plain.mem
  have least : ∀ i < nData, value i = value first → first ≤ i := by
    intro i below same
    rcases plain.2 i (List.mem_range.mpr below) with less | ⟨-, order⟩
    · exact absurd same less.ne
    · exact order
  have top : ∀ i < nData, value i ≤ value first :=
    fun i below => plain.le (List.mem_range.mpr below)
  rw [visited.eq_iff (visitRank_inj wide) ((mem_visits wide).mpr inside)
    fun i seen => top i ((mem_visits wide).mp seen)]
  simp only [mem_visits wide]
  constructor
  · intro before j edge reached
    have end_lt : nData - 1 - j < nData := by omega
    have same : value (nData - 1 - j) = value first :=
      le_antisymm (top _ end_lt) (reached first inside)
    have order := before _ end_lt same
    have front := least _ end_lt same
    by_cases here : first = nData - 1 - j
    · left
      intro i below
      refine (reached i (by omega)).lt_of_ne fun equal => ?_
      have := least i (by omega) (equal.trans same)
      omega
    · right
      refine ⟨first, ?_, same.symm⟩
      simp only [visitRank] at order
      grind
  · intro noTie i below same
    have front := least i below same
    by_cases right : nData - half ≤ i
    · have mirror : nData - 1 - (nData - 1 - i) = i := by omega
      have reached := noTie (nData - 1 - i) (by omega)
      rw [mirror] at reached
      rcases reached fun k inner => (top k inner).trans same.ge with only | ⟨k, near, equal⟩
      · have : first = i := by
          by_contra other
          exact (only first (by omega)).ne same.symm
        rw [this]
      · have := least k (by omega) (equal.trans same)
        simp only [visitRank]
        grind
    · simp only [visitRank]
      grind

/-- Subtracting the background does not move the maximum. -/
theorem findMaximum_corrected (some : 0 < nData) (x y out : Data) :
    findMaximum nData (corrected nData x y out nFilterSize) =
      { first := (findMaximum nData (fltMovingAverage nData x y out nFilterSize)).first
        second := corrected nData x y out nFilterSize
          (findMaximum nData (fltMovingAverage nData x y out nFilterSize)).first } := by
  obtain ⟨best, -⟩ := findMaximum_spec some (fltMovingAverage nData x y out nFilterSize)
  obtain ⟨-, second⟩ := findMaximum_spec some (corrected nData x y out nFilterSize)
  have mono : StrictMono fun v : ℚ => v - background nData y := by
    intro v w less
    simpa using less
  have moved : Leads (corrected nData x y out nFilterSize) id (List.range nData)
      (findMaximum nData (fltMovingAverage nData x y out nFilterSize)).first :=
    Leads.map (g := fun v => v - background nData y) mono best
  have first : (findMaximum nData (corrected nData x y out nFilterSize)).first =
      (findMaximum nData (fltMovingAverage nData x y out nFilterSize)).first :=
    (findMaximum_eq_iff some).mpr moved
  rw [← first, ← second]

/-- The optimised function agrees with the plain ones exactly on data without a tie at the end. -/
theorem agrees_iff (wide : 2 * halfPoints nFilterSize + 1 ≤ nData) (x y out : Data) (g : Guess) :
    Agrees nData x y out nFilterSize (estimateGuess nData x y g nFilterSize) ↔
      NoTieAtEnd nData (halfPoints nFilterSize) (fltMovingAverage nData x y out nFilterSize) := by
  have processed := estimateGuess_spec wide x y out g
  set r := estimateGuess nData x y g nFilterSize
  have some : 0 < nData := by omega
  have visited : Leads (fltMovingAverage nData x y out nFilterSize)
      (visitRank nData (halfPoints nFilterSize)) (visits nData (halfPoints nFilterSize))
      r.pcd.peakMaximum.first := by
    refine processed.best.congr fun i seen => ?_
    exact fltMovingAverage_eq wide x y out ((mem_visits wide).mp seen)
  rw [← visited_first_iff wide visited (findMaximum_spec some _).1]
  constructor
  · exact Agrees.peakMaximum
  · intro peak
    have maximum : findMaximum nData (corrected nData x y out nFilterSize) =
        r.pcd.peakMaximum := by
      rw [findMaximum_corrected some, ← peak, ← processed.top]
    refine ⟨processed.bgLevel, processed.yo, peak, processed.hist, ?_, ?_⟩
    · rw [maximum]
      exact processed.slopes50
    · rw [maximum]
      exact processed.slopes10

/-- A peak in the middle of three points. -/
theorem agrees_iff_inner :
    Agrees 3 Nat.cast (fun i => [0, 6, 0].getD i 0) (fun _ => 0) 3
        (estimateGuess 3 Nat.cast (fun i => [0, 6, 0].getD i 0) {} 3) ↔
      NoTieAtEnd 3 (halfPoints 3)
        (fltMovingAverage 3 Nat.cast (fun i => [0, 6, 0].getD i 0) (fun _ => 0) 3) :=
  agrees_iff (by decide) Nat.cast _ _ {}

/-- The average in the middle is as great as the last point, and comes before it. -/
theorem not_agrees_tie : 2 * halfPoints 3 + 1 ≤ 3 ∧
    ¬ Agrees 3 Nat.cast (fun i => [0, 6, 3].getD i 0) (fun _ => 0) 3
      (estimateGuess 3 Nat.cast (fun i => [0, 6, 3].getD i 0) {} 3) := by
  refine ⟨by decide, fun agrees => ?_⟩
  have last : (estimateGuess 3 Nat.cast (fun i => [0, 6, 3].getD i 0) {} 3).pcd.peakMaximum.first
      = 2 := by decide +kernel
  have middle : (findMaximum 3 (fltMovingAverage 3 Nat.cast (fun i => [0, 6, 3].getD i 0)
      (fun _ => 0) 3)).first = 1 := by decide +kernel
  have peak := agrees.peakMaximum
  rw [last, middle] at peak
  cases peak

end Spec

end Crs.Peak
