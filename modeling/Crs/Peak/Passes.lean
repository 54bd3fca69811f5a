import Crs.Peak.Guess
import Crs.Foundation.Scan
import Mathlib.Data.List.Perm.Basic
import Mathlib.Data.List.Nodup

/-!
# The two passes of the optimised preprocessing

`visited_smooth` says what the first pass arrives at, in terms of the order
in which it visits the points. `foldl_walk` describes a walk of the second pass
as a whole, from which the slopes follow as searches for an outermost index.
-/

namespace Crs.Peak

open Foundation Scan

/-- A point of the smoothed data; the points at the edges stay as they are. -/
def smoothAt (nData half : ℕ) (y : Data) (i : ℕ) : ℚ :=
  if half ≤ i ∧ i < nData - half then averageAt half y i else y i

theorem halfPoints_pos (nFilterSize : ℤ) : 0 < halfPoints nFilterSize := by
  simp only [halfPoints]
  split <;> omega

theorem foldl_update (value : Data) (l : List ℕ) (yo : Data) (i : ℕ) :
    l.foldl (fun yo i => Function.update yo i (value i)) yo i =
      if i ∈ l then value i else yo i := by
  induction l generalizing yo with
  | nil => simp
  | cons j l ih =>
    rw [List.foldl_cons, ih]
    obtain rfl | other := eq_or_ne i j
    · simp
    · simp [other]

/-- The plain smoothing, point by point. -/
theorem fltMovingAverage_eq {nData : ℕ} {nFilterSize : ℤ}
    (wide : 2 * halfPoints nFilterSize + 1 ≤ nData) (x y yo : Data) {i : ℕ} (below : i < nData) :
    fltMovingAverage nData x y yo nFilterSize i = smoothAt nData (halfPoints nFilterSize) y i := by
  simp only [fltMovingAverage, copyPoints, foldl_update, List.mem_range'_1, smoothAt]
  grind

section FirstPass

variable {nData half : ℕ} {y : Data}

/-- The points in the order in which the first pass visits them. -/
def visits (nData half : ℕ) : List ℕ :=
  (List.range half).flatMap (fun i => [i, nData - i - 1]) ++
    List.range' half (nData - half - half)

/-- The place of a point in that order. -/
def visitRank (nData half i : ℕ) : ℕ :=
  if i < half then 2 * i else if nData - half ≤ i then 2 * (nData - 1 - i) + 1 else half + i

theorem mem_visits (wide : 2 * half + 1 ≤ nData) {i : ℕ} : i ∈ visits nData half ↔ i < nData := by
  simp only [visits, List.mem_append, List.mem_flatMap, List.mem_range, List.mem_cons,
    List.not_mem_nil, or_false, List.mem_range'_1]
  constructor
  · rintro (⟨j, inside, rfl | rfl⟩ | ⟨-, right⟩) <;> omega
  · intro below
    by_cases left : i < half
    · exact .inl ⟨i, left, .inl rfl⟩
    · by_cases right : nData - half ≤ i
      · exact .inl ⟨nData - i - 1, by omega, .inr (by omega)⟩
      · exact .inr (by omega)

theorem pairwise_visits (wide : 2 * half + 1 ≤ nData) :
    (visits nData half).Pairwise fun i j => visitRank nData half i < visitRank nData half j := by
  refine List.pairwise_append.mpr ⟨List.pairwise_flatMap.mpr ⟨?_, ?_⟩, ?_, ?_⟩
  · intro i inside
    have := List.mem_range.mp inside
    simp only [List.pairwise_pair, visitRank]
    grind
  · refine List.pairwise_lt_range.imp_of_mem fun {i j} insideI insideJ less => ?_
    have := List.mem_range.mp insideI
    have := List.mem_range.mp insideJ
    simp only [List.mem_cons, List.not_mem_nil, or_false, visitRank]
    rintro k (rfl | rfl) k' (rfl | rfl) <;> grind
  · refine (List.pairwise_lt_range' 1).imp_of_mem fun {i j} insideI insideJ less => ?_
    simp only [List.mem_range'_1] at insideI insideJ
    simp only [visitRank]
    grind
  · intro i edge j middle
    simp only [List.mem_flatMap, List.mem_range, List.mem_cons, List.not_mem_nil,
      or_false] at edge
    simp only [List.mem_range'_1] at middle
    obtain ⟨k, inside, rfl | rfl⟩ := edge <;> simp only [visitRank] <;> grind

theorem visits_perm (wide : 2 * half + 1 ≤ nData) :
    (visits nData half).Perm (List.range nData) := by
  refine (List.perm_ext_iff_of_nodup ?_ List.nodup_range).mpr fun i => ?_
  · refine (pairwise_visits wide).imp fun less same => ?_
    exact absurd (congrArg _ same) less.ne
  · rw [mem_visits wide, List.mem_range]

theorem visitRank_inj (wide : 2 * half + 1 ≤ nData) : ∀ i ∈ visits nData half,
    ∀ j ∈ visits nData half, visitRank nData half i = visitRank nData half j → i = j := by
  intro i visitedI j visitedJ same
  rw [mem_visits wide] at visitedI visitedJ
  simp only [visitRank] at same
  grind

/-- What is known when the points `seen` have been visited. -/
structure Visited (y value : Data) (rank : ℕ → ℕ) (g : Guess) (seen : List ℕ) : Prop where
  written : ∀ i ∈ seen, g.yo i = value i
  peak : Leads value rank seen g.pcd.peakMaximum.first
  counted : g.hist.Counts (seen.map y)

namespace Visited

variable {value : Data} {rank : ℕ → ℕ} {g : Guess} {seen : List ℕ}

/-- The first visit is to the point that the maximum starts from. -/
theorem first (hist : g.hist = OrderedMap.empty) :
    Visited y value rank (g.visit y value g.pcd.peakMaximum.first)
      [g.pcd.peakMaximum.first] where
  written := by
    intro i only
    obtain rfl := List.mem_singleton.mp only
    simp [Guess.visit]
  peak := by simpa [Guess.visit] using Leads.singleton value rank g.pcd.peakMaximum.first
  counted := by
    simpa [Guess.visit, hist] using OrderedMap.Counts.empty.snoc (y g.pcd.peakMaximum.first)

theorem visit (known : Visited y value rank g seen) {i : ℕ} (later : ∀ k ∈ seen, rank k ≤ rank i) :
    Visited y value rank (g.visit y value i) (seen ++ [i]) := by
  have written : ∀ k ∈ seen ++ [i], Function.update g.yo i (value i) k = value k := by
    intro k member
    obtain rfl | other := eq_or_ne k i
    · simp
    · have before : k ∈ seen := by simpa [other] using member
      rw [Function.update_of_ne other]
      exact known.written k before
  refine ⟨written, ?_, ?_⟩
  · have peak := known.peak.snoc later
    simp only [Guess.visit]
    rw [written _ (List.mem_append_left _ known.peak.mem), written i (by simp)]
    exact peak
  · simpa [Guess.visit] using known.counted.snoc (y i)

theorem foldl (known : Visited y value rank g seen) {more : List ℕ}
    (order : (seen ++ more).Pairwise fun i j => rank i < rank j) :
    Visited y value rank (more.foldl (Guess.visit y value) g) (seen ++ more) := by
  induction more generalizing g seen with
  | nil => simpa using known
  | cons i more ih =>
    have next := ih (known.visit (rank_le_of_pairwise order)) (by simpa using order)
    simpa using next

end Visited

/-- The two loops of the first pass are one walk over the visits. -/
theorem visitMiddle_visitEdges (wide : 2 * half + 1 ≤ nData) (g : Guess) :
    (g.visitEdges nData half y).visitMiddle nData half y =
      (visits nData half).foldl (Guess.visit y (smoothAt nData half y)) g := by
  have edge : ∀ (g : Guess) (i : ℕ), i < half ∨ nData - half ≤ i →
      g.visit y y i = g.visit y (smoothAt nData half y) i := by
    intro g i outside
    have same : smoothAt nData half y i = y i := if_neg (by omega)
    simp only [Guess.visit, same]
  rw [visits, List.foldl_append, List.foldl_flatMap, Guess.visitMiddle, Guess.visitEdges]
  have edges : (List.range half).foldl
      (fun g i => (g.visit y y i).visit y y (nData - i - 1)) g =
      (List.range half).foldl (fun g i => [i, nData - i - 1].foldl
        (Guess.visit y (smoothAt nData half y)) g) g := by
    apply List.foldl_ext
    intro g i inside
    have := List.mem_range.mp inside
    rw [edge g i (by omega), edge _ (nData - i - 1) (by omega)]
    rfl
  rw [edges]
  apply List.foldl_ext
  intro g i inside
  rw [List.mem_range'_1] at inside
  have same : smoothAt nData half y i = averageAt half y i := if_pos (by omega)
  simp only [Guess.visit, same]

/-- The first pass writes the smoothed data, finds their maximum in the order of the visits, and
counts every intensity. -/
theorem visited_smooth (wide : 2 * half + 1 ≤ nData) (inner : 0 < half) (g : Guess) :
    Visited y (smoothAt nData half y) (visitRank nData half) (g.smooth nData half y)
      (visits nData half) := by
  obtain ⟨more, split⟩ : ∃ more, visits nData half = 0 :: more := by
    obtain ⟨half, rfl⟩ := Nat.exists_eq_succ_of_ne_zero inner.ne'
    rw [visits, List.range_succ_eq_map]
    exact ⟨_, rfl⟩
  have order := pairwise_visits wide
  rw [Guess.smooth, visitMiddle_visitEdges wide, split]
  rw [split] at order
  exact (Visited.first rfl).foldl order

theorem foldl_visit_height98 (value : ℕ → ℚ) (l : List ℕ) (g : Guess) :
    (l.foldl (Guess.visit y value) g).pcd.height98 = g.pcd.height98 := by
  induction l generalizing g with
  | nil => rfl
  | cons i l ih => exact ih _

/-- The first pass leaves the measurements alone. -/
theorem smooth_height98 (wide : 2 * half + 1 ≤ nData) (g : Guess) :
    (g.smooth nData half y).pcd.height98 = g.pcd.height98 := by
  rw [Guess.smooth, visitMiddle_visitEdges wide, foldl_visit_height98]

end FirstPass

section SecondPass

/-- A walk corrects its points by the background, and marks them by their corrected values. -/
theorem foldl_walk (mark : PeakCenterData → ℕ → ℚ → PeakCenterData) (g : Guess) {l : List ℕ}
    (distinct : l.Nodup) : l.foldl (Guess.walk mark) g =
      { g with
        yo := fun i => if i ∈ l then g.yo i - g.bgLevel else g.yo i
        pcd := l.foldl (fun p i => mark p i (g.yo i - g.bgLevel)) g.pcd } := by
  induction l generalizing g with
  | nil => simp
  | cons i l ih =>
    obtain ⟨new, distinct⟩ := List.nodup_cons.mp distinct
    have others : ∀ k ∈ l, Function.update g.yo i (g.yo i - g.bgLevel) k = g.yo k := by
      intro k member
      apply Function.update_of_ne
      rintro rfl
      exact new member
    have marked : l.foldl (fun p k =>
          mark p k (Function.update g.yo i (g.yo i - g.bgLevel) k - g.bgLevel))
          (mark g.pcd i (g.yo i - g.bgLevel)) =
        l.foldl (fun p k => mark p k (g.yo k - g.bgLevel))
          (mark g.pcd i (g.yo i - g.bgLevel)) := by
      apply List.foldl_ext
      intro p k member
      rw [others k member]
    rw [List.foldl_cons, ih _ distinct]
    simp only [Guess.walk, marked, List.foldl_cons]
    congr 1
    funext k
    obtain rfl | other := eq_or_ne k i
    · simp [new]
    · simp [other]

/-- The outermost position of a walk above a level, `start` where there is none. -/
def outermost (level : ℚ) (value : ℕ → ℚ) (l : List ℕ) (start : ℕ) : ℕ :=
  (l.reverse.find? fun i => level < value i).getD start

theorem foldl_markFirst (w : PeakWidthData) (value : ℕ → ℚ) (l : List ℕ) :
    l.foldl (fun w i => w.markFirst i (value i)) w =
      { w with idxSlope.first := outermost w.height value l w.idxSlope.first } := by
  rw [outermost, ← foldl_keep]
  induction l generalizing w with
  | nil => rfl
  | cons i l ih =>
    rw [List.foldl_cons, ih, List.foldl_cons]
    unfold PeakWidthData.markFirst
    split <;> simp

theorem foldl_markSecond (w : PeakWidthData) (value : ℕ → ℚ) (l : List ℕ) :
    l.foldl (fun w i => w.markSecond i (value i)) w =
      { w with idxSlope.second := outermost w.height value l w.idxSlope.second } := by
  rw [outermost, ← foldl_keep]
  induction l generalizing w with
  | nil => rfl
  | cons i l ih =>
    rw [List.foldl_cons, ih, List.foldl_cons]
    unfold PeakWidthData.markSecond
    split <;> simp

/-- Both slopes of a measurement, for the positions in front of the maximum and behind it. -/
def PeakWidthData.between (w : PeakWidthData) (value : ℕ → ℚ) (before after : List ℕ) :
    PeakWidthData :=
  { w with
    idxSlope.first := outermost w.height value before w.idxSlope.first
    idxSlope.second := outermost w.height value after w.idxSlope.second }

def PeakCenterData.between (p : PeakCenterData) (value : ℕ → ℚ) (before after : List ℕ) :
    PeakCenterData :=
  { p with
    height98 := p.height98.between value before after
    height50 := p.height50.between value before after
    height10 := p.height10.between value before after }

@[simp] theorem PeakCenterData.between_peakMaximum (p : PeakCenterData) (value : ℕ → ℚ)
    (before after : List ℕ) : (p.between value before after).peakMaximum = p.peakMaximum := rfl

/-- What is done to the three measurements alike. -/
def PeakCenterData.mapWidths (f : PeakWidthData → PeakWidthData) (p : PeakCenterData) :
    PeakCenterData :=
  { p with height98 := f p.height98, height50 := f p.height50, height10 := f p.height10 }

theorem foldl_mapWidths (f : PeakWidthData → ℕ → PeakWidthData) (l : List ℕ)
    (p : PeakCenterData) :
    l.foldl (fun p i => p.mapWidths (f · i)) p = p.mapWidths (l.foldl f) := by
  induction l generalizing p with
  | nil => rfl
  | cons i l ih => exact ih _

theorem foldl_marksFirst (p : PeakCenterData) (value : ℕ → ℚ) (l : List ℕ) :
    l.foldl (fun p i => p.markFirst i (value i)) p = p.between value l [] := by
  have marked : l.foldl (fun (w : PeakWidthData) i => w.markFirst i (value i)) =
      fun w => w.between value l [] := by
    funext w
    rw [foldl_markFirst]
    rfl
  have each := foldl_mapWidths (fun w i => w.markFirst i (value i)) l p
  rw [marked] at each
  exact each

theorem foldl_marksSecond (p : PeakCenterData) (value : ℕ → ℚ) (l : List ℕ) :
    l.foldl (fun p i => p.markSecond i (value i)) p = p.between value [] l := by
  have marked : l.foldl (fun (w : PeakWidthData) i => w.markSecond i (value i)) =
      fun w => w.between value [] l := by
    funext w
    rw [foldl_markSecond]
    rfl
  have each := foldl_mapWidths (fun w i => w.markSecond i (value i)) l p
  rw [marked] at each
  exact each

/-- The positions of the left walk and of the right one. -/
def leftOf (peak : ℕ) : List ℕ := (List.range peak).reverse

def rightOf (nData peak : ℕ) : List ℕ := List.range' (peak + 1) (nData - (peak + 1))

theorem mem_leftOf {peak i : ℕ} : i ∈ leftOf peak ↔ i < peak := by
  simp [leftOf]

theorem mem_rightOf {nData peak i : ℕ} : i ∈ rightOf nData peak ↔ peak < i ∧ i < nData := by
  simp only [rightOf, List.mem_range'_1]
  omega

theorem walkLeft_eq (g : Guess) :
    let peak := g.pcd.peakMaximum.first
    let value := fun i => g.yo i - g.bgLevel
    g.walkLeft = { g with
      yo := fun i => if i < peak then value i else g.yo i
      pcd := g.pcd.between value (leftOf peak) [] } := by
  intro peak value
  rw [← foldl_marksFirst]
  have members : ∀ i, (i < peak) = (i ∈ leftOf peak) := fun i => propext mem_leftOf.symm
  simp only [members]
  exact foldl_walk _ g (List.nodup_reverse.mpr List.nodup_range)

theorem walkRight_eq (nData : ℕ) (g : Guess) :
    let peak := g.pcd.peakMaximum.first
    let value := fun i => g.yo i - g.bgLevel
    g.walkRight nData = { g with
      yo := fun i => if peak < i ∧ i < nData then value i else g.yo i
      pcd := g.pcd.between value [] (rightOf nData peak) } := by
  intro peak value
  rw [← foldl_marksSecond]
  have members : ∀ i, (peak < i ∧ i < nData) = (i ∈ rightOf nData peak) :=
    fun i => propext mem_rightOf.symm
  simp only [members]
  exact foldl_walk _ g List.nodup_range'

theorem outermost_congr {value value' : ℕ → ℚ} {l : List ℕ} (same : ∀ i ∈ l, value i = value' i)
    (level : ℚ) (start : ℕ) : outermost level value l start = outermost level value' l start := by
  rw [outermost, outermost, ← foldl_keep, ← foldl_keep]
  apply List.foldl_ext
  intro kept i member
  rw [same i member]

theorem between_between (p : PeakCenterData) {value value' : ℕ → ℚ} {before after : List ℕ}
    (same : ∀ i ∈ after, value' i = value i) :
    (p.between value before []).between value' [] after = p.between value before after := by
  simp only [PeakCenterData.between, PeakWidthData.between, outermost_congr same]
  rfl

/-- Both walks together. -/
theorem walkRight_walkLeft {nData : ℕ} {g : Guess} (inside : g.pcd.peakMaximum.first < nData) :
    let peak := g.pcd.peakMaximum.first
    let value := fun i => g.yo i - g.bgLevel
    g.walkLeft.walkRight nData = { g with
      yo := fun i => if i < nData ∧ i ≠ peak then value i else g.yo i
      pcd := g.pcd.between value (leftOf peak) (rightOf nData peak) } := by
  intro peak value
  have untouched : ∀ i ∈ rightOf nData peak,
      (if i < peak then value i else g.yo i) - g.bgLevel = value i := by
    intro i right
    rw [mem_rightOf] at right
    rw [if_neg (by omega)]
  rw [walkRight_eq, walkLeft_eq]
  congr 1
  · funext i
    simp only [PeakCenterData.between_peakMaximum]
    grind
  · exact between_between _ untouched

end SecondPass

end Crs.Peak
