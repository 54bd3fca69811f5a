import Crs.Peak.Passes
import Mathlib.Algebra.Ring.Parity
import Mathlib.Tactic.FieldSimp
import Mathlib.Tactic.IntervalCases
import Mathlib.Tactic.LinearCombination
import Mathlib.Tactic.Ring

/-!
# Smoothing by convolution

`fltSavitzkyGolay` weighs the points around a point by a row of its table. On
equally spaced points a symmetric filter does to a quadratic polynomial what two
sums of its weights say: their plain sum, and the one weighted by the squares of
the distances. In the last row of the table the second one is not zero.
-/

namespace Crs.Peak

/-- A row for each odd size from 5 to 25, and behind each row its normaliser. -/
def constant : List ℚ := [
  17, 12, -3, 0, 0, 0, 0, 0, 0, 0, 0, 0, 0, 35,
  7, 6, 3, -2, 0, 0, 0, 0, 0, 0, 0, 0, 0, 21,
  59, 54, 39, 14, -21, 0, 0, 0, 0, 0, 0, 0, 0, 231,
  89, 84, 69, 44, 9, -36, 0, 0, 0, 0, 0, 0, 0, 429,
  25, 24, 21, 16, 9, 0, -11, 0, 0, 0, 0, 0, 0, 143,
  167, 162, 147, 122, 87, 42, -13, -78, 0, 0, 0, 0, 0, 1105,
  43, 42, 39, 34, 27, 18, 7, -6, -21, 0, 0, 0, 0, 323,
  269, 264, 249, 224, 189, 144, 89, 24, -51, -136, 0, 0, 0, 2261,
  329, 324, 309, 284, 249, 204, 149, 84, 9, -76, -171, 0, 0, 3059,
  79, 78, 75, 70, 63, 54, 43, 30, 15, -2, -21, -42, 0, 805,
  467, 462, 447, 422, 387, 322, 287, 222, 147, 62, -33, -138, -253, 5135]

/-- An entry of a row; there is nothing behind the last row. -/
def constantAt (nConstantRow j : ℕ) : ℚ := constant.getD (nConstantRow * 14 + j) 0

def constantRow (nFilterSize : ℤ) : ℕ :=
  let nConstantRow := (nFilterSize - 5).tdiv 2
  if nConstantRow < 0 ∨ nConstantRow > 10 then 1 else nConstantRow.toNat

/-- The convolution around `i`, in the order of the loop. -/
def convolutedAt (nConstantRow halfPoints : ℕ) (y : Data) (i : ℕ) : ℚ :=
  (List.range' 1 halfPoints).foldl
    (fun sum j => sum + constantAt nConstantRow j * (y (i - j) + y (i + j)))
    (constantAt nConstantRow 0 * y i) / constantAt nConstantRow 13

def fltSavitzkyGolay (nData : ℕ) (_x y yo : Data) (nFilterSize : ℤ) : Data :=
  let half := ((nFilterSize - 1).tdiv 2).toNat
  let nConstantRow := constantRow nFilterSize
  let yo := (List.range' half (nData - half - half)).foldl
    (fun yo i => Function.update yo i (convolutedAt nConstantRow half y i)) yo
  copyPoints (copyPoints yo y 0 half) y (nData - half) half

/-- The sum of the weights of a row, and the sum of those on one side, weighted by the squares of
the distances. -/
def totalWeight (nConstantRow halfPoints : ℕ) : ℚ :=
  constantAt nConstantRow 0 + 2 * ((List.range' 1 halfPoints).map (constantAt nConstantRow)).sum

def secondMoment (nConstantRow halfPoints : ℕ) : ℚ :=
  ((List.range' 1 halfPoints).map fun j => constantAt nConstantRow j * j ^ 2).sum

def spaced (x0 h : ℚ) : Data := fun i => x0 + i * h

def quadratic (a b c : ℚ) (x : Data) : Data := fun i => a * x i ^ 2 + b * x i + c

/-- Every row preserves constants; all but the last one preserve curvatures. -/
theorem constant_moments : ∀ row < 11, totalWeight row (row + 2) = constantAt row 13 ∧
    constantAt row 13 ≠ 0 ∧ (secondMoment row (row + 2) = 0 ↔ row ≠ 10) := by
  decide +kernel

/-- Two points at the same distance from a third one. -/
theorem quadratic_pair (a b c x0 h : ℚ) {i j : ℕ} (le : j ≤ i) :
    quadratic a b c (spaced x0 h) (i - j) + quadratic a b c (spaced x0 h) (i + j) =
      2 * quadratic a b c (spaced x0 h) i + 2 * (a * h ^ 2) * j ^ 2 := by
  simp only [quadratic, spaced, Nat.cast_sub le, Nat.cast_add]
  ring

theorem foldl_convolution (row : ℕ) (a b c x0 h : ℚ) {i : ℕ} {l : List ℕ}
    (inside : ∀ j ∈ l, j ≤ i) (start : ℚ) :
    l.foldl (fun sum j => sum + constantAt row j * (quadratic a b c (spaced x0 h) (i - j) +
        quadratic a b c (spaced x0 h) (i + j))) start =
      start + 2 * (l.map (constantAt row)).sum * quadratic a b c (spaced x0 h) i +
        2 * (a * h ^ 2) * (l.map fun j => constantAt row j * j ^ 2).sum := by
  induction l generalizing start with
  | nil => simp
  | cons j l ih =>
    obtain ⟨le, inside⟩ := List.forall_mem_cons.mp inside
    simp only [List.foldl_cons, ih inside, quadratic_pair a b c x0 h le, List.map_cons,
      List.sum_cons]
    ring

theorem convolutedAt_quadratic (row : ℕ) (a b c x0 h : ℚ) {half i : ℕ} (inside : half ≤ i) :
    convolutedAt row half (quadratic a b c (spaced x0 h)) i =
      (totalWeight row half * quadratic a b c (spaced x0 h) i +
        2 * (a * h ^ 2) * secondMoment row half) / constantAt row 13 := by
  have near : ∀ j ∈ List.range' 1 half, j ≤ i := by
    intro j member
    rw [List.mem_range'_1] at member
    omega
  rw [convolutedAt, foldl_convolution row a b c x0 h near, totalWeight, secondMoment]
  congr 1
  ring

/-- A row leaves a quadratic polynomial alone just if it preserves its curvature. -/
theorem convolutedAt_eq_iff {row : ℕ} (listed : row < 11) (a b c x0 h : ℚ) {i : ℕ}
    (inside : row + 2 ≤ i) :
    convolutedAt row (row + 2) (quadratic a b c (spaced x0 h)) i =
        quadratic a b c (spaced x0 h) i ↔ row ≠ 10 ∨ a * h ^ 2 = 0 := by
  obtain ⟨total, normaliser, second⟩ := constant_moments row listed
  rw [convolutedAt_quadratic row a b c x0 h inside, total, div_eq_iff normaliser, mul_comm,
    add_eq_left, mul_eq_zero, second, mul_eq_zero, or_iff_right two_ne_zero, or_comm]

theorem fltSavitzkyGolay_apply {nData row : ℕ} (wide : 2 * row + 5 ≤ nData) (listed : row < 11)
    (x y yo : Data) {i : ℕ} (below : i < nData) :
    fltSavitzkyGolay nData x y yo (2 * row + 5) i =
      if row + 2 ≤ i ∧ i < nData - (row + 2) then convolutedAt row (row + 2) y i else y i := by
  have half : ((2 * row + 5 - 1 : ℤ).tdiv 2).toNat = row + 2 := by
    rw [Int.tdiv_eq_ediv_of_nonneg (by omega)]
    omega
  have selected : constantRow (2 * row + 5) = row := by
    rw [constantRow, Int.tdiv_eq_ediv_of_nonneg (by omega), if_neg (by omega)]
    omega
  simp only [fltSavitzkyGolay, half, selected, copyPoints, foldl_update, List.mem_range'_1]
  grind

/-- The samples of a quadratic polynomial pass unchanged, unless the size is 25 and the polynomial
is curved. -/
theorem fltSavitzkyGolay_iff {nData : ℕ} {nFilterSize : ℤ} (odd : Odd nFilterSize)
    (least : 5 ≤ nFilterSize) (greatest : nFilterSize ≤ 25) (wide : nFilterSize ≤ nData)
    (a b c x0 h : ℚ) (yo : Data) :
    (∀ i < nData, fltSavitzkyGolay nData (spaced x0 h) (quadratic a b c (spaced x0 h)) yo
        nFilterSize i = quadratic a b c (spaced x0 h) i) ↔
      nFilterSize ≠ 25 ∨ a * h ^ 2 = 0 := by
  obtain ⟨row, rfl⟩ : ∃ row : ℕ, nFilterSize = 2 * row + 5 := by
    obtain ⟨m, rfl⟩ := odd
    exact ⟨(m - 2).toNat, by omega⟩
  have listed : row < 11 := by omega
  have enough : 2 * row + 5 ≤ nData := by omega
  have size : (2 * row + 5 : ℤ) ≠ 25 ↔ row ≠ 10 := by omega
  rw [size]
  constructor
  · intro unchanged
    have middle := unchanged (row + 2) (by omega)
    rw [fltSavitzkyGolay_apply enough listed _ _ _ (by omega), if_pos (by omega)] at middle
    exact (convolutedAt_eq_iff listed a b c x0 h le_rfl).mp middle
  · intro preserved i below
    rw [fltSavitzkyGolay_apply enough listed _ _ _ below]
    split
    · next inner => exact (convolutedAt_eq_iff listed a b c x0 h inner.1).mpr preserved
    · rfl

theorem fltSavitzkyGolay_seven : Odd (7 : ℤ) ∧ ∀ i < 9,
    fltSavitzkyGolay 9 (spaced 0 1) (quadratic 1 0 0 (spaced 0 1)) (fun _ => 0) 7 i =
      quadratic 1 0 0 (spaced 0 1) i := by
  have odd : Odd (7 : ℤ) := ⟨3, rfl⟩
  refine ⟨odd, (fltSavitzkyGolay_iff odd ?_ ?_ ?_ 1 0 0 0 1 _).mpr (.inl ?_)⟩
  all_goals decide

/-- The squares, smoothed by 25 points. -/
theorem fltSavitzkyGolay_squares :
    ¬∀ (nData : ℕ) (nFilterSize : ℤ), Odd nFilterSize → 5 ≤ nFilterSize → nFilterSize ≤ 25 →
      nFilterSize ≤ nData → ∀ (a b c x0 h : ℚ) (yo : Data), ∀ i < nData,
        fltSavitzkyGolay nData (spaced x0 h) (quadratic a b c (spaced x0 h)) yo nFilterSize i =
          quadratic a b c (spaced x0 h) i := by
  intro all
  have middle := all 25 25 ⟨12, rfl⟩ (by decide) le_rfl le_rfl 1 0 0 0 1 (fun _ => 0) 12
    (by decide)
  revert middle
  decide +kernel

end Crs.Peak
