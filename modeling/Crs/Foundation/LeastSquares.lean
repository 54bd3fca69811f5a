import Mathlib.Algebra.BigOperators.Ring.Finset
import Mathlib.Algebra.BigOperators.Ring.List
import Mathlib.Algebra.Order.BigOperators.Group.List
import Mathlib.Algebra.Order.Field.Basic
import Mathlib.Tactic.FieldSimp
import Mathlib.Tactic.Linarith
import Mathlib.Tactic.LinearCombination
import Mathlib.Tactic.Positivity
import Mathlib.Tactic.Ring

/-!
# Least squares

Values `y` observed at the points of a list are fitted by a combination of
finitely many functions. The normal equations say that what is left is
orthogonal to each of these functions; they hold just for the combinations that
no other one fits better.
-/

namespace Foundation.LeastSquares

variable {α ι K : Type*} [Fintype ι] [Field K]

def combination (basis : ι → α → K) (c : ι → K) (p : α) : K := ∑ i, c i * basis i p

def residual (basis : ι → α → K) (y : α → K) (c : ι → K) (p : α) : K :=
  y p - combination basis c p

variable (basis : ι → α → K) (y : α → K) (points : List α)

/-- The normal equations. -/
def Normal (c : ι → K) : Prop :=
  ∀ i, (points.map fun p => residual basis y c p * basis i p).sum = 0

def sumSquares (c : ι → K) : K := (points.map fun p => residual basis y c p ^ 2).sum

def Best [LE K] (c : ι → K) : Prop :=
  ∀ other, sumSquares basis y points c ≤ sumSquares basis y points other

variable {basis y points}

theorem combination_add (c d : ι → K) (p : α) :
    combination basis (c + d) p = combination basis c p + combination basis d p := by
  simp only [combination, Pi.add_apply, add_mul, Finset.sum_add_distrib]

theorem combination_single [DecidableEq ι] (i : ι) (t : K) (p : α) :
    combination basis (Pi.single i t) p = t * basis i p := by
  rw [combination, Finset.sum_eq_single_of_mem i (Finset.mem_univ i), Pi.single_eq_same]
  intro j _ other
  rw [Pi.single_eq_of_ne other, zero_mul]

/-- What a change of the combination does to the sum of squares. -/
theorem sumSquares_add (c d : ι → K) :
    sumSquares basis y points (c + d) = sumSquares basis y points c -
      2 * (points.map fun p => residual basis y c p * combination basis d p).sum +
      (points.map fun p => combination basis d p ^ 2).sum := by
  have point (p : α) : residual basis y (c + d) p ^ 2 = residual basis y c p ^ 2 -
      2 * (residual basis y c p * combination basis d p) + combination basis d p ^ 2 := by
    simp only [residual, combination_add]
    ring
  induction points with
  | nil => simp [sumSquares]
  | cons p points ih =>
    simp only [sumSquares, List.map_cons, List.sum_cons] at ih ⊢
    rw [ih, point]
    ring

/-- The residuals are then orthogonal to every combination. -/
theorem Normal.orthogonal {c : ι → K} (normal : Normal basis y points c) (d : ι → K) :
    (points.map fun p => residual basis y c p * combination basis d p).sum = 0 := by
  have exchange : (points.map fun p => residual basis y c p * combination basis d p).sum =
      ∑ i, d i * (points.map fun p => residual basis y c p * basis i p).sum := by
    clear normal
    induction points with
    | nil => simp
    | cons p points ih =>
      have point : residual basis y c p * combination basis d p =
          ∑ i, d i * (residual basis y c p * basis i p) := by
        rw [combination, Finset.mul_sum]
        exact Finset.sum_congr rfl fun i _ => by ring
      simp only [List.map_cons, List.sum_cons, ih, point, mul_add, Finset.sum_add_distrib]
  rw [exchange]
  exact Finset.sum_eq_zero fun i _ => by rw [normal i, mul_zero]

variable [LinearOrder K] [IsStrictOrderedRing K]

theorem sum_squares_nonneg (f : α → K) : 0 ≤ (points.map fun p => f p ^ 2).sum := by
  refine List.sum_nonneg ?_
  simp only [List.mem_map, forall_exists_index, and_imp]
  rintro _ p _ rfl
  exact sq_nonneg (f p)

theorem Normal.best {c : ι → K} (normal : Normal basis y points c) : Best basis y points c := by
  intro other
  have change : sumSquares basis y points (c + (other - c)) = _ := sumSquares_add c (other - c)
  rw [add_sub_cancel, normal.orthogonal] at change
  have nonneg : 0 ≤ (points.map fun p => combination basis (other - c) p ^ 2).sum :=
    sum_squares_nonneg (combination basis (other - c))
  linarith

/-- A residual that is not orthogonal to one of the functions could be made smaller by it. -/
theorem Best.normal {c : ι → K} (best : Best basis y points c) : Normal basis y points c := by
  classical
  intro i
  set product := (points.map fun p => residual basis y c p * basis i p).sum with product_eq
  set square := (points.map fun p => basis i p ^ 2).sum with square_eq
  have positive : 0 < square + 1 :=
    lt_of_le_of_lt (sum_squares_nonneg (basis i)) (lt_add_one square)
  have step (t : K) : 0 ≤ t ^ 2 * square - 2 * (t * product) := by
    have change := best (c + Pi.single i t)
    have products : (points.map fun p => residual basis y c p * (t * basis i p)).sum =
        t * product := by
      rw [product_eq, ← List.sum_map_mul_left]
      exact congrArg List.sum (List.map_congr_left fun p _ => by ring)
    have squares : (points.map fun p => (t * basis i p) ^ 2).sum = t ^ 2 * square := by
      rw [square_eq, ← List.sum_map_mul_left]
      exact congrArg List.sum (List.map_congr_left fun p _ => by ring)
    rw [sumSquares_add] at change
    simp only [combination_single, products, squares] at change
    linarith
  -- the step that would be best if the square were larger by one
  have least := step (product / (square + 1))
  have value : (product / (square + 1)) ^ 2 * square - 2 * (product / (square + 1) * product) =
      -(product / (square + 1)) ^ 2 * (square + 2) := by
    field_simp
    ring
  rw [value] at least
  have larger : 0 < square + 2 := by linarith
  have zero : (product / (square + 1)) ^ 2 = 0 := by
    nlinarith [sq_nonneg (product / (square + 1))]
  have quotient := pow_eq_zero_iff (two_ne_zero) |>.mp zero
  exact (div_eq_zero_iff.mp quotient).resolve_right positive.ne'

theorem best_iff_normal {c : ι → K} : Best basis y points c ↔ Normal basis y points c :=
  ⟨Best.normal, Normal.best⟩

end Foundation.LeastSquares
