import Crs.Foundation.LeastSquares
import Crs.Interpolation.Basic

/-!
# Regression

A regression keeps sums over the points it was given, and solves for the
coefficients from these sums. Adding the points one by one leaves the same sums
as adding them at once, in whatever order, and the coefficients with them. What
the coefficients of a parabola are worth is then a matter of arithmetic: the
correction of `cf[ 0 ]` leaves out what the correction of `cf[ 1 ]` does to it.
-/

namespace Crs.Interpolation

open Foundation

variable {power n : ℕ} {byZero : ℚ} {points points' : List (ℚ × ℚ)} {p : ℚ × ℚ}

/-- The sum of `x ^ i * y ^ j` over the points. -/
def moment (i j : ℕ) (points : List (ℚ × ℚ)) : ℚ := (points.map fun p => p.1 ^ i * p.2 ^ j).sum

@[simp] theorem moment_nil (i j : ℕ) : moment i j [] = 0 := rfl

@[simp] theorem moment_cons (i j : ℕ) (p : ℚ × ℚ) (points : List (ℚ × ℚ)) :
    moment i j (p :: points) = p.1 ^ i * p.2 ^ j + moment i j points := by
  simp [moment]

@[simp] theorem moment_concat (i j : ℕ) (points : List (ℚ × ℚ)) (p : ℚ × ℚ) :
    moment i j (points ++ [p]) = moment i j points + p.1 ^ i * p.2 ^ j := by
  simp [moment]

theorem moment_zero (points : List (ℚ × ℚ)) : moment 0 0 points = points.length := by
  simp [moment]

theorem moment_perm (i j : ℕ) (same : points.Perm points') :
    moment i j points = moment i j points' :=
  (same.map _).sum_eq

namespace Line

variable {l l' : Line n}

/-- The sums are those of the points. -/
structure Sums (l : Line n) (points : List (ℚ × ℚ)) : Prop where
  b00 : l.b00 = points.length
  b01 : l.b01 = moment 1 0 points
  b02 : l.b02 = moment 2 0 points
  c0 : l.c0 = moment 0 1 points
  c1 : l.c1 = moment 1 1 points

/-- The coefficients are those that the sums give. -/
structure Solved (byZero : ℚ) (l : Line n) : Prop where
  s : l.s = l.c1 * l.b00 - l.c0 * l.b01
  q : l.q = l.b02 * l.b00 - l.b01 * l.b01
  cf_one : l.cf 1 = divide byZero l.s l.q
  cf_zero : l.cf 0 = divide byZero (l.c0 - l.cf 1 * l.b01) l.b00

structure SameSums (l l' : Line n) : Prop where
  b00 : l.b00 = l'.b00
  b01 : l.b01 = l'.b01
  b02 : l.b02 = l'.b02
  c0 : l.c0 = l'.c0
  c1 : l.c1 = l'.c1

/-- Everything that a regression calculates is the same, but for the sum of the residuals. -/
structure SameFit (l l' : Line n) : Prop extends l.SameSums l' where
  s : l.s = l'.s
  q : l.q = l'.q
  cf : l.cf = l'.cf

theorem regressCalcCoefficients_sums (sums : l.Sums points) :
    (l.regressCalcCoefficients byZero).Sums points :=
  ⟨sums.b00, sums.b01, sums.b02, sums.c0, sums.c1⟩

theorem regressCalcCoefficients_solved (byZero : ℚ) (l : Line n) :
    (l.regressCalcCoefficients byZero).Solved byZero := by
  constructor <;> simp [regressCalcCoefficients]

theorem foldl_sumPoint (l : Line n) (points : List (ℚ × ℚ)) :
    points.foldl sumPoint l = { l with
      b01 := l.b01 + moment 1 0 points
      b02 := l.b02 + moment 2 0 points
      c0 := l.c0 + moment 0 1 points
      c1 := l.c1 + moment 1 1 points } := by
  induction points generalizing l with
  | nil => simp
  | cons p points ih => simp [ih, sumPoint, add_assoc]

theorem regressBuild_sums (l : Line n) (points : List (ℚ × ℚ)) :
    (l.regressBuild byZero points).Sums points := by
  constructor <;> simp [regressBuild, foldl_sumPoint, regressCalcCoefficients,
    Polynom.sumOfSquaredResiduals]

theorem regressBuild_solved (byZero : ℚ) (l : Line n) (points : List (ℚ × ℚ)) :
    (l.regressBuild byZero points).Solved byZero := by
  have solved := regressCalcCoefficients_solved byZero (points.foldl sumPoint
    { l with b00 := points.length, c0 := 0, c1 := 0, b01 := 0, b02 := 0 })
  exact ⟨solved.s, solved.q, solved.cf_one, solved.cf_zero⟩

theorem regressAddPoint_sums (byZero : ℚ) (sums : l.Sums points) (p : ℚ × ℚ) :
    (l.regressAddPoint byZero p).Sums (points ++ [p]) := by
  apply regressCalcCoefficients_sums
  constructor <;> simp [sums.b00, sums.b01, sums.b02, sums.c0, sums.c1, sq]

theorem regressAddPoint_solved (byZero : ℚ) (l : Line n) (p : ℚ × ℚ) :
    (l.regressAddPoint byZero p).Solved byZero :=
  regressCalcCoefficients_solved byZero _

theorem foldl_regressAddPoint (sums : l.Sums points) (solved : l.Solved byZero)
    (rest : List (ℚ × ℚ)) :
    (rest.foldl (regressAddPoint byZero) l).Sums (points ++ rest) ∧
      (rest.foldl (regressAddPoint byZero) l).Solved byZero := by
  induction rest generalizing l points with
  | nil => simpa using ⟨sums, solved⟩
  | cons p rest ih =>
    simpa using ih (regressAddPoint_sums byZero sums p) (regressAddPoint_solved byZero l p)

theorem Sums.same (sums : l.Sums points) (sums' : l'.Sums points')
    (same : points.Perm points') : l.SameSums l' where
  b00 := by rw [sums.b00, sums'.b00, same.length_eq]
  b01 := by rw [sums.b01, sums'.b01, moment_perm 1 0 same]
  b02 := by rw [sums.b02, sums'.b02, moment_perm 2 0 same]
  c0 := by rw [sums.c0, sums'.c0, moment_perm 0 1 same]
  c1 := by rw [sums.c1, sums'.c1, moment_perm 1 1 same]

/-- The sums decide on the coefficients. -/
theorem SameSums.sameFit {l l' : Line} (same : l.SameSums l') (solved : l.Solved byZero)
    (solved' : l'.Solved byZero) : l.SameFit l' := by
  have s : l.s = l'.s := by simp only [solved.s, solved'.s, same.b00, same.b01, same.c0, same.c1]
  have q : l.q = l'.q := by simp only [solved.q, solved'.q, same.b00, same.b01, same.b02]
  have cf_one : l.cf 1 = l'.cf 1 := by rw [solved.cf_one, solved'.cf_one, s, q]
  have cf_zero : l.cf 0 = l'.cf 0 := by
    rw [solved.cf_zero, solved'.cf_zero, cf_one, same.b00, same.b01, same.c0]
  refine ⟨same, s, q, funext fun i => ?_⟩
  fin_cases i
  · exact cf_zero
  · exact cf_one

end Line

namespace Parabola

variable {f f' : Parabola}

structure Sums (f : Parabola) (points : List (ℚ × ℚ)) : Prop extends
    f.toLine.Sums points where
  c2 : f.c2 = moment 2 1 points
  b12 : f.b12 = moment 3 0 points
  b22 : f.b22 = moment 4 0 points

/-- `p` of `incrementCoefficients`. -/
def shared (f : Parabola) : ℚ := f.b12 * f.b00 - f.b01 * f.b02

structure Solved (byZero : ℚ) (f : Parabola) : Prop where
  s : f.s = f.c1 * f.b00 - f.c0 * f.b01
  q : f.q = f.b02 * f.b00 - f.b01 * f.b01
  cf_two : f.cf 2 = divide byZero
    (f.c2 * f.b00 - f.c0 * f.b02 - f.s * divide byZero f.shared f.q)
    (f.b22 * f.b00 - f.b02 * f.b02 - f.shared * divide byZero f.shared f.q)
  cf_one : f.cf 1 = divide byZero f.s f.q - f.cf 2 * divide byZero f.shared f.q
  cf_zero : f.cf 0 = divide byZero (f.c0 - divide byZero f.s f.q * f.b01) f.b00 -
    divide byZero (f.cf 2 * f.b02) f.b00

structure SameSums (f f' : Parabola) : Prop extends line : f.toLine.SameSums f'.toLine where
  c2 : f.c2 = f'.c2
  b12 : f.b12 = f'.b12
  b22 : f.b22 = f'.b22

structure SameFit (f f' : Parabola) : Prop extends f.toLine.SameFit f'.toLine where
  c2 : f.c2 = f'.c2
  b12 : f.b12 = f'.b12
  b22 : f.b22 = f'.b22

theorem regressCalcCoefficients_solved (byZero : ℚ) (f : Parabola) :
    (f.regressCalcCoefficients byZero).Solved byZero := by
  constructor <;> simp [regressCalcCoefficients, incrementCoefficients,
    Line.regressCalcCoefficients, shared]

theorem foldl_sumPoint (f : Parabola) (points : List (ℚ × ℚ)) :
    points.foldl sumPoint f = { f with
      b01 := f.b01 + moment 1 0 points
      b02 := f.b02 + moment 2 0 points
      c0 := f.c0 + moment 0 1 points
      c1 := f.c1 + moment 1 1 points
      b12 := f.b12 + moment 3 0 points
      b22 := f.b22 + moment 4 0 points
      c2 := f.c2 + moment 2 1 points } := by
  induction points generalizing f with
  | nil => simp
  | cons p points ih => simp [ih, sumPoint, add_assoc]

theorem regressBuild_sums (f : Parabola) (points : List (ℚ × ℚ)) :
    (f.regressBuild byZero points).Sums points := by
  refine ⟨?_, ?_, ?_, ?_⟩
  constructor
  all_goals simp [regressBuild, foldl_sumPoint, regressCalcCoefficients, incrementCoefficients,
    Line.regressCalcCoefficients, Polynom.sumOfSquaredResiduals]

theorem regressBuild_solved (byZero : ℚ) (f : Parabola) (points : List (ℚ × ℚ)) :
    (f.regressBuild byZero points).Solved byZero := by
  have solved := regressCalcCoefficients_solved byZero (points.foldl sumPoint { f with
    b00 := points.length, c0 := 0, c1 := 0, c2 := 0, b01 := 0, b02 := 0, b12 := 0, b22 := 0 })
  exact ⟨solved.s, solved.q, solved.cf_two, solved.cf_one, solved.cf_zero⟩

/-- The sums of the square come too late for the line only. -/
theorem regressAddPoint_eq (byZero : ℚ) (f : Parabola) (p : ℚ × ℚ) :
    f.regressAddPoint byZero p = regressCalcCoefficients byZero { f with
      b00 := f.b00 + 1
      b01 := f.b01 + p.1
      b02 := f.b02 + p.1 * p.1
      c0 := f.c0 + p.2
      c1 := f.c1 + p.1 * p.2
      b12 := f.b12 + p.1 ^ 3
      b22 := f.b22 + p.1 ^ 4
      c2 := f.c2 + p.1 ^ 2 * p.2 } := rfl

theorem regressAddPoint_sums (sums : f.Sums points) (p : ℚ × ℚ) :
    (f.regressAddPoint byZero p).Sums (points ++ [p]) := by
  have line := Line.regressAddPoint_sums byZero sums.toSums p
  refine ⟨⟨line.b00, line.b01, line.b02, line.c0, line.c1⟩, ?_, ?_, ?_⟩
  all_goals simp [regressAddPoint, incrementCoefficients, sums.c2, sums.b12, sums.b22]

theorem foldl_regressAddPoint (sums : f.Sums points) (solved : f.Solved byZero)
    (rest : List (ℚ × ℚ)) :
    (rest.foldl (regressAddPoint byZero) f).Sums (points ++ rest) ∧
      (rest.foldl (regressAddPoint byZero) f).Solved byZero := by
  induction rest generalizing f points with
  | nil => simpa using ⟨sums, solved⟩
  | cons p rest ih =>
    have solved_next := regressAddPoint_eq byZero f p ▸ regressCalcCoefficients_solved byZero _
    simpa using ih (regressAddPoint_sums sums p) solved_next

theorem Sums.same (sums : f.Sums points) (sums' : f'.Sums points')
    (same : points.Perm points') : f.SameSums f' where
  line := sums.toSums.same sums'.toSums same
  c2 := by rw [sums.c2, sums'.c2, moment_perm 2 1 same]
  b12 := by rw [sums.b12, sums'.b12, moment_perm 3 0 same]
  b22 := by rw [sums.b22, sums'.b22, moment_perm 4 0 same]

theorem SameSums.sameFit (same : f.SameSums f') (solved : f.Solved byZero)
    (solved' : f'.Solved byZero) : f.SameFit f' := by
  have s : f.s = f'.s := by simp only [solved.s, solved'.s, same.b00, same.b01, same.c0, same.c1]
  have q : f.q = f'.q := by simp only [solved.q, solved'.q, same.b00, same.b01, same.b02]
  have shared : f.shared = f'.shared := by
    simp only [Parabola.shared, same.b12, same.b00, same.b01, same.b02]
  have cf_two : f.cf 2 = f'.cf 2 := by
    simp only [solved.cf_two, solved'.cf_two, s, q, shared, same.b00, same.b02, same.b22, same.c0,
      same.c2]
  have cf_one : f.cf 1 = f'.cf 1 := by
    rw [solved.cf_one, solved'.cf_one, cf_two, s, q, shared]
  have cf_zero : f.cf 0 = f'.cf 0 := by
    rw [solved.cf_zero, solved'.cf_zero, cf_two, s, q, same.b00, same.b01, same.b02, same.c0]
  refine ⟨⟨same.line, s, q, funext fun i => ?_⟩, same.c2, same.b12, same.b22⟩
  fin_cases i
  · exact cf_zero
  · exact cf_one
  · exact cf_two

end Parabola

/-- Points may be given to a regression at once, or one after another behind the first ones; the
order does not matter. -/
theorem regressAddPoint_eq_regressBuild (byZero : ℚ) (line line' : Line)
    (parabola parabola' : Parabola) {first rest whole : List (ℚ × ℚ)}
    (split : (first ++ rest).Perm whole) :
    (rest.foldl (Line.regressAddPoint byZero) (line.regressBuild byZero first)).SameFit
        (line'.regressBuild byZero whole) ∧
      (rest.foldl (Parabola.regressAddPoint byZero) (parabola.regressBuild byZero first)).SameFit
        (parabola'.regressBuild byZero whole) := by
  constructor
  · obtain ⟨sums, solved⟩ := Line.foldl_regressAddPoint (line.regressBuild_sums first)
      (line.regressBuild_solved byZero first) rest
    exact (sums.same (line'.regressBuild_sums whole) split).sameFit solved
      (line'.regressBuild_solved byZero whole)
  · obtain ⟨sums, solved⟩ := Parabola.foldl_regressAddPoint (parabola.regressBuild_sums first)
      (parabola.regressBuild_solved byZero first) rest
    exact (sums.same (parabola'.regressBuild_sums whole) split).sameFit solved
      (parabola'.regressBuild_solved byZero whole)

/-- Behind a single point, for which every coefficient is divided by zero. -/
theorem regressAddPoint_eq_regressBuild_square :
    ([(1, 1), (2, 4)].foldl (Line.regressAddPoint 7)
        (({ cf := 0 } : Line).regressBuild 7 [(0, 0)])).SameFit
        (({ cf := 1 } : Line).regressBuild 7 [(2, 4), (0, 0), (1, 1)]) ∧
      ([(1, 1), (2, 4)].foldl (Parabola.regressAddPoint 7)
        (({ cf := 0 } : Parabola).regressBuild 7 [(0, 0)])).SameFit
        (({ cf := 1 } : Parabola).regressBuild 7 [(2, 4), (0, 0), (1, 1)]) := by
  have split : ([(0, 0)] ++ [(1, 1), (2, 4)] : List (ℚ × ℚ)).Perm [(2, 4), (0, 0), (1, 1)] := by
    decide
  exact regressAddPoint_eq_regressBuild 7 { cf := 0 } { cf := 1 } { cf := 0 } { cf := 1 } split

section LeastSquares

variable {f : Polynom power}

/-- The residuals, weighted by each power, sum to zero. -/
def Polynom.Normal (f : Polynom power) (points : List (ℚ × ℚ)) : Prop :=
  ∀ k ≤ power, (points.map fun p => (p.2 - f.func p.1) * p.1 ^ k).sum = 0

/-- No other polynomial of this power has a smaller sum of squared residuals. -/
def Polynom.Best (f : Polynom power) (points : List (ℚ × ℚ)) : Prop :=
  ∀ g : Polynom power,
    (f.sumOfSquaredResiduals points).resSum ≤ (g.sumOfSquaredResiduals points).resSum

/-- The functions that a polynomial combines. -/
def monomial (i : Fin (power + 1)) (p : ℚ × ℚ) : ℚ := p.1 ^ (i : ℕ)

theorem Polynom.residual_eq (f : Polynom power) (p : ℚ × ℚ) :
    LeastSquares.residual monomial Prod.snd f.cf p = p.2 - f.func p.1 := by
  rw [LeastSquares.residual, LeastSquares.combination, func_eq_sum]
  rfl

theorem Polynom.sumSquares_eq (f : Polynom power) (points : List (ℚ × ℚ)) :
    LeastSquares.sumSquares monomial Prod.snd points f.cf =
      (f.sumOfSquaredResiduals points).resSum := by
  simp only [LeastSquares.sumSquares, residual_eq, sumOfSquaredResiduals]
  rw [List.sum_eq_foldl, List.foldl_map]

theorem Polynom.normal_iff :
    f.Normal points ↔ LeastSquares.Normal monomial Prod.snd points f.cf := by
  simp only [Normal, LeastSquares.Normal, residual_eq, monomial, Fin.forall_iff, Nat.lt_succ_iff]

theorem Polynom.best_iff_normal : f.Best points ↔ f.Normal points := by
  rw [normal_iff, ← LeastSquares.best_iff_normal]
  simp only [Best, LeastSquares.Best, ← sumSquares_eq]
  exact ⟨fun best cf => best { cf }, fun best g => best g.cf⟩

/-- The weighted sum of the residuals, by the sums of the regression. -/
theorem Polynom.sum_residuals (f : Polynom power) (points : List (ℚ × ℚ)) (k : ℕ) :
    (points.map fun p => (p.2 - f.func p.1) * p.1 ^ k).sum =
      moment k 1 points - ∑ i, f.cf i * moment (i + k) 0 points := by
  induction points with
  | nil => simp
  | cons p points ih =>
    rw [List.map_cons, List.sum_cons, ih, func_eq_sum]
    simp only [moment_cons, pow_zero, pow_one, mul_one, mul_add, Finset.sum_add_distrib, sub_mul,
      Finset.sum_mul, pow_add, mul_assoc]
    ring

/-- `q`, `p` and the denominator of `cf[ 2 ]`, for the points. -/
def spread (points : List (ℚ × ℚ)) : ℚ :=
  moment 2 0 points * points.length - moment 1 0 points * moment 1 0 points

def skew (points : List (ℚ × ℚ)) : ℚ :=
  moment 3 0 points * points.length - moment 1 0 points * moment 2 0 points

def bend (points : List (ℚ × ℚ)) : ℚ :=
  moment 4 0 points * points.length - moment 2 0 points * moment 2 0 points -
    skew points * (skew points / spread points)

/-- The coefficients of a parabola are defined. -/
structure Determined (points : List (ℚ × ℚ)) : Prop where
  b00 : points.length ≠ 0
  q : spread points ≠ 0
  denominator : bend points ≠ 0

/-- `cf[ 1 ]` of the line. -/
def slope (points : List (ℚ × ℚ)) : ℚ :=
  (moment 1 1 points * points.length - moment 0 1 points * moment 1 0 points) / spread points

theorem divide_of_ne {b : ℚ} (nonzero : b ≠ 0) (byZero a : ℚ) : divide byZero a b = a / b :=
  if_neg nonzero

theorem Line.regressBuild_coefficients (byZero : ℚ) (l : Line) (b00 : points.length ≠ 0)
    (q : spread points ≠ 0) :
    (l.regressBuild byZero points).cf 1 = slope points ∧
      (l.regressBuild byZero points).cf 0 =
        (moment 0 1 points - slope points * moment 1 0 points) / points.length := by
  have sums : (l.regressBuild byZero points).Sums points := l.regressBuild_sums points
  have solved := l.regressBuild_solved byZero points
  set f := l.regressBuild byZero points
  have cf_one : f.cf 1 = slope points := by
    rw [solved.cf_one, solved.s, solved.q, sums.b00, sums.b01, sums.b02, sums.c0, sums.c1]
    exact divide_of_ne q _ _
  refine ⟨cf_one, ?_⟩
  rw [solved.cf_zero, cf_one, sums.b00, sums.b01, sums.c0]
  exact divide_of_ne (Nat.cast_ne_zero.mpr b00) _ _

/-- A line fits its points as well as a line can. -/
theorem Line.regressBuild_best (byZero : ℚ) (l : Line) (b00 : points.length ≠ 0)
    (q : spread points ≠ 0) : (l.regressBuild byZero points).Best points := by
  obtain ⟨cf_one, cf_zero⟩ := l.regressBuild_coefficients byZero b00 q
  rw [Polynom.best_iff_normal]
  have count : (points.length : ℚ) ≠ 0 := Nat.cast_ne_zero.mpr b00
  have slope_eq : slope points * spread points =
      moment 1 1 points * points.length - moment 0 1 points * moment 1 0 points :=
    div_mul_cancel₀ _ q
  rw [spread] at slope_eq
  intro k le
  rw [Polynom.sum_residuals, Fin.sum_univ_two, cf_one, cf_zero]
  apply mul_right_cancel₀ count
  obtain rfl | rfl : k = 0 ∨ k = 1 := by omega
  · simp only [Fin.val_zero, Fin.val_one, Nat.add_zero, moment_zero]
    field_simp
    ring
  · simp only [Fin.val_zero, Fin.val_one, Nat.zero_add, Nat.reduceAdd]
    field_simp
    linear_combination -slope_eq

theorem Parabola.regressBuild_coefficients {f g : Parabola}
    (built : f.regressBuild byZero points = g) (determined : Determined points) :
    g.cf 2 = (moment 2 1 points * points.length - moment 0 1 points * moment 2 0 points -
        slope points * skew points) / bend points ∧
      g.cf 1 = slope points - g.cf 2 * (skew points / spread points) ∧
      g.cf 0 = (moment 0 1 points - slope points * moment 1 0 points) / points.length -
        g.cf 2 * moment 2 0 points / points.length := by
  have sums : g.Sums points := built ▸ f.regressBuild_sums points
  have solved : g.Solved byZero := built ▸ f.regressBuild_solved byZero points
  have count : (points.length : ℚ) ≠ 0 := Nat.cast_ne_zero.mpr determined.b00
  have s : g.s = slope points * spread points := by
    rw [solved.s, sums.b00, sums.b01, sums.c0, sums.c1, slope, div_mul_cancel₀ _ determined.q]
  have q : g.q = spread points := by rw [solved.q, sums.b00, sums.b01, sums.b02, spread]
  have shared : g.shared = skew points := by
    rw [Parabola.shared, sums.b00, sums.b01, sums.b02, sums.b12, skew]
  have quotient : divide byZero g.s g.q = slope points := by
    rw [s, q, divide_of_ne determined.q, mul_div_cancel_right₀ _ determined.q]
  have ratio : divide byZero g.shared g.q = skew points / spread points := by
    rw [shared, q, divide_of_ne determined.q]
  refine ⟨?_, ?_, ?_⟩
  · have product : slope points * spread points * (skew points / spread points) =
        slope points * skew points := by
      rw [mul_assoc, mul_div_cancel₀ _ determined.q]
    rw [solved.cf_two, ratio, s, shared, sums.b00, sums.b02, sums.b22, sums.c0, sums.c2, product]
    exact divide_of_ne determined.denominator _ _
  · rw [solved.cf_one, quotient, ratio]
  · rw [solved.cf_zero, quotient, sums.b00, sums.b01, sums.b02, sums.c0, divide_of_ne count,
      divide_of_ne count]

/-- The weighted residuals are those of a constant: `cf[ 0 ]` is not corrected for what the
correction of `cf[ 1 ]` does. -/
theorem Parabola.sum_residuals {f g : Parabola} (built : f.regressBuild byZero points = g)
    (determined : Determined points) {k : ℕ} (le : k ≤ 2) :
    (points.map fun p => (p.2 - g.func p.1) * p.1 ^ k).sum * points.length =
      g.cf 2 * (skew points / spread points) * moment 1 0 points * moment k 0 points := by
  obtain ⟨cf_two, cf_one, cf_zero⟩ := regressBuild_coefficients built determined
  have count : (points.length : ℚ) ≠ 0 := Nat.cast_ne_zero.mpr determined.b00
  have slope_eq : slope points * spread points =
      moment 1 1 points * points.length - moment 0 1 points * moment 1 0 points :=
    div_mul_cancel₀ _ determined.q
  have ratio_eq : skew points / spread points * spread points = skew points :=
    div_mul_cancel₀ _ determined.q
  have cf_two_eq : g.cf 2 * bend points = moment 2 1 points * points.length -
      moment 0 1 points * moment 2 0 points - slope points * skew points := by
    rw [cf_two, div_mul_cancel₀ _ determined.denominator]
  have cf_zero_eq : g.cf 0 * points.length = moment 0 1 points - slope points * moment 1 0 points -
      g.cf 2 * moment 2 0 points := by
    rw [cf_zero, ← sub_div, div_mul_cancel₀ _ count]
  rw [bend] at cf_two_eq
  set ratio := skew points / spread points
  simp only [spread, skew] at slope_eq ratio_eq cf_two_eq
  rw [Polynom.sum_residuals, Fin.sum_univ_three]
  obtain rfl | rfl | rfl : k = 0 ∨ k = 1 ∨ k = 2 := by omega
  · simp only [Fin.val_zero, Fin.val_one, Fin.val_two, Nat.add_zero, moment_zero]
    linear_combination -points.length * cf_zero_eq - points.length * moment 1 0 points * cf_one
  · simp only [Fin.val_zero, Fin.val_one, Fin.val_two, Nat.zero_add, Nat.reduceAdd]
    linear_combination -moment 1 0 points * cf_zero_eq -
      points.length * moment 2 0 points * cf_one - slope_eq + g.cf 2 * ratio_eq
  · simp only [Fin.val_zero, Fin.val_one, Fin.val_two, Nat.zero_add, Nat.reduceAdd]
    linear_combination -moment 2 0 points * cf_zero_eq -
      points.length * moment 3 0 points * cf_one - cf_two_eq

/-- The data for which nothing is left out: they are centred, or the square has no share of the
line in it, or there is no square to correct for. -/
def NothingOmitted (points : List (ℚ × ℚ)) : Prop :=
  moment 1 0 points = 0 ∨ skew points = 0 ∨
    (moment 2 1 points * points.length - moment 0 1 points * moment 2 0 points) * spread points =
      (moment 1 1 points * points.length - moment 0 1 points * moment 1 0 points) * skew points

theorem Parabola.regressBuild_normal_iff (byZero : ℚ) (f : Parabola)
    (determined : Determined points) :
    (f.regressBuild byZero points).Normal points ↔ NothingOmitted points := by
  generalize built : f.regressBuild byZero points = g
  have count : (points.length : ℚ) ≠ 0 := Nat.cast_ne_zero.mpr determined.b00
  have normal_iff : g.Normal points ↔
      g.cf 2 * (skew points / spread points) * moment 1 0 points = 0 := by
    constructor
    · intro normal
      have constant := sum_residuals built determined (Nat.zero_le 2)
      rw [normal 0 (Nat.zero_le 2), zero_mul, moment_zero] at constant
      exact (mul_eq_zero.mp constant.symm).resolve_right count
    · intro omitted k le
      have weighted := sum_residuals built determined le
      rw [omitted, zero_mul] at weighted
      exact (mul_eq_zero.mp weighted).resolve_right count
  have cf_two_iff : g.cf 2 = 0 ↔
      (moment 2 1 points * points.length - moment 0 1 points * moment 2 0 points) *
          spread points =
        (moment 1 1 points * points.length - moment 0 1 points * moment 1 0 points) *
          skew points := by
    obtain ⟨cf_two, -⟩ := regressBuild_coefficients built determined
    rw [cf_two, div_eq_zero_iff, or_iff_left determined.denominator, sub_eq_zero, slope,
      div_mul_eq_mul_div, eq_div_iff determined.q]
  rw [normal_iff, mul_eq_zero, mul_eq_zero, cf_two_iff, div_eq_zero_iff,
    or_iff_left determined.q, NothingOmitted]
  tauto

/-- The parabola of a regression satisfies the normal equations, and no other one is better, just
for the data for which nothing is left out of `cf[ 0 ]`. -/
theorem Parabola.regressBuild_iff (byZero : ℚ) (f : Parabola) (determined : Determined points) :
    ((f.regressBuild byZero points).Normal points ∧ (f.regressBuild byZero points).Best points) ↔
      NothingOmitted points := by
  rw [Polynom.best_iff_normal, and_self]
  exact f.regressBuild_normal_iff byZero determined

theorem determined_centred : Determined [(-1, 1), (0, 0), (1, 1)] := by
  constructor <;> norm_num [spread, bend, skew]

theorem Parabola.regressBuild_centred :
    (({ cf := 0 } : Parabola).regressBuild 7 [(-1, 1), (0, 0), (1, 1)]).Normal
        [(-1, 1), (0, 0), (1, 1)] ∧
      (({ cf := 0 } : Parabola).regressBuild 7 [(-1, 1), (0, 0), (1, 1)]).Best
        [(-1, 1), (0, 0), (1, 1)] := by
  refine (regressBuild_iff 7 { cf := 0 } ?_).mpr ?_
  · exact determined_centred
  · left
    simp

/-- The squares of zero, one and two are fitted by a parabola that lies two below them. -/
theorem Parabola.regressBuild_square :
    ¬∀ (byZero : ℚ) (f : Parabola) (points : List (ℚ × ℚ)), Determined points →
      (f.regressBuild byZero points).Normal points ∧
        (f.regressBuild byZero points).Best points := by
  intro all
  have determined : Determined [(0, 0), (1, 1), (2, 4)] := by
    constructor <;> norm_num [spread, bend, skew]
  have nothing := (regressBuild_normal_iff 0 { cf := 0 } determined).mp
    (all 0 { cf := 0 } _ determined).1
  norm_num [NothingOmitted, skew, spread] at nothing

end LeastSquares

end Crs.Interpolation
