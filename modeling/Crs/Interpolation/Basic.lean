import Mathlib.Algebra.BigOperators.Fin
import Mathlib.Algebra.Order.Field.Rat
import Mathlib.Data.List.FinRange
import Mathlib.Tactic.FinCases

/-!
# Lines and parabolas

The polynomials that are fitted to points: their coefficients, and the sums that
a regression accumulates. A parabola is a line with further sums, and with room
for one more coefficient; the members of `line` that it calls write to the lower
two. Numbers are exact rationals, and a division by zero gives `byZero`. An
array of points is a list, whose length fits in `b00`.
-/

namespace Crs.Interpolation

variable {power n : ℕ}

def divide (byZero a b : ℚ) : ℚ := if b = 0 then byZero else a / b

structure Polynom (power : ℕ) where
  cf : Fin (power + 1) → ℚ
  resSum : ℚ := 0
  b00 : ℕ := 0

namespace Polynom

def func (f : Polynom power) (x : ℚ) : ℚ :=
  (List.finRange (power + 1)).foldl (fun result i => result + f.cf i * x ^ (i : ℕ)) 0

def sumOfSquaredResiduals (points : List (ℚ × ℚ)) (f : Polynom power) : Polynom power :=
  { f with resSum := points.foldl (fun resSum p => resSum + (p.2 - f.func p.1) ^ 2) 0 }

theorem func_eq_sum (f : Polynom power) (x : ℚ) : f.func x = ∑ i, f.cf i * x ^ (i : ℕ) := by
  rw [func, Fin.sum_univ_def, List.sum_eq_foldl, List.foldl_map]

end Polynom

structure Line (n : ℕ := 0) extends Polynom (n + 1) where
  c0 : ℚ := 0
  c1 : ℚ := 0
  b01 : ℚ := 0
  b02 : ℚ := 0
  s : ℚ := 0
  q : ℚ := 0

namespace Line

variable (byZero : ℚ)

def regressCalcCoefficients (l : Line n) : Line n :=
  let s := l.c1 * l.b00 - l.c0 * l.b01
  let q := l.b02 * l.b00 - l.b01 * l.b01
  let cf := Function.update l.cf 1 (divide byZero s q)
  let cf := Function.update cf 0 (divide byZero (l.c0 - cf 1 * l.b01) l.b00)
  { l with s, q, cf }

def regressAddPoint (l : Line n) (p : ℚ × ℚ) : Line n :=
  let (x, y) := p
  regressCalcCoefficients byZero { l with
    b00 := l.b00 + 1
    b01 := l.b01 + x
    b02 := l.b02 + x * x
    c0 := l.c0 + y
    c1 := l.c1 + x * y }

/-- The body of the loop of `regressBuild`. -/
def sumPoint (l : Line n) (p : ℚ × ℚ) : Line n :=
  let (x, y) := p
  { l with
    b01 := l.b01 + x
    b02 := l.b02 + x ^ 2
    c0 := l.c0 + y
    c1 := l.c1 + x * y }

def regressBuild (l : Line n) (points : List (ℚ × ℚ)) : Line n :=
  let l := { l with b00 := points.length, c0 := 0, c1 := 0, b01 := 0, b02 := 0 }
  let l := regressCalcCoefficients byZero (points.foldl sumPoint l)
  { l with toPolynom := l.toPolynom.sumOfSquaredResiduals points }

end Line

structure Parabola extends Line 1 where
  c2 : ℚ := 0
  b12 : ℚ := 0
  b22 : ℚ := 0

namespace Parabola

variable (byZero : ℚ)

/-- Correct the coefficients of the line for the share of the square. -/
def incrementCoefficients (f : Parabola) : Parabola :=
  let p := f.b12 * f.b00 - f.b01 * f.b02
  let r := divide byZero p f.q
  let cf := Function.update f.cf 2 (divide byZero (f.c2 * f.b00 - f.c0 * f.b02 - f.s * r)
    (f.b22 * f.b00 - f.b02 * f.b02 - p * r))
  let cf := Function.update cf 1 (cf 1 - cf 2 * r)
  let cf := Function.update cf 0 (cf 0 - divide byZero (cf 2 * f.b02) f.b00)
  { f with cf }

def regressCalcCoefficients (f : Parabola) : Parabola :=
  incrementCoefficients byZero { f with toLine := f.toLine.regressCalcCoefficients byZero }

/-- The call to the member of `line` calculates the coefficients of the line only. -/
def regressAddPoint (f : Parabola) (p : ℚ × ℚ) : Parabola :=
  let (x, y) := p
  incrementCoefficients byZero { f with
    toLine := f.toLine.regressAddPoint byZero p
    b12 := f.b12 + x ^ 3
    b22 := f.b22 + x ^ 4
    c2 := f.c2 + x ^ 2 * y }

/-- The body of the loop of `regressBuild`. -/
def sumPoint (f : Parabola) (p : ℚ × ℚ) : Parabola :=
  let (x, y) := p
  let x2 := x ^ 2
  { f with
    b01 := f.b01 + x
    b02 := f.b02 + x2
    c0 := f.c0 + y
    c1 := f.c1 + x * y
    b12 := f.b12 + x ^ 3
    b22 := f.b22 + x ^ 4
    c2 := f.c2 + x2 * y }

def regressBuild (f : Parabola) (points : List (ℚ × ℚ)) : Parabola :=
  let f := { f with
    b00 := points.length, c0 := 0, c1 := 0, c2 := 0, b01 := 0, b02 := 0, b12 := 0, b22 := 0 }
  let f := regressCalcCoefficients byZero (points.foldl sumPoint f)
  { f with toPolynom := f.toPolynom.sumOfSquaredResiduals points }

end Parabola

end Crs.Interpolation
