import Crs.Interpolation.Basic
import Mathlib.LinearAlgebra.Vandermonde
import Mathlib.Tactic.FieldSimp
import Mathlib.Tactic.LinearCombination

/-!
# Interpolation by three points

There is one parabola through three points with different abscissae. Lagrange's
formula gives it by the differences of the abscissae; the elimination of
`parabola::ipBuild` divides by the sum of the first two as well. A division by
zero is none.
-/

namespace Crs.Interpolation

variable {power : ℕ}

def quotient (a b : ℚ) : Option ℚ := if b = 0 then none else some (a / b)

def Parabola.ipBuild (f : Parabola) (x y : Fin 3 → ℚ) : Option Parabola := do
  let o := x 0 + x 1
  let p := x 2 ^ 2
  let q := x 2 - (← quotient p o)
  let r := x 0 ^ 2
  let s ← quotient (y 0 - y 1) (r - x 1 ^ 2)
  let t := y 2 - s * p
  let cf1 ← quotient (y 0 - s * r - t) (x 0 - (← quotient r o) - q)
  let cf0 := t - cf1 * q
  let cf2 := s - (← quotient cf1 o)
  some { f with cf := ![cf0, cf1, cf2] }

/-- The passage of the outer loop of `ipLagrange2` for `i`: the entries of `b`, `xm` and `xa`. -/
def lagrangeTerm (c : Fin 3 → ℚ × ℚ) (i : Fin 3) : Option (ℚ × ℚ × ℚ) :=
  (List.finRange 3).foldlM (fun (b, xm, xa) j =>
    if i ≠ j then do
      let b ← quotient b ((c i).1 - (c j).1)
      some (b, xm * (c j).1, xa - (c j).1)
    else some (b, xm, xa)) ((c i).2, 1, 0)

def ipLagrange2 (c : Fin 3 → ℚ × ℚ) : Option (Fin 3 → ℚ) := do
  let (b0, xm0, xa0) ← lagrangeTerm c 0
  let (b1, xm1, xa1) ← lagrangeTerm c 1
  let (b2, xm2, xa2) ← lagrangeTerm c 2
  some ![xm0 * b0 + xm1 * b1 + xm2 * b2, xa0 * b0 + xa1 * b1 + xa2 * b2, b0 + b1 + b2]

theorem quotient_of_ne {b : ℚ} (nonzero : b ≠ 0) (a : ℚ) : quotient a b = some (a / b) :=
  if_neg nonzero

@[simp] theorem quotient_zero (a : ℚ) : quotient a 0 = none := rfl

/-- Polynomials that agree at more places than their power are the same. -/
theorem Polynom.cf_eq {f g : Polynom power} {x : Fin (power + 1) → ℚ} (distinct : x.Injective)
    (agree : ∀ i, f.func (x i) = g.func (x i)) : f.cf = g.cf := by
  have zero : f.cf - g.cf = 0 := by
    refine Matrix.eq_zero_of_forall_index_sum_mul_pow_eq_zero distinct fun i => ?_
    have same := agree i
    rw [func_eq_sum, func_eq_sum, ← sub_eq_zero, ← Finset.sum_sub_distrib] at same
    simpa only [Pi.sub_apply, sub_mul] using same
  exact sub_eq_zero.mp zero

variable {c : Fin 3 → ℚ × ℚ}

@[simp] theorem Polynom.func_three (f : Polynom 2) (x cf0 cf1 cf2 : ℚ)
    (cf : f.cf = ![cf0, cf1, cf2]) : f.func x = cf0 + cf1 * x + cf2 * x ^ 2 := by
  simp [func_eq_sum, Fin.sum_univ_three, cf]

/-- A term vanishes at the two other points, `j` and `k`. -/
theorem lagrangeTerm_spec (distinct : Function.Injective fun i => (c i).1) {i j k : Fin 3}
    (ij : i ≠ j) (ik : i ≠ k) (term : lagrangeTerm c i =
      (quotient (c i).2 ((c i).1 - (c j).1)).bind fun b =>
        (quotient b ((c i).1 - (c k).1)).bind fun b =>
          some (b, 1 * (c j).1 * (c k).1, 0 - (c j).1 - (c k).1)) :
    ∃ b xm xa, lagrangeTerm c i = some (b, xm, xa) ∧
      ∀ x, xm * b + xa * b * x + b * x ^ 2 =
        (c i).2 * ((x - (c j).1) * (x - (c k).1)) /
          (((c i).1 - (c j).1) * ((c i).1 - (c k).1)) := by
  have first : (c i).1 - (c j).1 ≠ 0 := sub_ne_zero.mpr (distinct.ne ij)
  have second : (c i).1 - (c k).1 ≠ 0 := sub_ne_zero.mpr (distinct.ne ik)
  rw [quotient_of_ne first, Option.bind_some, quotient_of_ne second, Option.bind_some] at term
  refine ⟨_, _, _, term, fun x => ?_⟩
  field_simp
  ring

theorem ipLagrange2_spec (distinct : Function.Injective fun i => (c i).1) :
    ∃ f : Polynom 2, ipLagrange2 c = some f.cf ∧ ∀ i, f.func (c i).1 = (c i).2 := by
  obtain ⟨b0, xm0, xa0, term0, value0⟩ := lagrangeTerm_spec (i := 0) (j := 1) (k := 2) distinct
    (by decide) (by decide) (by simp [lagrangeTerm, List.finRange, Option.bind_assoc])
  obtain ⟨b1, xm1, xa1, term1, value1⟩ := lagrangeTerm_spec (i := 1) (j := 0) (k := 2) distinct
    (by decide) (by decide) (by simp [lagrangeTerm, List.finRange, Option.bind_assoc])
  obtain ⟨b2, xm2, xa2, term2, value2⟩ := lagrangeTerm_spec (i := 2) (j := 0) (k := 1) distinct
    (by decide) (by decide) (by simp [lagrangeTerm, List.finRange, Option.bind_assoc])
  refine ⟨{ cf := ![xm0 * b0 + xm1 * b1 + xm2 * b2, xa0 * b0 + xa1 * b1 + xa2 * b2,
    b0 + b1 + b2] }, ?_, fun i => ?_⟩
  · simp only [ipLagrange2, term0, term1, term2]
    rfl
  have nonzero {i j : Fin 3} (other : i ≠ j) : (c i).1 - (c j).1 ≠ 0 :=
    sub_ne_zero.mpr (distinct.ne other)
  rw [Polynom.func_three _ _ _ _ _ rfl]
  calc
    _ = (xm0 * b0 + xa0 * b0 * (c i).1 + b0 * (c i).1 ^ 2) +
        (xm1 * b1 + xa1 * b1 * (c i).1 + b1 * (c i).1 ^ 2) +
        (xm2 * b2 + xa2 * b2 * (c i).1 + b2 * (c i).1 ^ 2) := by ring
    _ = (c i).2 := by
      rw [value0, value1, value2]
      fin_cases i <;> simp [nonzero]

/-- Where the first two abscissae do not cancel, every divisor is a product of differences and
of their sum. -/
theorem Parabola.ipBuild_spec (f : Parabola) {x : Fin 3 → ℚ} (y : Fin 3 → ℚ)
    (distinct : x.Injective) (sum : x 0 + x 1 ≠ 0) :
    ∃ g, f.ipBuild x y = some g ∧ ∀ i, g.func (x i) = y i := by
  have d01 : x 0 - x 1 ≠ 0 := sub_ne_zero.mpr (distinct.ne (by decide))
  have d20 : x 2 - x 0 ≠ 0 := sub_ne_zero.mpr (distinct.ne (by decide))
  have d21 : x 2 - x 1 ≠ 0 := sub_ne_zero.mpr (distinct.ne (by decide))
  have squares : x 0 ^ 2 - x 1 ^ 2 ≠ 0 := by
    rw [sq_sub_sq]
    exact mul_ne_zero sum d01
  have rest : x 0 - x 0 ^ 2 / (x 0 + x 1) - (x 2 - x 2 ^ 2 / (x 0 + x 1)) ≠ 0 := by
    have product : x 0 - x 0 ^ 2 / (x 0 + x 1) - (x 2 - x 2 ^ 2 / (x 0 + x 1)) =
        (x 2 - x 0) * (x 2 - x 1) / (x 0 + x 1) := by
      field_simp
      ring
    rw [product]
    exact div_ne_zero (mul_ne_zero d20 d21) sum
  obtain ⟨s, s_eq⟩ : ∃ s, s = (y 0 - y 1) / (x 0 ^ 2 - x 1 ^ 2) := ⟨_, rfl⟩
  obtain ⟨cf1, cf1_eq⟩ : ∃ cf1, cf1 = (y 0 - s * x 0 ^ 2 - (y 2 - s * x 2 ^ 2)) /
    (x 0 - x 0 ^ 2 / (x 0 + x 1) - (x 2 - x 2 ^ 2 / (x 0 + x 1))) := ⟨_, rfl⟩
  refine ⟨{ f with cf := ![y 2 - s * x 2 ^ 2 - cf1 * (x 2 - x 2 ^ 2 / (x 0 + x 1)), cf1,
    s - cf1 / (x 0 + x 1)] }, ?_, ?_⟩
  · simp [ipBuild, quotient_of_ne, sum, squares, rest, ← s_eq, ← cf1_eq]
  rw [eq_div_iff squares] at s_eq
  rw [eq_div_iff rest] at cf1_eq
  have ratio : cf1 / (x 0 + x 1) * (x 0 + x 1) = cf1 := div_mul_cancel₀ _ sum
  intro i
  rw [Polynom.func_three _ _ _ _ _ rfl]
  obtain rfl | rfl | rfl : i = 0 ∨ i = 1 ∨ i = 2 := by fin_cases i <;> decide
  · linear_combination cf1_eq
  · linear_combination cf1_eq - s_eq + (x 0 - x 1) * ratio
  · ring

/-- The elimination gives the parabola of Lagrange's formula, just if the first two abscissae do
not cancel. -/
theorem Parabola.ipBuild_iff (f : Parabola) (distinct : Function.Injective fun i => (c i).1) :
    (∃ g, f.ipBuild (fun i => (c i).1) (fun i => (c i).2) = some g ∧
        (∀ i, g.func (c i).1 = (c i).2) ∧ ipLagrange2 c = some g.cf) ↔
      (c 0).1 + (c 1).1 ≠ 0 := by
  constructor
  · rintro ⟨g, built, -⟩ zero
    simp [ipBuild, zero] at built
  · intro sum
    obtain ⟨g, built, through⟩ := f.ipBuild_spec (fun i => (c i).2) distinct sum
    obtain ⟨lagrange, formula, through'⟩ := ipLagrange2_spec distinct
    have same : lagrange.cf = g.cf :=
      Polynom.cf_eq distinct fun i => (through' i).trans (through i).symm
    exact ⟨g, built, through, same ▸ formula⟩

def squares : Fin 3 → ℚ × ℚ := ![(0, 0), (1, 1), (2, 4)]

theorem Parabola.ipBuild_squares :
    ∃ g, ({ cf := 0 } : Parabola).ipBuild (fun i => (squares i).1) (fun i => (squares i).2) =
        some g ∧
      (∀ i, g.func (squares i).1 = (squares i).2) ∧ ipLagrange2 squares = some g.cf := by
  refine (ipBuild_iff { cf := 0 } ?_).mpr ?_
  · decide
  · norm_num [squares]

/-- One and minus one cancel. -/
theorem Parabola.ipBuild_cancel :
    ¬∀ (f : Parabola) (c : Fin 3 → ℚ × ℚ), (Function.Injective fun i => (c i).1) →
      ∃ g, f.ipBuild (fun i => (c i).1) (fun i => (c i).2) = some g ∧
        (∀ i, g.func (c i).1 = (c i).2) ∧ ipLagrange2 c = some g.cf := by
  intro all
  obtain ⟨g, built, -⟩ := all { cf := 0 } ![(-1, 1), (1, 1), (2, 4)] (by decide)
  simp [ipBuild] at built

end Crs.Interpolation
