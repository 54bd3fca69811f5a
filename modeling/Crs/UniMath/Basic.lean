import Crs.Foundation.Loops
import Mathlib.Algebra.Order.Archimedean.Basic
import Mathlib.Algebra.Order.Field.Power
import Mathlib.Algebra.Order.Field.Rat
import Mathlib.Data.Int.Log
import Mathlib.Tactic.Linarith
import Mathlib.Tactic.Positivity

/-!
# Scientific form

`frexp10` takes a number apart into its mantissa and its decimal order. Numbers are exact
rationals, and an order is any integer. The loops have fuel; that they return is a part of
`exists_frexp10`.
-/

namespace Crs.UniMath

open Foundation

/-- Zero counts as positive. -/
def sign (expr : ℚ) : ℤ := if expr < 0 then -1 else 1

def abs (expr : ℚ) : ℚ := if expr < 0 then -expr else expr

@[simp] theorem abs_eq (expr : ℚ) : abs expr = |expr| := by
  rw [abs]
  split
  · next negative => exact (abs_of_neg negative).symm
  · next positive => exact (abs_of_nonneg (not_lt.mp positive)).symm

theorem sign_of_neg {expr : ℚ} (negative : expr < 0) : sign expr = -1 := if_pos negative

theorem sign_of_nonneg {expr : ℚ} (positive : 0 ≤ expr) : sign expr = 1 :=
  if_neg (not_lt.mpr positive)

/-- The body of the loop for great numbers. -/
def divideByTen : ℚ × ℤ → Option (Pass (ℚ × ℤ) (ℚ × ℤ))
  | (mantiss, order) =>
      if 10 ≤ mantiss then some (.again (mantiss / 10, order + 1))
      else some (.leave (mantiss, order))

/-- The body of the loop for small numbers. -/
def multiplyByTen : ℚ × ℤ → Option (Pass (ℚ × ℤ) (ℚ × ℤ))
  | (mantiss, order) =>
      if mantiss < 1 then some (.again (mantiss * 10, order - 1))
      else some (.leave (mantiss, order))

/-- The loops of `frexp10`, of which at most one is entered. -/
def scale (fuel : ℕ) (mantiss : ℚ) : Option (ℚ × ℤ) :=
  if 1 < mantiss then Loop.run divideByTen fuel (mantiss, 0)
  else if 0 < mantiss ∧ mantiss < 1 then Loop.run multiplyByTen fuel (mantiss, 0)
  else some (mantiss, 0)

def frexp10 (fuel : ℕ) (value : ℚ) : Option (ℚ × ℤ) := do
  let (mantiss, order) ← scale fuel (abs value)
  some (mantiss * sign value, order)

/-- The digits of a number, with the point behind the first of them; those of zero are zero. -/
def mantissa (value : ℚ) : ℚ := |value| / 10 ^ Int.log 10 |value|

section Mantissa

variable {value m : ℚ} {order : ℤ}

theorem mantissa_mul (value : ℚ) : mantissa value * 10 ^ Int.log 10 |value| = |value| :=
  div_mul_cancel₀ _ (zpow_ne_zero _ (by norm_num))

@[simp] theorem mantissa_zero : mantissa 0 = 0 := by simp [mantissa]

theorem one_le_mantissa (nonzero : value ≠ 0) : 1 ≤ mantissa value := by
  rw [mantissa, one_le_div (by positivity)]
  exact_mod_cast Int.zpow_log_le_self (b := 10) (by norm_num) (abs_pos.mpr nonzero)

theorem mantissa_nonneg (value : ℚ) : 0 ≤ mantissa value := by
  unfold mantissa
  positivity

theorem mantissa_lt_ten (value : ℚ) : mantissa value < 10 := by
  have less : |value| < 10 ^ (Int.log 10 |value| + 1) := by
    exact_mod_cast Int.lt_zpow_succ_log_self (b := 10) (by norm_num) |value|
  rw [mantissa, div_lt_iff₀ (by positivity)]
  rwa [zpow_add_one₀ (by norm_num), mul_comm] at less

/-- There is one scientific form. -/
theorem scientific_unique (one : 1 ≤ m) (ten : m < 10) (same : m * 10 ^ order = |value|) :
    m = mantissa value ∧ order = Int.log 10 |value| := by
  have positive : (0 : ℚ) < 10 ^ order := by positivity
  have lower : (10 : ℚ) ^ order ≤ |value| := by
    rw [← same]
    exact le_mul_of_one_le_left positive.le one
  have upper : |value| < (10 : ℚ) ^ (order + 1) := by
    rw [← same, zpow_add_one₀ (by norm_num), mul_comm]
    exact mul_lt_mul_of_pos_left ten positive
  have log : order = Int.log 10 |value| := by
    have value_pos : 0 < |value| := positive.trans_le lower
    refine le_antisymm ?_ (Int.lt_add_one_iff.mp ?_)
    · exact (Int.zpow_le_iff_le_log (by norm_num) value_pos).mp (by exact_mod_cast lower)
    · exact (Int.lt_zpow_iff_log_lt (by norm_num) value_pos).mp (by exact_mod_cast upper)
  refine ⟨?_, log⟩
  rw [mantissa, ← log, ← same, mul_div_cancel_right₀ _ positive.ne']

end Mantissa

section Loops

variable {v m : ℚ} {order : ℤ}

/-- The result of either loop. -/
def Scientific (v : ℚ) (r : ℚ × ℤ) : Prop := 1 ≤ r.1 ∧ r.1 < 10 ∧ r.1 * 10 ^ r.2 = v

theorem exists_divideByTen (one : 1 ≤ m) (same : m * 10 ^ order = v) :
    ∃ r, Loop.Returns divideByTen (m, order) r ∧ Scientific v r := by
  obtain ⟨n, less⟩ := pow_unbounded_of_one_lt m (by norm_num : (1 : ℚ) < 10)
  refine Loop.exists_returns (I := fun n s => 1 ≤ s.1 ∧ s.1 * 10 ^ s.2 = v ∧ s.1 < 10 ^ n)
    ?_ ⟨one, same, less⟩
  rintro n ⟨m, order⟩ ⟨one, same, less⟩
  by_cases great : 10 ≤ m
  · refine .inr ⟨_, if_pos great, n - 1, ?_, ?_, ?_, ?_⟩
    · have : n ≠ 0 := by
        rintro rfl
        linarith
      omega
    · linarith
    · rw [← same, zpow_add_one₀ (by norm_num)]
      ring
    · have grown : (10 : ℚ) ^ n ≤ 10 ^ (n - 1 + 1) :=
        pow_le_pow_right₀ (by norm_num) (by omega)
      rw [pow_succ] at grown
      linarith
  · exact .inl ⟨_, if_neg great, one, not_le.mp great, same⟩

theorem exists_multiplyByTen (positive : 0 < m) (ten : m < 10) (same : m * 10 ^ order = v) :
    ∃ r, Loop.Returns multiplyByTen (m, order) r ∧ Scientific v r := by
  obtain ⟨n, less⟩ := pow_unbounded_of_one_lt m⁻¹ (by norm_num : (1 : ℚ) < 10)
  have enough : 1 ≤ m * 10 ^ n := by
    rw [inv_lt_iff_one_lt_mul₀ positive] at less
    linarith
  refine Loop.exists_returns
    (I := fun n s => s.1 < 10 ∧ s.1 * 10 ^ s.2 = v ∧ 1 ≤ s.1 * 10 ^ n) ?_ ⟨ten, same, enough⟩
  rintro n ⟨m, order⟩ ⟨ten, same, enough⟩
  by_cases small : m < 1
  · have later : n ≠ 0 := by
      rintro rfl
      linarith
    obtain ⟨n, rfl⟩ := Nat.exists_eq_succ_of_ne_zero later
    refine .inr ⟨_, if_pos small, n, Nat.lt_succ_self n, ?_, ?_, ?_⟩
    · linarith
    · rw [← same, zpow_sub_one₀ (by norm_num)]
      ring
    · rwa [pow_succ', ← mul_assoc] at enough
  · exact .inl ⟨_, if_neg small, not_lt.mp small, ten, same⟩

end Loops

/-- The loops return for every number that is not negative. -/
theorem exists_scale (value : ℚ) :
    ∃ fuel, scale fuel |value| = some (mantissa value, Int.log 10 |value|) := by
  have found {r : ℚ × ℤ} (form : Scientific |value| r) :
      r = (mantissa value, Int.log 10 |value|) := by
    obtain ⟨one, ten, same⟩ := form
    obtain ⟨first, second⟩ := scientific_unique one ten same
    exact Prod.ext first second
  have start : |value| * 10 ^ (0 : ℤ) = |value| := by simp
  by_cases great : 1 < |value|
  · obtain ⟨r, returns, form⟩ := exists_divideByTen great.le start
    obtain ⟨fuel, ran⟩ := returns.exists_run
    exact ⟨fuel, by rw [scale, if_pos great, ran, found form]⟩
  · by_cases small : 0 < |value| ∧ |value| < 1
    · obtain ⟨r, returns, form⟩ := exists_multiplyByTen small.1 (by linarith) start
      obtain ⟨fuel, ran⟩ := returns.exists_run
      exact ⟨fuel, by rw [scale, if_neg great, if_pos small, ran, found form]⟩
    · refine ⟨0, ?_⟩
      rw [scale, if_neg great, if_neg small]
      obtain zero | positive := (abs_nonneg value).eq_or_lt
      · simp [abs_eq_zero.mp zero.symm]
      · have one : |value| = 1 :=
          le_antisymm (not_lt.mp great) (not_lt.mp fun less => small ⟨positive, less⟩)
        simp [mantissa, one]

/-- `frexp10` returns the mantissa and the order of every number. -/
theorem exists_frexp10 (value : ℚ) :
    ∃ fuel, frexp10 fuel value = some (mantissa value * sign value, Int.log 10 |value|) := by
  obtain ⟨fuel, scaled⟩ := exists_scale value
  exact ⟨fuel, by rw [frexp10, abs_eq, scaled]; rfl⟩

theorem frexp10_mono {fuel more : ℕ} {value : ℚ} {r : ℚ × ℤ} (le : fuel ≤ more)
    (ran : frexp10 fuel value = some r) : frexp10 more value = some r := by
  obtain ⟨s, scaled, result⟩ := Option.bind_eq_some_iff.mp ran
  refine Option.bind_eq_some_iff.mpr ⟨s, ?_, result⟩
  rw [scale] at scaled ⊢
  split at scaled
  · next great =>
    rw [if_pos great]
    exact Loop.run_mono le scaled
  · next notGreat =>
    rw [if_neg notGreat]
    split at scaled
    · next small =>
      rw [if_pos small]
      exact Loop.run_mono le scaled
    · next notSmall => rwa [if_neg notSmall]

/-- What `frexp10` returns, with whatever fuel. -/
theorem frexp10_eq {fuel : ℕ} {value : ℚ} {r : ℚ × ℤ} (ran : frexp10 fuel value = some r) :
    r = (mantissa value * sign value, Int.log 10 |value|) := by
  obtain ⟨more, returned⟩ := exists_frexp10 value
  have first := frexp10_mono (Nat.le_max_left fuel more) ran
  have second := frexp10_mono (Nat.le_max_right fuel more) returned
  rw [first] at second
  exact Option.some.inj second

end Crs.UniMath
