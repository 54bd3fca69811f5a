import Mathlib.Algebra.Order.Floor.Ring
import Mathlib.Data.Int.ConditionallyCompleteOrder
import Mathlib.Data.Int.Interval
import Mathlib.Data.Set.Card
import Mathlib.Tactic.Linarith

/-!
# Equally spaced points

The points at a fixed distance of each other, one of them at a given origin. The ceiling of
a quotient finds the first one that is not below a bound, and the points between two bounds are
those of an interval of integers.
-/

namespace Foundation

variable {F : Type*} [Field F] [LinearOrder F] [IsStrictOrderedRing F] [FloorRing F]

/-- The points. -/
def Ticks (origin d : F) : Set F := {t | ∃ k : ℤ, t = k * d + origin}

namespace Ticks

variable {origin d lower upper : F} {k : ℤ}

theorem le_point_iff (positive : 0 < d) : lower ≤ k * d + origin ↔ ⌈(lower - origin) / d⌉ ≤ k := by
  rw [Int.ceil_le, div_le_iff₀ positive, sub_le_iff_le_add]

theorem point_le_iff (positive : 0 < d) : k * d + origin ≤ upper ↔ k ≤ ⌊(upper - origin) / d⌋ := by
  rw [Int.le_floor, le_div_iff₀ positive, le_sub_iff_add_le]

theorem isLeast_first (positive : 0 < d) (origin lower : F) :
    IsLeast {t | t ∈ Ticks origin d ∧ lower ≤ t} (⌈(lower - origin) / d⌉ * d + origin) := by
  refine ⟨⟨⟨_, rfl⟩, (le_point_iff positive).mpr le_rfl⟩, ?_⟩
  rintro _ ⟨⟨k, rfl⟩, above⟩
  have less : (⌈(lower - origin) / d⌉ : F) ≤ k := by
    exact_mod_cast (le_point_iff positive).mp above
  exact add_le_add_left (mul_le_mul_of_nonneg_right less positive.le) origin

/-- The points between two bounds. -/
theorem between_eq (positive : 0 < d) (origin lower upper : F) :
    {t | t ∈ Ticks origin d ∧ lower ≤ t ∧ t ≤ upper} =
      (fun k : ℤ => k * d + origin) ''
        Set.Icc ⌈(lower - origin) / d⌉ ⌊(upper - origin) / d⌋ := by
  ext t
  constructor
  · rintro ⟨⟨k, rfl⟩, above, below⟩
    exact ⟨k, ⟨(le_point_iff positive).mp above, (point_le_iff positive).mp below⟩, rfl⟩
  · rintro ⟨k, ⟨above, below⟩, rfl⟩
    exact ⟨⟨k, rfl⟩, (le_point_iff positive).mpr above, (point_le_iff positive).mpr below⟩

theorem ncard_between (positive : 0 < d) (origin lower upper : F) :
    {t | t ∈ Ticks origin d ∧ lower ≤ t ∧ t ≤ upper}.ncard =
      (⌊(upper - origin) / d⌋ + 1 - ⌈(lower - origin) / d⌉).toNat := by
  have injective : Function.Injective fun k : ℤ => k * d + origin := by
    intro i j same
    exact_mod_cast mul_right_cancel₀ positive.ne' (add_right_cancel same)
  rw [between_eq positive, Set.ncard_image_of_injective _ injective, ← Finset.coe_Icc,
    Set.ncard_coe_finset, Int.card_Icc]

/-- An interval that is `n` distances wide holds at least `n` points. -/
theorem le_between (positive : 0 < d) (origin : F) {n : ℤ} (wide : n * d ≤ upper - lower) :
    n ≤ ⌊(upper - origin) / d⌋ + 1 - ⌈(lower - origin) / d⌉ := by
  have above : (n : F) + (lower - origin) / d ≤ (upper - origin) / d := by
    rw [← le_sub_iff_add_le, ← sub_div, le_div_iff₀ positive]
    linarith
  have next : (⌈(lower - origin) / d⌉ : F) < (lower - origin) / d + 1 := Int.ceil_lt_add_one _
  have last : n + ⌈(lower - origin) / d⌉ - 1 ≤ ⌊(upper - origin) / d⌋ := by
    rw [Int.le_floor]
    push_cast
    linarith
  omega

end Ticks

end Foundation
