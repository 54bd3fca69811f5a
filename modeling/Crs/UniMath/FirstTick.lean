import Crs.Foundation.Ticks
import Crs.UniMath.AxisDelta

/-!
# The ticks of an axis

`first_tick` looks for the first tick that is not below the begin of an interval, and counts the
ticks in the interval. Ticks are the multiples of the distance, but if both ends have the same
integer part other than zero, they are counted from there.

Numbers are exact rationals. The numbers of ticks are ints of 32 bits; a division by zero and a
cast of what does not fit have no result.
-/

namespace Crs.UniMath

open Foundation Peak

/-- The body of `while( n * d < x1 ) n++`. -/
def stepUp (x1 d : ℚ) (n : ℤ) : Option (Pass ℤ ℤ) :=
  if n * d < x1 then (int? (n + 1)).map .again else some (.leave n)

/-- The loop, which is for positive `x1`. -/
def stepsUp (fuel : ℕ) (x1 d : ℚ) (n : ℤ) : Option ℤ :=
  if 0 < x1 then Loop.run (stepUp x1 d) fuel n else some n

/-- The body of the loop that counts up while `last <= x2`. -/
def countUp (x2 d : ℚ) : ℤ × ℚ → Option (Pass (ℤ × ℚ) ℤ)
  | (nGrids, last) =>
      if last ≤ x2 then (int? (nGrids + 1)).map fun nGrids => .again (nGrids, last + d)
      else some (.leave nGrids)

/-- The tick and the number of ticks. -/
def firstTick (fuel : ℕ) (x1 x2 delta : ℚ) : Option (ℚ × ℤ) := do
  let ix1 := toInt x1
  let ix2 := toInt x2
  let d := abs delta
  let f := decide (ix1 ≠ 0 ∧ ix1 = ix2)
  let x1 := if f then x1 - ix1 else x1
  let x2 := if f then x2 - ix2 else x2
  guard (d ≠ 0)
  let n ← int? (toInt (x1 / d))
  let n ← stepsUp fuel x1 d n
  let the1st := n * d
  let nGrids ← int? (toInt ((x2 - the1st) / d))
  let nGrids ← Loop.run (countUp x2 d) fuel (nGrids, the1st + nGrids * d)
  return (the1st + (if f then (ix1 : ℚ) else 0), nGrids)

/-- Where ticks are counted from. -/
def origin (x1 x2 : ℚ) : ℚ := if toInt x1 ≠ 0 ∧ toInt x1 = toInt x2 then toInt x1 else 0

def firstIndex (x1 x2 delta : ℚ) : ℤ := ⌈(x1 - origin x1 x2) / |delta|⌉

def lastIndex (x1 x2 delta : ℚ) : ℤ := ⌊(x2 - origin x1 x2) / |delta|⌋

section Loops

variable {x1 x2 d : ℚ} {n k : ℤ} {fuel : ℕ}

theorem toInt_of_nonpos {q : ℚ} (nonpos : q ≤ 0) : toInt q = ⌈q⌉ := by
  obtain negative | rfl := nonpos.lt_or_eq
  · exact if_pos negative
  · simp [toInt]

theorem int?_of_great (great : 2 ^ 31 ≤ n) : int? n = none :=
  if_neg fun fits => absurd fits.2 (not_lt.mpr great)

/-- From the truncated quotient at most one step leads to the first multiple not below `x1`. -/
theorem stepUp_run (x1 : ℚ) (positive : 0 < d) (fuel : ℕ) :
    (int? (toInt (x1 / d))).bind (stepsUp (fuel + 2) x1 d) = int? ⌈x1 / d⌉ := by
  by_cases front : 0 < x1
  · have loop : stepsUp (fuel + 2) x1 d = Loop.run (stepUp x1 d) (fuel + 2) :=
      funext fun n => if_pos front
    rw [loop]
    have nonneg : 0 ≤ x1 / d := (div_pos front positive).le
    have floor_nonneg : 0 ≤ ⌊x1 / d⌋ := Int.floor_nonneg.mpr nonneg
    have less_iff (n : ℤ) : n * d < x1 ↔ (n : ℚ) < x1 / d := (lt_div_iff₀ positive).symm
    have last : stepUp x1 d ⌈x1 / d⌉ = some (.leave ⌈x1 / d⌉) :=
      if_neg fun less => absurd ((less_iff _).mp less) (not_lt.mpr (Int.le_ceil _))
    rw [toInt_of_nonneg nonneg]
    by_cases great : 2 ^ 31 ≤ ⌊x1 / d⌋
    · rw [int?_of_great great, int?_of_great (great.trans (Int.floor_le_ceil _))]
      rfl
    · have fits : int? ⌊x1 / d⌋ = some ⌊x1 / d⌋ := if_pos ⟨by omega, by omega⟩
      rw [fits, Option.bind_some]
      by_cases whole : ⌈x1 / d⌉ = ⌊x1 / d⌋
      · rw [whole, fits, ← whole]
        exact Loop.run_leave last
      · have next : ⌈x1 / d⌉ = ⌊x1 / d⌋ + 1 := by
          have := Int.ceil_le_floor_add_one (x1 / d)
          have := Int.floor_le_ceil (x1 / d)
          omega
        have less : (⌊x1 / d⌋ : ℚ) < x1 / d := Int.lt_ceil.mp (by omega)
        have body : stepUp x1 d ⌊x1 / d⌋ = (int? ⌈x1 / d⌉).map .again := by
          rw [stepUp, if_pos ((less_iff _).mpr less), next]
        by_cases other : 2 ^ 31 ≤ ⌈x1 / d⌉
        · rw [int?_of_great other] at body ⊢
          rw [Loop.run, body]
          rfl
        · have fits' : int? ⌈x1 / d⌉ = some ⌈x1 / d⌉ := if_pos ⟨by omega, by omega⟩
          rw [fits'] at body ⊢
          exact (Loop.run_again body).trans (Loop.run_leave last)
  · have none : stepsUp (fuel + 2) x1 d = some := funext fun n => if_neg front
    rw [none, toInt_of_nonpos (div_nonpos_of_nonpos_of_nonneg (not_lt.mp front) positive.le)]
    exact Option.bind_fun_some _

/-- The quotient counts all steps up to `x2` but the first tick itself, which the loop adds. -/
theorem countUp_run (positive : 0 < d) {first : ℚ} (near : first < x2 + d) (fuel : ℕ) :
    ((int? (toInt ((x2 - first) / d))).bind fun nGrids =>
      Loop.run (countUp x2 d) (fuel + 2) (nGrids, first + nGrids * d)) =
        int? (⌊(x2 - first) / d⌋ + 1) := by
  have leave {nGrids : ℤ} {last : ℚ} (behind : x2 < last) :
      countUp x2 d (nGrids, last) = some (.leave nGrids) := if_neg (not_le.mpr behind)
  by_cases inside : first ≤ x2
  · have nonneg : 0 ≤ (x2 - first) / d := div_nonneg (sub_nonneg.mpr inside) positive.le
    have floor_nonneg : 0 ≤ ⌊(x2 - first) / d⌋ := Int.floor_nonneg.mpr nonneg
    have reached : first + ⌊(x2 - first) / d⌋ * d ≤ x2 := by
      have := (le_div_iff₀ positive).mp (Int.floor_le ((x2 - first) / d))
      linarith
    have behind : x2 < first + ⌊(x2 - first) / d⌋ * d + d := by
      have := (div_lt_iff₀ positive).mp (Int.lt_floor_add_one ((x2 - first) / d))
      linarith
    rw [toInt_of_nonneg nonneg]
    by_cases great : 2 ^ 31 ≤ ⌊(x2 - first) / d⌋
    · rw [int?_of_great great, int?_of_great (by omega)]
      rfl
    · have fits : int? ⌊(x2 - first) / d⌋ = some ⌊(x2 - first) / d⌋ :=
        if_pos ⟨by omega, by omega⟩
      rw [fits, Option.bind_some]
      have body : countUp x2 d (⌊(x2 - first) / d⌋, first + ⌊(x2 - first) / d⌋ * d) =
          (int? (⌊(x2 - first) / d⌋ + 1)).map fun nGrids =>
            .again (nGrids, first + ⌊(x2 - first) / d⌋ * d + d) := if_pos reached
      by_cases other : 2 ^ 31 ≤ ⌊(x2 - first) / d⌋ + 1
      · rw [int?_of_great other] at body ⊢
        rw [Loop.run, body]
        rfl
      · have fits' : int? (⌊(x2 - first) / d⌋ + 1) = some (⌊(x2 - first) / d⌋ + 1) :=
          if_pos ⟨by omega, by omega⟩
        rw [fits'] at body ⊢
        exact (Loop.run_again body).trans (Loop.run_leave (leave behind))
  · have negative : (x2 - first) / d ≤ 0 :=
      div_nonpos_of_nonpos_of_nonneg (sub_nonpos.mpr (not_le.mp inside).le) positive.le
    have above : -1 < (x2 - first) / d := by
      rw [lt_div_iff₀ positive]
      linarith
    have floor : ⌊(x2 - first) / d⌋ = -1 := by
      rw [Int.floor_eq_iff]
      have strict : (x2 - first) / d < 0 :=
        div_neg_of_neg_of_pos (sub_neg.mpr (not_le.mp inside)) positive
      constructor
      · exact_mod_cast above.le
      · simpa using strict
    have zero : toInt ((x2 - first) / d) = 0 := by
      rw [toInt_of_nonpos negative, Int.ceil_eq_zero_iff]
      exact ⟨above, negative⟩
    have fits : int? 0 = some 0 := if_pos (by norm_num)
    rw [zero, floor, fits, Option.bind_some, show (-1 : ℤ) + 1 = 0 from rfl, fits]
    exact Loop.run_leave (leave (by simpa using inside))

end Loops

section Ticks

variable {x1 x2 delta d o : ℚ} {nGrids : ℤ} {first : ℚ}

/-- Both loops end after two passes, and what they leave is known. -/
theorem firstTick_eq (nonzero : delta ≠ 0) (ordered : x1 ≤ x2) (fuel : ℕ) :
    firstTick (fuel + 2) x1 x2 delta = (int? (firstIndex x1 x2 delta)).bind fun n =>
      (int? (lastIndex x1 x2 delta + 1 - firstIndex x1 x2 delta)).map fun nGrids =>
        (n * |delta| + origin x1 x2, nGrids) := by
  have positive : 0 < |delta| := abs_pos.mpr nonzero
  have begin : (if decide (toInt x1 ≠ 0 ∧ toInt x1 = toInt x2) = true then x1 - toInt x1 else x1) =
      x1 - origin x1 x2 := by
    by_cases same : toInt x1 ≠ 0 ∧ toInt x1 = toInt x2
    · rw [if_pos (decide_eq_true same), origin, if_pos same]
    · rw [if_neg (mt of_decide_eq_true same), origin, if_neg same, sub_zero]
  have last : (if decide (toInt x1 ≠ 0 ∧ toInt x1 = toInt x2) = true then x2 - toInt x2 else x2) =
      x2 - origin x1 x2 := by
    by_cases same : toInt x1 ≠ 0 ∧ toInt x1 = toInt x2
    · rw [if_pos (decide_eq_true same), origin, if_pos same, same.2]
    · rw [if_neg (mt of_decide_eq_true same), origin, if_neg same, sub_zero]
  have back : (if decide (toInt x1 ≠ 0 ∧ toInt x1 = toInt x2) = true then (toInt x1 : ℚ) else 0) =
      origin x1 x2 := by
    simp only [decide_eq_true_eq, origin]
  have found := stepUp_run (x1 - origin x1 x2) positive fuel
  simp only [firstTick, begin, last, back, abs_eq, guard, positive.ne', ne_eq, not_false_eq_true,
    if_true]
  simp only [Option.pure_def, Option.bind_eq_bind, Option.bind_some]
  rw [← Option.bind_assoc, found, firstIndex]
  by_cases fits : int? ⌈(x1 - origin x1 x2) / |delta|⌉ = none
  · rw [fits]
    rfl
  · have value : int? ⌈(x1 - origin x1 x2) / |delta|⌉ = some ⌈(x1 - origin x1 x2) / |delta|⌉ :=
      if_pos (by_contra fun out => fits (if_neg out))
    have near : ⌈(x1 - origin x1 x2) / |delta|⌉ * |delta| < x2 - origin x1 x2 + |delta| := by
      have less := mul_lt_mul_of_pos_right (Int.ceil_lt_add_one ((x1 - origin x1 x2) / |delta|))
        positive
      rw [add_mul, one_mul, div_mul_cancel₀ _ positive.ne'] at less
      linarith
    have counted := countUp_run positive near fuel
    have whole : ⌊(x2 - origin x1 x2 - ⌈(x1 - origin x1 x2) / |delta|⌉ * |delta|) / |delta|⌋ + 1 =
        lastIndex x1 x2 delta + 1 - ⌈(x1 - origin x1 x2) / |delta|⌉ := by
      rw [sub_div, mul_div_cancel_right₀ _ positive.ne', Int.floor_sub_intCast, lastIndex]
      ring
    rw [value, Option.bind_some, Option.bind_some, ← Option.bind_assoc, counted, whole,
      Option.map_eq_bind]
    rfl

theorem stepsUp_mono {fuel more : ℕ} (le : fuel ≤ more) {n n' : ℤ}
    (stepped : stepsUp fuel x1 d n = some n') : stepsUp more x1 d n = some n' := by
  rw [stepsUp] at stepped ⊢
  split at stepped
  · exact (if_pos ‹_›).trans (Loop.run_mono le stepped)
  · exact (if_neg ‹_›).trans stepped

/-- More passes change nothing. -/
theorem firstTick_mono {fuel more : ℕ} (le : fuel ≤ more) {r : ℚ × ℤ}
    (returned : firstTick fuel x1 x2 delta = some r) : firstTick more x1 x2 delta = some r := by
  simp only [firstTick, Option.bind_eq_bind, Option.bind_eq_some_iff] at returned ⊢
  obtain ⟨u, nonzero, n, cast, n', stepped, g, cast', g', counted, result⟩ := returned
  exact ⟨u, nonzero, n, cast, n', stepsUp_mono le stepped, g, cast', g',
    Loop.run_mono le counted, result⟩

/-- What is returned, whatever the number of passes. -/
theorem firstTick_returned {fuel : ℕ} (nonzero : delta ≠ 0) (ordered : x1 ≤ x2)
    (returned : firstTick fuel x1 x2 delta = some (first, nGrids)) :
    first = firstIndex x1 x2 delta * |delta| + origin x1 x2 ∧
      nGrids = lastIndex x1 x2 delta + 1 - firstIndex x1 x2 delta := by
  have enough := firstTick_mono (Nat.le_add_right fuel 2) returned
  rw [firstTick_eq nonzero ordered, Option.bind_eq_some_iff] at enough
  obtain ⟨n, fits, enough⟩ := enough
  obtain ⟨g, fits', result⟩ := Option.map_eq_some_iff.mp enough
  obtain ⟨-, rfl⟩ := by simpa [int?] using fits
  obtain ⟨-, rfl⟩ := by simpa [int?] using fits'
  obtain ⟨rfl, rfl⟩ := Prod.mk.inj result
  exact ⟨rfl, rfl⟩

/-- The ticks between the ends are not fewer than none. -/
theorem nTicks_nonneg (nonzero : delta ≠ 0) (ordered : x1 ≤ x2) :
    0 ≤ lastIndex x1 x2 delta + 1 - firstIndex x1 x2 delta :=
  Ticks.le_between (abs_pos.mpr nonzero) (origin x1 x2) (by simpa using ordered)

end Ticks

section Axis

variable {x1 x2 delta threshold first : ℚ} {n nGrids : ℤ} {fuel : ℕ}

/-- A distance that `axis_delta` returns. -/
theorem axisDelta_post (returned : axisDelta fuel (x2 - x1) n threshold = some delta) :
    0 < delta ∧ n * delta ≤ |x2 - x1| := by
  rw [axisDelta_eq] at returned
  obtain ⟨-, -, looped⟩ := Option.bind_eq_some_iff.mp returned
  obtain ⟨r, ran, result⟩ := Option.bind_eq_some_iff.mp looped
  have left : Within (x2 - x1) r ∧ n ≤ r.nGrids := by
    refine (Loop.returns_of_run ran).post (I := Within (x2 - x1))
      (Q := fun r => Within (x2 - x1) r ∧ n ≤ r.nGrids)
      (fun s t within pass => within.again pass) (fun s r within pass => ?_)
      (within_axisStart (x2 - x1))
    obtain ⟨rfl, enough⟩ := subdivide_leave pass
    exact ⟨within, enough⟩
  obtain ⟨⟨delta_pos, -, within⟩, enough⟩ := left
  obtain rfl := Option.some.inj result
  have positive : 0 < r.delta * 10 ^ r.order := by positivity
  refine ⟨positive, le_trans ?_ within⟩
  exact mul_le_mul_of_nonneg_right (by exact_mod_cast enough) positive.le

end Axis

end Crs.UniMath
