import Crs.Peak.Basic
import Crs.UniMath.Basic
import Mathlib.Algebra.Order.Floor.Ring
import Mathlib.Data.Rat.Floor

/-!
# The distance of the ticks of an axis

`axis_delta` looks for a distance that gives enough grids. It halves the distance and doubles the
number of grids, until the distance falls below the threshold; then it starts again one order
lower, each time with the first two digits of the range for a number of grids. So the numbers of
grids are the same after every start but the first, and a number that they do not reach is never
reached. A number of grids is an `int` of 32 bits, of which an overflow is none.
-/

namespace Crs.UniMath

open Foundation Peak

/-- `static_cast<int>` of a number that fits. -/
def toInt (q : ℚ) : ℤ := if q < 0 then ⌈q⌉ else ⌊q⌋

/-- The result of an operation on ints. -/
def int? (n : ℤ) : Option ℤ := if -2 ^ 31 ≤ n ∧ n < 2 ^ 31 then some n else none

structure Grids where
  delta : ℚ
  nGrids : ℤ
  order : ℤ

/-- The body of the loop. -/
def subdivide (metric : ℚ) (nGridsDefault : ℤ) (threshold : ℚ) (s : Grids) :
    Option (Pass Grids Grids) :=
  if s.nGrids < nGridsDefault then do
    let delta := s.delta / 2
    let nGrids ← int? (s.nGrids * 2)
    if delta < threshold then some (.again ⟨1, toInt (metric * 10), s.order - 1⟩)
    else some (.again ⟨delta, nGrids, s.order⟩)
  else some (.leave s)

def axisDelta (fuel : ℕ) (range : ℚ) (nGridsDefault : ℤ) (threshold : ℚ) : Option ℚ := do
  let (metric, order) ← frexp10 fuel (abs range)
  let s : Grids := if isZero (metric - 1) then ⟨1 / 10, 10, order⟩ else ⟨1, toInt metric, order⟩
  let s ← Loop.run (subdivide metric nGridsDefault threshold) fuel s
  some (s.delta * 10 ^ s.order)

/-- Enough grids come about by doubling their number as long as `delta`, which is halved, is not
below the threshold. -/
def Reaches (nGridsDefault : ℤ) (threshold delta : ℚ) (nGrids : ℤ) : Prop :=
  ∃ j : ℕ, (j = 0 ∨ threshold ≤ delta / 2 ^ j) ∧ nGridsDefault ≤ nGrids * 2 ^ j ∧
    nGrids * 2 ^ j < 2 ^ 31

/-- The numbers of grids are ints, up to the one for which `delta` is below the threshold. -/
def Passes (threshold delta : ℚ) (nGrids : ℤ) : Prop :=
  ∀ j : ℕ, j = 0 ∨ threshold ≤ delta / 2 ^ j → nGrids * 2 ^ (j + 1) < 2 ^ 31

/-- The step and the number of grids that the search begins with. -/
def firstDelta (m : ℚ) : ℚ := if m = 1 then 1 / 10 else 1

def firstGrids (m : ℚ) : ℤ := if m = 1 then 10 else ⌊m⌋

/-- The grids of the first start are enough, or those of all the others. -/
def Enough (m : ℚ) (nGridsDefault : ℤ) (threshold : ℚ) : Prop :=
  Reaches nGridsDefault threshold (firstDelta m) (firstGrids m) ∨
    Passes threshold (firstDelta m) (firstGrids m) ∧
      Reaches nGridsDefault threshold 1 ⌊m * 10⌋

variable {m metric threshold delta : ℚ} {n nGrids order : ℤ} {s : Grids}

theorem toInt_of_nonneg {q : ℚ} (nonneg : 0 ≤ q) : toInt q = ⌊q⌋ := if_neg (not_lt.mpr nonneg)

theorem isZero_sub_one_iff : isZero (metric - 1) ↔ metric = 1 := isZero_iff.trans sub_eq_zero

section Digits

theorem digits_bounds (nonneg : 0 ≤ m) (ten : m < 10) :
    0 ≤ ⌊m * 10⌋ ∧ ⌊m * 10⌋ < 2 ^ 31 := by
  refine ⟨Int.floor_nonneg.mpr (by positivity), Int.floor_lt.mpr ?_⟩
  push_cast
  linarith

theorem first_bounds (nonneg : 0 ≤ m) :
    0 < firstDelta m ∧ firstDelta m ≤ 1 ∧ 0 ≤ firstGrids m ∧ firstGrids m ≤ ⌊m * 10⌋ := by
  unfold firstDelta firstGrids
  split
  · next one => norm_num [one]
  · refine ⟨one_pos, le_rfl, Int.floor_nonneg.mpr nonneg, Int.floor_le_floor ?_⟩
    linarith

end Digits

section Body

theorem subdivide_of_le (enough : n ≤ s.nGrids) :
    subdivide metric n threshold s = some (.leave s) :=
  if_neg (not_lt.mpr enough)

theorem subdivide_of_overflow (few : s.nGrids < n) (great : 2 ^ 31 ≤ s.nGrids * 2) :
    subdivide metric n threshold s = none := by
  have overflow : int? (s.nGrids * 2) = none := if_neg fun fits => absurd fits.2 (not_lt.mpr great)
  rw [subdivide, if_pos few, overflow]
  rfl

theorem int?_double (nonneg : 0 ≤ nGrids) (fits : nGrids * 2 < 2 ^ 31) :
    int? (nGrids * 2) = some (nGrids * 2) :=
  if_pos ⟨by omega, fits⟩

/-- The search starts again, one order lower. -/
theorem subdivide_of_lt (few : s.nGrids < n) (nonneg : 0 ≤ s.nGrids) (fits : s.nGrids * 2 < 2 ^ 31)
    (below : s.delta / 2 < threshold) : subdivide metric n threshold s =
      some (.again ⟨1, toInt (metric * 10), s.order - 1⟩) := by
  rw [subdivide, if_pos few, int?_double nonneg fits]
  simp [below]

theorem subdivide_of_not_lt (few : s.nGrids < n) (nonneg : 0 ≤ s.nGrids)
    (fits : s.nGrids * 2 < 2 ^ 31) (above : threshold ≤ s.delta / 2) :
    subdivide metric n threshold s = some (.again ⟨s.delta / 2, s.nGrids * 2, s.order⟩) := by
  rw [subdivide, if_pos few, int?_double nonneg fits]
  simp [not_lt.mpr above]

theorem subdivide_again {t : Grids}
    (pass : subdivide metric n threshold s = some (.again t)) :
    t = ⟨1, toInt (metric * 10), s.order - 1⟩ ∨ t = ⟨s.delta / 2, s.nGrids * 2, s.order⟩ := by
  rw [subdivide] at pass
  split at pass
  · obtain ⟨nGrids, doubled, pass⟩ := Option.bind_eq_some_iff.mp pass
    obtain ⟨-, rfl⟩ := by simpa [int?] using doubled
    split at pass
    all_goals cases pass
    · exact .inl rfl
    · exact .inr rfl
  · cases pass

theorem subdivide_leave {r : Grids}
    (pass : subdivide metric n threshold s = some (.leave r)) : r = s ∧ n ≤ s.nGrids := by
  rw [subdivide] at pass
  split at pass
  · obtain ⟨nGrids, -, pass⟩ := Option.bind_eq_some_iff.mp pass
    split at pass
    all_goals cases pass
  · next enough =>
    cases pass
    exact ⟨rfl, not_lt.mp enough⟩

end Body

section Termination

theorem half_pow (delta : ℚ) (j : ℕ) : delta / 2 / 2 ^ j = delta / 2 ^ (j + 1) := by
  rw [div_div, pow_succ']

theorem div_pow_le {i j : ℕ} (positive : 0 < delta) (le : i ≤ j) :
    delta / 2 ^ j ≤ delta / 2 ^ i :=
  div_le_div_of_nonneg_left positive.le (by positivity) (pow_le_pow_right₀ (by norm_num) le)

theorem double_le {j : ℕ} (nonneg : 0 ≤ nGrids) : nGrids * 2 ≤ nGrids * 2 ^ (j + 1) := by
  have one : (1 : ℤ) ≤ 2 ^ j := one_le_pow₀ (by norm_num)
  rw [pow_succ']
  nlinarith

/-- A start that reaches enough grids is the last one. -/
theorem returns_of_reaches (positive : 0 < s.delta) (nonneg : 0 ≤ s.nGrids)
    (reaches : Reaches n threshold s.delta s.nGrids) :
    ∃ r, Loop.Returns (subdivide metric n threshold) s r := by
  obtain ⟨j, above, enough, fits⟩ := reaches
  induction j generalizing s with
  | zero => exact ⟨s, .leave (subdivide_of_le (by simpa using enough))⟩
  | succ j ih =>
    by_cases done : n ≤ s.nGrids
    · exact ⟨s, .leave (subdivide_of_le done)⟩
    have threshold_le : threshold ≤ s.delta / 2 ^ (j + 1) := above.resolve_left (Nat.succ_ne_zero j)
    have next : threshold ≤ s.delta / 2 := by
      have := div_pow_le positive (Nat.le_add_left 1 j)
      rw [pow_one] at this
      exact threshold_le.trans this
    have pass : subdivide metric n threshold s = _ :=
      subdivide_of_not_lt (not_le.mp done) nonneg ((double_le nonneg).trans_lt fits) next
    obtain ⟨r, rest⟩ := ih (s := ⟨s.delta / 2, s.nGrids * 2, s.order⟩) (half_pos positive)
      (by positivity) (.inr (by rwa [half_pow])) (by rwa [mul_assoc, ← pow_succ'])
      (by rwa [mul_assoc, ← pow_succ'])
    exact ⟨r, .again pass rest⟩

/-- Unless there are enough grids before, another start follows one without overflow. -/
theorem returns_of_passes (threshold_pos : 0 < threshold) (positive : 0 < s.delta)
    (nonneg : 0 ≤ s.nGrids) (passes : Passes threshold s.delta s.nGrids)
    (later : ∃ r, Loop.Returns (subdivide metric n threshold)
      ⟨1, toInt (metric * 10), s.order - 1⟩ r) :
    ∃ r, Loop.Returns (subdivide metric n threshold) s r := by
  obtain ⟨k, below⟩ : ∃ k : ℕ, s.delta / 2 ^ (k + 1) < threshold := by
    obtain ⟨k, great⟩ := pow_unbounded_of_one_lt (s.delta / threshold) (by norm_num : (1 : ℚ) < 2)
    refine ⟨k, (div_pow_le positive (Nat.le_succ k)).trans_lt ?_⟩
    rwa [div_lt_iff₀ (by positivity), mul_comm, ← div_lt_iff₀ threshold_pos]
  induction k generalizing s with
  | zero =>
    by_cases done : n ≤ s.nGrids
    · exact ⟨s, .leave (subdivide_of_le done)⟩
    have fits : s.nGrids * 2 < 2 ^ 31 := by simpa using passes 0 (.inl rfl)
    obtain ⟨r, rest⟩ := later
    exact ⟨r, .again (subdivide_of_lt (not_le.mp done) nonneg fits (by simpa using below)) rest⟩
  | succ k ih =>
    by_cases done : n ≤ s.nGrids
    · exact ⟨s, .leave (subdivide_of_le done)⟩
    have fits : s.nGrids * 2 < 2 ^ 31 := by simpa using passes 0 (.inl rfl)
    by_cases under : s.delta / 2 < threshold
    · obtain ⟨r, rest⟩ := later
      exact ⟨r, .again (subdivide_of_lt (not_le.mp done) nonneg fits under) rest⟩
    have above := not_lt.mp under
    have passes' : Passes threshold (s.delta / 2) (s.nGrids * 2) := by
      intro j inside
      rw [half_pow] at inside
      rw [mul_assoc, ← pow_succ']
      refine passes (j + 1) (.inr ?_)
      obtain rfl | inside := inside
      · simpa using above
      · exact inside
    obtain ⟨r, rest⟩ := ih (s := ⟨s.delta / 2, s.nGrids * 2, s.order⟩) (half_pos positive)
      (by positivity) passes' later (by rwa [half_pow])
    exact ⟨r, .again (subdivide_of_not_lt (not_le.mp done) nonneg fits above) rest⟩

/-- The states that a start leads to. -/
def Doubled (threshold delta : ℚ) (nGrids : ℤ) (s : Grids) : Prop :=
  ∃ j : ℕ, (j = 0 ∨ threshold ≤ delta / 2 ^ j) ∧ s.delta = delta / 2 ^ j ∧
    s.nGrids = nGrids * 2 ^ j ∧ nGrids * 2 ^ j < 2 ^ 31

theorem Doubled.start (fits : nGrids < 2 ^ 31) : Doubled threshold delta nGrids
    ⟨delta, nGrids, order⟩ :=
  ⟨0, .inl rfl, by simp, by simp, by simpa using fits⟩

/-- A start that does not reach enough grids goes on, or ends with an overflow or another start. -/
theorem Doubled.step (positive : 0 < delta) (nonneg : 0 ≤ nGrids)
    (reaches : ¬Reaches n threshold delta nGrids) (doubled : Doubled threshold delta nGrids s) :
    subdivide metric n threshold s = none ∨
      (∃ t, subdivide metric n threshold s = some (.again t) ∧ Doubled threshold delta nGrids t) ∨
      (Passes threshold delta nGrids ∧ subdivide metric n threshold s =
        some (.again ⟨1, toInt (metric * 10), s.order - 1⟩)) := by
  obtain ⟨j, above, delta_eq, nGrids_eq, fits⟩ := doubled
  have few : s.nGrids < n := by
    by_contra done
    exact reaches ⟨j, above, nGrids_eq ▸ not_lt.mp done, fits⟩
  have nonneg_s : 0 ≤ s.nGrids := nGrids_eq ▸ by positivity
  have twice : s.nGrids * 2 = nGrids * 2 ^ (j + 1) := by rw [nGrids_eq, mul_assoc, ← pow_succ]
  have half : s.delta / 2 = delta / 2 ^ (j + 1) := by rw [delta_eq, div_div, ← pow_succ]
  by_cases overflow : 2 ^ 31 ≤ s.nGrids * 2
  · exact .inl (subdivide_of_overflow few overflow)
  have fits' := not_le.mp overflow
  by_cases below : s.delta / 2 < threshold
  · refine .inr (.inr ⟨fun i inside => ?_, subdivide_of_lt few nonneg_s fits' below⟩)
    have le : i ≤ j := by
      by_contra later
      have threshold_le := inside.resolve_left (by omega)
      have le := div_pow_le positive (Nat.succ_le_of_lt (not_le.mp later))
      rw [half] at below
      exact absurd (threshold_le.trans le) (not_le.mpr below)
    calc nGrids * 2 ^ (i + 1) ≤ nGrids * 2 ^ (j + 1) :=
          mul_le_mul_of_nonneg_left (pow_le_pow_right₀ (by norm_num) (by omega)) nonneg
      _ < 2 ^ 31 := twice ▸ fits'
  · have above' := not_lt.mp below
    have pass : subdivide metric n threshold s = _ :=
      subdivide_of_not_lt few nonneg_s fits' above'
    exact .inr (.inl ⟨_, pass, j + 1, .inr (half ▸ above'), half, twice, twice ▸ fits'⟩)

/-- After a start that is no good, all the others are the same. -/
theorem not_returns_of_not_reaches {d : ℚ} {v : ℤ} (positive : 0 < d) (nonneg : 0 ≤ v)
    (fits : v < 2 ^ 31) (later : toInt (metric * 10) < 2 ^ 31) (nonneg' : 0 ≤ toInt (metric * 10))
    (first : ¬Reaches n threshold d v)
    (others : ¬(Passes threshold d v ∧ Reaches n threshold 1 (toInt (metric * 10))))
    (r : Grids) : ¬Loop.Returns (subdivide metric n threshold) ⟨d, v, order⟩ r := by
  apply Loop.not_returns (I := fun s => Doubled threshold d v s ∨
    Passes threshold d v ∧ Doubled threshold 1 (toInt (metric * 10)) s)
  · rintro s (doubled | ⟨passes, doubled⟩)
    · obtain fails | ⟨t, goes, kept⟩ | ⟨passes, goes⟩ := doubled.step positive nonneg first
      · exact .inl fails
      · exact .inr ⟨t, goes, .inl kept⟩
      · exact .inr ⟨_, goes, .inr ⟨passes, .start later⟩⟩
    · have reaches := fun reaches => others ⟨passes, reaches⟩
      obtain fails | ⟨t, goes, kept⟩ | ⟨-, goes⟩ := doubled.step one_pos nonneg' reaches
      · exact .inl fails
      · exact .inr ⟨t, goes, .inr ⟨passes, kept⟩⟩
      · exact .inr ⟨_, goes, .inr ⟨passes, .start later⟩⟩
  · exact .inl (.start fits)

end Termination

section Result

variable {range : ℚ}

/-- The grids lie within the range. -/
structure Within (range : ℚ) (s : Grids) : Prop where
  delta_pos : 0 < s.delta
  order_le : s.order ≤ Int.log 10 |range|
  within : s.nGrids * (s.delta * 10 ^ s.order) ≤ |range|

/-- The leading digits, set apart by their order, do not exceed the range. -/
theorem within_of_le {k : ℤ} {i : ℕ} (positive : 0 < delta)
    (le : nGrids * delta ≤ mantissa range * 10 ^ i)
    (order_le : k + i ≤ Int.log 10 |range|) : Within range ⟨delta, nGrids, k⟩ where
  delta_pos := positive
  order_le := by
    simp only
    omega
  within := by
    have power : (10 : ℚ) ^ (k + i) ≤ 10 ^ Int.log 10 |range| :=
      zpow_le_zpow_right₀ (by norm_num) order_le
    calc (nGrids : ℚ) * (delta * 10 ^ k) = nGrids * delta * 10 ^ k := by ring
      _ ≤ mantissa range * 10 ^ i * 10 ^ k := mul_le_mul_of_nonneg_right le (by positivity)
      _ = mantissa range * 10 ^ (k + i) := by
          rw [zpow_add₀ (by norm_num), zpow_natCast]
          ring
      _ ≤ mantissa range * 10 ^ Int.log 10 |range| :=
          mul_le_mul_of_nonneg_left power (mantissa_nonneg range)
      _ = |range| := mantissa_mul range

theorem toInt_digits (range : ℚ) : toInt (mantissa range * 10) = ⌊mantissa range * 10⌋ :=
  toInt_of_nonneg (mul_nonneg (mantissa_nonneg range) (by norm_num))

theorem Within.again {t : Grids} (within : Within range s)
    (pass : subdivide (mantissa range) n threshold s = some (.again t)) : Within range t := by
  obtain rfl | rfl := subdivide_again pass
  · apply within_of_le (i := 1) one_pos
    · rw [toInt_digits, mul_one, pow_one]
      exact Int.floor_le _
    · have := within.order_le
      push_cast
      omega
  · refine ⟨half_pos within.delta_pos, within.order_le, ?_⟩
    have := within.within
    push_cast
    linarith

/-- The state before the loop. -/
def axisStart (m : ℚ) (order : ℤ) : Grids := ⟨firstDelta m, firstGrids m, order⟩

theorem within_axisStart (range : ℚ) :
    Within range (axisStart (mantissa range) (Int.log 10 |range|)) := by
  apply within_of_le (i := 0)
  · exact (first_bounds (mantissa_nonneg range)).1
  · rw [pow_zero, mul_one, firstDelta, firstGrids]
    split
    · next one =>
      rw [one]
      norm_num
    · rw [mul_one]
      exact Int.floor_le _
  · simp

theorem axisDelta_eq (fuel : ℕ) (range : ℚ) (n : ℤ) (threshold : ℚ) :
    axisDelta fuel range n threshold = (frexp10 fuel (abs range)).bind fun _ =>
      (Loop.run (subdivide (mantissa range) n threshold) fuel
        (axisStart (mantissa range) (Int.log 10 |range|))).bind fun s =>
          some (s.delta * 10 ^ s.order) := by
  rw [axisDelta]
  cases form : frexp10 fuel (abs range) with
  | none => rfl
  | some r =>
    have same : r = (mantissa range, Int.log 10 |range|) := by
      rw [frexp10_eq form, abs_eq, abs_abs, sign_of_nonneg (abs_nonneg range), mantissa, mantissa,
        abs_abs]
      simp
    rw [same]
    simp only [Option.bind_eq_bind, Option.bind_some, isZero_sub_one_iff, axisStart, firstDelta,
      firstGrids, toInt_of_nonneg (mantissa_nonneg range)]
    split <;> rfl

/-- The loop of `axis_delta` is left just if there are enough grids. -/
theorem exists_returns_iff (threshold_pos : 0 < threshold) (range : ℚ) (n order : ℤ) :
    (∃ r, Loop.Returns (subdivide (mantissa range) n threshold)
      (axisStart (mantissa range) order) r) ↔ Enough (mantissa range) n threshold := by
  have nonneg := mantissa_nonneg range
  have other := digits_bounds nonneg (mantissa_lt_ten range)
  obtain ⟨delta_pos, -, first_nonneg, first_le⟩ := first_bounds nonneg
  constructor
  · rintro ⟨r, returns⟩
    by_contra few
    obtain ⟨early, late⟩ := not_or.mp few
    have fits := first_le.trans_lt other.2
    rw [← toInt_digits] at other late
    exact not_returns_of_not_reaches delta_pos first_nonneg fits other.2 other.1 early late r
      returns
  · rintro (reaches | ⟨passes, reaches⟩)
    · exact returns_of_reaches delta_pos first_nonneg reaches
    · refine returns_of_passes threshold_pos delta_pos first_nonneg passes ?_
      rw [toInt_digits]
      exact returns_of_reaches one_pos other.1 reaches

/-- `axis_delta` returns, and for a range that is not zero, a distance for the grids. -/
def Divides (range : ℚ) (nGridsDefault : ℤ) (threshold : ℚ) : Prop :=
  ∃ fuel delta, axisDelta fuel range nGridsDefault threshold = some delta ∧
    (range ≠ 0 → 0 < delta ∧ nGridsDefault ≤ |range| / delta)

/-- What the loop leaves is small enough. -/
theorem divides_of_returns {r : Grids} (returns : Loop.Returns
    (subdivide (mantissa range) n threshold)
      (axisStart (mantissa range) (Int.log 10 |range|)) r) : Divides range n threshold := by
  have left : Within range r ∧ n ≤ r.nGrids := by
    refine returns.post (I := Within range) (Q := fun r => Within range r ∧ n ≤ r.nGrids)
      (fun s t within pass => within.again pass) (fun s r within pass => ?_)
      (within_axisStart range)
    obtain ⟨rfl, enough⟩ := subdivide_leave pass
    exact ⟨within, enough⟩
  obtain ⟨⟨delta_pos, -, within⟩, enough⟩ := left
  obtain ⟨fuel, looped⟩ := returns.exists_run
  obtain ⟨fuel', form⟩ := exists_frexp10 (abs range)
  refine ⟨max fuel fuel', r.delta * 10 ^ r.order, ?_, fun _ => ?_⟩
  · rw [axisDelta_eq, frexp10_mono (Nat.le_max_right _ _) form,
      Loop.run_mono (Nat.le_max_left _ _) looped]
    rfl
  · have positive : 0 < r.delta * 10 ^ r.order := by positivity
    refine ⟨positive, (le_div_iff₀ positive).mpr (le_trans ?_ within)⟩
    exact mul_le_mul_of_nonneg_right (by exact_mod_cast enough) positive.le

/-- The loop is all that may not end. -/
theorem exists_returns_of_divides (divides : Divides range n threshold) :
    ∃ r, Loop.Returns (subdivide (mantissa range) n threshold)
      (axisStart (mantissa range) (Int.log 10 |range|)) r := by
  obtain ⟨fuel, delta, returned, -⟩ := divides
  rw [axisDelta_eq] at returned
  obtain ⟨-, -, looped⟩ := Option.bind_eq_some_iff.mp returned
  obtain ⟨r, ran, -⟩ := Option.bind_eq_some_iff.mp looped
  exact ⟨r, Loop.returns_of_run ran⟩

/-- `axis_delta` gives enough grids just if one of its starts reaches them by doubling; otherwise
it does not return. -/
theorem axisDelta_iff (threshold_pos : 0 < threshold) (range : ℚ) (nGridsDefault : ℤ) :
    Divides range nGridsDefault threshold ↔
      Enough (mantissa range) nGridsDefault threshold := by
  rw [← exists_returns_iff threshold_pos range nGridsDefault (Int.log 10 |range|)]
  constructor
  · exact exists_returns_of_divides
  · rintro ⟨r, returns⟩
    exact divides_of_returns returns

section Moderate

/-- The first power for which something holds that holds for some power. -/
theorem exists_first {P : ℕ → Prop} (some : ∃ j, P j) : ∃ j, P j ∧ ∀ i < j, ¬P i := by
  classical exact ⟨Nat.find some, Nat.find_spec some, fun _ => Nat.find_min some⟩

/-- Numbers of grids up to `2 ^ 30` do not overflow. -/
theorem reaches_iff_of_le (moderate : n ≤ 2 ^ 30) (fits : nGrids < 2 ^ 31)
    (positive : 0 < delta) : Reaches n threshold delta nGrids ↔
      ∃ j : ℕ, (j = 0 ∨ threshold ≤ delta / 2 ^ j) ∧ n ≤ nGrids * 2 ^ j := by
  constructor
  · rintro ⟨j, above, enough, -⟩
    exact ⟨j, above, enough⟩
  · intro reached
    obtain ⟨j, ⟨above, enough⟩, before⟩ := exists_first reached
    refine ⟨j, above, enough, ?_⟩
    cases j with
    | zero => simpa using fits
    | succ j =>
      have inside : j = 0 ∨ threshold ≤ delta / 2 ^ j :=
        .inr ((above.resolve_left j.succ_ne_zero).trans (div_pow_le positive j.le_succ))
      have few : nGrids * 2 ^ j < n := by
        by_contra more
        exact before j j.lt_succ_self ⟨inside, not_lt.mp more⟩
      rw [pow_succ, ← mul_assoc]
      omega

/-- Where they would, enough grids are reached before. -/
theorem passes_or_reaches (moderate : n ≤ 2 ^ 30) (fits : nGrids < 2 ^ 31)
    (positive : 0 < delta) :
    Passes threshold delta nGrids ∨ Reaches n threshold delta nGrids := by
  refine or_iff_not_imp_left.mpr fun overflow => ?_
  obtain ⟨j, wide⟩ := not_forall.mp overflow
  obtain ⟨above, great⟩ := Classical.not_imp.mp wide
  refine (reaches_iff_of_le moderate fits positive).mpr ⟨j, above, ?_⟩
  rw [pow_succ, ← mul_assoc] at great
  omega

/-- Up to `2 ^ 30` grids, only the starts after the first matter. -/
theorem enough_iff_of_le (moderate : n ≤ 2 ^ 30) (nonneg : 0 ≤ m) (ten : m < 10) :
    Enough m n threshold ↔
      ∃ j : ℕ, (j = 0 ∨ threshold ≤ 1 / 2 ^ j) ∧ n ≤ ⌊m * 10⌋ * 2 ^ j := by
  have other := digits_bounds nonneg ten
  obtain ⟨delta_pos, delta_le, first_nonneg, first_le⟩ := first_bounds nonneg
  rw [← reaches_iff_of_le moderate other.2 one_pos]
  constructor
  · rintro (⟨j, above, enough, -⟩ | ⟨-, reaches⟩)
    · refine (reaches_iff_of_le moderate other.2 one_pos).mpr ⟨j, ?_, enough.trans ?_⟩
      · refine above.imp_right fun above => above.trans ?_
        exact div_le_div_of_nonneg_right delta_le (by positivity)
      · exact mul_le_mul_of_nonneg_right first_le (by positivity)
    · exact reaches
  · intro reaches
    obtain passes | early :=
      passes_or_reaches moderate (first_le.trans_lt other.2) delta_pos
    · exact .inr ⟨passes, reaches⟩
    · exact .inl early

end Moderate

/-- Ten grids for a range of one. -/
theorem axisDelta_ten : Divides 1 10 (1 / 8) := by
  refine (axisDelta_iff (by norm_num) 1 10).mpr (.inl ⟨0, .inl rfl, ?_⟩)
  have one : mantissa 1 = 1 := by simp [mantissa]
  simp [firstGrids, one]

/-- A hundred grids for a range of one are too many. -/
theorem not_axisDelta_hundred : ¬∀ (range : ℚ) (nGridsDefault : ℤ) (threshold : ℚ),
    0 < threshold → threshold < 1 → Divides range nGridsDefault threshold := by
  intro all
  have one : mantissa 1 = 1 := by simp [mantissa]
  have divides := all 1 100 (1 / 8) (by norm_num) (by norm_num)
  have enough := (exists_returns_iff (by norm_num) 1 100 _).mp (exists_returns_of_divides divides)
  rw [one, enough_iff_of_le (by norm_num) one_pos.le (by norm_num)] at enough
  obtain ⟨j, above, enough⟩ := enough
  have ten : ⌊(1 : ℚ) * 10⌋ = 10 := by norm_num
  rw [ten] at enough
  have later : 4 ≤ j := by
    by_contra early
    have : (2 : ℤ) ^ j ≤ 2 ^ 3 := pow_le_pow_right₀ (by norm_num) (by omega)
    omega
  have small := div_pow_le one_pos later
  have threshold_le := above.resolve_left (by omega)
  norm_num at small threshold_le
  linarith

end Result

end Crs.UniMath
