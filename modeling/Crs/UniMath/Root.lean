import Crs.UniMath.Basic
import Mathlib.Algebra.Order.Floor.Ring
import Mathlib.Data.Rat.Floor
import Mathlib.Tactic.LinearCombination

/-!
# The root of a function

`root` walks from a guess along a grid, in the direction in which an affine function comes to its
root, up to the first change of sign, and `_root` bisects there. Numbers are exact rationals;
`EPSILON` and the step of the derivative are parameters. The bisection finds a change of sign of
any function. The walk looks for a product below zero, which a root on the grid does not give.
-/

namespace Crs.UniMath

open Foundation

inductive Number where
  | nan
  | value (x : ℚ)
deriving DecidableEq

structure Bracket where
  l : ℚ
  r : ℚ
  fl : ℚ
  fr : ℚ

structure Search where
  nSteps : ℤ
  p : ℚ
  c : ℚ

section Definitions

variable (f : ℚ → ℚ) (EPSILON : ℚ)

/-- `_derivative`. -/
def derivative (dx x : ℚ) : ℚ := (f (x + dx) - f x) / dx

/-- The body of the loop of `_root`. -/
def bisect (b : Bracket) : Option (Pass Bracket ℚ) :=
  let m := (b.l + b.r) / 2
  let fm := f m
  if abs fm ≤ EPSILON ∨ abs (b.r - b.l) ≤ EPSILON then some (.leave m)
  else
    let signm := sign fm
    if sign b.fl ≠ signm then some (.again { b with r := m, fr := fm })
    else if signm ≠ sign b.fr then some (.again { b with l := m, fl := fm })
    else some (.leave m)

/-- `_root`. -/
def rootBetween (fuel : ℕ) (a b : ℚ) : Option Number :=
  if sign (f a) = sign (f b) then some .nan
  else (Loop.run (bisect f EPSILON) fuel ⟨a, b, f a, f b⟩).map .value

/-- The body of the loop of `root`, behind its condition, which moves `c`. -/
def walk (s : ℚ) (nStepsMax : ℤ) (t : Search) : Option (Pass Search Search) :=
  let c := t.c + s
  if 0 ≤ f t.p * f c ∧ t.nSteps < nStepsMax then some (.again ⟨t.nSteps + 1, c, c⟩)
  else some (.leave { t with c })

/-- The step of the walk; `step` is the one of the derivative. -/
def stride (step g dx : ℚ) : ℚ := -dx * sign (f g) * sign (derivative f step g)

def search (fuel : ℕ) (step g dx : ℚ) (nStepsMax : ℤ) : Option Search :=
  Loop.run (walk f (stride f step g dx) nStepsMax) fuel ⟨0, g, g⟩

def root (fuel : ℕ) (step g dx : ℚ) (nStepsMax : ℤ) : Option Number := do
  let t ← search f fuel step g dx nStepsMax
  if t.nSteps = nStepsMax then some .nan
  else if t.p < t.c then rootBetween f EPSILON fuel t.p t.c
  else rootBetween f EPSILON fuel t.c t.p

end Definitions

variable {f : ℚ → ℚ} {EPSILON : ℚ}

section Bisection

/-- A change of sign. -/
structure Changes (f : ℚ → ℚ) (b : Bracket) : Prop where
  fl : b.fl = f b.l
  fr : b.fr = f b.r
  le : b.l ≤ b.r
  change : sign b.fl ≠ sign b.fr

/-- A value near zero, or the middle of a short interval with a change of sign. -/
def Found (f : ℚ → ℚ) (EPSILON m : ℚ) : Prop :=
  |f m| ≤ EPSILON ∨ ∃ b, Changes f b ∧ b.r - b.l ≤ EPSILON ∧ m = (b.l + b.r) / 2

/-- The half with the change of sign is kept. -/
theorem bisect_cases {b : Bracket} (changes : Changes f b) :
    (∃ m, bisect f EPSILON b = some (.leave m) ∧ Found f EPSILON m) ∨
      ∃ c, bisect f EPSILON b = some (.again c) ∧ Changes f c ∧ EPSILON < b.r - b.l ∧
        c.r - c.l = (b.r - b.l) / 2 := by
  have width : |b.r - b.l| = b.r - b.l := abs_of_nonneg (sub_nonneg.mpr changes.le)
  set m := (b.l + b.r) / 2 with m_eq
  by_cases near : |f m| ≤ EPSILON ∨ b.r - b.l ≤ EPSILON
  · have pass : bisect f EPSILON b = some (.leave m) := by
      simp only [bisect, abs_eq, width, ← m_eq, if_pos near]
    exact .inl ⟨m, pass, near.imp id fun short => ⟨b, changes, short, m_eq⟩⟩
  have wide : EPSILON < b.r - b.l := not_le.mp (not_or.mp near).2
  have le := changes.le
  by_cases left : sign b.fl ≠ sign (f m)
  · have pass : bisect f EPSILON b = some (.again { b with r := m, fr := f m }) := by
      simp only [bisect, abs_eq, width, ← m_eq, if_neg near, if_pos left]
    refine .inr ⟨_, pass, ⟨changes.fl, rfl, ?_, left⟩, wide, ?_⟩
    all_goals
      simp only [m_eq]
      linarith
  · have right : sign (f m) ≠ sign b.fr := not_not.mp left ▸ changes.change
    have pass : bisect f EPSILON b = some (.again { b with l := m, fl := f m }) := by
      simp only [bisect, abs_eq, width, ← m_eq, if_neg near, if_neg left, if_pos right]
    refine .inr ⟨_, pass, ⟨rfl, changes.fr, ?_, right⟩, wide, ?_⟩
    all_goals
      simp only [m_eq]
      linarith

/-- The bisection of a change of sign ends with what it looks for. -/
theorem exists_bisect (EPSILON_pos : 0 < EPSILON) {b : Bracket} (changes : Changes f b) :
    ∃ m, Loop.Returns (bisect f EPSILON) b m ∧ Found f EPSILON m := by
  obtain ⟨n, great⟩ :=
    pow_unbounded_of_one_lt ((b.r - b.l) / EPSILON) (by norm_num : (1 : ℚ) < 2)
  rw [div_lt_iff₀ EPSILON_pos] at great
  refine Loop.exists_returns
    (I := fun n b => Changes f b ∧ b.r - b.l < 2 ^ n * EPSILON) ?_ ⟨changes, great⟩
  rintro n b ⟨changes, less⟩
  obtain left | ⟨c, goes, changes', wide, half⟩ := bisect_cases changes
  · exact .inl left
  · have later : n ≠ 0 := by
      rintro rfl
      linarith
    obtain ⟨n, rfl⟩ := Nat.exists_eq_succ_of_ne_zero later
    refine .inr ⟨c, goes, n, n.lt_succ_self, changes', ?_⟩
    rw [half]
    rw [pow_succ] at less
    linarith

/-- `_root` returns for every function and every change of sign. -/
theorem exists_rootBetween (EPSILON_pos : 0 < EPSILON) {a b : ℚ} (le : a ≤ b)
    (change : sign (f a) ≠ sign (f b)) :
    ∃ fuel m, rootBetween f EPSILON fuel a b = some (.value m) ∧ Found f EPSILON m := by
  have changes : Changes f ⟨a, b, f a, f b⟩ := ⟨rfl, rfl, le, change⟩
  obtain ⟨m, returns, found⟩ := exists_bisect EPSILON_pos changes
  obtain ⟨fuel, ran⟩ := returns.exists_run
  exact ⟨fuel, m, by rw [rootBetween, if_neg change, ran]; rfl, found⟩

theorem rootBetween_mono {fuel more : ℕ} {a b : ℚ} {x : Number} (le : fuel ≤ more)
    (ran : rootBetween f EPSILON fuel a b = some x) :
    rootBetween f EPSILON more a b = some x := by
  rw [rootBetween] at ran ⊢
  split at ran
  · next same => rwa [if_pos same]
  · next change =>
    obtain ⟨m, looped, value⟩ := Option.map_eq_some_iff.mp ran
    rw [if_neg change, Loop.run_mono le looped, Option.map_some, value]

theorem sign_ne_of_mul_neg {x y : ℚ} (negative : x * y < 0) : sign x ≠ sign y := by
  obtain ⟨positive, negative⟩ | ⟨negative, positive⟩ := mul_neg_iff.mp negative
  · rw [sign_of_nonneg positive.le, sign_of_neg negative]
    decide
  · rw [sign_of_neg negative, sign_of_nonneg positive.le]
    decide

theorem mul_nonpos_of_sign_ne {x y : ℚ} (change : sign x ≠ sign y) : x * y ≤ 0 := by
  obtain negative | positive := lt_or_ge x 0 <;> obtain negative' | positive' := lt_or_ge y 0
  · rw [sign_of_neg negative, sign_of_neg negative'] at change
    exact absurd rfl change
  · exact mul_nonpos_of_nonpos_of_nonneg negative.le positive'
  · exact mul_nonpos_of_nonneg_of_nonpos positive negative'.le
  · rw [sign_of_nonneg positive, sign_of_nonneg positive'] at change
    exact absurd rfl change

/-- Behind a walk to a product below zero, the bisection returns, whichever end is the left one. -/
theorem exists_root {step g dx : ℚ} {nStepsMax : ℤ} {t : Search} (EPSILON_pos : 0 < EPSILON)
    (returns : Loop.Returns (walk f (stride f step g dx) nStepsMax) ⟨0, g, g⟩ t)
    (negative : f t.p * f t.c < 0) (early : t.nSteps < nStepsMax) :
    ∃ fuel m, search f fuel step g dx nStepsMax = some t ∧
      root f EPSILON fuel step g dx nStepsMax = some (.value m) ∧ Found f EPSILON m := by
  obtain ⟨fuel, ran⟩ := returns.exists_run
  have change := sign_ne_of_mul_neg negative
  obtain ⟨fuel', m, rooted, found⟩ : ∃ fuel' m, (if t.p < t.c then
      rootBetween f EPSILON fuel' t.p t.c else rootBetween f EPSILON fuel' t.c t.p) =
        some (.value m) ∧ Found f EPSILON m := by
    split
    · next less => exact exists_rootBetween EPSILON_pos less.le change
    · next le => exact exists_rootBetween EPSILON_pos (not_lt.mp le) change.symm
  have searched : search f (max fuel fuel') step g dx nStepsMax = some t :=
    Loop.run_mono (Nat.le_max_left _ _) ran
  refine ⟨max fuel fuel', m, searched, ?_, found⟩
  rw [root, searched]
  simp only [Option.bind_eq_bind, Option.bind_some, if_neg early.ne]
  split at rooted
  · next less =>
    rw [if_pos less]
    exact rootBetween_mono (Nat.le_max_right _ _) rooted
  · next le =>
    rw [if_neg le]
    exact rootBetween_mono (Nat.le_max_right _ _) rooted

end Bisection

section Affine

def affine (slope intercept x : ℚ) : ℚ := slope * x + intercept

variable {slope intercept g dx z step s : ℚ} {nStepsMax : ℤ} {t r : Search}

theorem affine_eq (zero : affine slope intercept z = 0) (x : ℚ) :
    affine slope intercept x = slope * (x - z) := by
  rw [affine] at zero ⊢
  linear_combination zero

theorem sign_mul_self_nonneg (x : ℚ) : 0 ≤ sign x * x := by
  obtain negative | positive := lt_or_ge x 0
  · rw [sign_of_neg negative]
    push_cast
    linarith
  · rwa [sign_of_nonneg positive, Int.cast_one, one_mul]

theorem sign_eq (x : ℚ) : sign x = 1 ∨ sign x = -1 := by
  rw [sign]
  split
  · exact .inr rfl
  · exact .inl rfl

theorem derivative_affine (step_pos : 0 < step) (x : ℚ) :
    derivative (affine slope intercept) step x = slope := by
  rw [derivative, affine, affine]
  field_simp
  ring

/-- The walk goes towards the root, in either direction from the root itself. -/
theorem stride_spec (sloped : slope ≠ 0) (zero : affine slope intercept z = 0)
    (step_pos : 0 < step) (dx_pos : 0 < dx) :
    (stride (affine slope intercept) step g dx = dx ∨
      stride (affine slope intercept) step g dx = -dx) ∧
    0 ≤ stride (affine slope intercept) step g dx * (z - g) := by
  rw [stride, derivative_affine step_pos]
  constructor
  · obtain value | value := sign_eq (affine slope intercept g)
    all_goals
      obtain slope' | slope' := sign_eq slope
      all_goals simp [value, slope']
  · have value := sign_mul_self_nonneg (affine slope intercept g)
    have both := mul_nonneg value (sign_mul_self_nonneg slope)
    rw [affine_eq zero] at both ⊢
    set u : ℚ := sign (slope * (g - z)) * sign slope * (g - z)
    have square : 0 ≤ u * slope ^ 2 := by
      refine both.trans_eq ?_
      ring
    have towards : 0 ≤ u := nonneg_of_mul_nonneg_left square (by positivity)
    refine (mul_nonneg dx_pos.le towards).trans_eq ?_
    ring

/-- The product of the values at two neighbours on the grid, `d` steps in front of the root. -/
theorem product_eq (zero : affine slope intercept z = 0) {d : ℚ} (j : ℚ) (ahead : z = g + d * s) :
    affine slope intercept (g + j * s) * affine slope intercept (g + j * s + s) =
      (slope * s) ^ 2 * ((j - d) * (j + 1 - d)) := by
  rw [affine_eq zero, affine_eq zero, ahead]
  ring

/-- A root between two points of the grid is found before the steps are used up. -/
theorem exists_walk (sloped : slope ≠ 0) (zero : affine slope intercept z = 0) (s_ne : s ≠ 0)
    {d : ℚ} (ahead : z = g + d * s) (positive : 0 ≤ d) (off : ∀ i : ℤ, d ≠ i)
    (near : d ≤ nStepsMax - 1) :
    ∃ r, Loop.Returns (walk (affine slope intercept) s nStepsMax) ⟨0, g, g⟩ r ∧
      affine slope intercept r.p * affine slope intercept r.c < 0 ∧ r.nSteps < nStepsMax := by
  have square : 0 < (slope * s) ^ 2 := by positivity
  have last : ⌊d⌋ < nStepsMax := by
    refine Int.floor_lt.mpr ?_
    linarith
  have start : (0 : ℤ) + ⌊d⌋.toNat = ⌊d⌋ := by
    rw [zero_add, Int.toNat_of_nonneg (Int.floor_nonneg.mpr positive)]
  refine Loop.exists_returns (I := fun n t => ∃ nSteps : ℤ,
    t = ⟨nSteps, g + nSteps * s, g + nSteps * s⟩ ∧ nSteps + n = ⌊d⌋) ?_ ⟨0, by simp, start⟩
  rintro n t ⟨nSteps, rfl, count⟩
  have product := product_eq zero (nSteps : ℚ) ahead
  cases n with
  | zero =>
    have floor : nSteps = ⌊d⌋ := by simpa using count
    have before : (nSteps : ℚ) < d := by
      refine lt_of_le_of_ne ?_ (off nSteps).symm
      exact floor ▸ Int.floor_le d
    have behind : d < nSteps + 1 := floor ▸ Int.lt_floor_add_one d
    have negative : affine slope intercept (g + nSteps * s) *
        affine slope intercept (g + nSteps * s + s) < 0 := by
      rw [product]
      exact mul_neg_of_pos_of_neg square (mul_neg_of_neg_of_pos (by linarith) (by linarith))
    refine .inl ⟨_, if_neg fun goes => absurd goes.1 (not_le.mpr negative), negative, ?_⟩
    exact floor ▸ last
  | succ n =>
    have early : nSteps + 1 ≤ ⌊d⌋ := by omega
    have before : ((nSteps + 1 : ℤ) : ℚ) ≤ d := Int.le_floor.mp early
    push_cast at before
    have positive : 0 ≤ affine slope intercept (g + nSteps * s) *
        affine slope intercept (g + nSteps * s + s) := by
      rw [product]
      exact mul_nonneg square.le (mul_nonneg_of_nonpos_of_nonpos (by linarith) (by linarith))
    have more : nSteps < nStepsMax := by omega
    refine .inr ⟨_, if_pos ⟨positive, more⟩, n, n.lt_succ_self, nSteps + 1, ?_, ?_⟩
    · have next : g + nSteps * s + s = g + ((nSteps + 1 : ℤ) : ℚ) * s := by
        push_cast
        ring
      rw [← next]
    · push_cast at count
      omega

/-- Both ends of the walk are at one point of the grid. -/
def OnGrid (g s : ℚ) (t : Search) : Prop := ∃ nSteps j : ℤ, t = ⟨nSteps, g + j * s, g + j * s⟩

theorem onGrid_start (g s : ℚ) : OnGrid g s ⟨0, g, g⟩ :=
  ⟨0, 0, by rw [Int.cast_zero, zero_mul, add_zero]⟩

/-- A root on the grid shows in no product. -/
theorem product_nonneg (zero : affine slope intercept z = 0) {i : ℤ} (on : z = g + i * s)
    (returns : Loop.Returns (walk (affine slope intercept) s nStepsMax) ⟨0, g, g⟩ r) :
    0 ≤ affine slope intercept r.p * affine slope intercept r.c := by
  refine returns.post (I := OnGrid g s)
    (Q := fun (r : Search) => 0 ≤ affine slope intercept r.p * affine slope intercept r.c) ?_ ?_
    (onGrid_start g s)
  · rintro t u ⟨nSteps, j, rfl⟩ pass
    rw [walk] at pass
    split at pass
    all_goals cases pass
    have next : g + j * s + s = g + ((j + 1 : ℤ) : ℚ) * s := by
      push_cast
      ring
    exact ⟨nSteps + 1, j + 1, by rw [← next]⟩
  · rintro t r ⟨nSteps, j, rfl⟩ pass
    rw [walk] at pass
    split at pass
    all_goals cases pass
    have between : (0 : ℚ) ≤ (j - i) * (j + 1 - i) := by
      have whole : 0 ≤ (j - i) * (j - i + 1) := by
        obtain le | less := le_or_gt i j
        · exact mul_nonneg (by omega) (by omega)
        · exact mul_nonneg_of_nonpos_of_nonpos (by omega) (by omega)
      have cast : (0 : ℚ) ≤ ((j - i) * (j - i + 1) : ℤ) := by exact_mod_cast whole
      push_cast at cast
      linarith
    have product := product_eq zero (j : ℚ) on
    rw [product]
    exact mul_nonneg (sq_nonneg _) between

/-- What the bisection finds is near the root. -/
theorem Found.near {m : ℚ} (sloped : slope ≠ 0) (zero : affine slope intercept z = 0)
    (found : Found (affine slope intercept) EPSILON m) :
    |m - z| ≤ EPSILON ∨ |affine slope intercept m| ≤ EPSILON := by
  obtain small | ⟨b, changes, short, rfl⟩ := found
  · exact .inr small
  refine .inl ?_
  have product := mul_nonpos_of_sign_ne changes.change
  rw [changes.fl, changes.fr, affine_eq zero, affine_eq zero] at product
  have between : (b.l - z) * (b.r - z) ≤ 0 := by
    have square : 0 < slope ^ 2 := by positivity
    refine nonpos_of_mul_nonpos_right (a := slope ^ 2) ?_ square
    refine le_of_eq_of_le ?_ product
    ring
  have le := changes.le
  have left : b.l ≤ z := by
    by_contra behind
    have := mul_pos (sub_pos.mpr (not_le.mp behind)) (sub_pos.mpr ((not_le.mp behind).trans_le le))
    linarith
  have right : z ≤ b.r := by
    by_contra before
    have := mul_pos_of_neg_of_neg (sub_neg.mpr (le.trans_lt (not_le.mp before)))
      (sub_neg.mpr (not_le.mp before))
    linarith
  rw [abs_le]
  constructor <;> linarith

/-- The walk finds a change of sign, and the bisection returns a number at the root `z`. -/
def Finds (f : ℚ → ℚ) (EPSILON step g dx : ℚ) (nStepsMax : ℤ) (z : ℚ) : Prop :=
  ∃ fuel t m, search f fuel step g dx nStepsMax = some t ∧ f t.p * f t.c < 0 ∧
    root f EPSILON fuel step g dx nStepsMax = some (.value m) ∧
      (|m - z| ≤ EPSILON ∨ |f m| ≤ EPSILON)

/-- A root on the grid is walked past. -/
theorem not_finds_of_on (sloped : slope ≠ 0) (zero : affine slope intercept z = 0)
    (dx_pos : 0 < dx) (step_pos : 0 < step) {i : ℤ} (on : z - g = i * dx) :
    ¬Finds (affine slope intercept) EPSILON step g dx nStepsMax z := by
  rintro ⟨fuel, t, m, searched, negative, -⟩
  obtain ⟨j, along⟩ : ∃ j : ℤ, z = g + j * stride (affine slope intercept) step g dx := by
    obtain same | opposite := (stride_spec (g := g) sloped zero step_pos dx_pos).1
    · exact ⟨i, by rw [same, ← on]; ring⟩
    · exact ⟨-i, by rw [opposite, ← sub_eq_iff_eq_add', on]; push_cast; ring⟩
  exact absurd (product_nonneg zero along (Loop.returns_of_run searched)) (not_le.mpr negative)

/-- The root is as many strides away as it is distances `dx`, and in front. -/
theorem exists_strides (sloped : slope ≠ 0) (zero : affine slope intercept z = 0)
    (dx_pos : 0 < dx) (near : |z - g| ≤ (nStepsMax - 1) * dx) (step_pos : 0 < step)
    (off : ¬∃ i : ℤ, z - g = i * dx) :
    stride (affine slope intercept) step g dx ≠ 0 ∧
      ∃ d : ℚ, z = g + d * stride (affine slope intercept) step g dx ∧ 0 ≤ d ∧
        (∀ i : ℤ, d ≠ i) ∧ d ≤ nStepsMax - 1 := by
  obtain ⟨either, towards⟩ := stride_spec (g := g) sloped zero step_pos dx_pos
  set s := stride (affine slope intercept) step g dx
  have s_ne : s ≠ 0 := by
    obtain same | opposite := either
    · rw [same]
      exact dx_pos.ne'
    · rw [opposite]
      exact neg_ne_zero.mpr dx_pos.ne'
  have positive : 0 ≤ (z - g) / s := by
    have square : 0 < s * s := mul_self_pos.mpr s_ne
    rw [← mul_div_mul_left _ _ s_ne]
    exact div_nonneg towards square.le
  have width : |s| = dx := by
    obtain same | opposite := either
    · rw [same, abs_of_pos dx_pos]
    · rw [opposite, abs_neg, abs_of_pos dx_pos]
  refine ⟨s_ne, (z - g) / s, ?_, positive, ?_, ?_⟩
  · rw [div_mul_cancel₀ _ s_ne]
    ring
  · intro i on
    rw [div_eq_iff s_ne] at on
    obtain same | opposite := either
    · exact off ⟨i, by rw [on, same]⟩
    · exact off ⟨-i, by rw [on, opposite]; push_cast; ring⟩
  · rw [← abs_of_nonneg positive, abs_div, width, div_le_iff₀ dx_pos]
    exact near

/-- `root` finds the root of an affine function within its reach just if that is not on the grid. -/
theorem root_iff (sloped : slope ≠ 0) (zero : affine slope intercept z = 0) (dx_pos : 0 < dx)
    (near : |z - g| ≤ (nStepsMax - 1) * dx) (EPSILON_pos : 0 < EPSILON) (step_pos : 0 < step) :
    Finds (affine slope intercept) EPSILON step g dx nStepsMax z ↔
      ¬∃ i : ℤ, z - g = i * dx := by
  constructor
  · rintro finds ⟨i, on⟩
    exact not_finds_of_on sloped zero dx_pos step_pos on finds
  · intro off
    obtain ⟨s_ne, d, ahead, positive, off', reach⟩ :=
      exists_strides sloped zero dx_pos near step_pos off
    obtain ⟨t, returns, negative, early⟩ :=
      exists_walk sloped zero s_ne ahead positive off' reach
    obtain ⟨fuel, m, searched, rooted, found⟩ := exists_root EPSILON_pos returns negative early
    exact ⟨fuel, t, m, searched, negative, rooted, found.near sloped zero⟩

/-- The root one half, from zero, by steps of one. -/
theorem root_half : Finds (affine 2 (-1)) (1 / 1000) (1 / 100) 0 1 1000 (1 / 2) := by
  have zero : affine 2 (-1) (1 / 2) = 0 := by norm_num [affine]
  have near : |(1 / 2 : ℚ) - 0| ≤ ((1000 : ℤ) - 1) * 1 := by
    rw [sub_zero, abs_of_pos (by norm_num)]
    norm_num
  refine (root_iff two_ne_zero zero one_pos near (by norm_num) (by norm_num)).mpr ?_
  rintro ⟨i, on⟩
  have twice : ((2 * i : ℤ) : ℚ) = 1 := by
    push_cast
    linarith
  have := Int.cast_injective (α := ℚ) (twice.trans Int.cast_one.symm)
  omega

/-- The root one is a point of the grid from zero by steps of one half. -/
theorem not_root_one : ¬∀ (slope intercept EPSILON step g dx : ℚ) (nStepsMax : ℤ) (z : ℚ),
    slope ≠ 0 → affine slope intercept z = 0 → 0 < dx → |z - g| ≤ (nStepsMax - 1) * dx →
      0 < EPSILON → 0 < step →
        Finds (affine slope intercept) EPSILON step g dx nStepsMax z := by
  intro all
  have zero : affine 1 (-1) 1 = 0 := by norm_num [affine]
  have near : |(1 : ℚ) - 0| ≤ ((1000 : ℤ) - 1) * (1 / 2) := by norm_num
  have half : (0 : ℚ) < 1 / 2 := by norm_num
  have step : (0 : ℚ) < 1 / 100 := by norm_num
  have on : (1 : ℚ) - 0 = (2 : ℤ) * (1 / 2) := by norm_num
  apply not_finds_of_on one_ne_zero zero half step on
  exact all 1 (-1) (1 / 1000) (1 / 100) 0 (1 / 2) 1000 1 one_ne_zero zero half near (by norm_num)
    step

end Affine

end Crs.UniMath
