import Crs.Foundation.Word
import Crs.RingPool.Geometry
import Mathlib.Data.Nat.Size
import Mathlib.Data.Set.Function
import Mathlib.Order.Bounds.Basic

/-!
# The sizes of a ring

What the constructor calculates from the sizes that it is asked for. The pools are as large as
they have to be. The search for the number of pools does not look at the highest digit that is
left for it, and takes no digit at all for the largest number.
-/

namespace Crs.RingPool

open BitMaskCalculator Foundation

/-- The search finds the highest bit of the digits that it looks at. -/
theorem highestBit_eq {lowest : ℕ} (positive : 1 ≤ lowest) (value bitNo : ℕ) :
    highestBit value lowest bitNo =
      if lowest ≤ (value % 2 ^ bitNo).size then some (value % 2 ^ bitNo).size else none := by
  induction bitNo with
  | zero =>
    rw [highestBit, pow_zero, Nat.mod_one, Nat.size_zero, if_neg (by omega)]
  | succ bitNo ih =>
    have below : value % 2 ^ bitNo < 2 ^ bitNo := Nat.mod_lt _ (Nat.two_pow_pos _)
    have within : (value % 2 ^ (bitNo + 1)).size ≤ bitNo + 1 :=
      Nat.size_le.mpr (Nat.mod_lt _ (Nat.two_pow_pos _))
    have digit := Nat.mod_pow_succ (x := value) (b := 2) (k := bitNo)
    rw [← Nat.toNat_testBit] at digit
    simp only [highestBit, Nat.one_shiftLeft, Nat.and_two_pow]
    by_cases stop : bitNo + 1 < lowest
    · rw [if_pos stop, if_neg (by omega)]
    · rw [if_neg stop]
      cases set : value.testBit bitNo with
      | false =>
        rw [set, Bool.toNat_false, mul_zero, add_zero] at digit
        rw [digit, ← ih, Bool.toNat_false, zero_mul, if_neg (Nat.two_pow_pos bitNo).ne]
      | true =>
        rw [set, Bool.toNat_true, mul_one] at digit
        have highest : (value % 2 ^ (bitNo + 1)).size = bitNo + 1 := by
          refine le_antisymm within (Nat.lt_size.mpr ?_)
          omega
        rw [Bool.toNat_true, one_mul, if_pos rfl, highest, if_pos (by omega)]

/-- A power of two, not below `2 ^ a`, that is larger than `n`. -/
theorem isLeast_two_pow (a n : ℕ) :
    IsLeast {m | (∃ k, m = 2 ^ k) ∧ 2 ^ a ≤ m ∧ n < m} (2 ^ max a n.size) := by
  refine ⟨⟨⟨_, rfl⟩, Nat.pow_le_pow_right Nat.two_pos (le_max_left _ _), ?_⟩, ?_⟩
  · exact (Nat.lt_size_self n).trans_le (Nat.pow_le_pow_right Nat.two_pos (le_max_right _ _))
  · rintro m ⟨⟨k, rfl⟩, least, larger⟩
    have first : a ≤ k := (Nat.pow_le_pow_iff_right Nat.one_lt_two).mp least
    exact Nat.pow_le_pow_right Nat.two_pos (max_le first (Nat.size_le.mpr larger))

/-- The digits of a pool. -/
def poolDigits (desiredPoolSize : UInt64) : ℕ := max charDigits desiredPoolSize.toNat.size

theorem rootMaskShift_eq (desiredPoolSize desiredRootSize : UInt64) :
    (new desiredPoolSize desiredRootSize).rootMaskShift = poolDigits desiredPoolSize := by
  have word : desiredPoolSize.toNat % 2 ^ digits = desiredPoolSize.toNat :=
    Nat.mod_eq_of_lt desiredPoolSize.toNat_lt
  rw [new, highestBit_eq (by decide), word, poolDigits]
  split
  · rename_i enough
    rw [Option.getD_some, max_eq_right enough]
  · rename_i few
    rw [Option.getD_none, max_eq_left (not_le.mp few).le]

theorem poolDigits_bounds {desiredPoolSize : UInt64} (bounded : desiredPoolSize.toNat < 2 ^ 63) :
    8 ≤ poolDigits desiredPoolSize ∧ poolDigits desiredPoolSize ≤ 63 :=
  ⟨le_max_left _ _, max_le (by decide) (Nat.size_le.mpr bounded)⟩

namespace BitMaskCalculator

/-- The sizes and the masks belong together, in 64 bits. -/
structure Consistent (g : BitMaskCalculator) : Prop where
  poolMask : ∃ k, g.poolMask = 2 ^ k - 1
  rootMask : ∃ k, g.rootMask = 2 ^ k - 1
  usedBits : ∃ k, g.usedBits = 2 ^ k - 1
  nPoolSize : g.nPoolSize = g.poolMask + 1
  nRootSize : g.nRootSize = g.rootMask + 1
  sum : g.usedBits = g.poolMask + g.rootMask <<< g.rootMaskShift
  word : g.usedBits < 2 ^ digits
  positions : Set.BijOn (fun idx => (g.rootIdx idx, g.poolIdx idx)) (Set.Iic g.usedBits)
    (Set.Iio g.nRootSize ×ˢ Set.Iio g.nPoolSize)
  split : ∀ idx, g.fullIdx idx = g.rootIdx idx <<< g.rootMaskShift + g.poolIdx idx
  add : ∀ a b : UInt64, g.fullIdx (a + b).toNat =
    g.fullIdx (UInt64.ofNat (g.fullIdx a.toNat) + UInt64.ofNat (g.fullIdx b.toNat)).toNat
  sub : ∀ a b : UInt64, g.fullIdx (a - b).toNat =
    g.fullIdx (UInt64.ofNat (g.fullIdx a.toNat) - UInt64.ofNat (g.fullIdx b.toNat)).toNat

namespace Shape

variable {g : BitMaskCalculator} {p r : ℕ} (shape : g.Shape p r)

include shape

/-- A position is the one of its pool and its place there. -/
theorem fullIdx_split (idx : ℕ) :
    g.fullIdx idx = g.rootIdx idx <<< g.rootMaskShift + g.poolIdx idx := by
  rw [shape.fullIdx_eq, shape.rootIdx_eq, shape.poolIdx_eq, shape.rootMaskShift, Nat.shiftLeft_eq,
    pow_add, Nat.mod_mul, mul_comm, add_comm]

/-- In 64 bits, a position stands for its residue. -/
theorem toNat_fullIdx (a : UInt64) :
    (UInt64.ofNat (g.fullIdx a.toNat)).toNat ≡ a.toNat [MOD 2 ^ (p + r)] := by
  have below : g.fullIdx a.toNat < 2 ^ 64 := by
    rw [shape.fullIdx_eq]
    exact (Nat.mod_le _ _).trans_lt a.toNat_lt
  rw [UInt64.toNat_ofNat_of_lt' below, shape.fullIdx_eq]
  exact Nat.mod_modEq _ _

theorem bijOn_positions (small : p < 64) :
    Set.BijOn (fun idx => (g.rootIdx idx, g.poolIdx idx)) (Set.Iic g.usedBits)
      (Set.Iio g.nRootSize ×ˢ Set.Iio g.nPoolSize) := by
  have whole : g.nPoolSize = 2 ^ p := by
    rw [shape.nPoolSize, Nat.mod_eq_of_lt (Nat.pow_lt_pow_right Nat.one_lt_two small)]
  have used (idx : ℕ) : idx ∈ Set.Iic g.usedBits ↔ idx < 2 ^ (p + r) := by
    have positive := Nat.two_pow_pos (p + r)
    rw [Set.mem_Iic, shape.usedBits]
    omega
  have itself (idx : ℕ) (inside : idx ∈ Set.Iic g.usedBits) : g.fullIdx idx = idx := by
    rw [shape.fullIdx_eq, Nat.mod_eq_of_lt ((used idx).mp inside)]
  refine ⟨?_, ?_, ?_⟩
  · intro idx _
    rw [Set.mem_prod, Set.mem_Iio, Set.mem_Iio, shape.nRootSize, whole]
    simp only [shape.rootIdx_eq, shape.poolIdx_eq]
    exact ⟨Nat.mod_lt _ (Nat.two_pow_pos r), Nat.mod_lt _ (Nat.two_pow_pos p)⟩
  · intro i inside j inside' same
    obtain ⟨pools, places⟩ := Prod.mk.inj same
    rw [← itself i inside, ← itself j inside', shape.fullIdx_split, shape.fullIdx_split, pools,
      places]
  · rintro ⟨pool, place⟩ ⟨fewPools, fewPlaces⟩
    rw [Set.mem_Iio, shape.nRootSize] at fewPools
    rw [Set.mem_Iio, whole] at fewPlaces
    refine ⟨place + pool * 2 ^ p, (used _).mpr ?_, Prod.ext ?_ ?_⟩
    · calc place + pool * 2 ^ p < (pool + 1) * 2 ^ p := by rw [Nat.succ_mul]; omega
        _ ≤ 2 ^ r * 2 ^ p := Nat.mul_le_mul_right _ fewPools
        _ = 2 ^ (p + r) := by rw [add_comm p, pow_add]
    · simp only
      rw [shape.rootIdx_eq, Nat.add_mul_div_right _ _ (Nat.two_pow_pos p),
        Nat.div_eq_of_lt fewPlaces, zero_add, Nat.mod_eq_of_lt fewPools]
    · simp only
      rw [shape.poolIdx_eq, Nat.add_mul_mod_self_right, Nat.mod_eq_of_lt fewPlaces]

/-- A geometry with pools that do not take all positions is consistent. -/
theorem consistent (small : p < 64) : g.Consistent where
  poolMask := ⟨p, shape.poolMask⟩
  rootMask := ⟨r, shape.rootMask⟩
  usedBits := ⟨p + r, shape.usedBits⟩
  nPoolSize := by
    rw [shape.nPoolSize, shape.poolMask, Nat.sub_add_cancel (Nat.two_pow_pos p),
      Nat.mod_eq_of_lt (Nat.pow_lt_pow_right Nat.one_lt_two small)]
  nRootSize := by
    rw [shape.nRootSize, shape.rootMask, Nat.sub_add_cancel (Nat.two_pow_pos r)]
  sum := by
    rw [shape.usedBits, shape.poolMask, shape.rootMask, shape.rootMaskShift, add_shiftLeft_ones]
  word := by
    have most : 2 ^ (p + r) ≤ 2 ^ digits := Nat.pow_le_pow_right Nat.two_pos shape.fits
    have positive := Nat.two_pow_pos (p + r)
    rw [shape.usedBits]
    omega
  positions := shape.bijOn_positions small
  split := shape.fullIdx_split
  add a b := by
    rw [shape.fullIdx_eq (a + b).toNat, shape.fullIdx_eq (UInt64.toNat (_ + _))]
    exact Word.toNat_add_congr shape.fits a b (shape.toNat_fullIdx a) (shape.toNat_fullIdx b)
  sub a b := by
    rw [shape.fullIdx_eq (a - b).toNat, shape.fullIdx_eq (UInt64.toNat (_ - _))]
    exact Word.toNat_sub_congr shape.fits a b (shape.toNat_fullIdx a) (shape.toNat_fullIdx b)

end Shape

end BitMaskCalculator

section Sizes

variable {desiredPoolSize desiredRootSize : UInt64}

/-- Whatever is asked for, the geometry of the ring is consistent. -/
theorem new_consistent (bounded : desiredPoolSize.toNat < 2 ^ 63) :
    (new desiredPoolSize desiredRootSize).Consistent := by
  obtain ⟨p, r, shape⟩ := exists_shape desiredPoolSize desiredRootSize
  apply shape.consistent
  rw [← shape.rootMaskShift, rootMaskShift_eq]
  exact (poolDigits_bounds bounded).2.trans_lt (by decide)

/-- Four pools of 1024 records. -/
theorem new_consistent_thousand :
    (new 1000 3).nPoolSize = 1024 ∧ (new 1000 3).nRootSize = 4 ∧ (new 1000 3).Consistent :=
  ⟨by decide, by decide, new_consistent (by decide)⟩

variable (desiredPoolSize desiredRootSize) in
/-- The sizes are the least powers of two that are larger than what was asked for; there are not
more pools than positions for them. -/
def Rounded : Prop :=
  IsLeast {m | (∃ k, m = 2 ^ k) ∧ 256 ≤ m ∧ desiredPoolSize.toNat < m}
      (new desiredPoolSize desiredRootSize).nPoolSize ∧
    ∃ n, IsLeast {m | (∃ k, m = 2 ^ k) ∧ 2 ≤ m ∧ desiredRootSize.toNat < m} n ∧
      (new desiredPoolSize desiredRootSize).nRootSize =
        min n (2 ^ (64 - (new desiredPoolSize desiredRootSize).rootMaskShift))

variable (desiredPoolSize desiredRootSize) in
/-- The highest digit that is left for the number of pools is not needed, or does not have to be
looked at; and some pools are asked for, or there is one digit only. -/
def RootFound : Prop :=
  let digitsLeft := 64 - poolDigits desiredPoolSize
  (desiredRootSize ≠ 0 ∨ digitsLeft = 1) ∧
    ¬(2 ^ (digitsLeft - 1) < desiredRootSize.toNat ∧ desiredRootSize.toNat < 2 ^ digitsLeft - 1)

/-- What is found without the highest digit, or else the largest number of pools. -/
theorem rootMaskOf_add_one (desiredRootSize : ℕ) {p : ℕ} (room : p < 64) :
    rootMaskOf desiredRootSize p + 1 =
      if desiredRootSize < 2 ^ (64 - p) - 1 ∧ desiredRootSize % 2 ^ (63 - p) ≠ 0 then
        2 ^ (desiredRootSize % 2 ^ (63 - p)).size
      else 2 ^ (64 - p) := by
  have whole (n : ℕ) : 2 ^ n - 1 + 1 = 2 ^ n := Nat.sub_add_cancel (Nat.two_pow_pos n)
  have searched : digits - p - 1 = 63 - p := by rw [digits]; omega
  have largest : onesTo (63 - p + 1) = 2 ^ (64 - p) - 1 := by
    rw [onesTo_eq (Nat.le_add_left _ _)]
    congr 2
    omega
  simp only [rootMaskOf, searched, largest, highestBit_eq le_rfl]
  by_cases less : desiredRootSize < 2 ^ (64 - p) - 1
  · by_cases found : desiredRootSize % 2 ^ (63 - p) = 0
    · simp [found, whole]
    · have several : 1 ≤ (desiredRootSize % 2 ^ (63 - p)).size :=
        Nat.one_le_iff_ne_zero.mpr (mt Nat.size_eq_zero.mp found)
      simp [less, found, several, onesTo_eq several, whole]
  · simp [less, whole]

/-- The number of pools is the right one exactly if the search finds it. -/
theorem rootMaskOf_eq_iff (n : ℕ) {p : ℕ} (room : p < 64) :
    rootMaskOf n p + 1 = 2 ^ min (max 1 n.size) (64 - p) ↔
      (n ≠ 0 ∨ 64 - p = 1) ∧ ¬(2 ^ (64 - p - 1) < n ∧ n < 2 ^ (64 - p) - 1) := by
  obtain ⟨d, left⟩ : ∃ d, 64 - p = d + 1 := ⟨63 - p, by omega⟩
  have below : 63 - p = d := by omega
  have double : 2 ^ (d + 1) = 2 ^ d * 2 := pow_succ 2 d
  have positive := Nat.two_pow_pos d
  rw [rootMaskOf_add_one n room, left, below, Nat.add_sub_cancel]
  by_cases less : n < 2 ^ (d + 1) - 1
  · have within : n.size ≤ d + 1 := Nat.size_le.mpr (by omega)
    by_cases high : 2 ^ d ≤ n
    · -- the highest digit is set, and the search looks at what is below it
      have wide : n.size = d + 1 := le_antisymm within (Nat.lt_size.mpr high)
      have rest : n % 2 ^ d = n - 2 ^ d := by
        rw [Nat.mod_eq_sub_mod high, Nat.mod_eq_of_lt (by omega)]
      rw [wide, max_eq_right (Nat.le_add_left _ _), min_self, rest]
      by_cases alone : n = 2 ^ d
      · rw [if_neg (by omega)]
        exact iff_of_true rfl ⟨.inl (by omega), by omega⟩
      · have short : (n - 2 ^ d).size < d + 1 := Nat.lt_succ_of_le (Nat.size_le.mpr (by omega))
        rw [if_pos ⟨less, by omega⟩]
        exact iff_of_false (Nat.pow_lt_pow_right Nat.one_lt_two short).ne
          fun both => both.2 ⟨by omega, less⟩
    · have short : n.size ≤ d := Nat.size_le.mpr (by omega)
      rw [Nat.mod_eq_of_lt (not_le.mp high)]
      by_cases zero : n = 0
      · subst zero
        rw [if_neg (fun both => both.2 rfl), Nat.size_zero, max_eq_left (Nat.zero_le _),
          min_eq_left (Nat.le_add_left _ _), Nat.pow_right_inj Nat.one_lt_two]
        constructor
        · intro single
          exact ⟨.inr single, by omega⟩
        · rintro ⟨single, -⟩
          exact single.resolve_left (absurd rfl)
      · have several : 1 ≤ n.size := Nat.one_le_iff_ne_zero.mpr (mt Nat.size_eq_zero.mp zero)
        rw [if_pos ⟨less, zero⟩, max_eq_right several, min_eq_left within]
        exact iff_of_true rfl ⟨.inl zero, by omega⟩
  · have wide : d + 1 ≤ n.size := Nat.lt_size.mpr (by omega)
    rw [if_neg (fun both => less both.1), min_eq_right (wide.trans (le_max_right _ _))]
    exact iff_of_true rfl ⟨.inl (by omega), fun both => less both.2⟩

/-- The sizes are rounded as they should be exactly if the search finds the number of pools. -/
theorem rounded_iff (bounded : desiredPoolSize.toNat < 2 ^ 63) :
    Rounded desiredPoolSize desiredRootSize ↔ RootFound desiredPoolSize desiredRootSize := by
  have shift := rootMaskShift_eq desiredPoolSize desiredRootSize
  have room : poolDigits desiredPoolSize < 64 := (poolDigits_bounds bounded).2.trans_lt (by decide)
  have pools :
      (new desiredPoolSize desiredRootSize).nPoolSize = 2 ^ poolDigits desiredPoolSize := by
    obtain ⟨p, r, shape⟩ := exists_shape desiredPoolSize desiredRootSize
    rw [shape.nPoolSize, ← shape.rootMaskShift, shift,
      Nat.mod_eq_of_lt (Nat.pow_lt_pow_right Nat.one_lt_two room)]
  have root : (new desiredPoolSize desiredRootSize).nRootSize =
      rootMaskOf desiredRootSize.toNat (poolDigits desiredPoolSize) + 1 := by
    have calculated : (new desiredPoolSize desiredRootSize).nRootSize =
        (if (new desiredPoolSize desiredRootSize).rootMaskShift = digits then 0
          else rootMaskOf desiredRootSize.toNat
            (new desiredPoolSize desiredRootSize).rootMaskShift) + 1 := rfl
    have some : poolDigits desiredPoolSize ≠ digits := room.ne
    rw [calculated, shift, if_neg some]
  have least : IsLeast {m | (∃ k, m = 2 ^ k) ∧ 256 ≤ m ∧ desiredPoolSize.toNat < m}
      (2 ^ poolDigits desiredPoolSize) := isLeast_two_pow 8 desiredPoolSize.toNat
  have number : IsLeast {m | (∃ k, m = 2 ^ k) ∧ 2 ≤ m ∧ desiredRootSize.toNat < m}
      (2 ^ max 1 desiredRootSize.toNat.size) := isLeast_two_pow 1 desiredRootSize.toNat
  have smaller (a b : ℕ) : min (2 ^ a) (2 ^ b) = 2 ^ min a b :=
    (Monotone.map_min fun _ _ => Nat.pow_le_pow_right Nat.two_pos).symm
  have nonzero : desiredRootSize ≠ 0 ↔ desiredRootSize.toNat ≠ 0 :=
    not_congr UInt64.toNat_inj.symm
  rw [Rounded, pools, shift, root, and_iff_right least, RootFound, nonzero,
    ← rootMaskOf_eq_iff _ room, ← smaller]
  constructor
  · rintro ⟨n, smallest, chosen⟩
    rw [chosen, smallest.unique number]
  · exact fun chosen => ⟨_, number, chosen⟩

/-- 1024 records, and four pools. -/
theorem rounded_thousand : Rounded 1000 3 :=
  (rounded_iff (by decide)).mpr ⟨by decide, by decide⟩

/-- No pools are asked for, and there are as many as possible; more than the half of what is
possible, and there are two. -/
theorem root_not_rounded :
    (new 255 0).nRootSize = 2 ^ 56 ∧ ¬Rounded 255 0 ∧
      (new 255 (2 ^ 55 + 1)).nRootSize = 2 ∧ ¬Rounded 255 (2 ^ 55 + 1) := by
  have wrong (n m : ℕ) (root : UInt64) (number : (new 255 root).nRootSize = m)
      (size : 2 ^ max 1 root.toNat.size = n) (differs : m ≠ min n (2 ^ 56)) :
      ¬Rounded 255 root := by
    rintro ⟨-, least, smallest, chosen⟩
    have value : least = 2 ^ max 1 root.toNat.size := smallest.unique (isLeast_two_pow 1 _)
    have shift : (new 255 root).rootMaskShift = 8 := rootMaskShift_eq 255 root
    rw [shift, number, value, size] at chosen
    exact differs chosen
  have first : (new 255 0).nRootSize = 2 ^ 56 := by decide
  have second : (new 255 (2 ^ 55 + 1)).nRootSize = 2 := by decide
  exact ⟨first, wrong 2 _ 0 first (by decide) (by decide), second,
    wrong (2 ^ 56) _ _ second (by decide) (by decide)⟩

end Sizes

end Crs.RingPool
