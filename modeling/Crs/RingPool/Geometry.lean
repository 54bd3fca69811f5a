import Mathlib.Data.Nat.Bitwise
import Mathlib.Data.UInt

/-!
# The geometry of a ring

A ring has `nRootSize` pools of `nPoolSize` records. Both sizes are powers of two, so a
position splits into the number of a pool and a place in it by masks and a shift. The
constructor rounds the sizes that it is asked for, in 64 bits: at least 256 records, and
together no more than there are positions. A pool that takes all positions is an
exception: its size wraps to zero.
-/

namespace Crs.RingPool

/-- `std::numeric_limits<size_t>::digits`. -/
def digits : ℕ := 64

/-- `std::numeric_limits<unsigned char>::digits`. -/
def charDigits : ℕ := 8

/-- The bit with number `bitNo` and all bits below it; the numbers start at one. -/
def onesTo (bitNo : ℕ) : ℕ :=
  let bit := 1 <<< (bitNo - 1)
  bit ||| (bit - 1)

/-- The number of the highest bit that is set, from `bitNo` down to `lowest`. -/
def highestBit (value lowest : ℕ) : ℕ → Option ℕ
  | 0 => none
  | bitNo + 1 =>
      if bitNo + 1 < lowest then none
      else
        let bit := 1 <<< bitNo
        if value &&& bit = bit then some (bitNo + 1) else highestBit value lowest bitNo

structure BitMaskCalculator where
  nPoolSize : ℕ
  poolMask : ℕ
  nRootSize : ℕ
  rootMask : ℕ
  usedBits : ℕ
  rootMaskShift : ℕ

namespace BitMaskCalculator

/-- `rootMask`, where a pool does not take all positions. The search starts one digit below
the largest size, so it does not see the highest bit of a size that has all digits. -/
def rootMaskOf (desiredRootSize rootMaskShift : ℕ) : ℕ :=
  let rootDigits := digits - rootMaskShift - 1
  let largest := onesTo (rootDigits + 1)
  if desiredRootSize < largest then
    match highestBit desiredRootSize 1 rootDigits with
    | some bitNo => onesTo bitNo
    | none => largest
  else largest

def new (desiredPoolSize desiredRootSize : UInt64) : BitMaskCalculator :=
  let rootMaskShift := (highestBit desiredPoolSize.toNat charDigits digits).getD charDigits
  let poolMask := onesTo rootMaskShift
  let rootMask :=
    if rootMaskShift = digits then 0 else rootMaskOf desiredRootSize.toNat rootMaskShift
  { nPoolSize := (poolMask + 1) % 2 ^ digits
    poolMask
    nRootSize := rootMask + 1
    rootMask
    usedBits := poolMask + (rootMask <<< rootMaskShift) % 2 ^ digits
    rootMaskShift }

variable (g : BitMaskCalculator)

def rootIdx (idx : ℕ) : ℕ := (idx >>> g.rootMaskShift) &&& g.rootMask

def poolIdx (idx : ℕ) : ℕ := idx &&& g.poolMask

def fullIdx (idx : ℕ) : ℕ := idx &&& g.usedBits

/-- `ring_pool::capacity`, as a number: a ring over all positions has one more than fit. -/
def capacity : ℕ := g.usedBits + 1

/-- The sizes are powers of two, with `p` and `r` digits. -/
structure Shape (p r : ℕ) : Prop where
  wide : 8 ≤ p
  fits : p + r ≤ 64
  several : p < 64 → 1 ≤ r
  nPoolSize : g.nPoolSize = 2 ^ p % 2 ^ 64
  poolMask : g.poolMask = 2 ^ p - 1
  nRootSize : g.nRootSize = 2 ^ r
  rootMask : g.rootMask = 2 ^ r - 1
  usedBits : g.usedBits = 2 ^ (p + r) - 1
  rootMaskShift : g.rootMaskShift = p

end BitMaskCalculator

open BitMaskCalculator

theorem onesTo_eq {bitNo : ℕ} (positive : 1 ≤ bitNo) : onesTo bitNo = 2 ^ bitNo - 1 := by
  obtain ⟨k, rfl⟩ := Nat.exists_eq_add_of_le' positive
  have below : 2 ^ k - 1 < 2 ^ k := Nat.sub_lt (Nat.two_pow_pos k) one_pos
  have split := Nat.two_pow_add_eq_or_of_lt below 1
  rw [mul_one] at split
  rw [onesTo, Nat.add_sub_cancel, Nat.one_shiftLeft, ← split, pow_succ]
  omega

theorem highestBit_bounds {value lowest bitNo found : ℕ}
    (search : highestBit value lowest bitNo = some found) : lowest ≤ found ∧ found ≤ bitNo := by
  induction bitNo with
  | zero => cases search
  | succ bitNo ih =>
      rw [highestBit] at search
      split at search
      · cases search
      · simp only at search
        split at search
        · obtain rfl := Option.some.inj search
          omega
        · obtain ⟨least, most⟩ := ih search
          exact ⟨least, most.trans (Nat.le_succ _)⟩

theorem rootMaskOf_eq (desiredRootSize : ℕ) {p : ℕ} (room : p < 64) :
    ∃ r, 1 ≤ r ∧ p + r ≤ 64 ∧ rootMaskOf desiredRootSize p = 2 ^ r - 1 := by
  have largest : 1 ≤ 64 - p ∧ p + (64 - p) ≤ 64 ∧
      onesTo (digits - p - 1 + 1) = 2 ^ (64 - p) - 1 := by
    refine ⟨by omega, by omega, ?_⟩
    rw [onesTo_eq (Nat.le_add_left _ _), digits, Nat.sub_add_cancel (by omega)]
  simp only [rootMaskOf]
  split
  · split
    · rename_i bitNo search
      obtain ⟨least, most⟩ := highestBit_bounds search
      rw [digits] at most
      exact ⟨bitNo, least, by omega, onesTo_eq least⟩
    · exact ⟨_, largest⟩
  · exact ⟨_, largest⟩

theorem add_shiftLeft_ones (p r : ℕ) : 2 ^ p - 1 + (2 ^ r - 1) <<< p = 2 ^ (p + r) - 1 := by
  have least : 2 ^ p ≤ 2 ^ (p + r) := Nat.pow_le_pow_right Nat.two_pos (Nat.le_add_right p r)
  have positive := Nat.two_pow_pos p
  rw [Nat.shiftLeft_eq, Nat.sub_mul, one_mul, ← pow_add, add_comm r]
  omega

theorem shiftLeft_ones {p r : ℕ} (fits : p + r ≤ 64) :
    2 ^ p - 1 + ((2 ^ r - 1) <<< p) % 2 ^ 64 = 2 ^ (p + r) - 1 := by
  have sum := add_shiftLeft_ones p r
  have most : 2 ^ (p + r) ≤ 2 ^ 64 := Nat.pow_le_pow_right Nat.two_pos fits
  have positive := Nat.two_pow_pos (p + r)
  rw [Nat.mod_eq_of_lt (by omega), sum]

/-- Whatever sizes are asked for, the constructor calculates powers of two that fit. -/
theorem exists_shape (desiredPoolSize desiredRootSize : UInt64) :
    ∃ p r, (new desiredPoolSize desiredRootSize).Shape p r := by
  generalize shift : (highestBit desiredPoolSize.toNat charDigits digits).getD charDigits = p
  have bounds : 8 ≤ p ∧ p ≤ 64 := by
    subst shift
    cases search : highestBit desiredPoolSize.toNat charDigits digits with
    | none => exact ⟨le_rfl, by decide⟩
    | some bitNo => exact highestBit_bounds search
  obtain ⟨r, fits, several, root⟩ : ∃ r, p + r ≤ 64 ∧ (p < 64 → 1 ≤ r) ∧
      (if p = digits then 0 else rootMaskOf desiredRootSize.toNat p) = 2 ^ r - 1 := by
    obtain rfl | room := eq_or_lt_of_le bounds.2
    · exact ⟨0, le_rfl, fun less => absurd less (lt_irrefl 64), rfl⟩
    · obtain ⟨r, several, fits, root⟩ := rootMaskOf_eq desiredRootSize.toNat room
      exact ⟨r, fits, fun _ => several, (if_neg room.ne).trans root⟩
  refine ⟨p, r, ?_⟩
  rw [new, shift, root, onesTo_eq (by omega)]
  have whole (n : ℕ) : 2 ^ n - 1 + 1 = 2 ^ n := Nat.sub_add_cancel (Nat.two_pow_pos n)
  exact ⟨bounds.1, fits, several, congrArg (· % 2 ^ 64) (whole p), rfl, whole r, rfl,
    shiftLeft_ones fits, rfl⟩

/-- The position of a pool, in a ring of `2 ^ r` pools. -/
theorem mul_two_pow_mod (pool p r : ℕ) : pool * 2 ^ p % 2 ^ (p + r) = pool % 2 ^ r * 2 ^ p := by
  rw [add_comm, pow_add, Nat.mul_mod_mul_right]

namespace BitMaskCalculator.Shape

variable {g : BitMaskCalculator} {p r : ℕ} (shape : g.Shape p r)

include shape

theorem rootIdx_eq (idx : ℕ) : g.rootIdx idx = idx / 2 ^ p % 2 ^ r := by
  rw [rootIdx, shape.rootMaskShift, shape.rootMask, Nat.and_two_pow_sub_one_eq_mod,
    Nat.shiftRight_eq_div_pow]

theorem poolIdx_eq (idx : ℕ) : g.poolIdx idx = idx % 2 ^ p := by
  rw [poolIdx, shape.poolMask, Nat.and_two_pow_sub_one_eq_mod]

theorem fullIdx_eq (idx : ℕ) : g.fullIdx idx = idx % 2 ^ (p + r) := by
  rw [fullIdx, shape.usedBits, Nat.and_two_pow_sub_one_eq_mod]

theorem capacity_eq : g.capacity = 2 ^ (p + r) := by
  rw [capacity, shape.usedBits, Nat.sub_add_cancel (Nat.two_pow_pos _)]

/-- The position of a pool does not wrap around in 64 bits. -/
theorem shiftLeft_eq (pool : ℕ) :
    ((pool &&& g.rootMask) <<< g.rootMaskShift) % 2 ^ digits = pool * 2 ^ p % 2 ^ (p + r) := by
  have below := Nat.mod_lt (pool * 2 ^ p) (Nat.two_pow_pos (p + r))
  have most : 2 ^ (p + r) ≤ 2 ^ digits := Nat.pow_le_pow_right Nat.two_pos shape.fits
  rw [shape.rootMask, shape.rootMaskShift, Nat.and_two_pow_sub_one_eq_mod, Nat.shiftLeft_eq,
    ← mul_two_pow_mod, Nat.mod_eq_of_lt (below.trans_le most)]

end BitMaskCalculator.Shape

end Crs.RingPool
