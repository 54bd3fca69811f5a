import Mathlib.Data.Int.ModEq
import Mathlib.Data.UInt

/-!
# Machine words as numbers

The unsigned types of a C program step and wrap modulo a power of two. These lemmas
say when a step does not wrap, and what sums and differences are modulo a smaller power.
-/

namespace Foundation.Word

variable {x : UInt32}

theorem toNat_pos_iff : 0 < x.toNat ↔ x ≠ 0 := by
  rw [Nat.pos_iff_ne_zero, ← UInt32.toNat_zero, Ne, UInt32.toNat_inj]

/-- The predecessor of a number that is not zero. -/
theorem toNat_pred (nonzero : x ≠ 0) : (x - 1).toNat + 1 = x.toNat := by
  have pos := toNat_pos_iff.mpr nonzero
  have one : (1 : UInt32) ≤ x := UInt32.le_iff_toNat_le.mpr pos
  rw [UInt32.toNat_sub_of_le _ _ one]
  show x.toNat - 1 + 1 = x.toNat
  omega

section Residues

variable {n : ℕ} (fits : n ≤ 64) (a b : UInt64)

include fits

theorem toNat_add_modEq : (a + b).toNat ≡ a.toNat + b.toNat [MOD 2 ^ n] := by
  rw [UInt64.toNat_add]
  exact (Nat.mod_modEq _ _).of_dvd (pow_dvd_pow 2 fits)

theorem toNat_sub_modEq : (a - b).toNat + b.toNat ≡ a.toNat [MOD 2 ^ n] := by
  have back := toNat_add_modEq fits (a - b) b
  rw [UInt64.sub_add_cancel] at back
  exact back.symm

theorem toNat_add_intModEq : ((a + b).toNat : ℤ) ≡ a.toNat + b.toNat [ZMOD (2 ^ n : ℕ)] :=
  mod_cast Int.natCast_modEq_iff.mpr (toNat_add_modEq fits a b)

theorem toNat_sub_intModEq : ((a - b).toNat : ℤ) ≡ a.toNat - b.toNat [ZMOD (2 ^ n : ℕ)] := by
  have back : ((a - b).toNat : ℤ) + b.toNat ≡ a.toNat [ZMOD (2 ^ n : ℕ)] :=
    mod_cast Int.natCast_modEq_iff.mpr (toNat_sub_modEq fits a b)
  simpa using back.sub_right (b.toNat : ℤ)

/-- A sum is determined by its parts. -/
theorem toNat_add_congr {a' b' : UInt64} (left : a'.toNat ≡ a.toNat [MOD 2 ^ n])
    (right : b'.toNat ≡ b.toNat [MOD 2 ^ n]) :
    (a + b).toNat ≡ (a' + b').toNat [MOD 2 ^ n] :=
  (toNat_add_modEq fits a b).trans
    ((left.add right).symm.trans (toNat_add_modEq fits a' b').symm)

/-- A difference is determined by its parts. -/
theorem toNat_sub_congr {a' b' : UInt64} (left : a'.toNat ≡ a.toNat [MOD 2 ^ n])
    (right : b'.toNat ≡ b.toNat [MOD 2 ^ n]) :
    (a - b).toNat ≡ (a' - b').toNat [MOD 2 ^ n] := by
  apply Nat.ModEq.add_right_cancel right.symm
  exact (toNat_sub_modEq fits a b).trans (left.symm.trans (toNat_sub_modEq fits a' b').symm)

end Residues

/-- A number that is converted to 64 bits keeps its residues. -/
theorem toNat_ofInt_intModEq {n : ℕ} (fits : n ≤ 64) (x : ℤ) :
    ((UInt64.ofInt x).toNat : ℤ) ≡ x [ZMOD (2 ^ n : ℕ)] := by
  have word : ((UInt64.ofInt x).toNat : ℤ) = x % 2 ^ 64 := by
    have nonneg : 0 ≤ x % 2 ^ 64 := Int.emod_nonneg _ (by decide)
    have below : x % 2 ^ 64 < 2 ^ 64 := Int.emod_lt_of_pos _ (by decide)
    rw [UInt64.ofInt, UInt64.toNat_ofNat_of_lt' (by rw [UInt64.size]; omega),
      Int.toNat_of_nonneg nonneg]
  have divides : ((2 ^ n : ℕ) : ℤ) ∣ 2 ^ 64 := mod_cast pow_dvd_pow 2 fits
  rw [word]
  exact (Int.mod_modEq x (2 ^ 64)).of_dvd divides

theorem ofInt_natCast (n : ℕ) : UInt64.ofInt n = UInt64.ofNat n := by
  apply UInt64.toNat_inj.mp
  rw [UInt64.ofInt, UInt64.toNat_ofNat', UInt64.toNat_ofNat']
  omega

/-- The difference of two numbers that fit an `int`, calculated in 64 bits and converted. -/
theorem toInt_ofNat_sub {l r : ℕ} (left : l < 2 ^ 31) (right : r < 2 ^ 31) :
    (Int32.ofNat (UInt64.ofNat l - UInt64.ofNat r).toNat).toInt = l - r := by
  have residue := toNat_sub_intModEq (n := 32) (by decide) (UInt64.ofNat l) (UInt64.ofNat r)
  rw [UInt64.toNat_ofNat_of_lt' (by rw [UInt64.size]; omega),
    UInt64.toNat_ofNat_of_lt' (by rw [UInt64.size]; omega)] at residue
  have same : ((UInt64.ofNat l - UInt64.ofNat r).toNat : ℤ) % (4294967296 : ℕ) =
      ((l : ℤ) - r) % (4294967296 : ℕ) := residue
  rw [Int32.toInt_ofNat', Int32.size, ← Int.emod_bmod, same, Int.emod_bmod,
    Int.bmod_eq_of_le (by omega) (by omega)]

end Foundation.Word
