import Crs.Foundation.Memory

/-!
# Records of one size

A list of records is stored in a block, one record after the other. All records have one size,
so the place of a record is a product.
-/

namespace Foundation.Records

open Memory

variable {ρ β : Type*} (encode : ρ → List β)

def image (records : List ρ) : List β := records.flatMap encode

/-- A front of a block, cut into parts of one size. -/
theorem flatMap_range (block : List β) (size count : ℕ) :
    (List.range count).flatMap (fun k => (block.drop (k * size)).take size) =
      block.take (count * size) := by
  induction count with
  | zero => simp
  | succ count ih =>
    rw [List.range_succ, List.flatMap_append, ih, Nat.succ_mul, List.take_add]
    simp

variable {encode} {size k : ℕ} {records : List ρ} {r : ρ}
  (sized : ∀ r, (encode r).length = size)

include sized

theorem length_image : (image encode records).length = records.length * size := by
  induction records with
  | nil => simp [image]
  | cons r records ih =>
    rw [image, List.flatMap_cons, List.length_append, sized, ← image, ih, List.length_cons,
      Nat.succ_mul, Nat.add_comm]

theorem drop_image : (image encode records).drop (k * size) = image encode (records.drop k) := by
  induction records generalizing k with
  | nil => simp [image]
  | cons r records ih =>
    cases k with
    | zero => simp
    | succ k =>
      rw [image, List.flatMap_cons, Nat.succ_mul, Nat.add_comm, ← List.drop_drop,
        List.drop_left' (sized r), ← image, ih, List.drop_succ_cons]

theorem take_image : (image encode records).take (k * size) = image encode (records.take k) := by
  induction records generalizing k with
  | nil => simp [image]
  | cons r records ih =>
    cases k with
    | zero => simp [image]
    | succ k =>
      rw [image, List.flatMap_cons, ← image, Nat.succ_mul, Nat.add_comm, List.take_add,
        List.take_left' (sized r), List.drop_left' (sized r), ih, List.take_succ_cons]
      rfl

/-- What is read at the place of a record. -/
theorem read_image (positive : 0 < size) :
    read (image encode records) (k * size) size = records[k]?.map encode := by
  rw [Memory.read, length_image sized, ← Nat.succ_mul]
  by_cases inside : k < records.length
  · rw [if_pos (Nat.mul_le_mul_right size inside), drop_image sized,
      List.drop_eq_getElem_cons inside, image, List.flatMap_cons, List.take_left' (sized _),
      List.getElem?_eq_getElem inside, Option.map_some]
  · have beyond : ¬(k + 1) * size ≤ records.length * size :=
      fun small => inside (Nat.le_of_mul_le_mul_right small positive)
    rw [if_neg beyond, List.getElem?_eq_none (not_lt.mp inside), Option.map_none]

/-- The block with a record in place of the one at `k`, or behind the last one. -/
theorem overwrite : (image encode records).take (k * size) ++ encode r ++
    (image encode records).drop (k * size + size) =
      image encode (records.take k ++ r :: records.drop (k + 1)) := by
  rw [take_image sized, ← Nat.succ_mul, drop_image sized]
  simp [image]

theorem write_image (inside : k < records.length) :
    write (image encode records) (k * size) (encode r) = some (image encode (records.set k r)) := by
  have fits : k * size + (encode r).length ≤ (image encode records).length := by
    rw [sized, length_image sized, ← Nat.succ_mul]
    exact Nat.mul_le_mul_right size inside
  rw [write_of_le fits, sized, overwrite sized, List.set_eq_take_append_cons_drop, if_pos inside]

end Foundation.Records
