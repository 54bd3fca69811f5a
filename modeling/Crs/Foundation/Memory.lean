import Mathlib.Data.List.Basic
import Mathlib.Data.UInt
import Mathlib.Algebra.Order.Ring.Nat
import Mathlib.Tactic.Ring

/-!
# Blocks of memory and words in them

A block is a list of cells. `read` and `write` are the bounded copies of a C program
and answer `none` outside the block. Words are stored with the lowest byte first.
-/

namespace Foundation.Memory

section Blocks

variable {α : Type*}

/-- The cells from `offset` on. -/
def read (block : List α) (offset count : Nat) : Option (List α) :=
  if offset + count ≤ block.length then some ((block.drop offset).take count) else none

/-- The block after its cells from `offset` on were replaced. -/
def write (block : List α) (offset : Nat) (cells : List α) : Option (List α) :=
  if offset + cells.length ≤ block.length then
    some (block.take offset ++ cells ++ block.drop (offset + cells.length))
  else none

variable {block cells : List α} {offset count : Nat}

theorem read_of_le (inside : offset + count ≤ block.length) :
    read block offset count = some ((block.drop offset).take count) := if_pos inside

theorem write_of_le (inside : offset + cells.length ≤ block.length) :
    write block offset cells =
      some (block.take offset ++ cells ++ block.drop (offset + cells.length)) := if_pos inside

theorem write_of_lt (outside : block.length < offset + cells.length) :
    write block offset cells = none := if_neg (by omega)

/-- Writing behind a known front. -/
theorem write_append (front cells rest : List α) (behind : offset = front.length)
    (inside : cells.length ≤ rest.length) :
    write (front ++ rest) offset cells = some (front ++ cells ++ rest.drop cells.length) := by
  subst behind
  rw [write_of_le (by simp only [List.length_append]; omega), List.take_left, ← List.drop_drop,
    List.drop_left]

/-- A write keeps the length, and the front of the block ends with what was written. -/
theorem write_spec (block : List α) (offset : Nat) (cells : List α)
    (inside : offset + cells.length ≤ block.length) :
    ∃ block', write block offset cells = some block' ∧ block'.length = block.length ∧
      block'.take (offset + cells.length) = block.take offset ++ cells := by
  have front : (block.take offset ++ cells).length = offset + cells.length := by
    simp only [List.length_append, List.length_take]
    omega
  refine ⟨_, write_of_le inside, ?_, List.take_left' front⟩
  simp only [List.length_append, List.length_take, List.length_drop]
  omega

/-- What is read in front of `last` does not depend on the rest. -/
theorem read_take {last : Nat} (inside : offset + count ≤ last) :
    read (block.take last) offset count = read block offset count := by
  simp only [read, List.length_take, List.drop_take, List.take_take]
  rw [Nat.min_eq_left (show count ≤ last - offset by omega)]
  split
  · rw [if_pos (by omega)]
  · rw [if_neg (by omega)]

/-- The next cells of the part of a block in front of `last`. -/
theorem drop_take_split (block : List α) {last : Nat} (enough : count ≤ last - offset) :
    (block.take last).drop offset =
      (block.drop offset).take count ++ (block.take last).drop (offset + count) := by
  have split := List.take_append_drop count ((block.take last).drop offset)
  rw [List.drop_drop] at split
  rw [← split, List.drop_take, List.take_take, Nat.min_eq_left enough, List.drop_take]

/-- What is left behind the first `offset` cells of those in front of `last` goes to the begin. -/
theorem exists_move (block : List α) {last : Nat} (inside : offset ≤ last)
    (filled : last ≤ block.length) : ∃ rest block',
      read block offset (last - offset) = some rest ∧ write block 0 rest = some block' ∧
      block'.length = block.length ∧
        block'.take (last - offset) = (block.take last).drop offset := by
  have length : ((block.drop offset).take (last - offset)).length = last - offset := by
    rw [List.length_take, List.length_drop]
    omega
  obtain ⟨block', writes, same, front⟩ :=
    write_spec block 0 ((block.drop offset).take (last - offset)) (by omega)
  refine ⟨_, block', read_of_le (by omega), writes, same, ?_⟩
  simpa [length, List.drop_take] using front

end Blocks

/-- The lowest bytes of a number, lowest first. -/
def bytesOf (width value : Nat) : List UInt8 :=
  (List.range width).map fun k => UInt8.ofNat (value / 256 ^ k)

/-- The number that bytes stand for, lowest first. -/
def valueOf (bytes : List UInt8) : Nat :=
  bytes.foldr (fun byte higher => byte.toNat + 256 * higher) 0

@[simp] theorem length_bytesOf (width value : Nat) : (bytesOf width value).length = width := by
  simp [bytesOf]

theorem bytesOf_succ (width value : Nat) :
    bytesOf (width + 1) value = UInt8.ofNat value :: bytesOf width (value / 256) := by
  simp only [bytesOf, List.range_succ_eq_map, List.map_cons, List.map_map, pow_zero, Nat.div_one]
  congr 1
  apply List.map_congr_left
  intro k _
  simp only [Function.comp, Nat.pow_succ', Nat.div_div_eq_div_mul]

/-- What was stored is read back, up to the width of the word. -/
theorem valueOf_bytesOf (width value : Nat) :
    valueOf (bytesOf width value) = value % 256 ^ width := by
  induction width generalizing value with
  | zero => simp [valueOf, bytesOf, Nat.mod_one]
  | succ width ih =>
      have low : (UInt8.ofNat value).toNat = value % 256 := rfl
      rw [bytesOf_succ]
      show (UInt8.ofNat value).toNat + 256 * valueOf (bytesOf width (value / 256)) = _
      rw [low, ih, pow_succ', Nat.mod_mul]

theorem valueOf_lt (bytes : List UInt8) : valueOf bytes < 256 ^ bytes.length := by
  induction bytes with
  | nil => simp [valueOf]
  | cons byte bytes ih =>
      have low := byte.toNat_lt
      show byte.toNat + 256 * valueOf bytes < 256 ^ (bytes.length + 1)
      rw [pow_succ']
      omega

/-- A word that was read is stored again as it was. -/
theorem bytesOf_valueOf (bytes : List UInt8) : bytesOf bytes.length (valueOf bytes) = bytes := by
  induction bytes with
  | nil => rfl
  | cons byte bytes ih =>
      have value : valueOf (byte :: bytes) = byte.toNat + 256 * valueOf bytes := rfl
      have low := byte.toNat_lt
      have first : UInt8.ofNat (valueOf (byte :: bytes)) = byte := by
        apply UInt8.toNat_inj.mp
        rw [value, UInt8.toNat_ofNat']
        omega
      have rest : valueOf (byte :: bytes) / 256 = valueOf bytes := by
        rw [value]
        omega
      rw [List.length_cons, bytesOf_succ, first, rest, ih]

end Foundation.Memory
