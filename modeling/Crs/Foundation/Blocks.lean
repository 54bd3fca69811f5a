import Mathlib.Data.List.Basic

/-!
# Blocks of a stream

A stream is cut into consecutive blocks of one size; what is left at its end is shorter
than a block.
-/

namespace Foundation

variable {α : Type*} {size : Nat} {stream front rest : List α} {parts : List (List α)}

/-- The blocks that a stream contains completely. -/
def blocks (size : Nat) (stream : List α) : List (List α) :=
  (List.range (stream.length / size)).map fun k => (stream.drop (k * size)).take size

/-- What is left behind the blocks. -/
def blocksTail (size : Nat) (stream : List α) : List α :=
  stream.drop (stream.length / size * size)

theorem blocks_of_short (short : stream.length < size) : blocks size stream = [] := by
  simp [blocks, Nat.div_eq_of_lt short]

@[simp] theorem blocks_nil : blocks size ([] : List α) = [] := by
  simp [blocks]

theorem blocks_append (rest : List α) (positive : 0 < size) (sized : front.length = size) :
    blocks size (front ++ rest) = front :: blocks size rest := by
  have count : (front ++ rest).length / size = rest.length / size + 1 := by
    rw [List.length_append, sized, Nat.add_div_left _ positive]
  have later : ∀ k, (front ++ rest).drop ((k + 1) * size) = rest.drop (k * size) := by
    intro k
    rw [Nat.succ_mul, Nat.add_comm, ← List.drop_drop, List.drop_left' sized]
  rw [blocks, count]
  simp [blocks, List.range_succ_eq_map, Function.comp_def, later, List.take_left' sized]

theorem blocks_of_length (positive : 0 < size) (sized : front.length = size) :
    blocks size front = [front] := by
  have one := blocks_append [] positive sized
  rwa [List.append_nil, blocks_nil] at one

theorem blocksTail_append (positive : 0 < size) (sized : front.length = size) :
    blocksTail size (front ++ rest) = blocksTail size rest := by
  rw [blocksTail, List.length_append, sized, Nat.add_div_left _ positive, Nat.succ_mul,
    Nat.add_comm, ← List.drop_drop, List.drop_left' sized, blocksTail]

/-- Parts of the right size are blocks. -/
theorem blocks_flatten (positive : 0 < size) (sized : ∀ part ∈ parts, part.length = size) :
    blocks size (parts.flatten ++ rest) = parts ++ blocks size rest := by
  induction parts with
  | nil => rfl
  | cons part parts ih =>
    obtain ⟨first, others⟩ := List.forall_mem_cons.mp sized
    rw [List.flatten_cons, List.append_assoc, blocks_append _ positive first, ih others,
      List.cons_append]

theorem blocksTail_flatten (positive : 0 < size) (sized : ∀ part ∈ parts, part.length = size) :
    blocksTail size (parts.flatten ++ rest) = blocksTail size rest := by
  induction parts with
  | nil => rfl
  | cons part parts ih =>
    obtain ⟨first, others⟩ := List.forall_mem_cons.mp sized
    rw [List.flatten_cons, List.append_assoc, blocksTail_append positive first, ih others]

theorem blocksTail_of_short (short : stream.length < size) : blocksTail size stream = stream := by
  simp [blocksTail, Nat.div_eq_of_lt short]

end Foundation
