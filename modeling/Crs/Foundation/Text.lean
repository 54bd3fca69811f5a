import Mathlib.Data.List.Infix
import Mathlib.Data.List.TakeWhile

/-!
# Characters and pieces of a text

The white space of the C locale, and texts as pieces between a separator.
-/

namespace Foundation

/-- White space in the C locale. -/
def isspace (c : Char) : Bool :=
  c ∈ [' ', '\t', '\n', '\x0b', '\x0c', '\r']

namespace Text

variable {α : Type*}

/-- Pieces, each behind a separator. -/
def behind (sep : α) (pieces : List (List α)) : List α :=
  pieces.flatMap (sep :: ·)

@[simp] theorem behind_nil (sep : α) : behind sep [] = [] := rfl

@[simp] theorem behind_cons (sep : α) (piece : List α) (pieces : List (List α)) :
    behind sep (piece :: pieces) = sep :: (piece ++ behind sep pieces) := by
  simp [behind]

theorem intercalate_cons (sep : α) (piece : List α) (pieces : List (List α)) :
    [sep].intercalate (piece :: pieces) = piece ++ behind sep pieces := by
  induction pieces generalizing piece with
  | nil => simp
  | cons next pieces ih => simp [ih]

variable [DecidableEq α]

theorem not_mem_of_mem_splitOn {sep : α} {text piece : List α} (member : piece ∈ text.splitOn sep) :
    sep ∉ piece := by
  induction text generalizing piece with
  | nil => simp_all
  | cons c text ih =>
    rw [List.splitOn_cons_eq_if_modifyHead] at member
    cases pieces : text.splitOn sep with
    | nil => simp at pieces
    | cons first others =>
      rw [pieces] at ih member
      split at member
      · obtain rfl | member := List.mem_cons.mp member
        · simp
        · exact ih member
      · rename_i other
        obtain rfl | member := List.mem_cons.mp member
        · rw [List.mem_cons, not_or]
          exact ⟨fun same => other (by simp [same]), ih List.mem_cons_self⟩
        · exact ih (List.mem_cons_of_mem _ member)

theorem length_splitOn_le (sep : α) (text : List α) :
    (text.splitOn sep).length ≤ text.length + 1 := by
  induction text with
  | nil => simp
  | cons c text ih =>
    rw [List.splitOn_cons_eq_if_modifyHead]
    split
    · simpa using ih
    · simpa using Nat.le_succ_of_le ih

/-- A text is its pieces, with separators between them. -/
theorem eq_append_behind {sep : α} {text first : List α} {others : List (List α)}
    (pieces : text.splitOn sep = first :: others) : text = first ++ behind sep others := by
  rw [← intercalate_cons, ← pieces, List.intercalate_splitOn]

theorem length_le_of_mem_splitOn {sep : α} {text piece : List α}
    (member : piece ∈ text.splitOn sep) : piece.length ≤ text.length := by
  cases pieces : text.splitOn sep with
  | nil => exact absurd pieces (List.splitOn_ne_nil _ _)
  | cons first others =>
    rw [pieces] at member
    rw [eq_append_behind pieces, List.length_append]
    obtain rfl | member := List.mem_cons.mp member
    · exact Nat.le_add_right _ _
    · have inside := (List.sublist_flatten_of_mem
        (List.mem_map.mpr ⟨piece, member, rfl⟩ : sep :: piece ∈ others.map (sep :: ·))).length_le
      rw [List.length_cons] at inside
      rw [behind, List.flatMap_def]
      omega

end Text

end Foundation
