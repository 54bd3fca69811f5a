import Mathlib.Data.List.Basic
import Mathlib.Order.Bounds.Basic

/-!
# The first occurrence of a sample

A sample occurs in a text at an offset where the rest of the text begins with it. What stands in
front of a text moves its first occurrence, unless there is one that begins in front.
-/

namespace Foundation.Occurrence

variable {α : Type*} {sample front text : List α} {result : Option ℕ}

/-- Where the sample occurs first, from an offset on. -/
def IsFirst (sample text : List α) (start : ℕ) : Option ℕ → Prop
  | some n => IsLeast {n | start ≤ n ∧ sample <+: text.drop n} n
  | none => ∀ n, start ≤ n → ¬sample <+: text.drop n

/-- An offset is counted from the start. -/
theorem isFirst_drop_iff (sample text : List α) (start : ℕ) :
    IsFirst sample text start (result.map (· + start)) ↔
      IsFirst sample (text.drop start) 0 result := by
  have shift (i : ℕ) : (text.drop start).drop i = text.drop (i + start) := by
    rw [List.drop_drop, Nat.add_comm]
  cases result with
  | none =>
    simp only [Option.map_none, IsFirst, shift]
    constructor
    · exact fun never i _ => never (i + start) (Nat.le_add_left _ _)
    · intro never n least
      have here := never (n - start) (Nat.zero_le _)
      rwa [Nat.sub_add_cancel least] at here
  | some i =>
    simp only [Option.map_some, IsFirst, shift]
    constructor
    · rintro ⟨⟨-, here⟩, first⟩
      refine ⟨⟨Nat.zero_le _, here⟩, fun j ⟨_, occurs⟩ => ?_⟩
      exact Nat.le_of_add_le_add_right (first ⟨Nat.le_add_left _ _, occurs⟩)
    · rintro ⟨⟨-, here⟩, first⟩
      refine ⟨⟨Nat.le_add_left _ _, here⟩, fun n ⟨least, occurs⟩ => ?_⟩
      obtain ⟨j, rfl⟩ := Nat.exists_eq_add_of_le' least
      exact Nat.add_le_add_right (first ⟨Nat.zero_le _, occurs⟩) start

/-- The first occurrence is behind the front exactly if none begins there. -/
theorem isFirst_append_iff : IsFirst sample (front ++ text) 0 (result.map (· + front.length)) ↔
    (∀ i < front.length, ¬sample <+: (front ++ text).drop i) ∧ IsFirst sample text 0 result := by
  have later : IsFirst sample (front ++ text) front.length (result.map (· + front.length)) ↔
      IsFirst sample text 0 result := by
    rw [isFirst_drop_iff, List.drop_left]
  rw [← later]
  cases result with
  | none =>
    simp only [Option.map_none, IsFirst]
    constructor
    · exact fun never => ⟨fun i _ => never i (Nat.zero_le _), fun n _ => never n (Nat.zero_le _)⟩
    · rintro ⟨early, late⟩ n -
      obtain less | least := lt_or_ge n front.length
      · exact early n less
      · exact late n least
  | some i =>
    simp only [Option.map_some, IsFirst]
    constructor
    · rintro ⟨⟨-, here⟩, first⟩
      refine ⟨fun j less occurs => ?_, ⟨Nat.le_add_left _ _, here⟩, fun n ⟨_, occurs⟩ =>
        first ⟨Nat.zero_le _, occurs⟩⟩
      have least := first (a := j) ⟨Nat.zero_le _, occurs⟩
      omega
    · rintro ⟨early, ⟨-, here⟩, first⟩
      refine ⟨⟨Nat.zero_le _, here⟩, fun n ⟨_, occurs⟩ => ?_⟩
      obtain less | least := lt_or_ge n front.length
      · exact absurd occurs (early n less)
      · exact first ⟨least, occurs⟩

/-- A text that is shorter than the sample has no occurrence. -/
theorem isFirst_of_short (short : text.length < sample.length) : IsFirst sample text 0 none := by
  intro n _ occurs
  have longer := occurs.length_le
  rw [List.length_drop] at longer
  omega

/-- A front as long as the sample is an occurrence exactly if it is the sample. -/
theorem isFirst_front_iff (sized : front.length = sample.length) :
    IsFirst sample (front ++ text) 0 (some 0) ↔ front = sample := by
  have begins : sample <+: front ++ text ↔ front = sample := by
    constructor
    · intro before
      exact ((List.prefix_of_prefix_length_le before (List.prefix_append front text)
        sized.ge).eq_of_length sized.symm).symm
    · rintro rfl
      exact List.prefix_append _ _
  rw [← begins]
  constructor
  · rintro ⟨⟨-, here⟩, -⟩
    exact here
  · exact fun here => ⟨⟨le_rfl, here⟩, fun n _ => Nat.zero_le n⟩

end Foundation.Occurrence
