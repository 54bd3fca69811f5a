import Mathlib.Data.Nat.Basic
import Mathlib.Order.Basic

/-!
# Binary search with its reads

A computation that looks at positions keeps a list of them, and has no result if one of them
cannot be read. The search for the border of a partition goes by iterators: it knows how to
advance one, and a test of what is there. It ends at the border, and looks inside its range
only.
-/

namespace Foundation

/-- The positions that were looked at, and what came of it. -/
structure Looked (ι β : Type) where
  positions : List ι
  result : Option β
  deriving DecidableEq

namespace Looked

variable {ι β γ : Type}

/-- What a position holds. -/
def read (content : ι → Option β) (i : ι) : Looked ι β := ⟨[i], content i⟩

instance {ι : Type} : Monad (Looked ι) where
  pure b := ⟨[], some b⟩
  bind looked next :=
    match looked.result with
    | none => ⟨looked.positions, none⟩
    | some b => ⟨looked.positions ++ (next b).positions, (next b).result⟩

theorem bind_some (positions : List ι) (b : β) (next : β → Looked ι γ) :
    (⟨positions, some b⟩ : Looked ι β) >>= next =
      ⟨positions ++ (next b).positions, (next b).result⟩ := rfl

theorem read_bind {content : ι → Option β} {i : ι} {b : β} (here : content i = some b)
    (next : β → Looked ι γ) :
    read content i >>= next = ⟨i :: (next b).positions, (next b).result⟩ := by
  rw [read, here]
  rfl

theorem mem_read_bind (content : ι → Option β) (i : ι) (next : β → Looked ι γ) :
    i ∈ (read content i >>= next).positions := by
  cases here : content i with
  | none => simp [read, here, Bind.bind]
  | some b => simp [read_bind here]

end Looked

namespace BinarySearch

variable {ι : Type} (advance : ι → ℕ → ι) (passes : ι → Option Bool)

/-- The loop over `len` iterators from `first` on, with a bound for its rounds. The iterators
that pass the test are in front. -/
def search : (rounds : ℕ) → ι → (len : ℕ) → Looked ι ι
  | 0, first, _ => pure first
  | rounds + 1, first, len =>
      if len = 0 then pure first
      else do
        let half := len / 2
        let middle := advance first half
        if ← Looked.read passes middle then search rounds (advance middle 1) (len - half - 1)
        else search rounds first half

/-- The first `k` of `len` pass the test, and the others do not. -/
structure Border (test : ℕ → Option Bool) (len k : ℕ) : Prop where
  within : k ≤ len
  below : ∀ j < k, test j = some true
  above : ∀ j, k ≤ j → j < len → test j = some false

variable {advance} {passes}

/-- The search ends at the border. -/
theorem search_spec {rounds len k : ℕ} {first : ι} (enough : len ≤ rounds)
    (start : advance first 0 = first)
    (steps : ∀ a b, a + b ≤ len → advance (advance first a) b = advance first (a + b))
    (border : Border (fun j => passes (advance first j)) len k) :
    ∃ positions, search advance passes rounds first len = ⟨positions, some (advance first k)⟩ ∧
      ∀ i ∈ positions, ∃ j < len, i = advance first j := by
  induction rounds generalizing first len k with
  | zero =>
    obtain rfl : k = 0 := by have within := border.within; omega
    exact ⟨[], by rw [search, start]; rfl, by simp⟩
  | succ rounds ih =>
    rw [search]
    by_cases none : len = 0
    · obtain rfl : k = 0 := by have within := border.within; omega
      exact ⟨[], by rw [if_pos none, start]; rfl, by simp⟩
    · rw [if_neg none]
      by_cases passed : len / 2 < k
      · -- the middle passes, and the border is behind it
        have next : advance (advance first (len / 2)) 1 = advance first (len / 2 + 1) :=
          steps _ _ (by omega)
        have shift (j : ℕ) (inside : j ≤ len - len / 2 - 1) :
            advance (advance first (len / 2 + 1)) j = advance first (len / 2 + 1 + j) :=
          steps _ _ (by omega)
        have rest : Border (fun j => passes (advance (advance first (len / 2 + 1)) j))
            (len - len / 2 - 1) (k - (len / 2 + 1)) := by
          have within := border.within
          refine ⟨by omega, fun j less => ?_, fun j least less => ?_⟩
          · simp only [shift j (by omega)]
            exact border.below _ (by omega)
          · simp only [shift j (by omega)]
            exact border.above _ (by omega) (by omega)
        obtain ⟨positions, found, inside⟩ := ih (by omega)
          (by rw [shift 0 (by omega), Nat.add_zero])
          (fun a b sum => by rw [shift a (by omega), shift _ (by omega), steps _ _ (by omega),
            Nat.add_assoc]) rest
        rw [Looked.read_bind (border.below _ passed), if_pos rfl, next, found,
          shift _ (by have within := border.within; omega), Nat.add_sub_cancel' passed]
        refine ⟨_, rfl, fun i member => ?_⟩
        obtain rfl | member := List.mem_cons.mp member
        · exact ⟨len / 2, by omega, rfl⟩
        · obtain ⟨j, less, rfl⟩ := inside i member
          exact ⟨len / 2 + 1 + j, by omega, shift j (by omega)⟩
      · have front : Border (fun j => passes (advance first j)) (len / 2) k :=
          ⟨by omega, border.below, fun j least less => border.above j least (by omega)⟩
        obtain ⟨positions, found, inside⟩ := ih (by omega) start
          (fun a b sum => steps a b (by omega)) front
        rw [Looked.read_bind (border.above _ (by omega) (by omega)), if_neg (by decide), found]
        refine ⟨_, rfl, fun i member => ?_⟩
        obtain rfl | member := List.mem_cons.mp member
        · exact ⟨len / 2, by omega, rfl⟩
        · obtain ⟨j, less, rfl⟩ := inside i member
          exact ⟨j, by omega, rfl⟩

/-- A test that does not pass behind a failure has a border. -/
theorem exists_border {test : ℕ → Option Bool} {len : ℕ}
    (defined : ∀ j < len, ∃ b, test j = some b)
    (falls : ∀ i j, i ≤ j → j < len → test j = some true → test i = some true) :
    ∃ k, Border test len k := by
  induction len with
  | zero => exact ⟨0, le_rfl, by simp, fun j _ less => absurd less (Nat.not_lt_zero j)⟩
  | succ len ih =>
    obtain ⟨b, last⟩ := defined len (Nat.lt_succ_self len)
    cases b with
    | true =>
      exact ⟨len + 1, le_rfl, fun j less => falls j len (by omega) (by omega) last,
        fun j least less => absurd less (by omega)⟩
    | false =>
      obtain ⟨k, within, below, above⟩ := ih (fun j less => defined j (by omega))
        fun i j least less => falls i j least (by omega)
      refine ⟨k, by omega, below, fun j least less => ?_⟩
      obtain rfl | inside := (Nat.lt_succ_iff.mp less).eq_or_lt
      · exact last
      · exact above j least inside

end BinarySearch

end Foundation
