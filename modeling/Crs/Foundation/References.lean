import Mathlib.Data.List.Basic
import Mathlib.Logic.Function.Basic

/-!
# Names that refer to shared values

A value is made under a name, other names can be made to refer to it, and whoever modifies it
modifies it for all of them. Values are never taken away, so there is nothing to count and
nothing to free: this is what counted references look like to those who use them.
-/

namespace Foundation

/-- The values in the order in which they were made, and the one that each name refers to. -/
structure References (H V : Type*) where
  made : List V
  ref : H → Option ℕ
  inside : ∀ h n, ref h = some n → n < made.length

namespace References

variable {H V : Type*}

def empty (H V : Type*) : References H V := ⟨[], fun _ => none, nofun⟩

/-- The value that a name refers to. -/
def value (r : References H V) (h : H) : Option V := (r.ref h).bind fun n => r.made[n]?

/-- Both names refer to one value. -/
def Shared (r : References H V) (h k : H) : Prop := (r.ref h).isSome ∧ r.ref k = r.ref h

instance (r : References H V) (h k : H) : Decidable (r.Shared h k) :=
  inferInstanceAs (Decidable (_ ∧ _))

section Operations

variable [DecidableEq H] (r : References H V)

def create (h : H) (v : V) : References H V where
  made := r.made ++ [v]
  ref := Function.update r.ref h (some r.made.length)
  inside k n here := by
    rw [List.length_append, List.length_singleton]
    obtain rfl | other := eq_or_ne k h
    · rw [Function.update_self] at here
      obtain rfl := Option.some.inj here
      exact Nat.lt_succ_self _
    · rw [Function.update_of_ne other] at here
      exact Nat.lt_succ_of_lt (r.inside k n here)

/-- The name `h` refers to what `o` refers to. -/
def share (h o : H) : References H V where
  made := r.made
  ref := Function.update r.ref h (r.ref o)
  inside k n here := by
    obtain rfl | other := eq_or_ne k h
    · rw [Function.update_self] at here
      exact r.inside o n here
    · rw [Function.update_of_ne other] at here
      exact r.inside k n here

def drop (h : H) : References H V where
  made := r.made
  ref := Function.update r.ref h none
  inside k n here := by
    obtain rfl | other := eq_or_ne k h
    · rw [Function.update_self] at here
      cases here
    · rw [Function.update_of_ne other] at here
      exact r.inside k n here

omit [DecidableEq H] in
/-- The value under the name is modified, where there is one. -/
def modify (h : H) (f : V → V) : References H V where
  made := match r.ref h with
    | none => r.made
    | some n => r.made.modify n f
  ref := r.ref
  inside k n here := by
    have before := r.inside k n here
    cases r.ref h with
    | none => exact before
    | some m => simpa using before

end Operations

section Values

variable [DecidableEq H] {r : References H V} {h k o : H} {v : V} {f : V → V}

theorem value_create : (r.create h v).value k = if k = h then some v else r.value k := by
  simp only [value, create]
  split
  · subst k
    simp
  · rename_i other
    rw [Function.update_of_ne other]
    cases here : r.ref k with
    | none => rfl
    | some n =>
      show (r.made ++ [v])[n]? = r.made[n]?
      exact List.getElem?_append_left (r.inside k n here)

theorem value_share : (r.share h o).value k = if k = h then r.value o else r.value k := by
  simp only [value, share]
  split
  · subst k
    rw [Function.update_self]
  · rename_i other
    rw [Function.update_of_ne other]

theorem value_drop : (r.drop h).value k = if k = h then none else r.value k := by
  simp only [value, drop]
  split
  · subst k
    rw [Function.update_self]
    rfl
  · rename_i other
    rw [Function.update_of_ne other]

omit [DecidableEq H] in
/-- A modification is seen under the names that share the value, and under no other one. -/
theorem value_modify :
    (r.modify h f).value k = if r.Shared h k then (r.value k).map f else r.value k := by
  simp only [value, modify]
  cases here : r.ref h with
  | none =>
    rw [if_neg (by simp [Shared, here])]
  | some n =>
    cases there : r.ref k with
    | none => simp
    | some m =>
      simp only [Option.bind_some, List.getElem?_modify]
      obtain rfl | other := eq_or_ne m n
      · rw [if_pos (by simp [Shared, here, there])]
        simp
      · rw [if_neg (by simpa [Shared, here, there] using other)]
        simp [other.symm]

end Values

end References

end Foundation
