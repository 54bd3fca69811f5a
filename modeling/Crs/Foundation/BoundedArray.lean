import Mathlib.Data.List.Basic
import Mathlib.Data.Int.Init
import Mathlib.Logic.Function.Basic

/-!
# Arrays with bounds

An array has a size and a contents for each index. The indices of a program are
integers, and an access outside the array is none. `foldlM_eq_some` is the rule
for a loop all of whose accesses are inside.
-/

namespace Foundation

variable {α σ ι : Type*}

section Loops

variable {step : σ → ι → Option σ} {s : σ} {l : List ι}

/-- A loop whose steps succeed under an invariant is the loop of their results. -/
theorem foldlM_eq_some {f : σ → ι → σ} {P : σ → Prop}
    (each : ∀ s, P s → ∀ i ∈ l, step s i = some (f s i) ∧ P (f s i)) (start : P s) :
    l.foldlM step s = some (l.foldl f s) ∧ P (l.foldl f s) := by
  induction l generalizing s with
  | nil => exact ⟨rfl, start⟩
  | cons i l ih =>
    obtain ⟨succeeds, kept⟩ := each s start i List.mem_cons_self
    rw [List.foldlM_cons, succeeds, List.foldl_cons]
    exact ih (fun s holds j member => each s holds j (List.mem_cons_of_mem i member)) kept

/-- A loop fails that comes by a step that does. -/
theorem foldlM_eq_none {i : ι} (member : i ∈ l) (fails : ∀ s, step s i = none) :
    l.foldlM step s = none := by
  induction l generalizing s with
  | nil => cases member
  | cons j l ih =>
    rw [List.foldlM_cons]
    obtain rfl | later := List.mem_cons.mp member
    · rw [fails]
      rfl
    · cases step s j with
      | none => rfl
      | some s => exact ih later

/-- What every step that succeeds keeps, a loop that succeeds keeps. -/
theorem foldlM_post {t : σ} {P : σ → Prop} (start : P s)
    (each : ∀ s t, P s → ∀ i ∈ l, step s i = some t → P t) (done : l.foldlM step s = some t) :
    P t := by
  induction l generalizing s with
  | nil =>
    cases done
    exact start
  | cons i l ih =>
    rw [List.foldlM_cons, Option.bind_eq_bind, Option.bind_eq_some_iff] at done
    obtain ⟨u, stepped, later⟩ := done
    have kept : P u := each s u start i List.mem_cons_self stepped
    exact ih kept (fun s t holds j member => each s t holds j (List.mem_cons_of_mem i member)) later

/-- A search whose tests succeed is a plain search. -/
theorem findM?_eq_some {β : Type} {test : β → Option Bool} {p : β → Bool} {l : List β}
    (each : ∀ b ∈ l, test b = some (p b)) : l.findM? test = some (l.find? p) := by
  induction l with
  | nil => rfl
  | cons b l ih =>
    obtain ⟨here, later⟩ := List.forall_mem_cons.mp each
    rw [List.findM?, here, List.find?_cons]
    cases p b with
    | false => exact ih later
    | true => rfl

end Loops

structure BoundedArray (α : Type*) where
  size : ℕ
  data : ℕ → α

namespace BoundedArray

variable {a src dst : BoundedArray α} {i : ℕ} {j : ℤ}

def get (a : BoundedArray α) (i : ℤ) : Option α :=
  if 0 ≤ i ∧ i < a.size then some (a.data i.toNat) else none

def set (a : BoundedArray α) (i : ℤ) (v : α) : Option (BoundedArray α) :=
  if 0 ≤ i ∧ i < a.size then some { a with data := Function.update a.data i.toNat v } else none

/-- Copy the `n` elements from the index `start` on to the same place of `dst`. -/
def copy (dst src : BoundedArray α) (start : ℤ) (n : ℕ) : Option (BoundedArray α) :=
  (List.range n).foldlM (fun dst (k : ℕ) => (src.get (start + k)).bind (dst.set (start + k))) dst

@[simp] theorem get_natCast (inside : i < a.size) : a.get i = some (a.data i) := by
  simp [get, inside]

@[simp] theorem set_mk {size : ℕ} {data : ℕ → α} (inside : i < size) (v : α) :
    (BoundedArray.mk size data).set i v = some ⟨size, Function.update data i v⟩ := by
  simp [set, inside]

theorem get_of_neg (negative : j < 0) : a.get j = none :=
  if_neg fun inside => absurd negative (Int.not_lt.mpr inside.1)

/-- A loop that only changes the contents. -/
theorem foldl_data (f : (ℕ → α) → ι → ℕ → α) (l : List ι) (a : BoundedArray α) :
    l.foldl (fun a i => { a with data := f a.data i }) a = { a with data := l.foldl f a.data } := by
  induction l generalizing a with
  | nil => rfl
  | cons i l ih => exact ih _

theorem copy_natCast {start n : ℕ} (readable : start + n ≤ src.size)
    (writable : start + n ≤ dst.size) :
    dst.copy src start n = some { dst with
      data := fun i => if start ≤ i ∧ i < start + n then src.data i else dst.data i } := by
  induction n with
  | zero =>
    have nothing (i : ℕ) : ¬(start ≤ i ∧ i < start + 0) := by omega
    simp only [nothing, if_false]
    rfl
  | succ n ih =>
    have index : (start : ℤ) + (n : ℤ) = ((start + n : ℕ) : ℤ) := (Int.natCast_add start n).symm
    have front := ih (by omega) (by omega)
    rw [copy] at front ⊢
    rw [List.range_succ, List.foldlM_append, front]
    simp only [List.foldlM_cons, List.foldlM_nil, Option.bind_eq_bind, Option.bind_some, index]
    rw [get_natCast (by omega), Option.bind_some, set_mk (by omega), Option.bind_some]
    refine congrArg (fun data => some (BoundedArray.mk dst.size data)) ?_
    funext i
    rw [Function.update_apply]
    grind

theorem size_of_set {b : BoundedArray α} {v : α} (stored : a.set j v = some b) :
    b.size = a.size := by
  unfold set at stored
  split at stored
  · cases stored
    rfl
  · cases stored

theorem lt_of_get {v : α} (loaded : a.get i = some v) : i < a.size := by
  unfold get at loaded
  split at loaded
  · next inside => exact Int.ofNat_lt.mp inside.2
  · cases loaded

theorem lt_of_set {b : BoundedArray α} {v : α} (stored : a.set i v = some b) : i < a.size := by
  unfold set at stored
  split at stored
  · next inside => exact Int.ofNat_lt.mp inside.2
  · cases stored

theorem size_of_copy {b : BoundedArray α} {n : ℕ} (copied : dst.copy src j n = some b) :
    b.size = dst.size := by
  refine foldlM_post (P := fun (a : BoundedArray α) => a.size = dst.size) rfl ?_ copied
  intro a t same i _ stepped
  obtain ⟨v, -, stored⟩ := Option.bind_eq_some_iff.mp stepped
  exact (size_of_set stored).trans same

/-- A copy from the start on succeeds just if it fits into both arrays. -/
theorem copy_start_iff {b : BoundedArray α} {n : ℕ} :
    dst.copy src 0 n = some b ↔ n ≤ src.size ∧ n ≤ dst.size ∧
      b = { dst with data := fun i => if i < n then src.data i else dst.data i } := by
  have copied (readable : n ≤ src.size) (writable : n ≤ dst.size) :
      dst.copy src 0 n =
        some { dst with data := fun i => if i < n then src.data i else dst.data i } := by
    have from_zero : 0 + n ≤ src.size := by omega
    have to_zero : 0 + n ≤ dst.size := by omega
    simpa using copy_natCast from_zero to_zero
  suffices fits : dst.copy src 0 n = some b → n ≤ src.size ∧ n ≤ dst.size by
    constructor
    · intro done
      obtain ⟨readable, writable⟩ := fits done
      rw [copied readable writable, Option.some_inj] at done
      exact ⟨readable, writable, done.symm⟩
    · rintro ⟨readable, writable, rfl⟩
      exact copied readable writable
  intro done
  cases n with
  | zero => exact ⟨Nat.zero_le _, Nat.zero_le _⟩
  | succ n =>
    -- the last element tells
    rw [copy, List.range_succ, List.foldlM_append, Option.bind_eq_bind,
      Option.bind_eq_some_iff] at done
    obtain ⟨front, before, last⟩ := done
    have size : front.size = dst.size := size_of_copy before
    rw [List.foldlM_cons, Int.zero_add, Option.bind_eq_bind, Option.bind_assoc,
      Option.bind_eq_some_iff] at last
    obtain ⟨v, loaded, stored⟩ := last
    obtain ⟨_, stored, -⟩ := Option.bind_eq_some_iff.mp stored
    have readable : n < src.size := lt_of_get loaded
    have writable : n < front.size := lt_of_set stored
    exact ⟨readable, size ▸ writable⟩

theorem copy_of_neg {n : ℕ} (positive : 0 < n) (negative : j < 0) : dst.copy src j n = none := by
  refine foldlM_eq_none (List.mem_range.mpr positive) fun dst => ?_
  rw [get_of_neg (by simpa using negative), Option.bind_none]

end BoundedArray

end Foundation
