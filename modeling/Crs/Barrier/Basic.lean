import Crs.Foundation.Monitor
import Crs.Foundation.Word

/-!
# The barrier

A 32-bit counter of the arrivals still needed. A call that finds zero returns at
once; any other call takes one from the counter, opens the barrier if it was the
last one, and waits for zero otherwise. The three calls differ in their deadline
only. A call that times out returns `false` and leaves its arrival counted.
-/

namespace Crs.Barrier

open Foundation

inductive Call where
  | wait
  | waitFor
  | waitUntil
  deriving DecidableEq

/-- The first locked section of every call. -/
def enter (counter : UInt32) : UInt32 × Signal × Option Bool :=
  if counter = 0 then (counter, .nobody, some true)
  else
    let counter := counter - 1
    if counter = 0 then (counter, .all, some true)
    else (counter, .nobody, none)

/-- The end of every wait: the predicate holds. -/
def resume (counter : UInt32) : Option (UInt32 × Bool) :=
  if counter = 0 then some (counter, true) else none

/-- A call that returns nothing reports `true`. -/
def monitor : Monitor UInt32 Call Bool where
  enter
    | .wait, counter => enter counter
    | .waitFor, counter => enter counter
    | .waitUntil, counter => enter counter
  resume
    | .wait, counter => resume counter
    | .waitFor, counter => resume counter
    | .waitUntil, counter => resume counter
  expire
    | .wait => none
    | .waitFor => some false
    | .waitUntil => some false

/-- `crs::barrier barrier (cnt)` with all threads outside. -/
def new (T : Type*) (cnt : UInt32) : Monitor.State UInt32 T Call := Monitor.initial T Call cnt

section Sections

variable {c : Call} {counter counter' : UInt32} {signal : Signal} {result : Option Bool}

@[simp] theorem monitor_enter : monitor.enter c counter = enter counter := by cases c <;> rfl

@[simp] theorem monitor_resume : monitor.resume c counter = resume counter := by cases c <;> rfl

/-- A call passes an open barrier, opens it, or goes to sleep before it. -/
theorem enter_cases (entered : enter counter = (counter', signal, result)) :
    counter = 0 ∧ counter' = 0 ∧ signal = .nobody ∧ result = some true ∨
      counter'.toNat + 1 = counter.toNat ∧ counter' = 0 ∧ signal = .all ∧ result = some true ∨
      counter'.toNat + 1 = counter.toNat ∧ counter' ≠ 0 ∧ signal = .nobody ∧ result = none := by
  simp only [enter] at entered
  split at entered
  · rename_i zero
    obtain ⟨rfl, rfl, rfl⟩ := by simpa using entered
    exact .inl ⟨zero, zero, rfl, rfl⟩
  · rename_i nonzero
    have pred := Word.toNat_pred nonzero
    split at entered
    · rename_i last
      obtain ⟨rfl, rfl, rfl⟩ := by simpa using entered
      exact .inr (.inl ⟨pred, last, rfl, rfl⟩)
    · rename_i more
      obtain ⟨rfl, rfl, rfl⟩ := by simpa using entered
      exact .inr (.inr ⟨pred, more, rfl, rfl⟩)

theorem resume_eq_some {result : Bool} (resumed : resume counter = some (counter', result)) :
    counter = 0 ∧ counter' = counter ∧ result = true := by
  simp only [resume] at resumed
  split at resumed
  · rename_i zero
    obtain ⟨rfl, rfl⟩ := by simpa using resumed
    exact ⟨zero, rfl, rfl⟩
  · cases resumed

theorem resume_eq_none : resume counter = none ↔ counter ≠ 0 := by simp [resume]

theorem expire_eq_some {r : Bool} (expired : monitor.expire c = some r) : r = false := by
  cases c with
  | wait => cases expired
  | waitFor | waitUntil => exact (Option.some.inj expired).symm

end Sections

end Crs.Barrier
