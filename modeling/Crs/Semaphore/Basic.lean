import Crs.Foundation.Monitor
import Crs.Foundation.Word

/-!
# The counting semaphore

A 32-bit counter behind a monitor. `post` adds an increment, clamped to the range of
the counter, and notifies one thread. The three waits share the predicate and the
decrement and differ in their deadline only.
-/

namespace Crs.Semaphore

open Foundation

/-- `std::numeric_limits<unsigned int>::max ()`. -/
def uintMax : UInt32 := 0xFFFFFFFF

inductive Call where
  | post (inc : UInt32)
  | wait
  | waitFor
  | waitUntil
  deriving DecidableEq

/-- The counter after `post`. -/
def post (counter inc : UInt32) : UInt32 :=
  let allowed := uintMax - counter
  counter + (if inc < allowed then inc else allowed)

/-- The end of a wait: the predicate holds, and one token is taken. -/
def take (counter : UInt32) : Option (UInt32 × Bool) :=
  if 0 < counter then some (counter - 1, true) else none

/-- The locked section of a wait up to its return or its sleep. -/
def enterWait (counter : UInt32) : UInt32 × Signal × Option Bool :=
  match take counter with
  | some (counter, result) => (counter, .nobody, some result)
  | none => (counter, .nobody, none)

/-- A call that returns nothing reports `true`. -/
def monitor : Monitor UInt32 Call Bool where
  enter
    | .post inc, counter => (post counter inc, .one, some true)
    | .wait, counter => enterWait counter
    | .waitFor, counter => enterWait counter
    | .waitUntil, counter => enterWait counter
  resume
    | .post _, _ => none
    | .wait, counter => take counter
    | .waitFor, counter => take counter
    | .waitUntil, counter => take counter
  expire
    | .post _ => none
    | .wait => none
    | .waitFor => some false
    | .waitUntil => some false

/-- `crs::semaphore sem (cnt)` with all threads outside. -/
def new (T : Type*) (cnt : UInt32) : Monitor.State UInt32 T Call := Monitor.initial T Call cnt

def Call.isWait : Call → Bool
  | .post _ => false
  | .wait | .waitFor | .waitUntil => true

/-- The clamp keeps the sum in range, with no error at the border. -/
theorem toNat_post (counter inc : UInt32) :
    (post counter inc).toNat = min (2 ^ 32 - 1) (counter.toNat + inc.toNat) := by
  have range := counter.toNat_lt
  have room : (uintMax - counter).toNat = 2 ^ 32 - 1 - counter.toNat := by
    rw [UInt32.toNat_sub_of_le]
    · rfl
    · rw [UInt32.le_iff_toNat_le]
      show counter.toNat ≤ 2 ^ 32 - 1
      omega
  simp only [post, UInt32.lt_iff_toNat_lt, room]
  split
  · rw [UInt32.toNat_add, Nat.mod_eq_of_lt (by omega)]
    omega
  · rw [UInt32.toNat_add, room, Nat.mod_eq_of_lt (by omega)]
    omega

theorem toNat_take {counter : UInt32} (positive : 0 < counter) :
    (counter - 1).toNat + 1 = counter.toNat :=
  Word.toNat_pred (Word.toNat_pos_iff.mp (UInt32.lt_iff_toNat_lt.mp positive))

theorem take_eq_some {counter counter' : UInt32} {result : Bool}
    (taken : take counter = some (counter', result)) :
    0 < counter ∧ counter' = counter - 1 ∧ result = true := by
  simp only [take] at taken
  split at taken
  · rename_i positive
    obtain ⟨rfl, rfl⟩ := by simpa using taken
    exact ⟨positive, rfl, rfl⟩
  · cases taken

theorem take_eq_none {counter : UInt32} : take counter = none ↔ counter = 0 := by
  simp only [take, ite_eq_right_iff, reduceCtorEq, imp_false, UInt32.not_lt]
  exact UInt32.le_zero_iff

section Sections

variable {c : Call} {counter counter' : UInt32} {signal : Signal} {result : Option Bool}

@[simp] theorem enter_of_isWait (waits : c.isWait) :
    monitor.enter c counter = enterWait counter := by
  cases c with
  | post inc => cases waits
  | wait | waitFor | waitUntil => rfl

@[simp] theorem resume_of_isWait (waits : c.isWait) : monitor.resume c counter = take counter := by
  cases c with
  | post inc => cases waits
  | wait | waitFor | waitUntil => rfl

theorem eq_post_of_not_isWait (posts : c.isWait = false) : ∃ inc, c = .post inc := by
  cases c with
  | post inc => exact ⟨inc, rfl⟩
  | wait | waitFor | waitUntil => cases posts

/-- A wait takes a token at once or goes to sleep at zero; it notifies nobody. -/
theorem enterWait_cases (entered : enterWait counter = (counter', signal, result)) :
    signal = .nobody ∧ (0 < counter ∧ counter' = counter - 1 ∧ result = some true ∨
      counter = 0 ∧ counter' = counter ∧ result = none) := by
  simp only [enterWait] at entered
  split at entered
  · rename_i taken
    obtain ⟨positive, rfl, rfl⟩ := take_eq_some taken
    obtain ⟨rfl, rfl, rfl⟩ := by simpa using entered
    exact ⟨rfl, .inl ⟨positive, rfl, rfl⟩⟩
  · rename_i blocked
    obtain ⟨rfl, rfl, rfl⟩ := by simpa using entered
    exact ⟨rfl, .inr ⟨take_eq_none.mp blocked, rfl, rfl⟩⟩

end Sections

end Crs.Semaphore
