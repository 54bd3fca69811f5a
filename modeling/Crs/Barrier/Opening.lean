import Crs.Barrier.Basic

/-!
# The barrier opens at the last arrival and stays open

The counter is the initial number less the calls that entered, cut off at zero, so
it never wraps. Nobody sleeps before an open barrier: the call that opens it empties
the wait set, and no call goes to sleep at zero.
-/

namespace Crs.Barrier

open Foundation Monitor

variable {T : Type*} {s s' : State UInt32 T Call} {l : Label T Call} {o : Option (Call × Bool)}

def isCall : Label T Call → Bool
  | .call _ _ _ => true
  | .wake _ | .recheck _ _ => false

/-- The number of calls that entered. -/
def entered (history : List (Label T Call × Option (Call × Bool))) : Nat :=
  history.countP fun event => isCall event.1

@[simp] theorem entered_snoc (history : List (Label T Call × Option (Call × Bool))) :
    entered (history ++ [(l, o)]) = entered history + (isCall l).toNat := by
  cases held : isCall l <;> simp [entered, held]

variable [Fintype T] [DecidableEq T]

/-- Only calls change the counter, and only down to zero. -/
theorem toNat_step (effect : Effect monitor s l o s') :
    s'.data.toNat = s.data.toNat - (isCall l).toNat := by
  cases effect with
  | @call t c woken data signal result phase outside entered signalled =>
      rw [monitor_enter] at entered
      obtain ⟨zero, zero', -⟩ | ⟨pred, -⟩ | ⟨pred, -⟩ := enter_cases entered
      · simp [zero, zero']
      · simp only [isCall, Bool.toNat_true]
        omega
      · simp only [isCall, Bool.toNat_true]
        omega
  | resume waking resumed =>
      obtain ⟨-, rfl, -⟩ := resume_eq_some (monitor_resume ▸ resumed)
      rfl
  | wake | expire | sleep => rfl

/-- A call succeeds at zero only. -/
theorem zero_of_success {c : Call} (effect : Effect monitor s l (some (c, true)) s') :
    s'.data = 0 := by
  generalize returned : some (c, true) = o at effect
  cases effect with
  | @call t d woken data signal result phase outside entered signalled =>
      rw [monitor_enter] at entered
      obtain ⟨-, zero, -⟩ | ⟨-, zero, -⟩ | ⟨-, -, -, rfl⟩ := enter_cases entered
      · exact zero
      · exact zero
      · cases returned
  | wake | sleep => cases returned
  | resume waking resumed =>
      obtain ⟨zero, rfl, -⟩ := resume_eq_some (monitor_resume ▸ resumed)
      exact zero
  | expire waking blocked expired =>
      obtain rfl := expire_eq_some expired
      cases returned

/-- A call that does not find the barrier open sleeps only while it is closed. -/
theorem sleepers_step (open_empty : s.data = 0 → sleepers s.phase = ∅)
    (effect : Effect monitor s l o s') : s'.data = 0 → sleepers s'.phase = ∅ := by
  intro zero'
  cases effect with
  | @call t c woken data signal result phase outside entered signalled =>
      rw [monitor_enter] at entered
      obtain ⟨zero, -, rfl, rfl⟩ | ⟨-, -, rfl, rfl⟩ | ⟨-, nonzero, -⟩ := enter_cases entered
      · obtain rfl := notify_nobody_eq signalled
        simp [open_empty zero]
      · obtain rfl := notify_all_eq signalled
        simp [sleepers_notify_all]
      · exact absurd zero' nonzero
  | wake => simp [open_empty zero']
  | resume waking resumed =>
      obtain ⟨zero, -⟩ := resume_eq_some (monitor_resume ▸ resumed)
      simp [open_empty zero]
  | expire => simp [open_empty zero']
  | sleep waking blocked => exact absurd zero' (resume_eq_none.mp (monitor_resume ▸ blocked))

/-- A call on an open barrier can run and succeeds at once. -/
theorem call_of_zero (zero : s.data = 0) {t : T} (c : Call) (outside : s.phase t = .idle) :
    (monitor.machine T).step s (.call t c none) = some (some (c, true), s) := by
  have entered : monitor.enter c s.data = (s.data, .nobody, some true) := by
    rw [monitor_enter, enter, if_pos zero]
  have effect : Effect monitor s (.call t c none) (some (c, true)) _ :=
    .call outside entered rfl
  have same : Function.update s.phase t .idle = s.phase := by
    rw [← outside, Function.update_eq_self]
  rw [step_iff_effect.mpr effect, Phase.settled_some, same]

section Runs

variable {n : UInt32} {history : List (Label T Call × Option (Call × Bool))}

theorem run_counted (run : (monitor.machine T).Run (new T n) history s) :
    s.data.toNat = n.toNat - entered history := by
  apply run.invariant (P := fun history s => s.data.toNat = n.toNat - entered history)
  · rfl
  · intro history s l o s' _ held step
    rw [toNat_step (step_iff_effect.mp step), held, entered_snoc]
    omega

theorem run_nobody_asleep (run : (monitor.machine T).Run (new T n) history s) :
    s.data = 0 → sleepers s.phase = ∅ := by
  apply run.state_invariant (P := fun s => s.data = 0 → sleepers s.phase = ∅)
  · intro _
    apply Finset.ext
    intro t
    simp [new, initial, Phase.isAsleep]
  · intro s l o s' held step
    exact sleepers_step held (step_iff_effect.mp step)

end Runs

/-- In every state of a run the counter is what the entered calls left of the initial
number; a call succeeds only after that many calls have entered; and at zero the
counter stays, calls succeed at once, and nobody is asleep. -/
theorem run_opens (n : UInt32) {history : List (Label T Call × Option (Call × Bool))}
    (run : (monitor.machine T).Run (new T n) history s) :
    s.data.toNat = n.toNat - entered history ∧
    (∀ l c s', (monitor.machine T).step s l = some (some (c, true), s') →
      n.toNat ≤ entered (history ++ [(l, some (c, true))])) ∧
    (s.data = 0 →
      (∀ l o s', (monitor.machine T).step s l = some (o, s') → s'.data = 0) ∧
      (∀ t c, s.phase t = .idle →
        (monitor.machine T).step s (.call t c none) = some (some (c, true), s)) ∧
      (∀ t c woken o s', (monitor.machine T).step s (.call t c woken) = some (o, s') →
        o = some (c, true)) ∧
      sleepers s.phase = ∅) := by
  refine ⟨run_counted run, ?_, fun zero => ⟨?_, fun t c => call_of_zero zero c, ?_,
    run_nobody_asleep run zero⟩⟩
  · intro l c s' step
    have after := run_counted (run.snoc step)
    rw [zero_of_success (step_iff_effect.mp step)] at after
    have none : (0 : UInt32).toNat = 0 := rfl
    omega
  · intro l o s' step
    have less := toNat_step (step_iff_effect.mp step)
    rw [zero] at less
    exact UInt32.toNat_inj.mp (less.trans (Nat.zero_sub _))
  · intro t c woken o s' step
    generalize same : Label.call t c woken = l at step
    cases step_iff_effect.mp step with
    | call outside entered signalled =>
        cases same
        rw [monitor_enter, enter, if_pos zero] at entered
        obtain ⟨-, -, rfl⟩ := by simpa using entered
        rfl
    | wake | resume | expire | sleep => cases same

/-- One arrival waits and the second one opens the barrier. -/
theorem run_opens_two :
    ∃ history s, (monitor.machine (Fin 2)).Run (new (Fin 2) 2) history s ∧ s.data = 0 ∧
      sleepers s.phase = ∅ := by
  have executed : ∃ history s, (monitor.machine (Fin 2)).exec (new (Fin 2) 2)
      [.call 0 .waitFor none, .call 1 .wait none] = some (history, s) ∧ s.data = 0 :=
    ⟨_, _, rfl, rfl⟩
  obtain ⟨history, s, computed, zero⟩ := executed
  have run := Machine.run_of_exec computed
  exact ⟨history, s, run, zero, ((run_opens 2 run).2.2 zero).2.2.2⟩

end Crs.Barrier
