import Crs.Semaphore.Basic

/-!
# Conservation of the tokens

A step posts, takes one token or leaves the counter alone, and `change_cases` says
which step does what. The sums over a history then balance against the counter, up
to what the clamp lost.
-/

namespace Crs.Semaphore

open Foundation Monitor

variable {T : Type*} {s s' : State UInt32 T Call} {l : Label T Call} {o : Option (Call × Bool)}

/-- The increment that a step posts. -/
def increment : Label T Call → Nat
  | .call _ (.post inc) _ => inc.toNat
  | _ => 0

def isPost : Label T Call → Bool
  | .call _ (.post _) _ => true
  | _ => false

/-- Whether a wait returns successfully in a step. -/
def succeeds : Option (Call × Bool) → Bool
  | some (c, result) => c.isWait && result
  | none => false

/-- The sum of the increments posted. -/
def posted (history : List (Label T Call × Option (Call × Bool))) : Nat :=
  (history.map fun event => increment event.1).sum

/-- The number of waits that returned successfully. -/
def successes (history : List (Label T Call × Option (Call × Bool))) : Nat :=
  history.countP fun event => succeeds event.2

/-- The post of a step, if there is one, stays within the range of the counter. -/
def unclamped (s : State UInt32 T Call) (l : Label T Call) : Bool :=
  s.data.toNat + increment l ≤ 2 ^ 32 - 1

section Histories

variable (history : List (Label T Call × Option (Call × Bool)))

@[simp] theorem posted_snoc : posted (history ++ [(l, o)]) = posted history + increment l := by
  simp [posted]

@[simp] theorem successes_snoc :
    successes (history ++ [(l, o)]) = successes history + (succeeds o).toNat := by
  cases held : succeeds o <;> simp [successes, held]

end Histories

theorem increment_of_not_isPost (other : isPost l = false) : increment l = 0 := by
  cases l with
  | call t c woken =>
      cases c with
      | post inc => cases other
      | wait | waitFor | waitUntil => rfl
  | wake | recheck => rfl

variable [Fintype T] [DecidableEq T]

/-- What a step does to the counter. -/
theorem change_cases (effect : Effect monitor s l o s') :
    (∃ t inc woken, l = .call t (.post inc) woken ∧ succeeds o = false ∧
      s'.data = post s.data inc) ∨
    (isPost l = false ∧ succeeds o = true ∧ 0 < s.data ∧ s'.data = s.data - 1) ∨
    (isPost l = false ∧ succeeds o = false ∧ s'.data = s.data) := by
  cases effect with
  | @call t c woken data signal result phase outside entered signalled =>
      cases waits : c.isWait with
      | false =>
          obtain ⟨inc, rfl⟩ := eq_post_of_not_isWait waits
          obtain ⟨rfl, rfl, rfl⟩ : post s.data inc = data ∧ .one = signal ∧ some true = result := by
            simpa [monitor] using entered
          exact .inl ⟨t, inc, woken, rfl, rfl, rfl⟩
      | true =>
          have notPost : isPost (.call t c woken) = false := by
            cases c with
            | post inc => cases waits
            | wait | waitFor | waitUntil => rfl
          rw [enter_of_isWait waits] at entered
          obtain ⟨-, ⟨positive, less, rfl⟩ | ⟨-, same, rfl⟩⟩ := enterWait_cases entered
          · exact .inr (.inl ⟨notPost, by simp [succeeds, waits], positive, less⟩)
          · exact .inr (.inr ⟨notPost, rfl, same⟩)
  | wake => exact .inr (.inr ⟨rfl, rfl, rfl⟩)
  | @resume t c notified late data r waking resumed =>
      cases waits : c.isWait with
      | false =>
          obtain ⟨inc, rfl⟩ := eq_post_of_not_isWait waits
          cases resumed
      | true =>
          rw [resume_of_isWait waits] at resumed
          obtain ⟨positive, less, rfl⟩ := take_eq_some resumed
          exact .inr (.inl ⟨rfl, by simp [succeeds, waits], positive, less⟩)
  | @expire t c notified r waking blocked expired =>
      refine .inr (.inr ⟨rfl, ?_, rfl⟩)
      cases c <;> simp_all [monitor, succeeds]
  | sleep => exact .inr (.inr ⟨rfl, rfl, rfl⟩)

/-- One step: what comes out was there or was posted, and nothing is lost without the clamp. -/
theorem step_balance (effect : Effect monitor s l o s') :
    s'.data.toNat + (succeeds o).toNat ≤ s.data.toNat + increment l ∧
      (unclamped s l → s'.data.toNat + (succeeds o).toNat = s.data.toNat + increment l) := by
  obtain ⟨t, inc, woken, rfl, idle, posts⟩ | ⟨other, success, positive, taken⟩ |
    ⟨other, idle, same⟩ := change_cases effect
  · rw [posts, toNat_post, idle]
    refine ⟨by simp only [increment, Bool.toNat_false]; omega, fun fits => ?_⟩
    have inRange := of_decide_eq_true fits
    simp only [increment, Bool.toNat_false] at inRange ⊢
    omega
  · rw [success, taken, increment_of_not_isPost other]
    have := toNat_take positive
    simp only [Bool.toNat_true]
    omega
  · rw [idle, same, increment_of_not_isPost other]
    simp

section Runs

variable {c0 : UInt32} {history : List (Label T Call × Option (Call × Bool))}

/-- No run takes more tokens than there were and were posted. -/
theorem run_balance_le (run : (monitor.machine T).Run (new T c0) history s) :
    s.data.toNat + successes history ≤ c0.toNat + posted history := by
  apply run.invariant
    (P := fun history s => s.data.toNat + successes history ≤ c0.toNat + posted history)
  · exact le_rfl
  · intro history s l o s' _ held step
    have := (step_balance (step_iff_effect.mp step)).1
    simp only [posted_snoc, successes_snoc]
    omega

/-- No run loses a token while its posts stay below the clamp. -/
theorem run_balance_eq (run : ((monitor.machine T).guard fun s l => unclamped s l = true).Run
    (new T c0) history s) : s.data.toNat + successes history = c0.toNat + posted history := by
  apply run.invariant
    (P := fun history s => s.data.toNat + successes history = c0.toNat + posted history)
  · rfl
  · intro history s l o s' _ held step
    obtain ⟨fits, step⟩ := Machine.guard_step_iff.mp step
    have := (step_balance (step_iff_effect.mp step)).2 fits
    simp only [posted_snoc, successes_snoc]
    omega

end Runs

/-- Tokens are neither made nor lost. In every state of a run a post adds its
increment up to the largest number; a step in which a wait succeeds takes one token
of a positive counter; every other step leaves the counter, in particular all steps
of a call that returns `false`. The successful waits never exceed the initial count
and the posts, and they balance exactly while no post reaches the clamp. -/
theorem run_conserves (c0 : UInt32) {history : List (Label T Call × Option (Call × Bool))}
    (run : (monitor.machine T).Run (new T c0) history s) :
    (∀ t inc woken o s', (monitor.machine T).step s (.call t (.post inc) woken) = some (o, s') →
      s'.data.toNat = min (2 ^ 32 - 1) (s.data.toNat + inc.toNat)) ∧
    (∀ l o s', (monitor.machine T).step s l = some (o, s') → succeeds o →
      0 < s.data.toNat ∧ s'.data.toNat + 1 = s.data.toNat) ∧
    (∀ l o s', (monitor.machine T).step s l = some (o, s') → isPost l = false →
      succeeds o = false → s'.data = s.data) ∧
    successes history ≤ c0.toNat + posted history ∧
    (((monitor.machine T).guard fun s l => unclamped s l = true).Run (new T c0) history s →
      s.data.toNat + successes history = c0.toNat + posted history) := by
  refine ⟨?_, ?_, ?_, ?_, run_balance_eq⟩
  · intro t inc woken o s' step
    obtain ⟨_, _, _, same, -, posts⟩ | ⟨other, -⟩ | ⟨other, -⟩ :=
      change_cases (step_iff_effect.mp step)
    · cases same
      rw [posts, toNat_post]
    · cases other
    · cases other
  · intro l o s' step success
    obtain ⟨_, _, _, -, idle, -⟩ | ⟨-, -, positive, taken⟩ | ⟨-, idle, -⟩ :=
      change_cases (step_iff_effect.mp step)
    · rw [idle] at success
      cases success
    · exact ⟨UInt32.lt_iff_toNat_lt.mp positive, taken ▸ toNat_take positive⟩
    · rw [idle] at success
      cases success
  · intro l o s' step other idle
    obtain ⟨_, _, _, rfl, -⟩ | ⟨-, success, -⟩ | ⟨-, -, same⟩ :=
      change_cases (step_iff_effect.mp step)
    · cases other
    · rw [idle] at success
      cases success
    · exact same
  · have balance := run_balance_le run
    omega

/-- One thread times out on an empty semaphore, tries again and gets the token of a post. -/
theorem run_conserves_retry :
    ∃ history s, (monitor.machine (Fin 2)).Run (new (Fin 2) 0) history s ∧
      successes history = 1 ∧ successes history ≤ (0 : UInt32).toNat + posted history := by
  have executed : ∃ history s, (monitor.machine (Fin 2)).exec (new (Fin 2) 0)
      [.call 0 .waitFor none, .wake 0, .recheck 0 true, .call 0 .waitUntil none,
        .call 1 (.post 1) (some 0), .recheck 0 false] = some (history, s) ∧
      successes history = 1 := ⟨_, _, rfl, by decide⟩
  obtain ⟨history, s, computed, one⟩ := executed
  have run := Machine.run_of_exec computed
  exact ⟨history, s, run, one, (run_conserves 0 run).2.2.2.1⟩

end Crs.Semaphore
