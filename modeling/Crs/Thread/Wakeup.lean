import Crs.Thread.Basic

/-!
# Wake-ups of the thread

For each control flag the history tells who has stored it since it was last down, and who of
these has executed its `_wake_up`. The thread leaves its section with the wake-up flag down and
looks at the control flags again, so a flag that somebody has announced before the thread comes
to the section keeps it out of the wait.
-/

namespace Crs.PosixThread

open Foundation

variable {P : Type*} [DecidableEq P]

/-- Those who have stored a flag since it was last down, and those of them who have woken up
the thread. -/
structure Setters (P : Type*) where
  stored : List (Party P) := []
  woken : List (Party P) := []

/-- What an event does to the setters of a flag. -/
def Setters.record (flag : Post) (l : Setters P) : Event P → Setters P
  | .stored p post =>
      if post = flag then { l with stored := l.stored ++ [p] }
      else if flag = .activate ∧ post = .deactivate then {}
      else l
  | .woke p post =>
      if post = flag ∧ p ∈ l.stored then { l with woken := l.woken ++ [p] } else l
  | .quiet | .killed _ => l

def setters (flag : Post) (history : List (Action P × Event P)) : Setters P :=
  history.foldl (fun l e => l.record flag e.2) {}

/-- The value of a control flag. -/
def State.flag (s : State P) : Post → Bool
  | .activate => s.activateFlag
  | .terminate => s.terminateFlag
  | .deactivate => false

/-- The thread has seen a flag down and has not been in its section since. -/
def Position.passed (flag : Post) : Position → Bool
  | .choosing => flag = .terminate
  | .locking | .waiting | .notified => true
  | _ => false

theorem setters_snoc (flag : Post) (history : List (Action P × Event P))
    (e : Action P × Event P) :
    setters flag (history ++ [e]) = (setters flag history).record flag e.2 := by
  simp [setters]

/-- The setters of a flag, and where the thread is. -/
structure Heard (flag : Post) (history : List (Action P × Event P)) (s : State P) : Prop where
  set_iff : s.flag flag = true ↔ (setters flag history).stored ≠ []
  woken : ∀ p ∈ (setters flag history).woken, p ∈ (setters flag history).stored
  pending : ∀ p ∈ (setters flag history).stored,
    p ∈ (setters flag history).woken ∨ s.pending p = some flag
  announced : s.position.passed flag → (setters flag history).woken ≠ [] → s.wakeupFlag = true
  asleep : s.position = .waiting → s.wakeupFlag = false

variable {flag post : Post} {history : List (Action P × Event P)} {s s' : State P} {a : Action P}
  {o : Event P} {p : Party P}

/-- A step that is neither a store nor a `_wake_up`. -/
theorem Heard.silent (held : Heard flag history s) (event : o = .quiet ∨ ∃ r, o = .killed r)
    (same : s'.flag flag = s.flag flag) (pending : s'.pending = s.pending)
    (announced : s'.position.passed flag → s.flag flag = false ∨
      s.position.passed flag ∧ s'.wakeupFlag = s.wakeupFlag)
    (asleep : s'.position = .waiting → s'.wakeupFlag = false) :
    Heard flag (history ++ [(a, o)]) s' := by
  have unchanged : setters flag (history ++ [(a, o)]) = setters flag history := by
    rw [setters_snoc]
    obtain rfl | ⟨r, rfl⟩ := event <;> rfl
  refine ⟨?_, ?_, ?_, ?_, asleep⟩
  · rw [unchanged, same]
    exact held.set_iff
  · rw [unchanged]
    exact held.woken
  · rw [unchanged, pending]
    exact held.pending
  · rw [unchanged]
    intro passed woken
    obtain down | ⟨before, wakeup⟩ := announced passed
    · obtain ⟨p, member⟩ := List.exists_mem_of_ne_nil _ woken
      have := held.set_iff.mpr (List.ne_nil_of_mem (held.woken p member))
      rw [down] at this
      cases this
    · rw [wakeup]
      exact held.announced before woken

/-- The store of a flag. -/
theorem Heard.store (held : Heard flag history s) (kind : flag ≠ .deactivate) {owner : Owner}
    (free : s.pending p = none) :
    Heard flag (history ++ [(a, .stored p post)])
      { s.store post with owner, pending := Function.update s.pending p (some post) } := by
  have position : (s.store post).position = s.position := by cases post <;> rfl
  have wakeup : (s.store post).wakeupFlag = s.wakeupFlag := by cases post <;> rfl
  have others (q : Party P) (waits : s.pending q = some flag) :
      Function.update s.pending p (some post) q = some flag := by
    have other : q ≠ p := by
      rintro rfl
      rw [free] at waits
      cases waits
    rw [Function.update_of_ne other, waits]
  constructor
  · rw [setters_snoc]
    have := held.set_iff
    cases flag <;> cases post <;> simp_all [State.flag, State.store, Setters.record]
  · rw [setters_snoc]
    intro q
    have := held.woken q
    simp only [Setters.record]
    split
    · simp only [List.mem_append]
      exact fun woken => .inl (this woken)
    · split
      · simp
      · exact this
  · rw [setters_snoc]
    intro q
    have := held.pending q
    simp only [Setters.record]
    split
    · rename_i same
      subst same
      simp only [List.mem_append, List.mem_singleton]
      rintro (before | rfl)
      · exact (this before).imp_right (others q)
      · exact .inr (Function.update_self ..)
    · split
      · simp
      · exact fun member => (this member).imp_right (others q)
  · rw [setters_snoc]
    simp only [position, wakeup]
    intro passed woken
    refine held.announced passed fun none => woken ?_
    simp only [Setters.record]
    split
    · exact none
    · split
      · rfl
      · exact none
  · simp only [position, wakeup]
    exact held.asleep

/-- The section of `_wake_up`. -/
theorem Heard.wake (held : Heard flag history s) (waits : s.pending p = some post) :
    Heard flag (history ++ [(a, .woke p post)])
      { s.wakeUp with pending := Function.update s.pending p none } := by
  have stored : ((setters flag history).record flag (.woke p post)).stored =
      (setters flag history).stored := by
    simp only [Setters.record]
    split <;> rfl
  constructor
  · rw [setters_snoc, stored]
    exact held.set_iff
  · rw [setters_snoc, stored]
    intro q
    simp only [Setters.record]
    split
    · rename_i here
      simp only [List.mem_append, List.mem_singleton]
      rintro (before | rfl)
      · exact held.woken q before
      · exact here.2
    · exact held.woken q
  · rw [setters_snoc, stored]
    intro q member
    obtain rfl | other := eq_or_ne q p
    · obtain woken | mine := held.pending q member
      · left
        simp only [Setters.record]
        split
        · exact List.mem_append_left _ woken
        · exact woken
      · obtain rfl : flag = post := Option.some.inj (mine.symm.trans waits)
        left
        simp [Setters.record, member]
    · refine (held.pending q member).imp ?_ ?_
      · intro woken
        simp only [Setters.record]
        split
        · exact List.mem_append_left _ woken
        · exact woken
      · exact fun mine => (Function.update_of_ne other _ _).trans mine
  · exact fun _ _ => rfl
  · intro waiting
    simp only [State.wakeUp] at waiting
    split at waiting
    · cases waiting
    · contradiction

/-- The section of `Run`. -/
theorem Heard.lookUp (held : Heard flag history s) (before : s.position.passed flag = true) :
    Heard flag (history ++ [(a, .quiet)]) s.lookUp := by
  cases up : s.wakeupFlag with
  | true =>
    rw [State.lookUp, if_pos up]
    exact held.silent (.inl rfl) (by cases flag <;> rfl) rfl (by simp [Position.passed]) (by simp)
  | false =>
    rw [State.lookUp, if_neg (by simp [up])]
    exact held.silent (.inl rfl) (by cases flag <;> rfl) rfl (fun _ => .inr ⟨before, rfl⟩)
      fun _ => up

/-- The thread looks at a flag, and then at the wake-up flag. -/
theorem Heard.thread (held : Heard flag history s)
    (step : advance s = some s') : Heard flag (history ++ [(a, .quiet)]) s' := by
  unfold advance at step
  split at step
  · obtain rfl := Option.some.inj step
    exact held.silent (.inl rfl) (by cases flag <;> rfl) rfl (by simp [Position.passed]) (by simp)
  · rename_i here
    obtain rfl := Option.some.inj step
    refine held.silent (.inl rfl) (by cases flag <;> rfl) rfl ?_ ?_
    · cases down : s.terminateFlag
      · cases flag <;> simp_all [Position.passed, State.flag]
      · simp [Position.passed]
    · simp only
      split <;> simp
  · rename_i here
    obtain rfl := Option.some.inj step
    refine held.silent (.inl rfl) (by cases flag <;> rfl) rfl ?_ ?_
    · cases down : s.activateFlag
      · cases flag <;> simp_all [Position.passed, State.flag]
      · simp [Position.passed]
    · simp only
      split <;> simp
  · rename_i here
    obtain rfl := Option.some.inj step
    exact held.lookUp (by simp [here, Position.passed])
  · rename_i here
    obtain rfl := Option.some.inj step
    exact held.lookUp (by simp [here, Position.passed])
  · rename_i e here
    obtain rfl := Option.some.inj step
    cases e <;>
      exact held.silent (.inl rfl) (by cases flag <;> rfl) rfl (by simp [Position.passed]) (by simp)
  · obtain rfl := Option.some.inj step
    exact held.silent (.inl rfl) (by cases flag <;> rfl) rfl (by simp [Position.passed]) (by simp)
  · obtain rfl := Option.some.inj step
    exact held.silent (.inl rfl) (by cases flag <;> rfl) rfl (by simp [Position.passed]) (by simp)
  all_goals cases step

theorem Heard.step (held : Heard flag history s) (kind : flag ≠ .deactivate)
    (effect : Effect s a o s') : Heard flag (history ++ [(a, o)]) s' := by
  cases effect with
  | post free => exact held.store kind free
  | wake waits => exact held.wake waits
  | thread next => exact held.thread next
  | @step outcome =>
    refine held.silent (.inl rfl) (by cases flag <;> rfl) rfl ?_ ?_
    · cases outcome <;> simp [Outcome.position, Position.passed]
    · cases outcome <;> simp [Outcome.position]
  | spurious waiting =>
    exact held.silent (.inl rfl) (by cases flag <;> rfl) rfl
      (fun _ => .inr ⟨by simp [waiting, Position.passed], rfl⟩) (by simp)
  | running =>
    exact held.silent (.inl rfl) (by cases flag <;> rfl) rfl (fun passed => .inr ⟨passed, rfl⟩)
      held.asleep
  | idle =>
    exact held.silent (.inr ⟨_, rfl⟩) rfl rfl (fun passed => .inr ⟨passed, rfl⟩) held.asleep
  | join =>
    exact held.silent (.inr ⟨_, rfl⟩) (by cases flag <;> rfl) rfl
      (fun passed => .inr ⟨passed, rfl⟩) held.asleep

theorem run_heard (kind : flag ≠ .deactivate) (run : (machine P).Run {} history s) :
    Heard flag history s := by
  apply run.invariant (P := Heard flag)
  · exact ⟨by cases flag <;> simp [State.flag, setters], by simp [setters], by simp [setters],
      by simp [setters], by simp⟩
  · exact fun history t a o u _ held step => held.step kind (effect_of_step step)

/-- Whenever the thread is blocked in its wait, the wake-up flag is down, and whoever has set the
activation or the termination flag since it was last down is between its store and its
`_wake_up`: nobody who has woken up the thread is among them. -/
theorem run_awake (run : (machine P).Run {} history s) (blocked : s.position = .waiting) :
    s.wakeupFlag = false ∧ ∀ flag, flag ≠ .deactivate →
      (s.flag flag = true ↔ (setters flag history).stored ≠ []) ∧
      (setters flag history).woken = [] ∧
      ∀ p ∈ (setters flag history).stored, s.pending p = some flag := by
  have heard (flag : Post) (kind : flag ≠ .deactivate) : Heard flag history s :=
    run_heard kind run
  have down := (heard .activate (by simp)).asleep blocked
  refine ⟨down, fun flag kind => ?_⟩
  have held := heard flag kind
  have nobody : (setters flag history).woken = [] := by
    by_contra woken
    have up := held.announced (by simp [blocked, Position.passed]) woken
    rw [down] at up
    cases up
  refine ⟨held.set_iff, nobody, fun p member => ?_⟩
  simpa [nobody] using held.pending p member

/-- The thread waits while its owner is between the two statements of `Resume`. -/
theorem run_awake_resume : ∃ history s, (machine Unit).Run {} history s ∧
    s.position = .waiting ∧ s.activateFlag = true ∧
      (setters .activate history).stored = [Party.owner] ∧ s.pending .owner = some .activate := by
  have executed : ∃ history s, (machine Unit).exec {} [.thread, .thread, .thread, .thread,
      .post .owner .activate] = some (history, s) ∧ s.position = .waiting ∧
        s.activateFlag = true ∧ (setters .activate history).stored = [Party.owner] :=
    ⟨_, _, rfl, rfl, rfl, rfl⟩
  obtain ⟨history, s, computed, blocked, up, stored⟩ := executed
  have run := Machine.run_of_exec computed
  obtain ⟨-, told⟩ := run_awake run blocked
  exact ⟨history, s, run, blocked, up, stored,
    (told .activate (by simp)).2.2 .owner (by simp [stored])⟩

end Crs.PosixThread
