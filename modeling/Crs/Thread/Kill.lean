import Crs.Thread.Basic

/-!
# The end of the thread

`kill` posts the end and joins the thread only if the running flag is up. The routine itself
raises the flag as its first statement and clears it before its last one, so the flag is down
before the thread has begun and while it returns.
-/

namespace Crs.PosixThread

open Foundation

variable {P : Type*}

/-- The actions that the thread takes. -/
def Action.ofThread : Action P → Bool
  | .thread | .step _ | .spurious | .post .self _ | .wake .self => true
  | .post _ _ | .wake _ | .kill | .join => false

/-- Some call of `kill` has returned. -/
def killed (history : List (Action P × Event P)) : Prop :=
  ∃ e ∈ history, ∃ result, e.2 = .killed result

theorem killed_snoc (history : List (Action P × Event P)) (e : Action P × Event P) :
    killed (history ++ [e]) ↔ killed history ∨ ∃ result, e.2 = .killed result := by
  simp [killed, or_and_right, exists_or]

theorem advance_pending {s s' : State P} (step : advance s = some s') : s'.pending = s.pending := by
  unfold advance at step
  split at step
  all_goals
    first
    | obtain rfl := Option.some.inj step
    | cases step
  · rfl
  · rfl
  · rfl
  · rw [State.lookUp]
    split <;> rfl
  · rw [State.lookUp]
    split <;> rfl
  · rename_i e _
    cases e <;> rfl
  · rfl
  · rfl

variable [DecidableEq P]

/-- The routine has returned, and no action of the thread can follow. -/
def State.Dead (s : State P) : Prop :=
  s.position = .finished ∧ ∀ a, a.ofThread = true → perform s a = none

/-- Once `kill` has returned, the thread is over. -/
def Over (history : List (Action P × Event P)) (s : State P) : Prop :=
  killed history → s.Dead

/-- `kill` tests the running flag while it is up, or when the routine has returned. -/
def Tested (s : State P) (a : Action P) : Prop :=
  a = .kill → s.runningFlag = true ∨ s.position = .finished

variable {history : List (Action P × Event P)} {s s' : State P} {a : Action P} {o : Event P}

/-- The thread posts in a `Step` only. -/
def Inside (s : State P) : Prop := s.pending .self ≠ none → s.position = .stepping

theorem Inside.dead_iff (inside : Inside s) : s.Dead ↔ s.position = .finished := by
  refine ⟨And.left, fun finished => ⟨finished, fun a mine => ?_⟩⟩
  have silent : s.pending .self = none := by
    by_contra posts
    have := inside posts
    rw [finished] at this
    cases this
  match a, mine with
  | .thread, _ | .step _, _ | .spurious, _ => simp [perform, advance, finished]
  | .post .self _, _ => simp [perform, mayPost, finished]
  | .wake .self, _ => simp [perform, silent]

theorem Inside.step (inside : Inside s) (effect : Effect s a o s') : Inside s' := by
  cases effect with
  | @post p post owner free may =>
    intro posts
    have position : (s.store post).position = s.position := by cases post <;> rfl
    simp only [position]
    cases p with
    | self =>
      have both : s.position = .stepping ∧ s.owner = owner := by simpa [mayPost] using may
      exact both.1
    | owner | other => exact inside (by simpa using posts)
  | @wake p post waits =>
    intro posts
    have before : s.position = .stepping := by
      cases p with
      | self => simp at posts
      | owner | other => exact inside (by simpa using posts)
    simp [State.wakeUp, before]
  | thread next =>
    intro posts
    rw [advance_pending next] at posts
    simp [advance, inside posts] at next
  | step _ silent => exact fun posts => absurd silent posts
  | spurious waiting =>
    intro posts
    have := inside posts
    rw [waiting] at this
    cases this
  | running | idle | join => exact inside

/-- A routine that has returned stays where it is. -/
theorem finished_step (finished : s.position = .finished) (effect : Effect s a o s') :
    s'.position = .finished := by
  cases effect with
  | @post p post => cases post <;> exact finished
  | wake => simp [State.wakeUp, finished]
  | thread next => simp [advance, finished] at next
  | step inside => simp [finished] at inside
  | spurious waiting => simp [finished] at waiting
  | running | idle | join => exact finished

/-- A step keeps a thread over that is over when `kill` has returned, exactly if `kill` does not
return before the thread is over. -/
theorem over_step_iff (inside : Inside s) (ended : Over history s) (effect : Effect s a o s') :
    Over (history ++ [(a, o)]) s' ↔ Tested s a := by
  have keeps (before : killed history) : s'.position = .finished :=
    finished_step (ended before).1 effect
  simp only [Over, (inside.step effect).dead_iff, killed_snoc]
  cases effect with
  | idle down =>
    simp only [Tested, down, Bool.false_eq_true, false_or, forall_const]
    exact ⟨fun dead => dead (.inr ⟨_, rfl⟩), fun finished _ => finished⟩
  | running up => simpa [Tested, up] using keeps
  | join finished => simpa [Tested] using finished
  | post | wake | thread | step | spurious => simpa [Tested] using keeps

/-- In every state of a run the thread is over if `kill` has returned, exactly if each call of
`kill` tests the running flag while it is up or when the routine has returned. -/
theorem run_over_iff (run : (machine P).Run {} history s) :
    (machine P).Throughout {} Over history ↔
      (machine P).BeforeEach {} (fun _ s a => Tested s a) history :=
  run.throughout_iff (I := fun _ => Inside) (fun none => by simp [killed] at none)
    (fun no => by simp at no)
    (fun _ _ _ _ _ _ inside step => inside.step (effect_of_step step))
    (fun _ _ _ _ _ ended inside step => over_step_iff inside ended (effect_of_step step))

/-- The owner kills a thread that waits: it is woken up, and `kill` returns after it. -/
theorem run_over_iff_waiting : ∃ history s, (machine Unit).Run {} history s ∧ killed history ∧
    s.position = .finished ∧ ((machine Unit).Throughout {} Over history ↔
      (machine Unit).BeforeEach {} (fun _ s a => Tested s a) history) := by
  have executed : ∃ history s, (machine Unit).exec {} [.thread, .thread, .thread, .thread, .kill,
      .post .owner .terminate, .wake .owner, .thread, .thread, .thread, .thread, .thread, .join] =
        some (history, s) ∧ (history.map Prod.snd).getLast? = some (.killed 0) ∧
          s.position = .finished := ⟨_, _, rfl, rfl, rfl⟩
  obtain ⟨history, s, computed, last, finished⟩ := executed
  have run := Machine.run_of_exec computed
  obtain ⟨e, member, same⟩ := List.mem_map.mp (List.mem_of_getLast? last)
  exact ⟨history, s, run, ⟨e, member, 0, same⟩, finished, run_over_iff run⟩

/-- The owner kills a thread that has not begun: `kill` returns at once, and then the routine
runs up to the first `Step`. -/
theorem killed_before_start : ∃ history s, (machine Unit).Run {} history s ∧ killed history ∧
    s.position = .stepping := by
  have executed : ∃ history s, (machine Unit).exec {} [.post .owner .activate, .wake .owner,
      .kill, .thread, .thread, .thread] = some (history, s) ∧
        .killed 0 ∈ history.map Prod.snd ∧ s.position = .stepping :=
    ⟨_, _, rfl, by decide, rfl⟩
  obtain ⟨history, s, computed, member, position⟩ := executed
  obtain ⟨e, member, same⟩ := List.mem_map.mp member
  exact ⟨history, s, Machine.run_of_exec computed, ⟨e, member, 0, same⟩, position⟩

end Crs.PosixThread
