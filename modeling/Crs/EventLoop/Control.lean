import Crs.Foundation.Machine
import Mathlib.Data.List.Count
import Mathlib.Logic.Function.Basic

/-!
# The control pipe of the event loop

Any thread may write a byte into the control pipe: `terminate` a T, `restart` an R, and
`add` and `remove` call `restart`. The loop waits for the pipe with the flag EPOLLET:
each write makes the pipe reportable once, and `epoll_wait` does not report it again
until something is written. So an iteration that was told about the pipe must empty it.
A hard restart raises a flag, with which `handle_events` returns before it looks at
anything.

The calls do not throw here, a write is never blocked by a full pipe, and what happens
to the other descriptors is left out: a result for one of them only takes a step. A
thread is what is left of its current call.
-/

namespace Crs.EventLoop

open Foundation

namespace Control

/-- The bytes R and T. -/
inductive Signal where
  | restart
  | terminate
deriving DecidableEq

/-- The calls that may come from any thread. -/
inductive Call where
  | terminate (waitConfirmation : Bool)
  | restart (hardRestart : Bool)
  | add
  | remove

/-- What a thread does in one step: store the restart flag, write a byte, change the
descriptors under the lock, or wait for the end of the loop. -/
inductive Op where
  | raise
  | pipeOut (c : Signal)
  | update
  | await

def restart (hardRestart : Bool) : List Op :=
  (if hardRestart then [.raise] else []) ++ [.pipeOut .restart]

def terminate (waitConfirmation : Bool) : List Op :=
  .pipeOut .terminate :: if waitConfirmation then [.await] else []

def Call.ops : Call → List Op
  | .terminate waitConfirmation => Control.terminate waitConfirmation
  | .restart hardRestart => Control.restart hardRestart
  | .add => .update :: Control.restart false
  | .remove => Control.restart true ++ [.update]

/-- A result of `epoll_wait`. -/
inductive Ready where
  | control
  | descriptor (fd : ℕ)
deriving DecidableEq

/-- Where the loop is: outside of `runOnce`, with the last result of `handle_events`; at
`epoll_wait`; behind it; between the load and the store of the restart flag; in the loop
over the results; in `check_terminate`, with the results that are left. -/
inductive Phase where
  | returned (result : Bool)
  | polling
  | woken (ready : List Ready)
  | skipping
  | handling (ready : List Ready) (gotTerminate : Bool)
  | draining (ready : List Ready)

/-- The loop, its control pipe, and the threads. -/
structure State (T : Type*) where
  phase : Phase := .returned true
  pipe : List Signal := []
  edge : Bool := false
  restartFlag : Bool := false
  terminateFlag : Bool := false
  thread : T → List Op := fun _ => []

variable {T : Type*}

/-- The loop has locked the mutex of the descriptors. -/
def Phase.locks : Phase → Bool
  | .handling _ _ | .draining _ => true
  | .returned _ | .polling | .woken _ | .skipping => false

/-- One operation of a thread. -/
def Op.run (s : State T) : Op → Option (State T)
  | .raise => some { s with restartFlag := true }
  | .pipeOut c => some { s with pipe := s.pipe ++ [c], edge := true }
  | .update => if s.phase.locks then none else some s
  | .await => if s.terminateFlag then some { s with terminateFlag := false } else none

/-- The size of `control_buffer`. -/
def nBufSize : ℕ := 256

/-- One round of `check_terminate`; an empty pipe ends it with EAGAIN. -/
def checkTerminate (s : State T) (rest : List Ready) : State T :=
  let chunk := s.pipe.take nBufSize
  let pipe := s.pipe.drop nBufSize
  if chunk = [] then { s with phase := .handling rest false }
  else if .terminate ∈ chunk then { s with phase := .handling rest true, pipe }
  else { s with phase := .draining rest, pipe }

/-- The next step of the loop, except for `epoll_wait`. -/
def iterate (s : State T) : Option (State T) :=
  match s.phase with
  | .returned _ => some { s with phase := .polling }
  | .polling => none
  | .woken ready =>
      if ready = [] then some { s with phase := .returned true }
      else if s.restartFlag then some { s with phase := .skipping }
      else some { s with phase := .handling ready false }
  | .skipping => some { s with phase := .returned true, restartFlag := false }
  | .handling (.control :: rest) _ => some { s with phase := .draining rest }
  | .handling (.descriptor _ :: rest) got => some { s with phase := .handling rest got }
  | .handling [] got =>
      if got then some { s with phase := .returned false, terminateFlag := true }
      else some { s with phase := .returned true }
  | .draining rest => some (checkTerminate s rest)

/-- The return of `epoll_wait`, with no results if the time is out. -/
def poll (s : State T) (ready : List Ready) : Option (State T) :=
  match s.phase with
  | .polling =>
      if ready.count .control ≤ 1 ∧ (.control ∈ ready → s.edge) then
        some { s with
          phase := .woken ready
          edge := s.edge && .control ∉ ready }
      else none
  | .returned _ | .woken _ | .skipping | .handling _ _ | .draining _ => none

/-- A thread begins a call or goes on with it; the loop goes on; `epoll_wait` returns. -/
inductive Action (T : Type*) where
  | call (t : T) (c : Call)
  | run (t : T)
  | loop
  | poll (ready : List Ready)

def machine (T : Type*) [DecidableEq T] : Machine (State T) (Action T) Unit where
  step s a := Option.map (fun s' => ((), s')) <|
    match a with
    | .call t c =>
        if (s.thread t).isEmpty then
          some { s with thread := Function.update s.thread t c.ops }
        else none
    | .run t =>
        match s.thread t with
        | [] => none
        | op :: rest => op.run { s with thread := Function.update s.thread t rest }
    | .loop => iterate s
    | .poll ready => poll s ready

/-- A T is in the pipe, and `epoll_wait`, which comes next, will not report the pipe. -/
def Lost (s : State T) : Prop :=
  .terminate ∈ s.pipe ∧ s.phase = .polling ∧ s.edge = false

/-- The loop leaves no T behind without an edge: neither with a hard restart, nor in the
pipe behind the chunk in which a T is found. -/
def Phase.careful (s : State T) : Phase → Prop
  | .woken ready => ready ≠ [] → s.restartFlag → .terminate ∈ s.pipe → s.edge
  | .draining _ => .terminate ∈ s.pipe.take nBufSize →
      .terminate ∈ s.pipe.drop nBufSize → s.edge
  | .returned _ | .polling | .skipping | .handling _ _ => True

def careful (s : State T) : Action T → Prop
  | .loop => s.phase.careful s
  | .call _ _ | .run _ | .poll _ => True

instance (s : State T) : (phase : Phase) → Decidable (phase.careful s)
  | .woken _ | .draining _ => inferInstanceAs (Decidable (_ → _))
  | .returned _ | .polling | .skipping | .handling _ _ => inferInstanceAs (Decidable True)

instance (s : State T) : (a : Action T) → Decidable (careful s a)
  | .loop => inferInstanceAs (Decidable (Phase.careful _ _))
  | .call _ _ | .run _ | .poll _ => inferInstanceAs (Decidable True)

/-- The results that the loop has not dealt with. -/
def Phase.ready : Phase → List Ready
  | .woken ready | .handling ready _ => ready
  | .draining rest => .control :: rest
  | .returned _ | .polling | .skipping => []

/-- The results mention the pipe once, and a T that is in the pipe will be found. -/
structure Noticed (s : State T) : Prop where
  once : s.phase.ready.count .control ≤ 1
  found : .terminate ∈ s.pipe → s.edge = true ∨ .control ∈ s.phase.ready

variable {s s' : State T} {a : Action T}

theorem Op.run_noticed {op : Op} (held : Noticed s) (step : op.run s = some s') : Noticed s' := by
  cases op with
  | raise =>
      obtain rfl := by simpa [Op.run] using step
      exact ⟨held.once, held.found⟩
  | pipeOut c =>
      obtain rfl := by simpa [Op.run] using step
      exact ⟨held.once, fun _ => .inl rfl⟩
  | update =>
      obtain ⟨-, rfl⟩ := by simpa [Op.run] using step
      exact held
  | await =>
      obtain ⟨-, rfl⟩ := by simpa [Op.run] using step
      exact ⟨held.once, held.found⟩

theorem poll_noticed {ready : List Ready} (held : Noticed s) (step : poll s ready = some s') :
    Noticed s' := by
  unfold poll at step
  split at step
  · rename_i phase
    simp only [Option.ite_none_right_eq_some, Option.some.injEq] at step
    obtain ⟨⟨once, -⟩, rfl⟩ := step
    refine ⟨once, fun unread => ?_⟩
    by_cases reported : .control ∈ ready
    · exact .inr reported
    · have edge : s.edge = true := by simpa [phase, Phase.ready] using held.found unread
      exact .inl (by simp [edge, reported])
  all_goals cases step

theorem checkTerminate_noticed {rest : List Ready} (held : Noticed s)
    (phase : s.phase = .draining rest) (caution : s.phase.careful s) :
    Noticed (checkTerminate s rest) := by
  have once := held.once
  rw [phase] at once caution
  have last : rest.count .control ≤ 1 := by
    rw [Phase.ready, List.count_cons_self] at once
    omega
  rw [checkTerminate]
  split
  · rename_i nothing
    have empty : s.pipe = [] := by simpa [nBufSize] using nothing
    exact ⟨last, fun unread => by simp [empty] at unread⟩
  · split
    · rename_i found
      exact ⟨last, fun unread => .inl (caution found unread)⟩
    · exact ⟨once, fun _ => .inr List.mem_cons_self⟩

/-- A careful step of the loop keeps track of the T. -/
theorem iterate_noticed (held : Noticed s) (caution : s.phase.careful s)
    (step : iterate s = some s') : Noticed s' := by
  obtain ⟨once, found⟩ := held
  unfold iterate at step
  split at step
  · rename_i phase
    obtain rfl := Option.some.inj step
    exact ⟨by simp [Phase.ready], by simpa [phase, Phase.ready] using found⟩
  · cases step
  · rename_i ready phase
    rw [phase] at once found caution
    split at step
    · rename_i timeout
      obtain rfl := Option.some.inj step
      exact ⟨by simp [Phase.ready], by simpa [timeout, Phase.ready] using found⟩
    · rename_i some
      split at step
      · rename_i flag
        obtain rfl := Option.some.inj step
        exact ⟨by simp [Phase.ready], fun unread => .inl (caution some flag unread)⟩
      · obtain rfl := Option.some.inj step
        exact ⟨once, found⟩
  · rename_i phase
    obtain rfl := Option.some.inj step
    exact ⟨by simp [Phase.ready], by simpa [phase, Phase.ready] using found⟩
  · rename_i rest got phase
    obtain rfl := Option.some.inj step
    rw [phase] at once
    exact ⟨once, fun _ => .inr List.mem_cons_self⟩
  · rename_i fd rest got phase
    obtain rfl := Option.some.inj step
    rw [phase] at once found
    exact ⟨by simpa [Phase.ready] using once, by simpa [Phase.ready] using found⟩
  · rename_i got phase
    rw [phase] at found
    split at step
    all_goals
      obtain rfl := Option.some.inj step
      exact ⟨by simp [Phase.ready], by simpa [Phase.ready] using found⟩
  · rename_i rest phase
    obtain rfl := Option.some.inj step
    exact checkTerminate_noticed ⟨once, found⟩ phase caution

theorem Noticed.not_lost (held : Noticed s) : ¬ Lost s := by
  rintro ⟨unread, phase, edge⟩
  have := held.found unread
  simp [phase, edge, Phase.ready] at this

variable [DecidableEq T] {history : List (Action T × Unit)}

/-- In a step other than one of the loop, or a careful one of the loop, no T is missed. -/
theorem step_noticed (held : Noticed s) (caution : careful s a)
    (step : (machine T).step s a = some ((), s')) : Noticed s' := by
  obtain ⟨u, next, result⟩ := Option.map_eq_some_iff.mp step
  obtain rfl : u = s' := by simpa using result
  cases a with
  | call t c =>
      simp only [Option.ite_none_right_eq_some, Option.some.injEq] at next
      obtain ⟨-, rfl⟩ := next
      exact ⟨held.once, held.found⟩
  | run t =>
      simp only at next
      split at next
      · cases next
      · refine Op.run_noticed ?_ next
        exact ⟨held.once, held.found⟩
  | loop => exact iterate_noticed held caution next
  | poll ready => exact poll_noticed held next

theorem run_noticed (run : ((machine T).guard careful).Run {} history s) : Noticed s := by
  apply run.state_invariant (P := Noticed)
  · exact ⟨by simp [Phase.ready], by simp⟩
  · intro t a o u held step
    obtain ⟨caution, step⟩ := Machine.guard_step_iff.mp step
    exact step_noticed held caution step

theorem loop_step (next : iterate s = some s') : (machine T).step s .loop = some ((), s') := by
  rw [machine]
  simp [next]

/-- Without results for the pipe, the loop returns to `epoll_wait` and leaves the pipe alone. -/
theorem lost_of_handling {rest : List Ready} {got : Bool} (absent : .control ∉ rest)
    (phase : s.phase = .handling rest got) (unread : .terminate ∈ s.pipe) (edge : s.edge = false) :
    ∃ history s', (machine T).Run s history s' ∧ Lost s' := by
  induction rest generalizing s with
  | nil =>
      cases got with
      | false =>
          have leave : iterate s = some { s with phase := .returned true } := by
            simp [iterate, phase]
          exact ⟨_, _, .cons (loop_step leave) (.single (loop_step rfl)), unread, rfl, edge⟩
      | true =>
          have leave : iterate s =
              some { s with phase := .returned false, terminateFlag := true } := by
            simp [iterate, phase]
          exact ⟨_, _, .cons (loop_step leave) (.single (loop_step rfl)), unread, rfl, edge⟩
  | cons ready rest ih =>
      cases ready with
      | control => simp at absent
      | descriptor fd =>
          have pass : iterate s = some { s with phase := .handling rest got } := by
            simp [iterate, phase]
          obtain ⟨history, s', run, lost⟩ := ih (s := { s with phase := .handling rest got })
            (by simpa using absent) rfl unread edge
          exact ⟨_, s', .cons (loop_step pass) run, lost⟩

/-- A careless step leads to a lost T by steps of the loop alone. -/
theorem lost_of_careless (held : Noticed s) (careless : ¬ careful s a)
    (step : (machine T).step s a = some ((), s')) :
    ∃ history u, (machine T).Run s' history u ∧ Lost u := by
  cases a with
  | call | run | poll => simp [careful] at careless
  | loop =>
      obtain ⟨u, next, result⟩ := Option.map_eq_some_iff.mp step
      obtain rfl : u = s' := by simpa using result
      cases phase : s.phase with
      | returned | polling | skipping | handling => simp [careful, Phase.careful, phase] at careless
      | woken ready =>
          obtain ⟨some, flag, unread, edge⟩ : ready ≠ [] ∧ s.restartFlag = true ∧
              .terminate ∈ s.pipe ∧ s.edge = false := by
            simpa [careful, Phase.careful, phase] using careless
          obtain rfl : { s with phase := .skipping } = u := by
            simpa [iterate, phase, some, flag] using next
          exact ⟨_, _, .cons (loop_step rfl) (.single (loop_step rfl)), unread, rfl, edge⟩
      | draining rest =>
          obtain ⟨found, unread, edge⟩ : .terminate ∈ s.pipe.take nBufSize ∧
              .terminate ∈ s.pipe.drop nBufSize ∧ s.edge = false := by
            simpa [careful, Phase.careful, phase] using careless
          have some : s.pipe.take nBufSize ≠ [] := List.ne_nil_of_mem found
          obtain rfl : checkTerminate s rest = u := by simpa [iterate, phase] using next
          have once := held.once
          rw [phase, Phase.ready, List.count_cons_self] at once
          have absent : .control ∉ rest := List.count_eq_zero.mp (by omega)
          rw [checkTerminate, if_neg some, if_pos found]
          exact lost_of_handling absent rfl unread edge

/-- In a run of careful steps no T is lost; after the first careless step one is lost if
only the loop goes on. -/
theorem run_not_lost (run : ((machine T).guard careful).Run {} history s) :
    ¬ Lost s ∧ ∀ a o s', (machine T).step s a = some (o, s') → ¬ careful s a →
      ∃ rest u, (machine T).Run s' rest u ∧ Lost u :=
  ⟨(run_noticed run).not_lost, fun _ _ _ step careless =>
    lost_of_careless (run_noticed run) careless step⟩

/-- A hard restart that the loop has noticed before the loop is terminated. -/
theorem run_not_lost_twice : ∃ history s, ((machine Unit).guard careful).Run {} history s ∧
    ¬ Lost s ∧ s.terminateFlag = true := by
  have executed : ∃ history s, ((machine Unit).guard careful).exec {}
      [.loop, .call () .remove, .run (), .run (), .poll [.control], .loop, .loop, .loop, .run (),
        .call () (.terminate true), .run (), .poll [.descriptor 5, .control], .loop, .loop, .loop,
        .loop, .loop] = some (history, s) ∧ s.terminateFlag = true := ⟨_, _, rfl, by decide⟩
  obtain ⟨history, s, computed, ended⟩ := executed
  have run := Machine.run_of_exec computed
  exact ⟨history, s, run, (run_not_lost run).1, ended⟩

/-- A thread removes a descriptor and then asks for the termination. The loop wakes up once
for both, finds the flag of the hard restart, and waits again. -/
theorem terminate_lost : ∃ history s, (machine Unit).Run {} history s ∧ Lost s := by
  have executed : ∃ history s, (machine Unit).exec {}
      [.loop, .call () .remove, .run (), .run (), .run (), .call () (.terminate true), .run (),
        .poll [.control], .loop, .loop, .loop] = some (history, s) ∧
        (.terminate ∈ s.pipe ∧ s.phase = .polling ∧ s.edge = false) :=
    ⟨_, _, rfl, by decide, rfl, rfl⟩
  obtain ⟨history, s, computed, lost⟩ := executed
  exact ⟨history, s, Machine.run_of_exec computed, lost⟩

end Control

end Crs.EventLoop
