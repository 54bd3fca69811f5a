import Crs.Foundation.Machine
import Mathlib.Data.Int.Notation
import Mathlib.Logic.Function.Basic

/-!
# A thread with control flags

`Resume`, `Stop` and `_post_terminate` store an atomic flag and then, in a section under
`_wakeup_mutex`, raise the wake-up flag and notify the thread. The thread looks at the control
flags outside of the mutex, and in its own section it waits until the wake-up flag is up.

Each store, each load and each section is a step. A notification reaches the thread only if it
waits; it may also wake up without one. What a `Step` does is a choice of the label: it posts,
returns or throws. The owner of the object is one of those who post, and it calls `kill`.
-/

namespace Crs.PosixThread

open Foundation

/-- What is posted to the thread. -/
inductive Post where
  | activate
  | deactivate
  | terminate
deriving DecidableEq

/-- Who posts: the thread itself inside of `Step`, the owner of the object, and others. -/
inductive Party (P : Type*) where
  | self
  | owner
  | other (p : P)
deriving DecidableEq

/-- How `Run` ends: it returns, or a `Step` throws. -/
inductive Ending where
  | returned
  | runtimeError (what : String)
  | unhandled
deriving DecidableEq

/-- Where the thread is: before its routine; at the loads of the two flags; in `Step`; before
the section of `Run`; in the wait; behind the wait; at the statements of the routine behind
`Run`; at its end. -/
inductive Position where
  | created
  | checking
  | choosing
  | stepping
  | locking
  | waiting
  | notified
  | ending (e : Ending)
  | clearing
  | returning
  | finished
deriving DecidableEq

/-- The owner is outside of `kill`, before the store of the flag, or behind it. -/
inductive Owner where
  | outside
  | posting
  | joining
deriving DecidableEq

/-- The members of a `cPosixThread`, with those who have stored a flag and not yet woken up the
thread. -/
structure State (P : Type*) where
  position : Position := .created
  owner : Owner := .outside
  pending : Party P → Option Post := fun _ => none
  wakeupFlag : Bool := false
  terminateFlag : Bool := false
  activateFlag : Bool := false
  runningFlag : Bool := false
  threadRoutineResult : ℤ := 0
  errorText : String := ""

variable {P : Type*}

/-- The store of a post. -/
def State.store (s : State P) : Post → State P
  | .activate => { s with activateFlag := true }
  | .deactivate => { s with activateFlag := false }
  | .terminate => { s with terminateFlag := true }

/-- The section of `_wake_up`. -/
def State.wakeUp (s : State P) : State P :=
  { s with
    wakeupFlag := true
    position := if s.position = .waiting then .notified else s.position }

/-- A round of the loop in the section of `Run`. -/
def State.lookUp (s : State P) : State P :=
  if s.wakeupFlag then { s with position := .checking, wakeupFlag := false }
  else { s with position := .waiting }

/-- What the routine keeps of the end of `Run`. -/
def State.keep (s : State P) : Ending → State P
  | .returned => { s with threadRoutineResult := 0 }
  | .runtimeError what => { s with threadRoutineResult := -1, errorText := what }
  | .unhandled =>
      { s with threadRoutineResult := -2, errorText := "unhandled exception in 'thread_routine'" }

/-- The next statement of the routine and of `Run`, outside of `Step`. -/
def advance (s : State P) : Option (State P) :=
  match s.position with
  | .created => some { s with position := .checking, runningFlag := true }
  | .checking =>
      some { s with position := if s.terminateFlag then .ending .returned else .choosing }
  | .choosing => some { s with position := if s.activateFlag then .stepping else .locking }
  | .locking | .notified => some s.lookUp
  | .ending e => some { s.keep e with position := .clearing }
  | .clearing => some { s with position := .returning, runningFlag := false }
  | .returning => some { s with position := .finished }
  | .stepping | .waiting | .finished => none

/-- The end of a `Step`. -/
inductive Outcome where
  | goOn
  | stop
  | throwsRuntimeError (what : String)
  | throwsOther
deriving DecidableEq

def Outcome.position : Outcome → Position
  | .goOn => .checking
  | .stop => .ending .returned
  | .throwsRuntimeError what => .ending (.runtimeError what)
  | .throwsOther => .ending .unhandled

/-- Somebody stores a flag, or executes its `_wake_up`; the thread goes on; its `Step` ends; its
wait ends without a notification; the owner calls `kill` and tests the running flag; the thread
is joined, and `kill` returns. -/
inductive Action (P : Type*) where
  | post (p : Party P) (post : Post)
  | wake (p : Party P)
  | thread
  | step (outcome : Outcome)
  | spurious
  | kill
  | join

inductive Event (P : Type*) where
  | quiet
  | stored (p : Party P) (post : Post)
  | woke (p : Party P) (post : Post)
  | killed (result : ℤ)
deriving DecidableEq

section Machine

variable [DecidableEq P]

/-- Who may post now, with the place where the owner is behind the store. Inside of `kill` the
owner only posts the end. -/
def mayPost (s : State P) (post : Post) : Party P → Option Owner
  | .self => if s.position = .stepping then some s.owner else none
  | .owner =>
      match s.owner with
      | .outside => some .outside
      | .posting => if post = .terminate then some .joining else none
      | .joining => none
  | .other _ => some s.owner

def perform (s : State P) : Action P → Option (Event P × State P)
  | .post p post =>
      if s.pending p = none then
        (mayPost s post p).map fun owner =>
          (.stored p post,
            { s.store post with owner, pending := Function.update s.pending p (some post) })
      else none
  | .wake p =>
      (s.pending p).map fun post =>
        (.woke p post, { s.wakeUp with pending := Function.update s.pending p none })
  | .thread => (advance s).map fun s => (.quiet, s)
  | .step outcome =>
      if s.position = .stepping ∧ s.pending .self = none then
        some (.quiet, { s with position := outcome.position })
      else none
  | .spurious =>
      if s.position = .waiting then some (.quiet, { s with position := .notified }) else none
  | .kill =>
      if s.owner = .outside ∧ s.pending .owner = none then
        if s.runningFlag then some (.quiet, { s with owner := .posting })
        else some (.killed s.threadRoutineResult, s)
      else none
  | .join =>
      if s.owner = .joining ∧ s.pending .owner = none ∧ s.position = .finished then
        some (.killed s.threadRoutineResult, { s with owner := .outside })
      else none

def machine (P : Type*) [DecidableEq P] : Machine (State P) (Action P) (Event P) where
  step := perform

/-- What each kind of step does. -/
inductive Effect (s : State P) : Action P → Event P → State P → Prop where
  | post {p : Party P} {post : Post} {owner : Owner} (free : s.pending p = none)
      (may : mayPost s post p = some owner) :
      Effect s (.post p post) (.stored p post)
        { s.store post with owner, pending := Function.update s.pending p (some post) }
  | wake {p : Party P} {post : Post} (waits : s.pending p = some post) :
      Effect s (.wake p) (.woke p post)
        { s.wakeUp with pending := Function.update s.pending p none }
  | thread {s' : State P} (next : advance s = some s') : Effect s .thread .quiet s'
  | step {outcome : Outcome} (inside : s.position = .stepping) (silent : s.pending .self = none) :
      Effect s (.step outcome) .quiet { s with position := outcome.position }
  | spurious (waiting : s.position = .waiting) :
      Effect s .spurious .quiet { s with position := .notified }
  | running (up : s.runningFlag = true) : Effect s .kill .quiet { s with owner := .posting }
  | idle (down : s.runningFlag = false) : Effect s .kill (.killed s.threadRoutineResult) s
  | join (finished : s.position = .finished) :
      Effect s .join (.killed s.threadRoutineResult) { s with owner := .outside }

theorem effect_of_step {s s' : State P} {a : Action P} {o : Event P}
    (step : perform s a = some (o, s')) : Effect s a o s' := by
  cases a with
  | post p post =>
    simp only [perform, Option.ite_none_right_eq_some, Option.map_eq_some_iff, Prod.mk.injEq]
      at step
    obtain ⟨free, owner, may, rfl, rfl⟩ := step
    exact .post free may
  | wake p =>
    simp only [perform, Option.map_eq_some_iff, Prod.mk.injEq] at step
    obtain ⟨post, waits, rfl, rfl⟩ := step
    exact .wake waits
  | thread =>
    simp only [perform, Option.map_eq_some_iff, Prod.mk.injEq] at step
    obtain ⟨t, next, rfl, rfl⟩ := step
    exact .thread next
  | step outcome =>
    simp only [perform, Option.ite_none_right_eq_some, Option.some.injEq, Prod.mk.injEq] at step
    obtain ⟨⟨inside, silent⟩, rfl, rfl⟩ := step
    exact .step inside silent
  | spurious =>
    simp only [perform, Option.ite_none_right_eq_some, Option.some.injEq, Prod.mk.injEq] at step
    obtain ⟨waiting, rfl, rfl⟩ := step
    exact .spurious waiting
  | kill =>
    simp only [perform, Option.ite_none_right_eq_some] at step
    obtain ⟨-, step⟩ := step
    split at step
    · rename_i up
      obtain ⟨rfl, rfl⟩ := Prod.mk.inj (Option.some.inj step)
      exact .running up
    · rename_i down
      obtain ⟨rfl, rfl⟩ := Prod.mk.inj (Option.some.inj step)
      exact .idle (by simpa using down)
  | join =>
    simp only [perform, Option.ite_none_right_eq_some, Option.some.injEq, Prod.mk.injEq] at step
    obtain ⟨⟨-, -, finished⟩, rfl, rfl⟩ := step
    exact .join finished

end Machine

end Crs.PosixThread
