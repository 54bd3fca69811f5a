import Crs.Foundation.Machine
import Mathlib.Data.Fintype.Card

/-!
# Monitors with one condition variable

The threads share data behind one mutex and wait on one condition variable. A
locked section is atomic: it runs from the lock to the return, or to the wait that
releases the lock. A thread leaves the wait set when it is notified, when its
deadline passes or spuriously; it then waits for the mutex and looks at the data
again. A label says who runs, whom `notify_one` picks, and whether the deadline has
passed when a thread looks again; so a run is any interleaving, any choice of the
condition variable and any timing.

`notify_one` picks one of the sleeping threads, and nobody only if nobody sleeps.
-/

namespace Foundation

open Finset

/-- Whom a locked section notifies. -/
inductive Signal where
  | nobody
  | one
  | all
  deriving DecidableEq

/-- `enter` is the first locked section of a call, without a result if the call has
to wait. `resume` is the section after the wait, once the awaited predicate holds.
`expire` is the result of a call whose deadline passed; a call without a deadline has none. -/
structure Monitor (σ C R : Type*) where
  enter : C → σ → σ × Signal × Option R
  resume : C → σ → Option (σ × R)
  expire : C → Option R

namespace Monitor

/-- A thread is outside, in the wait set of the condition variable, or on its way
from there to the mutex, with or without a notification. -/
inductive Phase (C : Type*) where
  | idle
  | asleep (call : C)
  | awake (call : C) (notified : Bool)
  deriving DecidableEq

structure State (σ T C : Type*) where
  data : σ
  phase : T → Phase C

inductive Label (T C : Type*) where
  | call (t : T) (c : C) (woken : Option T)
  | wake (t : T)
  | recheck (t : T) (late : Bool)
  deriving DecidableEq

variable {σ T C R : Type*}

namespace Phase

def isIdle : Phase C → Bool
  | idle => true
  | asleep _ | awake _ _ => false

def isAsleep : Phase C → Bool
  | asleep _ => true
  | idle | awake _ _ => false

def isNotified : Phase C → Bool
  | awake _ notified => notified
  | idle | asleep _ => false

/-- The call that a thread is in. -/
def call? : Phase C → Option C
  | idle => none
  | asleep c | awake c _ => some c

/-- A notification moves a thread out of the wait set and is lost on any other thread. -/
def notified : Phase C → Phase C
  | asleep c => awake c true
  | p => p

@[simp] theorem isAsleep_notified (p : Phase C) : p.notified.isAsleep = false := by
  cases p <;> rfl

@[simp] theorem call?_notified (p : Phase C) : p.notified.call? = p.call? := by
  cases p <;> rfl

/-- The phase of a caller at the end of a locked section. -/
def settled (c : C) : Option R → Phase C
  | some _ => idle
  | none => asleep c

@[simp] theorem settled_some (c : C) (r : R) : settled c (some r) = idle := rfl
@[simp] theorem settled_none (c : C) : settled c (none : Option R) = asleep c := rfl

end Phase

variable [Fintype T] [DecidableEq T]

/-- The phases after a signal, for a legal choice of the woken thread. -/
def notify (phase : T → Phase C) : Signal → Option T → Option (T → Phase C)
  | .nobody, none => some phase
  | .one, none => if ∀ u, (phase u).isAsleep = false then some phase else none
  | .one, some u =>
      if (phase u).isAsleep then some (Function.update phase u (phase u).notified) else none
  | .all, none => some fun u => (phase u).notified
  | .nobody, some _ | .all, some _ => none

/-- The monitor under all interleavings. A step reports the call that returns in it. -/
def machine (M : Monitor σ C R) (T : Type*) [Fintype T] [DecidableEq T] :
    Machine (State σ T C) (Label T C) (Option (C × R)) where
  step s
    | .call t c woken =>
        match s.phase t, M.enter c s.data with
        | .idle, (data, signal, result) =>
            (notify s.phase signal woken).map fun phase =>
              (result.map (c, ·), ⟨data, Function.update phase t (.settled c result)⟩)
        | _, _ => none
    | .wake t =>
        match s.phase t with
        | .asleep c => some (none, { s with phase := Function.update s.phase t (.awake c false) })
        | _ => none
    | .recheck t late =>
        match s.phase t with
        | .awake c _ =>
            match M.resume c s.data with
            | some (data, r) => some (some (c, r), ⟨data, Function.update s.phase t .idle⟩)
            | none =>
                if late then (M.expire c).map fun r =>
                  (some (c, r), { s with phase := Function.update s.phase t .idle })
                else some (none, { s with phase := Function.update s.phase t (.asleep c) })
        | _ => none

/-- All threads are outside. -/
def initial (T C : Type*) (data : σ) : State σ T C := ⟨data, fun _ => .idle⟩

/-- What a step can do, one constructor a case. -/
inductive Effect (M : Monitor σ C R) (s : State σ T C) :
    Label T C → Option (C × R) → State σ T C → Prop where
  | call {t : T} {c : C} {woken : Option T} {data : σ} {signal : Signal} {result : Option R}
      {phase : T → Phase C} (outside : s.phase t = .idle)
      (entered : M.enter c s.data = (data, signal, result))
      (signalled : notify s.phase signal woken = some phase) :
      Effect M s (.call t c woken) (result.map (c, ·))
        ⟨data, Function.update phase t (.settled c result)⟩
  | wake {t : T} {c : C} (sleeping : s.phase t = .asleep c) :
      Effect M s (.wake t) none { s with phase := Function.update s.phase t (.awake c false) }
  | resume {t : T} {c : C} {notified late : Bool} {data : σ} {r : R}
      (waking : s.phase t = .awake c notified) (resumed : M.resume c s.data = some (data, r)) :
      Effect M s (.recheck t late) (some (c, r)) ⟨data, Function.update s.phase t .idle⟩
  | expire {t : T} {c : C} {notified : Bool} {r : R} (waking : s.phase t = .awake c notified)
      (blocked : M.resume c s.data = none) (expired : M.expire c = some r) :
      Effect M s (.recheck t true) (some (c, r))
        { s with phase := Function.update s.phase t .idle }
  | sleep {t : T} {c : C} {notified : Bool} (waking : s.phase t = .awake c notified)
      (blocked : M.resume c s.data = none) :
      Effect M s (.recheck t false) none
        { s with phase := Function.update s.phase t (.asleep c) }

/-- The cases are exactly the steps. -/
theorem step_iff_effect {M : Monitor σ C R} {s s' : State σ T C} {l : Label T C}
    {o : Option (C × R)} : (M.machine T).step s l = some (o, s') ↔ Effect M s l o s' := by
  constructor
  · intro step
    cases l with
    | call t c woken =>
        simp only [machine] at step
        split at step
        · rename_i outside entered
          obtain ⟨phase, signalled, rfl, rfl⟩ := by simpa using step
          exact .call outside entered signalled
        · simp at step
    | wake t =>
        simp only [machine] at step
        split at step
        · rename_i sleeping
          obtain ⟨rfl, rfl⟩ := by simpa using step
          exact .wake sleeping
        · simp at step
    | recheck t late =>
        simp only [machine] at step
        split at step
        · rename_i waking
          split at step
          · rename_i resumed
            obtain ⟨rfl, rfl⟩ := by simpa using step
            exact .resume waking resumed
          · rename_i blocked
            cases late with
            | false =>
                obtain ⟨rfl, rfl⟩ := by simpa using step
                exact .sleep waking blocked
            | true =>
                obtain ⟨r, expired, rfl, rfl⟩ := by simpa using step
                exact .expire waking blocked expired
        · simp at step
  · intro effect
    cases effect with
    | call outside entered signalled => simp [machine, outside, entered, signalled]
    | wake sleeping => simp [machine, sleeping]
    | resume waking resumed => simp [machine, waking, resumed]
    | expire waking blocked expired => simp [machine, waking, blocked, expired]
    | sleep waking blocked => simp [machine, waking, blocked]

section Sets

/-- The threads in the wait set. -/
def sleepers (phase : T → Phase C) : Finset T := {t | (phase t).isAsleep}

/-- The notified threads that have yet to look at the data. -/
def pending (phase : T → Phase C) : Finset T := {t | (phase t).isNotified}

variable {phase phase' : T → Phase C} {t : T} {p : Phase C} {c : C}

omit [DecidableEq T] in
@[simp] theorem mem_sleepers : t ∈ sleepers phase ↔ (phase t).isAsleep := by simp [sleepers]

omit [DecidableEq T] in
@[simp] theorem mem_pending : t ∈ pending phase ↔ (phase t).isNotified := by simp [pending]

private theorem sleepers_update (asleep : Bool) (here : p.isAsleep = asleep) :
    sleepers (Function.update phase t p) =
      if asleep then insert t (sleepers phase) else (sleepers phase).erase t := by
  apply Finset.ext
  intro u
  by_cases same : u = t <;> cases asleep <;> simp [same, here, Function.update_of_ne]

private theorem pending_update (notified : Bool) (here : p.isNotified = notified) :
    pending (Function.update phase t p) =
      if notified then insert t (pending phase) else (pending phase).erase t := by
  apply Finset.ext
  intro u
  by_cases same : u = t <;> cases notified <;> simp [same, here, Function.update_of_ne]

@[simp] theorem sleepers_update_idle :
    sleepers (Function.update phase t .idle) = (sleepers phase).erase t :=
  sleepers_update false rfl

@[simp] theorem sleepers_update_awake {notified : Bool} :
    sleepers (Function.update phase t (.awake c notified)) = (sleepers phase).erase t :=
  sleepers_update false rfl

@[simp] theorem sleepers_update_asleep :
    sleepers (Function.update phase t (.asleep c)) = insert t (sleepers phase) :=
  sleepers_update true rfl

@[simp] theorem pending_update_idle :
    pending (Function.update phase t .idle) = (pending phase).erase t :=
  pending_update false rfl

@[simp] theorem pending_update_asleep :
    pending (Function.update phase t (.asleep c)) = (pending phase).erase t :=
  pending_update false rfl

@[simp] theorem pending_update_unnotified :
    pending (Function.update phase t (.awake c false)) = (pending phase).erase t :=
  pending_update false rfl

@[simp] theorem pending_update_notified :
    pending (Function.update phase t (.awake c true)) = insert t (pending phase) :=
  pending_update true rfl

/-- `notify_one` moves one thread from the wait set to the pending ones, or the wait set is
empty. -/
theorem notify_one_cases {woken : Option T} (signalled : notify phase .one woken = some phase') :
    (woken = none ∧ phase' = phase ∧ sleepers phase = ∅) ∨
      ∃ u, woken = some u ∧ u ∈ sleepers phase ∧ sleepers phase' = (sleepers phase).erase u ∧
        pending phase' = insert u (pending phase) := by
  cases woken with
  | none =>
      obtain ⟨nobody, rfl⟩ := by simpa [notify] using signalled
      exact .inl ⟨rfl, rfl, by ext u; simp [nobody]⟩
  | some u =>
      obtain ⟨asleep, rfl⟩ := by simpa [notify] using signalled
      refine .inr ⟨u, rfl, mem_sleepers.mpr asleep, ?_⟩
      cases atU : phase u with
      | asleep c => simp [Phase.notified]
      | idle | awake => rw [atU] at asleep; cases asleep

theorem notify_nobody_eq {woken : Option T} (signalled : notify phase .nobody woken = some phase') :
    phase' = phase := by
  cases woken with
  | none => exact (Option.some.inj signalled).symm
  | some u => cases signalled

theorem notify_all_eq {woken : Option T} (signalled : notify phase .all woken = some phase') :
    phase' = fun u => (phase u).notified := by
  cases woken with
  | none => exact (Option.some.inj signalled).symm
  | some u => cases signalled

omit [DecidableEq T] in
theorem sleepers_notify_all : sleepers (fun u => (phase u).notified) = ∅ := by
  apply Finset.ext
  intro u
  simp

end Sets

section Calls

variable {M : Monitor σ C R} {s s' : State σ T C} {l : Label T C} {o : Option (C × R)}

theorem call?_notify {phase phase' : T → Phase C} {signal : Signal} {woken : Option T}
    (signalled : notify phase signal woken = some phase') (u : T) :
    (phase' u).call? = (phase u).call? := by
  cases signal with
  | nobody => rw [notify_nobody_eq signalled]
  | all => rw [notify_all_eq signalled, Phase.call?_notified]
  | one =>
      cases woken with
      | none => rw [← (by simpa [notify] using signalled : _ ∧ phase = phase').2]
      | some v =>
          obtain ⟨-, rfl⟩ := by simpa [notify] using signalled
          by_cases same : u = v <;> simp [same, Function.update_of_ne]

/-- Every thread inside is in a call that can block. -/
theorem Effect.blocking {Q : C → Prop}
    (blocks : ∀ c before after signal, M.enter c before = (after, signal, none) → Q c)
    (held : ∀ u c, (s.phase u).call? = some c → Q c) (effect : Effect M s l o s') :
    ∀ u c, (s'.phase u).call? = some c → Q c := by
  have kept : ∀ {t : T} {p : Phase C}, (∀ c, p.call? = some c → Q c) →
      ∀ u c, (Function.update s.phase t p u).call? = some c → Q c := by
    intro t p here u c
    obtain same | other := eq_or_ne u t
    · subst same
      simpa using here c
    · simpa [Function.update_of_ne other] using held u c
  cases effect with
  | @call t c woken data signal result phase outside entered signalled =>
      intro u d inside
      obtain same | other := eq_or_ne u t
      · subst same
        cases result with
        | some r => simp [Phase.call?] at inside
        | none =>
            obtain rfl : c = d := by simpa [Phase.call?] using inside
            exact blocks c _ _ _ entered
      · simp only [Function.update_of_ne other, call?_notify signalled] at inside
        exact held u d inside
  | wake sleeping => exact kept fun c eq => held _ c (by rw [sleeping]; exact eq)
  | resume => exact kept fun c eq => by cases eq
  | expire => exact kept fun c eq => by cases eq
  | sleep waking => exact kept fun c eq => held _ c (by rw [waking]; exact eq)

end Calls

/-- A call that times out while nobody else runs leaves only its first section behind. -/
theorem run_timeout {M : Monitor σ C R} {s : State σ T C} {t : T} {c : C} {data : σ} {r : R}
    (outside : s.phase t = .idle) (entered : M.enter c s.data = (data, .nobody, none))
    (blocked : M.resume c data = none) (expired : M.expire c = some r) :
    (M.machine T).Run s [(.call t c none, none), (.wake t, none), (.recheck t true, some (c, r))]
      { s with data } := by
  let s₁ : State σ T C := ⟨data, Function.update s.phase t (.asleep c)⟩
  let s₂ : State σ T C := ⟨data, Function.update s.phase t (.awake c false)⟩
  have arrive : Effect M s (.call t c none) none s₁ := .call outside entered rfl
  have wake : Effect M s₁ (.wake t) none s₂ := by
    have step := Effect.wake (M := M) (s := s₁) (Function.update_self t _ _)
    rwa [Function.update_idem] at step
  have giveUp : Effect M s₂ (.recheck t true) (some (c, r)) { s with data } := by
    have step := Effect.expire (s := s₂) (Function.update_self t _ _) blocked expired
    rwa [Function.update_idem, ← outside, Function.update_eq_self] at step
  exact .cons (step_iff_effect.mpr arrive) (.cons (step_iff_effect.mpr wake)
    (.single (step_iff_effect.mpr giveUp)))

end Monitor
end Foundation
