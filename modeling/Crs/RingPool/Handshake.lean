import Crs.Foundation.Machine
import Mathlib.Data.List.Count
import Mathlib.Data.Nat.ModEq

/-!
# The producer and the swapper

`push` fills a pool, moves on to the next one, takes a token of the semaphore and resumes
the swapper thread. The thread stops itself at the beginning of a step, swaps one pool and
gives a token back. So the requests are one flag, and the capacity is a counter.

What the pools contain is left out: whether a point has filled its pool is a choice of the
label, and the body of `_swap` before the pools are exchanged takes no step here. The
semaphore and the condition of the thread behave as such: a step that has to wait does
not exist.
-/

namespace Crs.RingPool

open Foundation

namespace Handshake

/-- The producer is outside of `push`; at the pool; behind a pool that is full; at the
semaphore; at the two statements of `Resume`; at the last statement of `push`. -/
inductive Producer where
  | idle
  | writing
  | advancing
  | locking
  | resuming
  | waking
  | counting
deriving DecidableEq

/-- The thread is at the load of its flag; waits to be woken up; is at the two statements
of `Stop`; in `_swap`; at the last statement of `_swap`. -/
inductive Swapper where
  | checking
  | asleep
  | stopping
  | stirring
  | working
  | unlocking
deriving DecidableEq

inductive Event where
  | quiet
  | filled
  | advanced
  | locked
  | resumed
  | completed
  | swapped
  | unlocked
deriving DecidableEq

structure State where
  producer : Producer := .idle
  swapper : Swapper := .checking
  activateFlag : Bool := false
  wakeupFlag : Bool := false
  semaphore : ℕ
  currentPool : ℕ := 0
  nPool2Swap : ℕ := 0

variable {rootMask : ℕ}

/-- The next statement of `push`. -/
def producerStep (rootMask : ℕ) (full : Bool) (s : State) : Option (Event × State) :=
  match s.producer with
  | .idle => some (.quiet, { s with producer := .writing })
  | .writing =>
      if full then some (.filled, { s with producer := .advancing })
      else some (.quiet, { s with producer := .counting })
  | .advancing =>
      some (.advanced,
        { s with producer := .locking, currentPool := (s.currentPool + 1) &&& rootMask })
  | .locking =>
      if 0 < s.semaphore then
        some (.locked, { s with producer := .resuming, semaphore := s.semaphore - 1 })
      else none
  | .resuming => some (.resumed, { s with producer := .waking, activateFlag := true })
  | .waking => some (.quiet, { s with producer := .counting, wakeupFlag := true })
  | .counting => some (.completed, { s with producer := .idle })

/-- The next statement of the thread, which is never terminated. -/
def swapperStep (rootMask : ℕ) (s : State) : Option (Event × State) :=
  match s.swapper with
  | .checking =>
      if s.activateFlag then some (.quiet, { s with swapper := .stopping })
      else some (.quiet, { s with swapper := .asleep })
  | .asleep =>
      if s.wakeupFlag then some (.quiet, { s with swapper := .checking, wakeupFlag := false })
      else none
  | .stopping => some (.quiet, { s with swapper := .stirring, activateFlag := false })
  | .stirring => some (.quiet, { s with swapper := .working, wakeupFlag := true })
  | .working =>
      some (.swapped,
        { s with swapper := .unlocking, nPool2Swap := (s.nPool2Swap + 1) &&& rootMask })
  | .unlocking =>
      some (.unlocked, { s with swapper := .checking, semaphore := s.semaphore + 1 })

/-- The producer goes on, with a point that fills its pool or not; the thread goes on. -/
inductive Action where
  | producer (full : Bool)
  | swapper

def handshake (rootMask : ℕ) : Machine State Action Event where
  step s
    | .producer full => producerStep rootMask full s
    | .swapper => swapperStep rootMask s

/-- The constructor of `ring_pool`, with `m` pools in memory. -/
def new (m : ℕ) : State := { semaphore := m - 1 }

/-- The thread is inside of a `Step` that has not given its token back. -/
@[simp] def Swapper.busy : Swapper → Bool
  | .stopping | .stirring | .working | .unlocking => true
  | .checking | .asleep => false

/-- The producer waits for a token. -/
def State.blocked (s : State) : Prop := s.producer = .locking ∧ s.semaphore = 0

/-- How many pools were filled, and how many were swapped. -/
def fills (events : List Event) : ℕ := events.count .filled

def swaps (events : List Event) : ℕ := events.count .swapped

/-- What the phases have in progress, as a difference between two counters. -/
@[simp] def Producer.toAdvance : Producer → ℕ
  | .advancing => 1
  | .idle | .writing | .locking | .resuming | .waking | .counting => 0

@[simp] def Producer.toLock : Producer → ℕ
  | .locking => 1
  | .idle | .writing | .advancing | .resuming | .waking | .counting => 0

@[simp] def Producer.toResume : Producer → ℕ
  | .resuming => 1
  | .idle | .writing | .advancing | .locking | .waking | .counting => 0

@[simp] def Swapper.toUnlock : Swapper → ℕ
  | .unlocking => 1
  | .checking | .asleep | .stopping | .stirring | .working => 0

/-- The requests that the thread has accepted or will find: a flag that is going to be
cleared counts as accepted. -/
@[simp] def Swapper.requests (activateFlag : Bool) : Swapper → ℕ
  | .stopping => 1
  | .stirring | .working => 1 + activateFlag.toNat
  | .checking | .asleep | .unlocking => activateFlag.toNat

/-- The counters, the flags and the indices of a run with `m` pools in memory and `n` pools
in all. -/
structure Balanced (m n : ℕ) (events : List Event) (s : State) : Prop where
  advanced : fills events = events.count .advanced + s.producer.toAdvance
  locked : events.count .advanced = events.count .locked + s.producer.toLock
  resumed : events.count .locked = events.count .resumed + s.producer.toResume
  unlocked : swaps events = events.count .unlocked + s.swapper.toUnlock
  tokens : s.semaphore + events.count .locked = m - 1 + events.count .unlocked
  requested : swaps events + s.swapper.requests s.activateFlag ≤ events.count .resumed
  served : s.semaphore = 0 →
    s.producer = .resuming ∨ s.activateFlag = true ∨ s.swapper.busy = true
  awake : s.activateFlag = true → s.swapper = .asleep →
    s.wakeupFlag = true ∨ s.producer = .waking
  current : s.currentPool = events.count .advanced % n
  toSwap : s.nPool2Swap = swaps events % n

variable {m r : ℕ} {events : List Event} {s s' : State} {a : Action} {o : Event}

theorem new_balanced (two : 2 ≤ m) : Balanced m (2 ^ r) [] (new m) where
  advanced := rfl
  locked := rfl
  resumed := rfl
  unlocked := rfl
  tokens := rfl
  requested := le_rfl
  served none := by
    have : m - 1 = 0 := none
    omega
  awake := nofun
  current := (Nat.zero_mod _).symm
  toSwap := (Nat.zero_mod _).symm

/-- A request that is posted adds one, or is merged with one that is there. -/
theorem Swapper.requests_le (phase : Swapper) (activateFlag : Bool) :
    phase.requests true ≤ phase.requests activateFlag + 1 := by
  cases phase <;> cases activateFlag <;> decide

section Counting

variable (events : List Event)

@[simp] theorem fills_snoc (o : Event) :
    fills (events ++ [o]) = fills events + if o = .filled then 1 else 0 := by
  simp [fills, List.count_singleton]

@[simp] theorem swaps_snoc (o : Event) :
    swaps (events ++ [o]) = swaps events + if o = .swapped then 1 else 0 := by
  simp [swaps, List.count_singleton]

@[simp] theorem count_snoc (o e : Event) :
    (events ++ [o]).count e = events.count e + if o = e then 1 else 0 := by
  simp [List.count_singleton]

end Counting

/-- Some events are not counted. -/
theorem Balanced.snoc {n : ℕ} (held : Balanced m n events s)
    (uncounted : o = .quiet ∨ o = .completed) : Balanced m n (events ++ [o]) s := by
  obtain rfl | rfl := uncounted
  all_goals
    exact { held with
      advanced := by simpa using held.advanced
      locked := by simpa using held.locked
      resumed := by simpa using held.resumed
      unlocked := by simpa using held.unlocked
      tokens := by simpa using held.tokens
      requested := by simpa using held.requested
      current := by simpa using held.current
      toSwap := by simpa using held.toSwap }

theorem producerStep_balanced {full : Bool} (held : Balanced m (2 ^ r) events s)
    (step : producerStep (2 ^ r - 1) full s = some (o, s')) :
    Balanced m (2 ^ r) (events ++ [o]) s' := by
  obtain ⟨producer, swapper, activateFlag, wakeupFlag, semaphore, currentPool, nPool2Swap⟩ := s
  cases producer with
  | idle | counting =>
    obtain ⟨rfl, rfl⟩ := by simpa [producerStep] using step
    exact { held.snoc (by simp) with
      served := by simpa using held.served
      awake := by simpa using held.awake }
  | writing =>
    cases full with
    | false =>
      obtain ⟨rfl, rfl⟩ := by simpa [producerStep] using step
      exact { held.snoc (.inl rfl) with
        served := by simpa using held.served
        awake := by simpa using held.awake }
    | true =>
      obtain ⟨rfl, rfl⟩ := by simpa [producerStep] using step
      exact
        { advanced := by simpa using held.advanced
          locked := by simpa using held.locked
          resumed := by simpa using held.resumed
          unlocked := by simpa using held.unlocked
          tokens := by simpa using held.tokens
          requested := by simpa using held.requested
          served := by simpa using held.served
          awake := by simpa using held.awake
          current := by simpa using held.current
          toSwap := by simpa using held.toSwap }
  | advancing =>
    obtain ⟨rfl, rfl⟩ := by simpa [producerStep] using step
    have current : currentPool = events.count .advanced % 2 ^ r := held.current
    exact
      { advanced := by simpa using held.advanced
        locked := by simpa using held.locked
        resumed := by simpa using held.resumed
        unlocked := by simpa using held.unlocked
        tokens := by simpa using held.tokens
        requested := by simpa using held.requested
        served := by simpa using held.served
        awake := by simpa using held.awake
        current := by simp [current]
        toSwap := by simpa using held.toSwap }
  | locking =>
    obtain ⟨some, rfl, rfl⟩ := by simpa [producerStep] using step
    have tokens : semaphore + events.count .locked = m - 1 + events.count .unlocked := held.tokens
    exact
      { advanced := by simpa using held.advanced
        locked := by simpa using held.locked
        resumed := by simpa using held.resumed
        unlocked := by simpa using held.unlocked
        tokens := by
          simp only [count_snoc, reduceCtorEq, if_true, if_false]
          omega
        requested := by simpa using held.requested
        served := fun _ => .inl rfl
        awake := by simpa using held.awake
        current := by simpa using held.current
        toSwap := by simpa using held.toSwap }
  | resuming =>
    obtain ⟨rfl, rfl⟩ := by simpa [producerStep] using step
    have posted := swapper.requests_le activateFlag
    have requested : swaps events + swapper.requests activateFlag ≤ events.count .resumed :=
      held.requested
    exact
      { advanced := by simpa using held.advanced
        locked := by simpa using held.locked
        resumed := by simpa using held.resumed
        unlocked := by simpa using held.unlocked
        tokens := by simpa using held.tokens
        requested := by
          simp only [swaps_snoc, count_snoc, reduceCtorEq, if_true, if_false]
          omega
        served := fun _ => .inr (.inl rfl)
        awake := fun _ _ => .inr rfl
        current := by simpa using held.current
        toSwap := by simpa using held.toSwap }
  | waking =>
    obtain ⟨rfl, rfl⟩ := by simpa [producerStep] using step
    exact { held.snoc (.inl rfl) with
      served := by simpa using held.served
      awake := fun _ _ => .inl rfl }

/-- Only a point that is written fills a pool, and only the beginning of `push` leads there. -/
theorem producerStep_frame {full : Bool} (phase : s.producer ≠ .writing)
    (step : producerStep rootMask full s = some (o, s')) :
    o ≠ .filled ∧ (s'.producer = .writing → s.producer = .idle) := by
  unfold producerStep at step
  split at step
  · rename_i idle
    obtain ⟨rfl, rfl⟩ := by simpa using step
    exact ⟨by decide, fun _ => idle⟩
  · rename_i writing
    exact absurd writing phase
  · obtain ⟨rfl, rfl⟩ := by simpa using step
    exact ⟨by decide, nofun⟩
  · obtain ⟨-, rfl, rfl⟩ := by simpa using step
    exact ⟨by decide, nofun⟩
  all_goals
    obtain ⟨rfl, rfl⟩ := by simpa using step
    exact ⟨by decide, nofun⟩

/-- The thread leaves the producer alone, and swaps only in `_swap`. -/
theorem swapperStep_frame (phase : s.swapper ≠ .working)
    (step : swapperStep rootMask s = some (o, s')) :
    s'.producer = s.producer ∧ o ≠ .filled ∧ o ≠ .swapped ∧ o ≠ .completed := by
  unfold swapperStep at step
  split at step
  · split at step
    all_goals
      obtain ⟨rfl, rfl⟩ := by simpa using step
      exact ⟨rfl, by decide⟩
  · obtain ⟨-, rfl, rfl⟩ := by simpa using step
    exact ⟨rfl, by decide⟩
  · obtain ⟨rfl, rfl⟩ := by simpa using step
    exact ⟨rfl, by decide⟩
  · obtain ⟨rfl, rfl⟩ := by simpa using step
    exact ⟨rfl, by decide⟩
  · rename_i works
    exact absurd works phase
  · obtain ⟨rfl, rfl⟩ := by simpa using step
    exact ⟨rfl, by decide⟩

/-- A point is written into its pool. -/
theorem writing_step {full : Bool} (phase : s.producer = .writing)
    (step : producerStep rootMask full s = some (o, s')) :
    o = (if full then .filled else .quiet) ∧
      s' = { s with producer := if full then .advancing else .counting } := by
  cases full
  all_goals
    obtain ⟨rfl, rfl⟩ := by simpa [producerStep, phase] using step
    exact ⟨rfl, rfl⟩

theorem swapperStep_balanced (held : Balanced m (2 ^ r) events s)
    (step : swapperStep (2 ^ r - 1) s = some (o, s')) :
    Balanced m (2 ^ r) (events ++ [o]) s' := by
  obtain ⟨producer, swapper, activateFlag, wakeupFlag, semaphore, currentPool, nPool2Swap⟩ := s
  cases swapper with
  | checking =>
    cases activateFlag with
    | false =>
      obtain ⟨rfl, rfl⟩ := by simpa [swapperStep] using step
      exact { held.snoc (.inl rfl) with
        served := by simpa using held.served
        awake := by simp }
    | true =>
      obtain ⟨rfl, rfl⟩ := by simpa [swapperStep] using step
      exact { held.snoc (.inl rfl) with
        served := fun _ => .inr (.inl rfl)
        awake := by simp }
  | asleep =>
    obtain ⟨-, rfl, rfl⟩ := by simpa [swapperStep] using step
    exact { held.snoc (.inl rfl) with
      served := by simpa using held.served
      awake := by simp }
  | stopping =>
    -- The flag is cleared, and its request is accepted.
    obtain ⟨rfl, rfl⟩ := by simpa [swapperStep] using step
    exact { held.snoc (.inl rfl) with
      served := fun _ => .inr (.inr rfl)
      awake := by simp }
  | stirring =>
    obtain ⟨rfl, rfl⟩ := by simpa [swapperStep] using step
    exact { held.snoc (.inl rfl) with
      served := fun _ => .inr (.inr rfl)
      awake := by simp }
  | working =>
    obtain ⟨rfl, rfl⟩ := by simpa [swapperStep] using step
    have requested : swaps events + (1 + activateFlag.toNat) ≤ events.count .resumed :=
      held.requested
    have toSwap : nPool2Swap = swaps events % 2 ^ r := held.toSwap
    exact
      { advanced := by simpa using held.advanced
        locked := by simpa using held.locked
        resumed := by simpa using held.resumed
        unlocked := by simpa using held.unlocked
        tokens := by simpa using held.tokens
        requested := by
          simp only [swaps_snoc, count_snoc, reduceCtorEq, if_true, if_false, Swapper.requests]
          omega
        served := fun _ => .inr (.inr rfl)
        awake := by simp
        current := by simpa using held.current
        toSwap := by simp [toSwap] }
  | unlocking =>
    obtain ⟨rfl, rfl⟩ := by simpa [swapperStep] using step
    have tokens : semaphore + events.count .locked = m - 1 + events.count .unlocked := held.tokens
    exact
      { advanced := by simpa using held.advanced
        locked := by simpa using held.locked
        resumed := by simpa using held.resumed
        unlocked := by simpa using held.unlocked
        tokens := by
          simp only [count_snoc, reduceCtorEq, if_true, if_false]
          omega
        requested := by simpa using held.requested
        served := by simp
        awake := by simp
        current := by simpa using held.current
        toSwap := by simpa using held.toSwap }

theorem step_balanced (held : Balanced m (2 ^ r) events s)
    (step : (handshake (2 ^ r - 1)).step s a = some (o, s')) :
    Balanced m (2 ^ r) (events ++ [o]) s' := by
  cases a with
  | producer full => exact producerStep_balanced held step
  | swapper => exact swapperStep_balanced held step

theorem run_balanced (two : 2 ≤ m) {history : List (Action × Event)}
    (run : (handshake (2 ^ r - 1)).Run (new m) history s) :
    Balanced m (2 ^ r) (history.map Prod.snd) s := by
  apply run.invariant (P := fun history s => Balanced m (2 ^ r) (history.map Prod.snd) s)
  · exact new_balanced two
  · intro history t a o u _ held step
    simpa using step_balanced held step

section Progress

variable (held : Balanced m (2 ^ r) events s)

include held

/-- The thread has begun at most as many swaps as there are full pools. -/
theorem Balanced.swaps_add_le :
    swaps events + s.swapper.requests s.activateFlag ≤ fills events := by
  have := held.advanced
  have := held.locked
  have := held.resumed
  have := held.requested
  omega

theorem Balanced.swaps_le : swaps events ≤ fills events :=
  (Nat.le_add_right _ _).trans held.swaps_add_le

/-- The producer is at most `m - 1` pools ahead, except while it waits for a token. -/
theorem Balanced.fills_le :
    fills events ≤ swaps events + (m - 1) + s.producer.toAdvance + s.producer.toLock := by
  have := held.advanced
  have := held.locked
  have := held.unlocked
  have := held.tokens
  omega

/-- While the producer waits, there is a request for the thread. -/
theorem Balanced.activated_or_busy (blocked : s.blocked) :
    s.activateFlag = true ∨ s.swapper.busy = true := by
  obtain ⟨phase, none⟩ := blocked
  simpa [phase] using held.served none

/-- While the producer waits, the thread does not wait. -/
theorem Balanced.swapper_steps (blocked : s.blocked) :
    ∃ o s', swapperStep (2 ^ r - 1) s = some (o, s') := by
  have request := held.activated_or_busy blocked
  have awake := held.awake
  obtain ⟨phase, -⟩ := blocked
  unfold swapperStep
  cases asleep : s.swapper with
  | checking =>
      cases s.activateFlag
      all_goals exact ⟨_, _, rfl⟩
  | asleep =>
      have activated : s.activateFlag = true := by simpa [asleep] using request
      have woken : s.wakeupFlag = true := by simpa [phase] using awake activated asleep
      exact ⟨_, _, by rw [woken]; rfl⟩
  | stopping | stirring | working | unlocking => exact ⟨_, _, rfl⟩

end Progress

/-- How far the thread is from giving its token back, if it has a request. -/
def Swapper.distance : Swapper → ℕ
  | .asleep => 6
  | .checking => 5
  | .stopping => 4
  | .stirring => 3
  | .working => 2
  | .unlocking => 1

/-- While the producer waits, each step of the thread brings it nearer to giving a token
back, and the last one ends the waiting. -/
theorem swapper_approaches (held : Balanced m (2 ^ r) events s) (blocked : s.blocked)
    (step : swapperStep (2 ^ r - 1) s = some (o, s')) :
    0 < s'.semaphore ∨ s'.blocked ∧ s'.swapper.distance < s.swapper.distance := by
  have request := held.activated_or_busy blocked
  obtain ⟨waits, none⟩ := blocked
  unfold swapperStep at step
  cases phase : s.swapper
  all_goals
    simp only [phase] at step request
  case checking =>
    have activated : s.activateFlag = true := by simpa using request
    obtain ⟨rfl, rfl⟩ := by simpa [activated] using step
    exact .inr ⟨⟨waits, none⟩, by simp [Swapper.distance]⟩
  case asleep =>
    split at step
    · obtain ⟨rfl, rfl⟩ := by simpa using step
      exact .inr ⟨⟨waits, none⟩, by simp [Swapper.distance]⟩
    · cases step
  case stopping | stirring | working =>
    obtain ⟨rfl, rfl⟩ := by simpa using step
    exact .inr ⟨⟨waits, none⟩, by simp [Swapper.distance]⟩
  case unlocking =>
    obtain ⟨rfl, rfl⟩ := by simpa using step
    exact .inl (Nat.succ_pos _)

/-- The thread alone ends the waiting of the producer. -/
theorem exists_token (held : Balanced m (2 ^ r) events s) (blocked : s.blocked) :
    ∃ rest t, (handshake (2 ^ r - 1)).Run s rest t ∧ (∀ event ∈ rest, event.1 = .swapper) ∧
      0 < t.semaphore := by
  generalize far : s.swapper.distance = d
  induction d using Nat.strong_induction_on generalizing s events with
  | _ d ih =>
      obtain ⟨o, s', step⟩ := held.swapper_steps blocked
      have single : (handshake (2 ^ r - 1)).step s .swapper = some (o, s') := step
      obtain token | ⟨blocked', nearer⟩ := swapper_approaches held blocked step
      · exact ⟨_, s', .single single, by simp, token⟩
      · obtain ⟨rest, t, run, alone, token⟩ :=
          ih _ (far ▸ nearer) (swapperStep_balanced held step) blocked' rfl
        exact ⟨_, t, .cons single run, by simpa using alone, token⟩

/-- In every run, a producer that waits is served: the thread is activated or busy, and it
ends the waiting by its own steps. The thread never swaps more pools than were filled, and
outside of `push` the producer is at most `m - 1` pools ahead. -/
theorem run_served (two : 2 ≤ m) {history : List (Action × Event)}
    (run : (handshake (2 ^ r - 1)).Run (new m) history s) :
    (s.blocked → (s.activateFlag = true ∨ s.swapper.busy = true) ∧
      ∃ rest t, (handshake (2 ^ r - 1)).Run s rest t ∧ (∀ event ∈ rest, event.1 = .swapper) ∧
        0 < t.semaphore) ∧
    swaps (history.map Prod.snd) ≤ fills (history.map Prod.snd) ∧
    (s.producer = .idle → ∃ ahead ≤ m - 1,
      fills (history.map Prod.snd) = swaps (history.map Prod.snd) + ahead ∧
      s.currentPool = (s.nPool2Swap + ahead) % 2 ^ r) := by
  have held := run_balanced two run
  refine ⟨fun blocked => ⟨held.activated_or_busy blocked, exists_token held blocked⟩,
    held.swaps_le, fun idle => ?_⟩
  have most := held.fills_le
  have least := held.swaps_le
  have advanced := held.advanced
  rw [idle] at most advanced
  simp only [Producer.toAdvance, Producer.toLock, add_zero] at most advanced
  refine ⟨fills (history.map Prod.snd) - swaps (history.map Prod.snd), by omega, by omega, ?_⟩
  rw [held.current, held.toSwap, ← advanced, Nat.mod_add_mod, Nat.add_sub_cancel' least]

/-- With two pools in memory the producer fills the second one and waits, while the thread
is still at its first step. -/
theorem run_served_waiting : ∃ history s, (handshake 3).Run (new 2) history s ∧ s.blocked ∧
    (s.activateFlag = true ∨ s.swapper.busy = true) := by
  have executed : ∃ history s, (handshake 3).exec (new 2)
      [.swapper, .producer false, .producer true, .producer false, .producer false,
        .producer false, .producer false, .producer false, .swapper, .swapper, .swapper,
        .producer false, .producer true, .producer false] = some (history, s) ∧
        (s.producer = .locking ∧ s.semaphore = 0) := ⟨_, _, rfl, by decide⟩
  obtain ⟨history, s, computed, blocked⟩ := executed
  have run := Machine.run_of_exec computed
  exact ⟨history, s, run, blocked,
    ((run_served (m := 2) (r := 2) le_rfl run).1 blocked).1⟩

end Handshake

end Crs.RingPool
