import Crs.RingPool.Handshake

/-!
# Merged requests

A request to the thread is one flag. A request that is posted while the flag is up is
merged with the earlier one, and one swap serves both. The pools that were filled and the
pools that were swapped are counted against each other here.
-/

namespace Crs.RingPool

open Foundation

namespace Handshake

variable {m r : ℕ} {events : List Event} {s s' : State} {a : Action} {o : Event}

/-- The producer has filled a pool and has not posted the request for it yet. -/
def Producer.requesting : Producer → Bool
  | .advancing | .locking | .resuming => true
  | .idle | .writing | .waking | .counting => false

/-- A step that posts a request finds no other one. -/
def Unmerged (s : State) : Action → Prop
  | .producer _ => s.producer = .resuming → s.activateFlag = false
  | .swapper => True

/-- Nobody but the thread lowers the flag that it has seen. -/
def Raised (s : State) : Prop := s.swapper = .stopping → s.activateFlag = true

/-- No request was merged with another one so far. -/
def Separate (events : List Event) (s : State) : Prop :=
  swaps events + s.swapper.requests s.activateFlag = events.count .resumed

theorem step_raised (raised : Raised s) (step : (handshake (2 ^ r - 1)).step s a = some (o, s')) :
    Raised s' := by
  obtain ⟨producer, swapper, activateFlag, wakeupFlag, semaphore, currentPool, nPool2Swap⟩ := s
  cases a with
  | producer full =>
    cases producer with
    | idle | advancing | waking | counting =>
      obtain ⟨rfl, rfl⟩ := by simpa [handshake, producerStep] using step
      exact raised
    | writing =>
      cases full
      all_goals
        obtain ⟨rfl, rfl⟩ := by simpa [handshake, producerStep] using step
        exact raised
    | locking =>
      obtain ⟨-, rfl, rfl⟩ := by simpa [handshake, producerStep] using step
      exact raised
    | resuming =>
      obtain ⟨rfl, rfl⟩ := by simpa [handshake, producerStep] using step
      exact fun _ => rfl
  | swapper =>
    cases swapper with
    | checking =>
      cases activateFlag
      all_goals
        obtain ⟨rfl, rfl⟩ := by simpa [handshake, swapperStep] using step
        simp [Raised]
    | asleep =>
      obtain ⟨-, rfl, rfl⟩ := by simpa [handshake, swapperStep] using step
      simp [Raised]
    | stopping | stirring | working | unlocking =>
      obtain ⟨rfl, rfl⟩ := by simpa [handshake, swapperStep] using step
      simp [Raised]

theorem producerStep_separate {full : Bool} (held : Balanced m (2 ^ r) events s)
    (raised : Raised s) (step : producerStep (2 ^ r - 1) full s = some (o, s')) :
    Separate (events ++ [o]) s' ↔ Separate events s ∧ Unmerged s (.producer full) := by
  obtain ⟨producer, swapper, activateFlag, wakeupFlag, semaphore, currentPool, nPool2Swap⟩ := s
  cases producer with
  | idle | advancing | waking | counting =>
    obtain ⟨rfl, rfl⟩ := by simpa [producerStep] using step
    simp [Separate, Unmerged]
  | writing =>
    cases full
    all_goals
      obtain ⟨rfl, rfl⟩ := by simpa [producerStep] using step
      simp [Separate, Unmerged]
  | locking =>
    obtain ⟨-, rfl, rfl⟩ := by simpa [producerStep] using step
    simp [Separate, Unmerged]
  | resuming =>
    obtain ⟨rfl, rfl⟩ := by simpa [producerStep] using step
    have requested : swaps events + swapper.requests activateFlag ≤ events.count .resumed :=
      held.requested
    simp only [Separate, Unmerged, swaps_snoc, count_snoc, reduceCtorEq, if_true, if_false,
      forall_const, add_zero]
    cases activateFlag with
    | false =>
      have apart : swapper ≠ .stopping := fun stops => by simpa using raised stops
      have more : swapper.requests true = swapper.requests false + 1 := by
        cases swapper <;> simp at apart ⊢
      rw [and_iff_left rfl]
      omega
    | true =>
      simp only [reduceCtorEq, and_false, iff_false]
      omega

theorem swapperStep_separate (raised : Raised s)
    (step : swapperStep (2 ^ r - 1) s = some (o, s')) :
    Separate (events ++ [o]) s' ↔ Separate events s := by
  obtain ⟨producer, swapper, activateFlag, wakeupFlag, semaphore, currentPool, nPool2Swap⟩ := s
  cases swapper with
  | checking =>
    cases activateFlag
    all_goals
      obtain ⟨rfl, rfl⟩ := by simpa [swapperStep] using step
      simp [Separate]
  | asleep =>
    obtain ⟨-, rfl, rfl⟩ := by simpa [swapperStep] using step
    simp [Separate]
  | stopping | stirring | unlocking =>
    obtain ⟨rfl, rfl⟩ := by simpa [swapperStep] using step
    simp [Separate]
  | working =>
    obtain ⟨rfl, rfl⟩ := by simpa [swapperStep] using step
    simp [Separate, add_assoc]

/-- A step keeps the requests apart exactly if it posts none while the flag is up. -/
theorem step_separate (held : Balanced m (2 ^ r) events s) (raised : Raised s)
    (step : (handshake (2 ^ r - 1)).step s a = some (o, s')) :
    Separate (events ++ [o]) s' ↔ Separate events s ∧ Unmerged s a := by
  cases a with
  | producer full => exact producerStep_separate held raised step
  | swapper => exact (swapperStep_separate raised step).trans (and_iff_left trivial).symm

theorem run_separate (two : 2 ≤ m) {history : List (Action × Event)}
    (run : (handshake (2 ^ r - 1)).Run (new m) history s) :
    Raised s ∧ (Separate (history.map Prod.snd) s ↔
      (handshake (2 ^ r - 1)).BeforeEach (new m) (fun _ s a => Unmerged s a) history) := by
  induction run with
  | nil =>
    refine ⟨by rintro ⟨⟩, iff_of_true rfl fun earlier a o t front => ?_⟩
    simp at front
  | @snoc history t u a o earlier step ih =>
    obtain ⟨raised, separate⟩ := ih
    refine ⟨step_raised raised step, ?_⟩
    rw [Machine.beforeEach_snoc earlier, ← separate, List.map_append]
    exact step_separate (run_balanced two earlier) raised step

/-- In every state in which the thread is idle, all filled pools were swapped exactly if
the producer is not about to post a request and no request of the run was merged. -/
theorem run_swapped_iff (two : 2 ≤ m) {history : List (Action × Event)}
    (run : (handshake (2 ^ r - 1)).Run (new m) history s) (idle : s.swapper.busy = false)
    (off : s.activateFlag = false) :
    swaps (history.map Prod.snd) = fills (history.map Prod.snd) ↔
      s.producer.requesting = false ∧
        (handshake (2 ^ r - 1)).BeforeEach (new m) (fun _ s a => Unmerged s a) history := by
  have held := run_balanced two run
  have none : s.swapper.requests s.activateFlag = 0 := by
    rw [off]
    cases phase : s.swapper <;> simp [phase] at idle ⊢
  have separate := (run_separate two run).2
  rw [Separate, none, add_zero] at separate
  rw [← separate]
  have filled := held.advanced
  have advanced := held.locked
  have locked := held.resumed
  have requested := held.requested
  rw [none] at requested
  cases phase : s.producer
  all_goals
    simp only [phase, Producer.toAdvance, Producer.toLock, Producer.toResume,
      Producer.requesting, reduceCtorEq, true_and, false_and, iff_false] at filled advanced locked ⊢
    omega

/-- With two pools in memory, the first pool is filled and swapped. -/
theorem run_swapped_iff_one : ∃ history s, (handshake 3).Run (new 2) history s ∧
    (swaps (history.map Prod.snd) = fills (history.map Prod.snd) ↔
      s.producer.requesting = false ∧
        (handshake 3).BeforeEach (new 2) (fun _ s a => Unmerged s a) history) := by
  have executed : ∃ history s, (handshake 3).exec (new 2)
      [.producer true, .producer true, .producer true, .producer true, .producer true,
        .producer true, .producer true, .swapper, .swapper, .swapper, .swapper, .swapper] =
          some (history, s) ∧ s.swapper.busy = false ∧ s.activateFlag = false :=
    ⟨_, _, rfl, by decide⟩
  obtain ⟨history, s, computed, idle, off⟩ := executed
  have run := Machine.run_of_exec computed
  exact ⟨history, s, run, run_swapped_iff (m := 2) (r := 2) le_rfl run idle off⟩

/-- With three pools in memory, the producer fills two pools before the thread begins: the
thread swaps one of them and goes to sleep. -/
theorem request_merged : ∃ history s, (handshake 3).Run (new 3) history s ∧
    s.swapper = .asleep ∧ s.activateFlag = false ∧ s.wakeupFlag = false ∧ s.producer = .idle ∧
      swaps (history.map Prod.snd) = 1 ∧ fills (history.map Prod.snd) = 2 := by
  have executed : ∃ history s, (handshake 3).exec (new 3)
      [.producer true, .producer true, .producer true, .producer true, .producer true,
        .producer true, .producer true, .producer true, .producer true, .producer true,
        .producer true, .producer true, .producer true, .producer true, .swapper, .swapper,
        .swapper, .swapper, .swapper, .swapper, .swapper, .swapper] = some (history, s) ∧
      s.swapper = .asleep ∧ s.activateFlag = false ∧ s.wakeupFlag = false ∧ s.producer = .idle ∧
        swaps (history.map Prod.snd) = 1 ∧ fills (history.map Prod.snd) = 2 :=
    ⟨_, _, rfl, by decide⟩
  obtain ⟨history, s, computed, shown⟩ := executed
  exact ⟨history, s, Machine.run_of_exec computed, shown⟩

end Handshake

end Crs.RingPool
