import Crs.RingPool.Kinds
import Crs.RingPool.Links

/-!
# Whole calls

The calls of a core one after the other, each up to its end. The thread swaps a pool when
the one that calls has finished with it, so it never has more than one request.
-/

namespace Crs.RingPool

open Foundation Handshake

namespace DAQ

variable {D F : Type*} [BEq F] {cfg : Config} {zero : IntensityPoint D} {p r : ℕ} {s s' : DAQ D F}
  {history : List (Call D F × Ring.Seen (IntensityPoint D))} {points : List (IntensityPoint D)}

open Crs.RingPool.Ring DAQCore

/-- A run of a core from its beginning, in which every pool is released under the condition. -/
structure GentleRun (cfg : Config) (zero : IntensityPoint D)
    (history : List (Call D F × Seen (IntensityPoint D))) (s : DAQ D F) : Prop where
  run : (machine cfg.metrix).Run (new cfg zero) history s
  gentle : (machine cfg.metrix).BeforeEach (new cfg zero)
    (fun _ s a => GentleStep cfg.metrix s a) history

theorem GentleRun.nil : GentleRun cfg zero [] (new cfg zero : DAQ D F) :=
  ⟨.nil, fun earlier a o t before => by simp at before⟩

theorem GentleRun.snoc (gentleRun : GentleRun cfg zero history s) {a : Call D F}
    {o : Seen (IntensityPoint D)} (gentle : GentleStep cfg.metrix s a)
    (step : (machine cfg.metrix).step s a = some (o, s')) :
    GentleRun cfg zero (history ++ [(a, o)]) s' :=
  ⟨gentleRun.run.snoc step, (Machine.beforeEach_snoc gentleRun.run).mpr ⟨gentleRun.gentle, gentle⟩⟩

section Shape

variable (shape : cfg.metrix.Shape p r) (large : cfg.metrix.nPoolSize = 2 ^ p)
  (few : cfg.memPools < 2 ^ r)

include shape large few

theorem GentleRun.inv (gentleRun : GentleRun cfg zero history s) :
    ∃ settled, Inv cfg p r (history.map Prod.snd) settled s :=
  run_inv shape large few gentleRun.run gentleRun.gentle

/-- Steps of the two threads in the ring that release nothing. -/
theorem GentleRun.lift {ring ring' : Ring (IntensityPoint D) (DAQCore F)} {acquiring : Bool}
    (gentleRun : GentleRun cfg zero history ⟨ring, acquiring⟩)
    {more : List (Ring.Call (IntensityPoint D) (DAQCore F) × Seen (IntensityPoint D))}
    (run : (Ring.machine cfg.metrix client).Run ring more ring')
    (own : ∀ e ∈ more, (e.1 = .producer ∨ e.1 = .swapper) ∧ e.2.isReleased = false) :
    ∃ rest, GentleRun cfg zero (history ++ rest) ⟨ring', acquiring⟩ ∧
      rest.map Prod.snd = more.map Prod.snd := by
  induction run with
  | nil => exact ⟨[], by simpa using gentleRun, rfl⟩
  | @snoc more t u a o _ step ih =>
      obtain ⟨rest, gentleRun', same⟩ := ih fun e inside => own e (List.mem_append_left _ inside)
      obtain ⟨label, quiet⟩ := own (a, o) (by simp)
      obtain rfl | rfl : a = .producer ∨ a = .swapper := label
      · have step' : (machine cfg.metrix).step ⟨t, acquiring⟩ .producer =
            some (o, ⟨u, acquiring⟩) := by
          simp only [Ring.machine] at step
          simp [machine, step]
        have next := gentleRun'.snoc (a := .producer) (.of_ne (by simp)) step'
        exact ⟨_, by simpa using next, by simp [same]⟩
      · have step' : (machine cfg.metrix).step ⟨t, acquiring⟩ .swapper =
            some (o, ⟨u, acquiring⟩) := by
          simp only [Ring.machine] at step
          simp [machine, step]
        have gentle : GentleStep cfg.metrix (⟨t, acquiring⟩ : DAQ D F) .swapper := by
          intro _ stage
          obtain ⟨settled, held⟩ := gentleRun'.inv shape large few
          obtain ⟨works, -⟩ := held.ring.releasing_bounds stage
          obtain ⟨-, -, rfl, -⟩ := releasing_step (c := client) step works stage
          cases quiet
        have next := gentleRun'.snoc gentle step'
        exact ⟨_, by simpa using next, by simp [same]⟩

/-- The last statements of `acquire`. -/
theorem GentleRun.index {ring : Ring (IntensityPoint D) (DAQCore F)}
    (gentleRun : GentleRun cfg zero history ⟨ring, true⟩) (idle : ring.control.producer = .idle) :
    ∃ client, GentleRun cfg zero (history ++ [(.index, .quiet)]) ⟨{ ring with client }, false⟩ ∧
      client.field = ring.client.field := by
  obtain ⟨settled, held⟩ := gentleRun.inv shape large few
  obtain ⟨client, indexes, field⟩ := held.filed.exists_index ring.endPos
  refine ⟨client, gentleRun.snoc (a := .index) (.of_ne (by simp)) ?_, field⟩
  simp [machine, idle, indexes]

end Shape

/-- Between two calls, with these points and no request in the flag; the thread waits, or it
begins with the swap of the last full pool. -/
structure Calm (cfg : Config) (zero : IntensityPoint D) (p : ℕ) (points : List (IntensityPoint D))
    (swapper : Swapper) (s : DAQ D F) : Prop where
  reached : ∃ history, GentleRun cfg zero history s ∧ pushed (history.map Prod.snd) = points ∧
    swaps (events (history.map Prod.snd)) + swapper.requests false = points.length / 2 ^ p
  outside : s.acquiring = false
  idle : s.ring.control.producer = .idle
  stage : s.ring.stage = .beginning
  swapper : s.ring.control.swapper = swapper
  quiet : s.ring.control.activateFlag = false

theorem new_calm : Calm cfg zero p [] .checking (new cfg zero : DAQ D F) :=
  ⟨⟨[], .nil, rfl, (Nat.zero_div _).symm⟩, rfl, rfl, rfl, rfl, rfl⟩

section Calls

variable {swapper : Swapper} (shape : cfg.metrix.Shape p r) (large : cfg.metrix.nPoolSize = 2 ^ p)
  (few : cfg.memPools < 2 ^ r) (calm : Calm cfg zero p points swapper s)

include shape large few calm

theorem Calm.field (newState : F) : ∃ client, s.ring.client.setField newState = some client ∧
    Calm cfg zero p points swapper { s with ring := { s.ring with client } } := by
  obtain ⟨history, gentleRun, pushes, behind⟩ := calm.reached
  obtain ⟨settled, held⟩ := gentleRun.inv shape large few
  obtain ⟨client, changes⟩ := held.filed.exists_setField newState
  have step : (machine cfg.metrix).step s (.field newState) =
      some (.quiet, { s with ring := { s.ring with client } }) := by
    simp [machine, calm.outside, changes]
  refine ⟨client, changes,
    ⟨_, gentleRun.snoc (a := .field newState) (.of_ne (by simp)) step, ?_, ?_⟩,
    calm.outside, calm.idle, calm.stage, calm.swapper, calm.quiet⟩
  · simpa [Seen.point?] using pushes
  · simpa [Seen.event?] using behind

/-- The first statements of an `acquire`. -/
theorem Calm.stores (data : D) : ∃ history id,
    GentleRun cfg zero history
      ⟨s.ring.stored cfg.metrix id ⟨data, s.ring.client.field⟩, true⟩ ∧
    (s.ring.pool id).nCount = points.length % 2 ^ p ∧
    pushed (history.map Prod.snd) = points ++ [⟨data, s.ring.client.field⟩] ∧
    swaps (events (history.map Prod.snd)) + swapper.requests false = points.length / 2 ^ p := by
  obtain ⟨history, gentleRun, pushes, behind⟩ := calm.reached
  obtain ⟨settled, held⟩ := gentleRun.inv shape large few
  obtain ⟨id, here, kind, size, count⟩ := held.ring.open_pool shape (le_memPools cfg) calm.idle
  have below := Nat.mod_lt (pushed (history.map Prod.snd)).length (Nat.two_pow_pos p)
  generalize isPoint : (⟨data, s.ring.client.field⟩ : IntensityPoint D) = point
  have enters : (machine cfg.metrix).step s (.acquire data) = some (.control .quiet,
      ⟨s.ring.entered id point, true⟩) := by
    simp [machine, calm.outside, push_entered calm.idle here, isPoint]
  have stores : (Ring.machine cfg.metrix DAQCore.client).step (s.ring.entered id point) .producer =
      some (.stored point (decide ((s.ring.pool id).nCount + 1 = cfg.metrix.nPoolSize)),
        s.ring.stored cfg.metrix id point) := produce_stored kind (by omega) point
  obtain ⟨rest, gentleRun', same⟩ := (gentleRun.snoc (a := .acquire data) (.of_ne (by simp))
    enters).lift shape large few (.single stores) (by simp [Seen.isReleased])
  refine ⟨_, id, gentleRun', pushes ▸ count, ?_, ?_⟩
  · rw [List.map_append, same, pushed_append, List.map_append, pushed_append, pushes]
    simp [pushed, Seen.point?]
  · rw [← behind, List.map_append, same, events_append, List.map_append, events_append]
    by_cases last : (s.ring.pool id).nCount + 1 = cfg.metrix.nPoolSize <;>
      simp [swaps, events, Seen.event?, last]

/-- An `acquire` whose point does not fill its pool. -/
theorem Calm.acquire (room : points.length % 2 ^ p + 1 ≠ 2 ^ p) (data : D) :
    ∃ s' : DAQ D F, Calm cfg zero p (points ++ [⟨data, s.ring.client.field⟩]) swapper s' ∧
      s'.ring.client.field = s.ring.client.field := by
  obtain ⟨history, id, gentleRun, count, pushes, behind⟩ := calm.stores shape large few data
  rw [← count, ← large] at room
  have counts : (Ring.machine cfg.metrix DAQCore.client).step
      (s.ring.stored cfg.metrix id ⟨data, s.ring.client.field⟩) .producer =
        some (.control .completed,
        (s.ring.stored cfg.metrix id ⟨data, s.ring.client.field⟩).counted cfg.metrix) :=
    step_counted (by simp [stored, room])
  obtain ⟨rest, gentleRun', same⟩ := gentleRun.lift shape large few (.single counts)
    (by simp [Seen.isReleased])
  obtain ⟨client, gentleRun', field⟩ := gentleRun'.index shape large few rfl
  refine ⟨_, ⟨⟨_, gentleRun', ?_, ?_⟩, rfl, rfl, calm.stage, calm.swapper, calm.quiet⟩, field⟩
  · rw [List.map_append, List.map_append, same, pushed_append, pushed_append, pushes]
    simp [pushed, Seen.point?]
  · rw [List.length_append, List.length_singleton, succ_div_two_pow, ← count, ← large,
      if_neg room, large, add_zero, ← behind, List.map_append, List.map_append, same, events_append,
      events_append]
    simp [swaps, events, Seen.event?, List.filterMap_cons]

/-- The `acquire` that fills a pool. The thread is resumed. -/
theorem Calm.acquire_last (waits : swapper = .checking) (full : points.length % 2 ^ p + 1 = 2 ^ p)
    (data : D) : ∃ s' : DAQ D F,
      Calm cfg zero p (points ++ [⟨data, s.ring.client.field⟩]) .working s' ∧
      s'.ring.client.field = s.ring.client.field := by
  obtain ⟨history, id, gentleRun, count, pushes, behind⟩ := calm.stores shape large few data
  have next : (points.length + 1) / 2 ^ p = points.length / 2 ^ p + 1 := by
    rw [succ_div_two_pow, if_pos full]
  rw [← count, ← large] at full
  have advances : (s.ring.stored cfg.metrix id ⟨data, s.ring.client.field⟩).control.producer =
      .advancing := by
    simp [stored, full]
  have token : 0 < (s.ring.stored cfg.metrix id ⟨data, s.ring.client.field⟩).control.semaphore := by
    obtain ⟨settled, held⟩ := gentleRun.inv shape large few
    obtain ⟨advanced, locked, -, unlocked, tokens, -⟩ := held.ring.control
    dsimp only at advanced locked unlocked tokens
    have filled := held.ring.filled
    have two := le_memPools cfg
    have checks : (s.ring.stored cfg.metrix id ⟨data, s.ring.client.field⟩).control.swapper =
        .checking := calm.swapper.trans waits
    rw [pushes, List.length_append, List.length_singleton, next] at filled
    rw [advances, Producer.toAdvance] at advanced
    rw [advances, Producer.toLock] at locked
    rw [checks, Swapper.toUnlock] at unlocked
    rw [waits, Swapper.requests] at behind
    simp only [Bool.toNat_false] at behind
    omega
  have pushing := (run_advanced (c := DAQCore.client) (g := cfg.metrix) advances token).append
    (.single (step_counted rfl))
  obtain ⟨rest, gentleRun', same⟩ :=
    gentleRun.lift shape large few pushing (by simp [Seen.isReleased])
  obtain ⟨client, gentleRun', field⟩ := gentleRun'.index shape large few rfl
  have calls := run_called (c := DAQCore.client) (g := cfg.metrix)
    (s := { ((s.ring.stored cfg.metrix id ⟨data, s.ring.client.field⟩).advanced cfg.metrix).counted
      cfg.metrix with client }) (calm.swapper.trans waits) rfl
  obtain ⟨rest', gentleRun', same'⟩ := gentleRun'.lift shape large few calls
    (by simp [Seen.isReleased])
  refine ⟨_, ⟨⟨_, gentleRun', ?_, ?_⟩, rfl, rfl, calm.stage, rfl, rfl⟩, field⟩
  · rw [List.map_append, List.map_append, List.map_append, same, same', pushed_append,
      pushed_append, pushed_append, pushes]
    simp [pushed, Seen.point?, List.filterMap_cons]
  · rw [List.length_append, List.length_singleton, next, ← behind, waits, List.map_append,
      List.map_append, List.map_append, same, same', events_append, events_append, events_append]
    simp [swaps, events, Seen.event?, List.filterMap_cons]

theorem Calm.acquires {n : ℕ} (room : points.length % 2 ^ p + n < 2 ^ p) (data : D) :
    ∃ s' : DAQ D F,
      Calm cfg zero p (points ++ List.replicate n ⟨data, s.ring.client.field⟩) swapper s' ∧
      s'.ring.client.field = s.ring.client.field := by
  induction n with
  | zero => exact ⟨s, by simpa using calm, rfl⟩
  | succ n ih =>
      obtain ⟨s₁, calm₁, field₁⟩ := ih (by omega)
      have here :
          (points ++ List.replicate n (⟨data, s.ring.client.field⟩ : IntensityPoint D)).length %
          2 ^ p = points.length % 2 ^ p + n := by
        rw [List.length_append, List.length_replicate, ← Nat.mod_add_mod,
          Nat.mod_eq_of_lt (by omega)]
      obtain ⟨s₂, calm₂, field₂⟩ := calm₁.acquire shape large few (by rw [here]; omega) data
      refine ⟨s₂, ?_, field₂.trans field₁⟩
      rwa [field₁, List.append_assoc, ← List.replicate_succ'] at calm₂

/-- The thread swaps a pool while the window does not move. -/
theorem Calm.swap (works : swapper = .working)
    (early : points.length / 2 ^ p + cfg.memPools ≤ 2 ^ r) :
    ∃ s' : DAQ D F, Calm cfg zero p points .checking s' ∧ s'.ring.client = s.ring.client := by
  obtain ⟨history, gentleRun, pushes, behind⟩ := calm.reached
  obtain ⟨settled, held⟩ := gentleRun.inv shape large few
  rw [works, Swapper.requests, Bool.toNat_false, add_zero] at behind
  obtain ⟨ring, swapping, producer, checks, flag, stage, client⟩ :=
    held.ring.exists_swapped (c := DAQCore.client) shape (le_memPools cfg)
      (calm.swapper.trans works) calm.stage (by omega)
  obtain ⟨rest, gentleRun', same⟩ := gentleRun.lift shape large few swapping
    (by simp [Seen.isReleased])
  refine ⟨_, ⟨⟨_, gentleRun', ?_, ?_⟩, calm.outside, producer.trans calm.idle, stage, checks,
    flag.trans calm.quiet⟩, client⟩
  · rw [List.map_append, same, pushed_append, pushes]
    simp [pushed, Seen.point?, List.filterMap_cons]
  · rw [List.map_append, same, events_append, ← behind]
    simp [swaps, events, Seen.event?, List.filterMap_cons]

/-- The thread moves the beginning of the window, and is at the points of the oldest pool. -/
theorem Calm.evict (works : swapper = .working)
    (late : 2 ^ r < points.length / 2 ^ p + cfg.memPools) :
    ∃ history, ∃ s' : DAQ D F, GentleRun cfg zero history s' ∧
      pushed (history.map Prod.snd) = points ∧
      released (history.map Prod.snd) + 2 ^ r + 1 = points.length / 2 ^ p + cfg.memPools ∧
      s'.acquiring = false ∧ s'.ring.stage = .releasing := by
  obtain ⟨history, gentleRun, pushes, behind⟩ := calm.reached
  obtain ⟨settled, held⟩ := gentleRun.inv shape large few
  rw [works, Swapper.requests, Bool.toNat_false, add_zero] at behind
  obtain ⟨moves, releases⟩ : moved (history.map Prod.snd) =
      swaps (events (history.map Prod.snd)) + cfg.memPools - 2 ^ r ∧
      released (history.map Prod.snd) = moved (history.map Prod.snd) := by
    simpa [Staged, calm.stage] using held.ring.stage
  have oldest := (held.ring.oldest_iff shape (le_memPools cfg) moves).mpr (by omega)
  let begun : Ring (IntensityPoint D) (DAQCore F) := { s.ring with
    beginPos := (((s.ring.nPool2Swap2 + 1) &&& cfg.metrix.rootMask) <<< cfg.metrix.rootMaskShift) %
      2 ^ digits
    stage := .releasing }
  have begins : (machine cfg.metrix).step s .swapper = some (.moved, { s with ring := begun }) := by
    simp [machine, swapperRun, calm.swapper.trans works, Ring.swap, calm.stage, oldest, begun]
  have gentle : GentleStep cfg.metrix s .swapper := fun _ stage => by
    rw [calm.stage] at stage
    cases stage
  refine ⟨_, _, gentleRun.snoc gentle begins, ?_, ?_, calm.outside, rfl⟩
  · simpa [Seen.point?] using pushes
  · rw [List.map_append, List.map_singleton, released_snoc, Seen.isReleased, Bool.toNat_false]
    omega

end Calls

end DAQ

end Crs.RingPool
