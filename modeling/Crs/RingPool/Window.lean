import Crs.RingPool.Layout

/-!
# The window of a ring

The window of a ring begins at a pool and ends behind the last point of which the push has
returned. The invariant ties the indices of the producer, of the swapper and of the window
to the numbers of the points and the pools, counted without end.
-/

namespace Crs.RingPool

open Foundation Handshake

/-- The thread is in a push between its point and its last statement. -/
@[simp] def Handshake.Producer.toComplete : Producer → ℕ
  | .advancing | .locking | .resuming | .waking | .counting => 1
  | .idle | .writing => 0

namespace Ring

variable {α X : Type*}

/-- The part of the handshake in a step. -/
def Seen.event? : Seen α → Option Event
  | .control event => some event
  | .stored _ full => some (if full then .filled else .quiet)
  | .moved | .released | .quiet => none

def Seen.point? : Seen α → Option α
  | .stored point _ => some point
  | .control _ | .moved | .released | .quiet => none

def Seen.isMoved : Seen α → Bool
  | .moved => true
  | .control _ | .stored _ _ | .released | .quiet => false

def Seen.isReleased : Seen α → Bool
  | .released => true
  | .control _ | .stored _ _ | .moved | .quiet => false

section Histories

variable (seen : List (Seen α))

def events : List Event := seen.filterMap Seen.event?

/-- The points that were stored, in order. -/
def pushed : List α := seen.filterMap Seen.point?

/-- How many pushes have returned. -/
def completed : ℕ := (events seen).count .completed

/-- How many pools have left the window, and how many of them were released. -/
def moved : ℕ := seen.countP Seen.isMoved

def released : ℕ := seen.countP Seen.isReleased

@[simp] theorem events_nil : events ([] : List (Seen α)) = [] := rfl

@[simp] theorem pushed_nil : pushed ([] : List (Seen α)) = [] := rfl

theorem events_append (more : List (Seen α)) : events (seen ++ more) = events seen ++ events more :=
  List.filterMap_append

theorem pushed_append (more : List (Seen α)) : pushed (seen ++ more) = pushed seen ++ pushed more :=
  List.filterMap_append

variable {o : Seen α}

@[simp] theorem events_snoc :
    events (seen ++ [o]) = events seen ++ o.event?.toList :=
  Machine.filterMap_snoc _ seen o

@[simp] theorem pushed_snoc :
    pushed (seen ++ [o]) = pushed seen ++ o.point?.toList :=
  Machine.filterMap_snoc _ seen o

@[simp] theorem moved_snoc :
    moved (seen ++ [o]) = moved seen + o.isMoved.toNat := by
  cases o <;> simp [moved, Seen.isMoved]

@[simp] theorem released_snoc :
    released (seen ++ [o]) = released seen + o.isReleased.toNat := by
  cases o <;> simp [released, Seen.isReleased]

variable {e : Event} {point : α} {full : Bool}

/-- A step of the handshake is counted there, and nowhere else. -/
theorem fills_control : fills (events (seen ++ [.control e])) =
    fills (events seen) + if e = .filled then 1 else 0 := by
  simp [Seen.event?]

theorem swaps_control : swaps (events (seen ++ [.control e])) =
    swaps (events seen) + if e = .swapped then 1 else 0 := by
  simp [Seen.event?]

theorem completed_control : completed (seen ++ [.control e]) =
    completed seen + if e = .completed then 1 else 0 := by
  simp [completed, Seen.event?, List.count_singleton]

theorem pushed_control : pushed (seen ++ [.control e]) = pushed seen := by simp [Seen.point?]

theorem moved_control : moved (seen ++ [.control e]) = moved seen := by simp [Seen.isMoved]

theorem released_control : released (seen ++ [.control e]) = released seen := by
  simp [Seen.isReleased]

/-- A point that is stored is not swapped yet. -/
theorem swaps_stored : swaps (events (seen ++ [.stored point full])) = swaps (events seen) := by
  cases full <;> simp [Seen.event?]

end Histories

/-- How far `_swap` has come: the pools that have left the window and were released, and the
pools at hand. -/
def Staged (m r moved released swapped : ℕ) (s : Ring α X) : Prop :=
  match s.stage with
  | .beginning => moved = swapped + m - 2 ^ r ∧ released = moved
  | .releasing => s.control.swapper = .working ∧ moved = swapped + m + 1 - 2 ^ r ∧
      moved = released + 1
  | .fetching => s.control.swapper = .working ∧ moved = swapped + m + 1 - 2 ^ r ∧
      released = moved
  | .assigning mp fp => s.control.swapper = .working ∧ moved = swapped + m + 1 - 2 ^ r ∧
      released = moved ∧ s.numbered r swapped = some mp ∧ s.numbered r (swapped + m) = some fp
  | .exchanging => s.control.swapper = .working ∧ moved = swapped + m + 1 - 2 ^ r ∧
      released = moved ∧ ∃ mp fp, s.numbered r swapped = some mp ∧
        s.numbered r (swapped + m) = some fp ∧ (s.pool fp).records = (s.pool mp).records

/-- The invariant of a ring with `m` pools in memory, `2 ^ r` pools in all, and `2 ^ p`
records in each of them. -/
structure Inv (g : BitMaskCalculator) (m p r : ℕ) (seen : List (Seen α))
    (s : Ring α X) : Prop where
  control : Balanced m (2 ^ r) (events seen) s.control
  layout : Layout g m p r (pushed seen) (swaps (events seen)) (released seen) s
  filled : fills (events seen) = (pushed seen).length / 2 ^ p
  whole : 0 < s.control.producer.toAdvance + s.control.producer.toLock →
    2 ^ p ∣ (pushed seen).length
  completes : (pushed seen).length = completed seen + s.control.producer.toComplete
  endPos : s.endPos = completed seen % 2 ^ (p + r)
  beginPos : s.beginPos = moved seen * 2 ^ p % 2 ^ (p + r)
  file : s.nPool2Swap2 = (swaps (events seen) + m) % 2 ^ r
  stage : Staged m r (moved seen) (released seen) (swaps (events seen)) s
  writing : s.control.producer = .writing → ∃ held, s.writing = some held ∧
    s.numbered r (fills (events seen)) = some held.1

section Bounds

variable {g : BitMaskCalculator} {m p r : ℕ} {seen : List (Seen α)} {s : Ring α X}

theorem Inv.moved_bounds (few : m < 2 ^ r) (held : Inv g m p r seen s) :
    swaps (events seen) + m ≤ moved seen + 2 ^ r ∧
      moved seen ≤ swaps (events seen) ∧ released seen ≤ moved seen ∧
      swaps (events seen) + m ≤ released seen + 2 ^ r := by
  have stage := held.stage
  unfold Staged at stage
  split at stage <;> omega

/-- While the thread is in `_swap`, the pool that it swaps is full. -/
theorem Inv.swaps_lt (held : Inv g m p r seen s) (works : s.control.swapper = .working) :
    swaps (events seen) < fills (events seen) := by
  have behind := held.control.swaps_add_le
  rw [works, Swapper.requests] at behind
  omega

/-- The window begins before the pool of the producer, as soon as it begins later than at
the start. -/
theorem Inv.moved_lt (few : m < 2 ^ r) (held : Inv g m p r seen s) :
    moved seen = 0 ∨ moved seen < fills (events seen) := by
  have stage := held.stage
  have least := held.control.swaps_le
  unfold Staged at stage
  split at stage
  · omega
  all_goals
    have := held.swaps_lt stage.1
    omega

/-- The points fit into the pools that are in memory or were swapped. -/
theorem Inv.pushed_le (two : 2 ≤ m) (held : Inv g m p r seen s) :
    (pushed seen).length ≤ (swaps (events seen) + m) * 2 ^ p ∧
      completed seen < (swaps (events seen) + m) * 2 ^ p := by
  have ahead := held.control.fills_le
  have completes := held.completes
  have positive := Nat.two_pow_pos p
  obtain zero | late :=
    Nat.eq_zero_or_pos (s.control.producer.toAdvance + s.control.producer.toLock)
  · have inside : (pushed seen).length / 2 ^ p < swaps (events seen) + m := by
      rw [← held.filled]
      omega
    have := (Nat.div_lt_iff_lt_mul positive).mp inside
    omega
  · obtain ⟨n, whole⟩ := held.whole late
    have inside : n ≤ swaps (events seen) + m := by
      have filled := held.filled
      rw [whole, Nat.mul_div_cancel_left n positive] at filled
      cases phase : s.control.producer <;> simp [phase] at ahead late <;> omega
    have one : s.control.producer.toComplete = 1 := by
      cases phase : s.control.producer <;> simp [phase] at late ⊢
    have := Nat.mul_le_mul_right (2 ^ p) inside
    rw [mul_comm] at whole
    omega

end Bounds

section Steps

variable {g : BitMaskCalculator} {c : Client α X} {m p r : ℕ}
  {seen : List (Seen α)} {s s' : Ring α X} {a : Call α X} {o : Seen α}

/-- `_swap` is not disturbed by what happens to other pools. -/
theorem Staged.congr {moved released swapped : ℕ} (staged : Staged m r moved released swapped s)
    (stage : s'.stage = s.stage) (root : s'.root = s.root)
    (pool : s.control.swapper = .working → ∀ id, s.numbered r swapped = some id ∨
      s.numbered r (swapped + m) = some id → s'.pool id = s.pool id)
    (working : s.control.swapper = .working → s'.control.swapper = .working) :
    Staged m r moved released swapped s' := by
  have numbers : s'.numbered r = s.numbered r := by
    unfold numbered
    rw [root]
  unfold Staged at *
  rw [stage, numbers]
  cases here : s.stage with
  | beginning => simpa [here] using staged
  | releasing | fetching | assigning =>
      simp only [here] at staged ⊢
      exact ⟨working staged.1, staged.2⟩
  | exchanging =>
      simp only [here] at staged ⊢
      obtain ⟨works, moved, released, mp, fp, first, second, copied⟩ := staged
      refine ⟨working works, moved, released, mp, fp, first, second, ?_⟩
      rw [pool works fp (.inr second), pool works mp (.inl first), copied]

/-- A step of the handshake that leaves the pools alone. -/
theorem Inv.control_step (held : Inv g m p r seen s) {e : Event} {control : Handshake.State}
    {writing : Option (ℕ × α)} {endPos : ℕ} (other : e ≠ .filled ∧ e ≠ .swapped)
    (balanced : Balanced m (2 ^ r) (events seen ++ [e]) control)
    (working : s.control.swapper = .working → control.swapper = .working)
    (late : 0 < control.producer.toAdvance + control.producer.toLock →
      0 < s.control.producer.toAdvance + s.control.producer.toLock)
    (completes : (if e = .completed then 1 else 0) + control.producer.toComplete =
      s.control.producer.toComplete)
    (ends : endPos = (completed seen + if e = .completed then 1 else 0) % 2 ^ (p + r))
    (writes : control.producer = .writing → ∃ held, writing = some held ∧
      s.numbered r (fills (events seen)) = some held.1) :
    Inv g m p r (seen ++ [.control e]) { s with control, writing, endPos } := by
  obtain ⟨notFilled, notSwapped⟩ := other
  have sameSwaps : swaps (events (seen ++ [.control e])) = swaps (events seen) := by
    rw [swaps_control, if_neg notSwapped, add_zero]
  have sameFills : fills (events (seen ++ [.control e])) = fills (events seen) := by
    rw [fills_control, if_neg notFilled, add_zero]
  refine ⟨by simpa [Seen.event?] using balanced, ?_, ?_, ?_, ?_, ?_, ?_, ?_, ?_, ?_⟩
  · rw [sameSwaps, pushed_control, released_control]
    have layout := held.layout
    exact ⟨layout.length, layout.nodup, layout.memory, layout.files, layout.readable⟩
  · rw [sameFills, pushed_control]
    exact held.filled
  · rw [pushed_control]
    exact fun now => held.whole (late now)
  · rw [pushed_control, completed_control, add_assoc, completes]
    exact held.completes
  · rw [completed_control]
    exact ends
  · rw [moved_control]
    exact held.beginPos
  · rw [sameSwaps]
    exact held.file
  · rw [moved_control, released_control, sameSwaps]
    exact held.stage.congr rfl rfl (fun _ _ _ => rfl) working
  · rw [sameFills]
    exact writes

/-- Outside of a push, the index of the producer counts the pools that were filled. -/
theorem Inv.getPool_eq (shape : g.Shape p r) (held : Inv g m p r seen s)
    (idle : s.control.producer = .idle) :
    s.getPool g s.control.currentPool = s.numbered r (fills (events seen)) := by
  have advanced := held.control.advanced
  rw [idle, Producer.toAdvance, add_zero] at advanced
  rw [getPool, held.control.current, ← advanced, shape.rootMask, Nat.and_two_pow_sub_one_eq_mod,
    Nat.mod_mod]
  rfl

theorem push_inv (shape : g.Shape p r) (held : Inv g m p r seen s) {point : α}
    (step : s.push g point = some (o, s')) : Inv g m p r (seen ++ [o]) s' := by
  unfold push at step
  split at step
  · rename_i phase
    obtain ⟨pool, found, next⟩ := Option.bind_eq_some_iff.mp step
    obtain ⟨⟨event, control⟩, moves, result⟩ := Option.map_eq_some_iff.mp next
    obtain ⟨rfl, rfl⟩ := by simpa using result
    have balanced := producerStep_balanced held.control (shape.rootMask ▸ moves)
    obtain ⟨rfl, rfl⟩ := by simpa [producerStep, phase] using moves
    rw [held.getPool_eq shape phase] at found
    exact held.control_step (by decide) balanced id (by simp) (by simp [phase])
      (by simpa using held.endPos) fun _ => ⟨_, rfl, found⟩
  all_goals cases step

/-- One more point fills a pool, or not. -/
theorem succ_div_two_pow (n p : ℕ) :
    (n + 1) / 2 ^ p = n / 2 ^ p + if n % 2 ^ p + 1 = 2 ^ p then 1 else 0 := by
  have split := Nat.div_add_mod' n (2 ^ p)
  have below := Nat.mod_lt n (Nat.two_pow_pos p)
  rw [Nat.div_eq_iff (Nat.two_pow_pos p)]
  split
  · rw [Nat.succ_mul]
    omega
  · rw [add_zero]
    omega

/-- Until the producer has filled its pool, that is the pool of the next point. -/
theorem Inv.open_bounds (two : 2 ≤ m) (held : Inv g m p r seen s)
    (here : s.control.producer.toAdvance + s.control.producer.toLock = 0) :
    swaps (events seen) ≤ (pushed seen).length / 2 ^ p ∧
      (pushed seen).length / 2 ^ p < swaps (events seen) + m ∧
      (s.control.swapper = .working →
        swaps (events seen) < (pushed seen).length / 2 ^ p) := by
  have ahead := held.control.fills_le
  have behind := held.control.swaps_add_le
  rw [add_assoc, here, held.filled] at ahead
  rw [held.filled] at behind
  refine ⟨by omega, by omega, fun works => ?_⟩
  rw [works, Swapper.requests] at behind
  omega

/-- Outside of a push, the pool of the producer has room for a point. -/
theorem Inv.open_pool (shape : g.Shape p r) (two : 2 ≤ m) (held : Inv g m p r seen s)
    (idle : s.control.producer = .idle) : ∃ id, s.getPool g s.control.currentPool = some id ∧
      (s.pool id).kind = .mem ∧ (s.pool id).records.length = 2 ^ p ∧
      (s.pool id).nCount = (pushed seen).length % 2 ^ p := by
  obtain ⟨lower, upper, -⟩ := held.open_bounds two (by simp [idle])
  obtain ⟨id, found, rest⟩ := held.layout.writable lower upper
  refine ⟨id, ?_, rest⟩
  rw [held.getPool_eq shape idle, held.filled, found]

/-- What happens when a point is stored. -/
theorem store_spec (large : g.nPoolSize = 2 ^ p) (two : 2 ≤ m) (held : Inv g m p r seen s)
    (phase : s.control.producer = .writing) (step : s.produce g = some (o, s')) :
    ∃ pool point full, s.numbered r ((pushed seen).length / 2 ^ p) = some pool ∧
      full = decide ((pushed seen).length % 2 ^ p + 1 = 2 ^ p) ∧ o = .stored point full ∧
      s' = { s with
        control := { s.control with producer := if full then .advancing else .counting }
        pool := Function.update s.pool pool { s.pool pool with
          records := (s.pool pool).records.set ((pushed seen).length % 2 ^ p) point
          nCount := (pushed seen).length % 2 ^ p + 1 }
        writing := none } := by
  simp only [produce, phase, Option.bind_eq_some_iff, Option.map_eq_some_iff] at step
  obtain ⟨⟨id, point⟩, written, ⟨full, pool⟩, pushes, ⟨event, control⟩, moves, result⟩ := step
  obtain ⟨rfl, rfl⟩ := by simpa using result
  obtain ⟨rfl, rfl⟩ := writing_step phase moves
  obtain ⟨held', written', here⟩ := held.writing phase
  obtain rfl : (id, point) = held' := Option.some.inj (written.symm.trans written')
  obtain ⟨lower, upper, -⟩ := held.open_bounds two (by simp [phase])
  rw [held.filled] at here
  obtain ⟨id', found, kind, size, count⟩ := held.layout.writable lower upper
  obtain rfl : id' = id := Option.some.inj (found.symm.trans here)
  have below := Nat.mod_lt (pushed seen).length (Nat.two_pow_pos p)
  simp only [Pool.push, kind, size, count, below, large, if_true, Option.some.injEq,
    Prod.mk.injEq] at pushes
  obtain ⟨rfl, rfl⟩ := pushes
  exact ⟨id', point, _, found, rfl, rfl, by simp only [kind]⟩

/-- A point is stored. -/
theorem store_inv (shape : g.Shape p r) (large : g.nPoolSize = 2 ^ p) (two : 2 ≤ m)
    (few : m < 2 ^ r) (held : Inv g m p r seen s) (phase : s.control.producer = .writing)
    (step : s.produce g = some (o, s')) : Inv g m p r (seen ++ [o]) s' := by
  obtain ⟨pool, point, full, found, last, rfl, rfl⟩ := store_spec large two held phase step
  obtain ⟨lower, upper, apart⟩ := held.open_bounds two (by simp [phase])
  have bounds := held.moved_bounds few
  have layout := held.layout.store shape few lower upper bounds.2.2.2 found point
  have whole : full = true → 2 ^ p ∣ (pushed seen).length + 1 := by
    intro isLast
    rw [last, decide_eq_true_eq] at isLast
    have split := Nat.div_add_mod' (pushed seen).length (2 ^ p)
    exact ⟨(pushed seen).length / 2 ^ p + 1, by rw [Nat.mul_succ, mul_comm]; omega⟩
  have filled : fills (events seen) + full.toNat = ((pushed seen).length + 1) / 2 ^ p := by
    rw [succ_div_two_pow, held.filled, last]
    by_cases isLast : (pushed seen).length % 2 ^ p + 1 = 2 ^ p <;> simp [isLast]
  have completes := held.completes
  rw [phase] at completes
  have moves : producerStep (2 ^ r - 1) full s.control = some (if full then .filled else .quiet,
      { s.control with producer := if full then .advancing else .counting }) := by
    cases full <;> simp [producerStep, phase]
  have balanced := producerStep_balanced held.control moves
  refine ⟨by simpa [Seen.event?] using balanced, ?_, ?_, ?_, ?_, ?_, ?_, ?_, ?_, ?_⟩
  · have same : released (seen ++ [.stored point full]) = released seen := by
      simp [Seen.isReleased]
    have next : pushed (seen ++ [.stored point full]) = pushed seen ++ [point] := by
      simp [Seen.point?]
    rw [swaps_stored, same, next]
    exact ⟨layout.length, layout.nodup, layout.memory, layout.files, layout.readable⟩
  · simp only [events_snoc, pushed_snoc, Seen.event?, Seen.point?, Option.toList_some, fills_snoc,
      List.length_append, List.length_singleton, ← filled]
    cases full <;> rfl
  · rw [pushed_snoc]
    cases full <;> simp [Seen.point?] at whole ⊢
    exact whole
  · cases full <;> simpa [completed, Seen.event?, Seen.point?] using completes
  · cases full <;> simpa [completed, Seen.event?] using held.endPos
  · simpa [Seen.isMoved] using held.beginPos
  · cases full <;> simpa [Seen.event?] using held.file
  · have staged := held.stage
    simp only [swaps_stored, moved_snoc, released_snoc, Seen.isMoved, Seen.isReleased,
      Bool.toNat_false, add_zero]
    refine staged.congr rfl rfl (fun works other at_hand => Function.update_of_ne ?_ _ _) id
    rintro rfl
    obtain first | second := at_hand
    · exact numbered_ne held.layout.nodup (apart works) (by omega) first found
    · exact numbered_ne held.layout.nodup upper (by omega) found second
  · cases full <;> simp

theorem produce_inv (shape : g.Shape p r) (large : g.nPoolSize = 2 ^ p) (two : 2 ≤ m)
    (few : m < 2 ^ r) (held : Inv g m p r seen s) (step : s.produce g = some (o, s')) :
    Inv g m p r (seen ++ [o]) s' := by
  cases phase : s.control.producer with
  | idle => simp [produce, phase] at step
  | writing => exact store_inv shape large two few held phase step
  | advancing | resuming | waking =>
      simp only [produce, phase, Option.map_eq_some_iff] at step
      obtain ⟨⟨event, control⟩, moves, result⟩ := step
      obtain ⟨rfl, rfl⟩ := by simpa using result
      have balanced := producerStep_balanced held.control (shape.rootMask ▸ moves)
      obtain ⟨rfl, rfl⟩ := by simpa [producerStep, phase] using moves
      exact held.control_step (by decide) balanced id (by simp [phase]) (by simp [phase])
        (by simpa using held.endPos) (by rintro ⟨⟩)
  | locking =>
      simp only [produce, phase, Option.map_eq_some_iff] at step
      obtain ⟨⟨event, control⟩, moves, result⟩ := step
      obtain ⟨rfl, rfl⟩ := by simpa using result
      have balanced := producerStep_balanced held.control (shape.rootMask ▸ moves)
      simp only [producerStep, phase, Option.ite_none_right_eq_some] at moves
      obtain ⟨rfl, rfl⟩ := by simpa using moves.2
      exact held.control_step (by decide) balanced id (by simp) (by simp [phase])
        (by simpa using held.endPos) (by rintro ⟨⟩)
  | counting =>
      simp only [produce, phase, Option.map_eq_some_iff] at step
      obtain ⟨⟨event, control⟩, moves, result⟩ := step
      obtain ⟨rfl, rfl⟩ := by simpa using result
      have balanced := producerStep_balanced held.control (shape.rootMask ▸ moves)
      obtain ⟨rfl, rfl⟩ := by simpa [producerStep, phase] using moves
      refine held.control_step (by decide) balanced id (by simp) (by simp [phase]) ?_ (by rintro ⟨⟩)
      rw [shape.fullIdx_eq, held.endPos, Nat.mod_add_mod, if_pos rfl]

/-- A step of the thread outside of `_swap`. -/
theorem thread_inv (shape : g.Shape p r) (held : Inv g m p r seen s)
    (phase : s.control.swapper ≠ .working) {next : Event × Handshake.State}
    (step : swapperStep g.rootMask s.control = some next) :
    Inv g m p r (seen ++ [.control next.1]) { s with control := next.2 } := by
  obtain ⟨event, control⟩ := next
  have balanced := swapperStep_balanced held.control (shape.rootMask ▸ step)
  obtain ⟨same, other⟩ := swapperStep_frame phase step
  refine held.control_step ⟨other.1, other.2.1⟩ balanced
    (fun works => absurd works phase) ?_ ?_ ?_ ?_
  · rw [same]
    exact id
  · rw [if_neg other.2.2, same, zero_add]
  · rw [if_neg other.2.2, add_zero]
    exact held.endPos
  · rw [same]
    exact held.writing

/-- A step of `_swap` before the pointers are exchanged. -/
theorem Inv.stage_step (held : Inv g m p r seen s)
    (inside : o.event? = none ∧ o.point? = none) {pool : ℕ → Pool α} {beginPos : ℕ} {stage : Stage}
    {client : X}
    (layout : Layout g m p r (pushed seen) (swaps (events seen))
      (released (seen ++ [o])) { s with pool })
    (begins : beginPos = moved (seen ++ [o]) * 2 ^ p % 2 ^ (p + r))
    (staged : Staged m r (moved (seen ++ [o])) (released (seen ++ [o]))
      (swaps (events seen)) { s with pool, stage }) :
    Inv g m p r (seen ++ [o]) { s with pool, beginPos, stage, client } := by
  obtain ⟨noEvent, noPoint⟩ := inside
  have sameEvents : events (seen ++ [o]) = events seen := by simp [noEvent]
  have samePushed : pushed (seen ++ [o]) = pushed seen := by simp [noPoint]
  have sameCompleted : completed (seen ++ [o]) = completed seen := by
    rw [completed, sameEvents, completed]
  refine ⟨?_, ?_, ?_, ?_, ?_, ?_, begins, ?_, ?_, ?_⟩
  · rw [sameEvents]
    exact held.control
  · rw [sameEvents, samePushed]
    exact ⟨layout.length, layout.nodup, layout.memory, layout.files, layout.readable⟩
  · rw [sameEvents, samePushed]
    exact held.filled
  · rw [samePushed]
    exact held.whole
  · rw [samePushed, sameCompleted]
    exact held.completes
  · rw [sameCompleted]
    exact held.endPos
  · rw [sameEvents]
    exact held.file
  · rw [sameEvents]
    exact staged.congr rfl rfl (fun _ _ _ => rfl) id
  · rw [sameEvents]
    exact held.writing

/-- The next pool is the oldest one in the window if all places of the root are in use. -/
theorem Inv.oldest_iff (shape : g.Shape p r) (two : 2 ≤ m)
    (held : Inv g m p r seen s)
    (stage : moved seen = swaps (events seen) + m - 2 ^ r) :
    s.nPool2Swap2 = g.rootIdx s.beginPos ↔ 2 ^ r ≤ swaps (events seen) + m := by
  have begins : g.rootIdx s.beginPos = moved seen % 2 ^ r := by
    rw [held.beginPos, shape.rootIdx_eq, add_comm p, pow_add, Nat.mul_mod_mul_right,
      Nat.mul_div_cancel _ (Nat.two_pow_pos p), Nat.mod_mod]
  rw [held.file, begins, stage]
  constructor
  · intro same
    by_contra less
    rw [Nat.mod_eq_of_lt (by omega), Nat.sub_eq_zero_of_le (by omega), Nat.zero_mod] at same
    omega
  · intro more
    rw [← Nat.mod_eq_sub_mod more]

theorem begin_inv (shape : g.Shape p r) (two : 2 ≤ m)
    (held : Inv g m p r seen s) (works : s.control.swapper = .working)
    (stage : s.stage = .beginning) (step : s.swap g c = some (o, s')) :
    Inv g m p r (seen ++ [o]) s' := by
  obtain ⟨moves, releases⟩ : moved seen = swaps (events seen) + m - 2 ^ r ∧
      released seen = moved seen := by simpa [Staged, stage] using held.stage
  simp only [swap, stage, held.oldest_iff shape two moves] at step
  split at step
  · rename_i more
    obtain ⟨rfl, rfl⟩ := by simpa using step
    refine held.stage_step ⟨rfl, rfl⟩ ?_ ?_ ?_
    · simpa [Seen.isReleased] using held.layout
    · rw [shape.shiftLeft_eq, mul_two_pow_mod, mul_two_pow_mod, held.file, Nat.mod_add_mod,
        moved_snoc, moves, Seen.isMoved, Bool.toNat_true]
      congr 1
      rw [← Nat.sub_add_comm more, Nat.mod_eq_sub_mod (more.trans (Nat.le_succ _))]
    · simp only [Staged, moved_snoc, released_snoc, Seen.isMoved, Seen.isReleased, Bool.toNat_true,
        Bool.toNat_false, add_zero]
      exact ⟨works, by omega, by omega⟩
  · rename_i less
    obtain ⟨rfl, rfl⟩ := by simpa using step
    refine held.stage_step ⟨rfl, rfl⟩ ?_ ?_ ?_
    · simpa [Seen.isReleased] using held.layout
    · simpa [Seen.isMoved] using held.beginPos
    · simp only [Staged, moved_snoc, released_snoc, Seen.isMoved, Seen.isReleased,
        Bool.toNat_false, add_zero]
      exact ⟨works, by omega, by omega⟩

theorem release_inv (held : Inv g m p r seen s) (stage : s.stage = .releasing)
    (step : s.swap g c = some (o, s')) : Inv g m p r (seen ++ [o]) s' := by
  obtain ⟨works, moves, releases⟩ : s.control.swapper = .working ∧
      moved seen = swaps (events seen) + m + 1 - 2 ^ r ∧
      moved seen = released seen + 1 := by simpa [Staged, stage] using held.stage
  simp only [swap, stage, Option.map_eq_some_iff] at step
  obtain ⟨client, -, result⟩ := step
  obtain ⟨rfl, rfl⟩ := by simpa using result
  refine held.stage_step ⟨rfl, rfl⟩ ?_ ?_ ?_
  · rw [released_snoc]
    exact held.layout.mono (Nat.le_add_right _ _)
  · simpa [Seen.isMoved] using held.beginPos
  · simp only [Staged, moved_snoc, released_snoc, Seen.isMoved, Seen.isReleased, Bool.toNat_true,
      Bool.toNat_false, add_zero]
    exact ⟨works, moves, releases.symm⟩

theorem fetch_inv (shape : g.Shape p r) (held : Inv g m p r seen s)
    (stage : s.stage = .fetching) (step : s.swap g c = some (o, s')) :
    Inv g m p r (seen ++ [o]) s' := by
  obtain ⟨works, moves, releases⟩ : s.control.swapper = .working ∧
      moved seen = swaps (events seen) + m + 1 - 2 ^ r ∧
      released seen = moved seen := by simpa [Staged, stage] using held.stage
  simp only [swap, stage, Option.bind_eq_some_iff, Option.map_eq_some_iff] at step
  obtain ⟨mp, first, fp, second, result⟩ := step
  obtain ⟨rfl, rfl⟩ := by simpa using result
  have mask (count : ℕ) : count % 2 ^ r &&& g.rootMask = count % 2 ^ r := by
    rw [shape.rootMask, Nat.and_two_pow_sub_one_eq_mod, Nat.mod_mod]
  rw [getPool, held.control.toSwap, mask] at first
  rw [getPool, held.file, mask] at second
  refine held.stage_step ⟨rfl, rfl⟩ ?_ ?_ ?_
  · simpa [Seen.isReleased] using held.layout
  · simpa [Seen.isMoved] using held.beginPos
  · simp only [Staged, moved_snoc, released_snoc, Seen.isMoved, Seen.isReleased, Bool.toNat_false,
      add_zero]
    exact ⟨works, moves, releases, first, second⟩

theorem assign_inv (shape : g.Shape p r) (two : 2 ≤ m) (few : m < 2 ^ r)
    (held : Inv g m p r seen s) {mp fp : ℕ} (stage : s.stage = .assigning mp fp)
    (step : s.swap g c = some (o, s')) : Inv g m p r (seen ++ [o]) s' := by
  obtain ⟨works, moves, releases, first, second⟩ : s.control.swapper = .working ∧
      moved seen = swaps (events seen) + m + 1 - 2 ^ r ∧
      released seen = moved seen ∧
      s.numbered r (swaps (events seen)) = some mp ∧
      s.numbered r (swaps (events seen) + m) = some fp := by
    simpa [Staged, stage] using held.stage
  simp only [swap, stage, Option.map_eq_some_iff] at step
  obtain ⟨assigned, copies, result⟩ := step
  obtain ⟨rfl, rfl⟩ := by simpa using result
  obtain ⟨kind, copied⟩ : assigned.kind = .file ∧ assigned.records = (s.pool mp).records := by
    unfold Pool.assign at copies
    split at copies
    · rename_i file _
      obtain rfl := Option.some.inj copies
      exact ⟨file, rfl⟩
    all_goals cases copies
  have distinct : mp ≠ fp := by
    rintro rfl
    exact numbered_ne held.layout.nodup (by omega) (by omega) first second
  refine held.stage_step ⟨rfl, rfl⟩ ?_ ?_ ?_
  · rw [released_snoc]
    exact held.layout.assign shape few (by omega) (held.pushed_le two).1 second kind
  · simpa [Seen.isMoved] using held.beginPos
  · simp only [Staged, moved_snoc, released_snoc, Seen.isMoved, Seen.isReleased, Bool.toNat_false,
      add_zero]
    refine ⟨works, moves, releases, mp, fp, first, second, ?_⟩
    rw [Function.update_self, Function.update_of_ne distinct, copied]

theorem exchange_inv (shape : g.Shape p r) (two : 2 ≤ m) (few : m < 2 ^ r)
    (held : Inv g m p r seen s) (stage : s.stage = .exchanging)
    (step : s.swap g c = some (o, s')) : Inv g m p r (seen ++ [o]) s' := by
  obtain ⟨works, moves, releases, mp, fp, first, second, copied⟩ : s.control.swapper = .working ∧
      moved seen = swaps (events seen) + m + 1 - 2 ^ r ∧
      released seen = moved seen ∧ ∃ mp fp,
      s.numbered r (swaps (events seen)) = some mp ∧
      s.numbered r (swaps (events seen) + m) = some fp ∧
      (s.pool fp).records = (s.pool mp).records := by
    simpa [Staged, stage] using held.stage
  simp only [swap, stage, Option.bind_eq_some_iff, Option.map_eq_some_iff] at step
  obtain ⟨mp', first', fp', second', ⟨event, control⟩, exchanges, result⟩ := step
  obtain ⟨rfl, rfl⟩ := by simpa using result
  rw [held.control.toSwap] at first'
  rw [held.file] at second'
  obtain rfl : mp = mp' := Option.some.inj (first.symm.trans first')
  obtain rfl : fp = fp' := Option.some.inj (second.symm.trans second')
  have balanced := swapperStep_balanced held.control (shape.rootMask ▸ exchanges)
  obtain ⟨rfl, rfl⟩ := by simpa [swapperStep, works] using exchanges
  let next : Ring α X := { s with
    root := (s.root.set s.control.nPool2Swap fp).set s.nPool2Swap2 mp
    pool := Function.update s.pool mp (s.pool mp).clear }
  have root : next.root =
      (s.root.set (swaps (events seen) % 2 ^ r) fp).set
        ((swaps (events seen) + m) % 2 ^ r) mp := by
    rw [← held.control.toSwap, ← held.file]
  have layout : Layout g m p r (pushed seen) (swaps (events seen) + 1) (released seen) next :=
    held.layout.exchange shape (by omega) few (by omega) (held.pushed_le two).1 first second copied
      root rfl
  have swapped : swaps (events (seen ++ [.control .swapped])) = swaps (events seen) + 1 := by
    rw [swaps_control, if_pos rfl]
  have filled : fills (events (seen ++ [.control .swapped])) = fills (events seen) := by
    rw [fills_control, if_neg (by decide), add_zero]
  have completes : completed (seen ++ [.control .swapped]) = completed seen := by
    rw [completed_control, if_neg (by decide), add_zero]
  refine ⟨by simpa [Seen.event?] using balanced, ?_, ?_, ?_, ?_, ?_, ?_, ?_, ?_, ?_⟩
  · rw [swapped, pushed_control, released_control]
    exact ⟨layout.length, layout.nodup, layout.memory, layout.files, layout.readable⟩
  · rw [filled, pushed_control]
    exact held.filled
  · rw [pushed_control]
    exact held.whole
  · rw [pushed_control, completes]
    exact held.completes
  · rw [completes]
    exact held.endPos
  · rw [moved_control]
    exact held.beginPos
  · rw [swapped]
    change (s.nPool2Swap2 + 1) &&& g.rootMask = _
    rw [shape.rootMask, Nat.and_two_pow_sub_one_eq_mod, held.file, Nat.mod_add_mod]
    congr 1
    omega
  · rw [swapped, released_control, moved_control]
    exact ⟨by omega, releases⟩
  · intro phase
    obtain ⟨pair, written, found⟩ := held.writing phase
    obtain ⟨-, upper, apart⟩ := held.open_bounds two
      (by simp [show s.control.producer = .writing from phase])
    refine ⟨pair, written, ?_⟩
    rw [held.filled] at found
    have between := apart works
    rw [filled, held.filled, numbered_exchanged first second
      (by rw [held.control.toSwap, held.file]), if_neg, if_neg, found]
    · exact mod_ne_of_lt between (by omega)
    · exact (mod_ne_of_lt upper (by omega)).symm

theorem swap_inv (shape : g.Shape p r) (two : 2 ≤ m) (few : m < 2 ^ r)
    (held : Inv g m p r seen s) (works : s.control.swapper = .working)
    (step : s.swap g c = some (o, s')) : Inv g m p r (seen ++ [o]) s' := by
  cases stage : s.stage with
  | beginning => exact begin_inv shape two held works stage step
  | releasing => exact release_inv held stage step
  | fetching => exact fetch_inv shape held stage step
  | assigning mp fp => exact assign_inv shape two few held stage step
  | exchanging => exact exchange_inv shape two few held stage step

/-- Every step of a ring keeps the invariant. -/
theorem step_inv (shape : g.Shape p r) (large : g.nPoolSize = 2 ^ p) (two : 2 ≤ m)
    (few : m < 2 ^ r) (held : Inv g m p r seen s)
    (step : (machine g c).step s a = some (o, s')) : Inv g m p r (seen ++ [o]) s' := by
  cases call : a with
  | push point =>
      rw [call] at step
      exact push_inv shape held step
  | producer =>
      rw [call] at step
      exact produce_inv shape large two few held step
  | swapper =>
      simp only [call, machine, swapperRun] at step
      cases phase : s.control.swapper with
      | working => exact swap_inv shape two few held phase (by simpa [phase] using step)
      | checking | asleep | stopping | stirring | unlocking =>
          simp only [phase, Option.map_eq_some_iff] at step
          obtain ⟨next, moves, result⟩ := step
          obtain ⟨rfl, rfl⟩ := by simpa using result
          exact thread_inv shape held (by simp [phase]) moves
  | derived client =>
      obtain ⟨rfl, rfl⟩ := by simpa [call, machine] using step
      refine held.stage_step ⟨rfl, rfl⟩ ?_ ?_ ?_
      · simpa [Seen.isReleased] using held.layout
      · simpa [Seen.isMoved] using held.beginPos
      · simpa [Seen.isMoved, Seen.isReleased] using held.stage

end Steps

theorem le_memPools (cfg : Config) : 2 ≤ cfg.memPools := by
  rw [cfg.memPools_eq]
  exact le_max_left _ _

/-- With a root that is large enough, the geometry is regular and there are files. -/
theorem exists_roomy_shape {cfg : Config}
    (roomy : max 2 cfg.nMemPools.toNat < cfg.metrix.nRootSize) : ∃ p r,
      cfg.metrix.Shape p r ∧ cfg.metrix.nPoolSize = 2 ^ p ∧ cfg.memPools < 2 ^ r := by
  obtain ⟨p, r, shape⟩ := exists_shape cfg.nPoolSize cfg.nRootSize
  change cfg.metrix.Shape p r at shape
  refine ⟨p, r, shape, ?_, ?_⟩
  · have several : 1 ≤ r := by
      by_contra none
      have one : r = 0 := by omega
      rw [shape.nRootSize, one] at roomy
      omega
    have fits := shape.fits
    rw [shape.nPoolSize, Nat.mod_eq_of_lt (Nat.pow_lt_pow_right Nat.one_lt_two (by omega))]
  · rw [← shape.nRootSize, cfg.memPools_eq]
    omega

section Runs

variable {cfg : Config} {c : Client α X} {p r : ℕ} {zero : α} {client : X}
  {history : List (Call α X × Seen α)} {s : Ring α X}

theorem new_inv (shape : cfg.metrix.Shape p r) (large : cfg.metrix.nPoolSize = 2 ^ p)
    (few : cfg.memPools < 2 ^ r) :
    Inv cfg.metrix cfg.memPools p r [] (new cfg zero client : Ring α X) := by
  have place (j : ℕ) (below : j < 2 ^ r) : (new cfg zero client).numbered r j = some j := by
    rw [numbered, new, shape.nRootSize, Nat.mod_eq_of_lt below, List.getElem?_range below]
  refine ⟨new_balanced (le_memPools cfg), ⟨?_, ?_, fun j _ below => ?_, fun j least below => ?_,
    fun k _ below => absurd below (Nat.not_lt_zero k)⟩, (Nat.zero_div _).symm,
    fun late => absurd late (lt_irrefl 0), rfl, (Nat.zero_mod _).symm, ?_, ?_, ?_, by rintro ⟨⟩⟩
  · rw [new, List.length_range, shape.nRootSize]
  · exact List.nodup_range
  · have inMemory : j < cfg.memPools := by simpa [swaps] using below
    refine ⟨j, place j (by omega), ?_⟩
    simp [new, inMemory, large]
  · have inFile : ¬ j < cfg.memPools := by simpa [swaps] using least
    refine ⟨j, place j (by simpa [swaps] using below), ?_⟩
    simp [new, inFile]
  · simp [new, moved]
  · rw [new, events, List.filterMap_nil, swaps, List.count_nil, zero_add, Nat.mod_eq_of_lt few]
  · change Staged cfg.memPools r 0 0 0 _
    exact ⟨by omega, rfl⟩

theorem run_inv (shape : cfg.metrix.Shape p r) (large : cfg.metrix.nPoolSize = 2 ^ p)
    (few : cfg.memPools < 2 ^ r)
    (run : (machine cfg.metrix c).Run (new cfg zero client) history s) :
    Inv cfg.metrix cfg.memPools p r (history.map Prod.snd) s := by
  apply run.invariant
    (P := fun history s => Inv cfg.metrix cfg.memPools p r (history.map Prod.snd) s)
  · exact new_inv shape large few
  · intro history t a o u _ held step
    simpa using step_inv shape large (le_memPools cfg) few held step

/-- The number of the point at which the window begins. -/
def windowBegin (cfg : Config) (seen : List (Seen α)) : ℕ := moved seen * cfg.metrix.nPoolSize

/-- The number of the first point of the pool that the producer writes to. -/
def producerBegin (cfg : Config) (seen : List (Seen α)) : ℕ :=
  fills (events seen) * cfg.metrix.nPoolSize

theorem windowBegin_mono {earlier seen : List (Seen α)} (front : earlier <+: seen) :
    windowBegin cfg earlier ≤ windowBegin cfg seen :=
  Nat.mul_le_mul_right _ front.sublist.countP_le

section Window

variable {seen : List (Seen α)} (shape : cfg.metrix.Shape p r)
  (large : cfg.metrix.nPoolSize = 2 ^ p) (few : cfg.memPools < 2 ^ r)
  (held : Inv cfg.metrix cfg.memPools p r seen s)

include large few held

theorem Inv.windowBegin_lt :
    windowBegin cfg seen = 0 ∨ windowBegin cfg seen < producerBegin cfg seen := by
  obtain start | late := held.moved_lt few
  · exact .inl (by rw [windowBegin, start, zero_mul])
  · exact .inr (Nat.mul_lt_mul_of_pos_right late (large ▸ Nat.two_pow_pos p))

theorem Inv.windowBegin_le : windowBegin cfg seen ≤ completed seen := by
  have completes := held.completes
  have one : s.control.producer.toComplete ≤ 1 := by
    cases s.control.producer <;> decide
  have positive := Nat.two_pow_pos p
  rw [windowBegin, large]
  obtain start | late := held.moved_lt few
  · rw [start, zero_mul]
    exact Nat.zero_le _
  · rw [held.filled, Nat.lt_iff_add_one_le, Nat.le_div_iff_mul_le positive, Nat.succ_mul] at late
    omega

include shape

/-- The window is shorter than the ring. -/
theorem Inv.window_lt : completed seen - windowBegin cfg seen < cfg.metrix.capacity := by
  have inside := held.windowBegin_le large few
  have most := (held.pushed_le (le_memPools cfg)).2
  have room := Nat.mul_le_mul_right (2 ^ p) (held.moved_bounds few).1
  rw [Nat.add_mul (moved seen), ← pow_add, add_comm r] at room
  rw [windowBegin, large] at inside ⊢
  rw [shape.capacity_eq]
  omega

/-- A position in the window reads as the point with that number. -/
theorem Inv.read {k : ℕ} (least : windowBegin cfg seen ≤ k) (below : k < (pushed seen).length) :
    s.idx cfg.metrix (k % cfg.metrix.capacity) = (pushed seen)[k]? := by
  have shown : released seen * 2 ^ p ≤ k := by
    rw [windowBegin, large] at least
    exact (Nat.mul_le_mul_right _ (held.moved_bounds few).2.2.1).trans least
  rw [shape.capacity_eq, idx_mod shape, held.layout.readable k shown below]

end Window

/-- Four pools, of which two are in memory. -/
private def smallConfig : Config := ⟨2, 0, 3⟩

end Runs

end Ring

end Crs.RingPool
