import Crs.RingPool.Basic

/-!
# Whole pushes

The statements of a push one after the other, while the thread does nothing.
-/

namespace Crs.RingPool

open Foundation Handshake

namespace Ring

variable {α X : Type*} {g : BitMaskCalculator} {c : Client α X} {s : Ring α X} {id : ℕ}

/-- The ring at the pool of the producer. -/
def entered (id : ℕ) (point : α) (s : Ring α X) : Ring α X :=
  { s with control := { s.control with producer := .writing }, writing := some (id, point) }

theorem push_entered (idle : s.control.producer = .idle)
    (here : s.getPool g s.control.currentPool = some id) (point : α) :
    s.push g point = some (.control .quiet, s.entered id point) := by
  simp [push, idle, here, producerStep, entered]

/-- The ring after a point was stored in a pool. -/
def stored (g : BitMaskCalculator) (id : ℕ) (point : α) (s : Ring α X) : Ring α X :=
  { s with
    control := { s.control with
      producer := if (s.pool id).nCount + 1 = g.nPoolSize then .advancing else .counting }
    pool := Function.update s.pool id { s.pool id with
      records := (s.pool id).records.set (s.pool id).nCount point
      nCount := (s.pool id).nCount + 1 }
    writing := none }

theorem produce_stored (kind : (s.pool id).kind = .mem)
    (room : (s.pool id).nCount < (s.pool id).records.length) (point : α) :
    (s.entered id point).produce g = some
      (.stored point (decide ((s.pool id).nCount + 1 = g.nPoolSize)), s.stored g id point) := by
  by_cases last : (s.pool id).nCount + 1 = g.nPoolSize <;>
    simp [entered, produce, Pool.push, kind, room, last, producerStep, stored]

/-- The first two statements of a push: the point is stored in the pool of the producer. -/
theorem run_stored (idle : s.control.producer = .idle)
    (here : s.getPool g s.control.currentPool = some id) (kind : (s.pool id).kind = .mem)
    (room : (s.pool id).nCount < (s.pool id).records.length) (point : α) :
    (machine g c).Run s [(.push point, .control .quiet),
      (.producer, .stored point (decide ((s.pool id).nCount + 1 = g.nPoolSize)))]
      (s.stored g id point) :=
  .cons (push_entered idle here point) (.single (produce_stored kind room point))

/-- The last statement of a push. -/
def counted (g : BitMaskCalculator) (s : Ring α X) : Ring α X :=
  { s with control := { s.control with producer := .idle }, endPos := g.fullIdx (s.endPos + 1) }

theorem step_counted (phase : s.control.producer = .counting) :
    (machine g c).step s .producer = some (.control .completed, s.counted g) := by
  simp [machine, produce, phase, producerStep, counted]

/-- A pool is full, and there is a token: the producer moves on and resumes the thread. -/
def advanced (g : BitMaskCalculator) (s : Ring α X) : Ring α X :=
  { s with
    control := { s.control with
      producer := .counting
      activateFlag := true
      wakeupFlag := true
      semaphore := s.control.semaphore - 1
      currentPool := (s.control.currentPool + 1) &&& g.rootMask } }

theorem run_advanced (phase : s.control.producer = .advancing) (token : 0 < s.control.semaphore) :
    (machine g c).Run s [(.producer, .control .advanced), (.producer, .control .locked),
      (.producer, .control .resumed), (.producer, .control .quiet)] (s.advanced g) := by
  have advances : (machine g c).step s .producer = some (.control .advanced,
      { s with control := { s.control with
        producer := .locking
        currentPool := (s.control.currentPool + 1) &&& g.rootMask } }) := by
    simp [machine, produce, phase, producerStep]
  have locks : (machine g c).step { s with control := { s.control with
        producer := .locking
        currentPool := (s.control.currentPool + 1) &&& g.rootMask } } .producer =
      some (.control .locked, { s with control := { s.control with
        producer := .resuming
        semaphore := s.control.semaphore - 1
        currentPool := (s.control.currentPool + 1) &&& g.rootMask } }) := by
    simp [machine, produce, producerStep, token]
  exact .cons advances (.cons locks (.cons rfl (.single rfl)))

/-- The thread finds its request and gets to `_swap`. -/
def called (s : Ring α X) : Ring α X :=
  { s with control := { s.control with
    swapper := .working
    activateFlag := false
    wakeupFlag := true } }

theorem run_called (phase : s.control.swapper = .checking)
    (active : s.control.activateFlag = true) :
    (machine g c).Run s [(.swapper, .control .quiet), (.swapper, .control .quiet),
      (.swapper, .control .quiet)] s.called := by
  have checks : (machine g c).step s .swapper = some (.control .quiet,
      { s with control := { s.control with swapper := .stopping } }) := by
    simp [machine, swapperRun, phase, swapperStep, active]
  exact .cons checks (.cons rfl (.single rfl))

end Ring

end Crs.RingPool
