import Crs.RingPool.Fields

/-!
# Pools that leave the window

`_swap` scans the pool that leaves the window for changes of the link, and calls `_release`
with the first point behind each change. The scan is a loop over the points that were
pushed into that pool. Behind it, the window is what was not released.
-/

namespace Crs.RingPool

open Foundation Handshake

namespace Ring

section Frames

variable {α X : Type*} {g : BitMaskCalculator} {c : Client α X} {s s' : Ring α X} {o : Seen α}

theorem push_frame {point : α} (step : s.push g point = some (o, s')) :
    o = .control .quiet ∧ s'.control.producer = .writing ∧ s'.client = s.client ∧
      ∃ pool, s'.writing = some (pool, point) := by
  unfold push at step
  split at step
  · rename_i phase
    obtain ⟨pool, -, next⟩ := Option.bind_eq_some_iff.mp step
    obtain ⟨⟨event, control⟩, moves, result⟩ := Option.map_eq_some_iff.mp next
    obtain ⟨rfl, rfl⟩ := by simpa using result
    obtain ⟨rfl, rfl⟩ := by simpa [producerStep, phase] using moves
    exact ⟨rfl, rfl, rfl, pool, rfl⟩
  all_goals cases step

/-- The producer stores the point that it holds, and no other. -/
theorem produce_frame (step : s.produce g = some (o, s')) :
    s.control.producer ≠ .idle ∧ s'.control.producer ≠ .writing ∧ s'.client = s.client ∧
      o.isReleased = false ∧
      (s.control.producer = .writing →
        ∃ held, s.writing = some held ∧ o.point? = some held.2) ∧
      (s.control.producer ≠ .writing → o.point? = none) := by
  cases phase : s.control.producer with
  | idle => simp [produce, phase] at step
  | writing =>
      simp only [produce, phase, Option.bind_eq_some_iff, Option.map_eq_some_iff] at step
      obtain ⟨held, written, stored, -, ⟨event, control⟩, moves, result⟩ := step
      obtain ⟨rfl, rfl⟩ := by simpa using result
      obtain ⟨-, rfl⟩ := writing_step phase moves
      refine ⟨by decide, ?_, rfl, rfl, fun _ => ⟨held, written, rfl⟩, fun other => absurd rfl other⟩
      cases stored.1 <;> simp
  | advancing | locking | resuming | waking | counting =>
      simp only [produce, phase, Option.map_eq_some_iff] at step
      obtain ⟨⟨event, control⟩, moves, result⟩ := step
      obtain ⟨rfl, rfl⟩ := by simpa using result
      have frame := producerStep_frame (by simp [phase]) moves
      refine ⟨by decide, fun writes => ?_, rfl, rfl, by rintro ⟨⟩, fun _ => rfl⟩
      cases phase.symm.trans (frame.2 writes)

/-- Outside of the release of a pool, the swapper leaves a derived class alone. -/
theorem swapper_frame (step : s.swapperRun g c = some (o, s'))
    (other : s.control.swapper = .working → s.stage ≠ .releasing) :
    s'.control.producer = s.control.producer ∧ s'.writing = s.writing ∧ s'.client = s.client ∧
      o.isReleased = false ∧ o.point? = none := by
  cases phase : s.control.swapper with
  | working =>
      simp only [swapperRun, phase] at step
      cases stage : s.stage with
      | beginning =>
          simp only [swap, stage] at step
          split at step <;> obtain ⟨rfl, rfl⟩ := by simpa using step
          all_goals exact ⟨rfl, rfl, rfl, rfl, rfl⟩
      | releasing => exact absurd stage (other phase)
      | fetching =>
          simp only [swap, stage, Option.bind_eq_some_iff, Option.map_eq_some_iff] at step
          obtain ⟨mp, -, fp, -, result⟩ := step
          obtain ⟨rfl, rfl⟩ := by simpa using result
          exact ⟨rfl, rfl, rfl, rfl, rfl⟩
      | assigning mp fp =>
          simp only [swap, stage, Option.map_eq_some_iff] at step
          obtain ⟨assigned, -, result⟩ := step
          obtain ⟨rfl, rfl⟩ := by simpa using result
          exact ⟨rfl, rfl, rfl, rfl, rfl⟩
      | exchanging =>
          simp only [swap, stage, Option.bind_eq_some_iff, Option.map_eq_some_iff] at step
          obtain ⟨mp, -, fp, -, ⟨event, control⟩, exchanges, result⟩ := step
          obtain ⟨rfl, rfl⟩ := by simpa using result
          obtain ⟨rfl, rfl⟩ := by simpa [swapperStep, phase] using exchanges
          exact ⟨rfl, rfl, rfl, rfl, rfl⟩
  | checking | asleep | stopping | stirring | unlocking =>
      simp only [swapperRun, phase, Option.map_eq_some_iff] at step
      obtain ⟨⟨event, control⟩, moves, result⟩ := step
      obtain ⟨rfl, rfl⟩ := by simpa using result
      obtain ⟨same, -⟩ := swapperStep_frame (by simp [phase]) moves
      exact ⟨same, rfl, rfl, rfl, rfl⟩

theorem releasing_step (step : s.swapperRun g c = some (o, s'))
    (works : s.control.swapper = .working) (stage : s.stage = .releasing) :
    ∃ client, s.releasePool g c = some client ∧ o = .released ∧
      s' = { s with client, stage := .fetching } := by
  simp only [swapperRun, works, swap, stage, Option.map_eq_some_iff] at step
  obtain ⟨client, releases, result⟩ := step
  obtain ⟨rfl, rfl⟩ := by simpa using result
  exact ⟨client, releases, rfl, rfl⟩

theorem swapperRun_released (works : s.control.swapper = .working) (stage : s.stage = .releasing)
    {client : X} (releases : s.releasePool g c = some client) :
    s.swapperRun g c = some (.released, { s with client, stage := .fetching }) := by
  simp [swapperRun, works, swap, stage, releases]

end Frames

section Scan

variable {α X : Type*} {g : BitMaskCalculator} {c : Client α X} {m p r : ℕ}
  {seen : List (Seen α)} {s s' : Ring α X} {o : Seen α}

/-- The loop, as a loop over the points that it reads. -/
theorem releaseRuns_eq {points : List α} {e fuel i : ℕ} {lnk : Option ℕ} {x : X}
    (enough : points.length < fuel) (start : i < 2 ^ digits)
    (reads : ∀ j < points.length, s.idx g ((i + j) % 2 ^ digits) = points[j]?)
    (inside : ∀ j < points.length, g.fullIdx ((i + j) % 2 ^ digits) ≠ g.fullIdx e)
    (ends : g.fullIdx ((i + points.length) % 2 ^ digits) = g.fullIdx e) :
    s.releaseRuns g c e fuel i lnk x = c.releaseAll lnk points x := by
  induction points generalizing fuel i lnk x with
  | nil =>
      cases fuel with
      | zero => simp at enough
      | succ fuel =>
          rw [List.length_nil, add_zero, Nat.mod_eq_of_lt start] at ends
          rw [releaseRuns, if_pos ends, Client.releaseAll]
  | cons point points ih =>
      cases fuel with
      | zero => simp at enough
      | succ fuel =>
          have positive : 0 < (point :: points).length := Nat.succ_pos _
          have read := reads 0 positive
          have within := inside 0 positive
          rw [add_zero, Nat.mod_eq_of_lt start] at read within
          have shift (j : ℕ) : ((i + 1) % 2 ^ digits + j) % 2 ^ digits =
              (i + (j + 1)) % 2 ^ digits := by
            rw [Nat.mod_add_mod, add_assoc, add_comm 1]
          have rest (lnk : Option ℕ) (x : X) :
              s.releaseRuns g c e fuel ((i + 1) % 2 ^ digits) lnk x =
                c.releaseAll lnk points x := by
            refine ih (Nat.succ_lt_succ_iff.mp enough) (Nat.mod_lt _ (Nat.two_pow_pos _))
              (fun j below => ?_) (fun j below => ?_) ?_
            · rw [shift, reads (j + 1) (Nat.succ_lt_succ below), List.getElem?_cons_succ]
            · rw [shift]
              exact inside (j + 1) (Nat.succ_lt_succ below)
            · rw [shift]
              exact ends
          rw [releaseRuns, if_neg within, read, List.getElem?_cons_zero, Option.bind_some,
            Client.releaseAll, rest]
          simp only [rest]

/-- A position that is counted without end, in 64 bits. -/
theorem mod_wrapped (shape : g.Shape p r) (k : ℕ) :
    k % 2 ^ digits % 2 ^ (p + r) = k % 2 ^ (p + r) :=
  Nat.mod_mod_of_dvd k (pow_dvd_pow 2 shape.fits)

theorem fullIdx_wrapped (shape : g.Shape p r) (k : ℕ) :
    g.fullIdx (k % 2 ^ digits) = g.fullIdx k := by
  rw [shape.fullIdx_eq, shape.fullIdx_eq, mod_wrapped shape]

/-- The points that have not been released, from the first one on. -/
theorem Inv.read_front (shape : g.Shape p r) (held : Inv g m p r seen s) {front points : List α}
    (known : front <+: pushed seen) (split : front.drop (released seen * 2 ^ p) = points) {j k : ℕ}
    (inside : j < points.length)
    (same : k % 2 ^ (p + r) = (released seen * 2 ^ p + j) % 2 ^ (p + r)) :
    s.idx g k = points[j]? := by
  obtain ⟨behind, known⟩ := known
  have within : released seen * 2 ^ p + j < front.length := by
    rw [← split, List.length_drop] at inside
    omega
  have most : front.length ≤ (pushed seen).length := by
    rw [← known, List.length_append]
    exact Nat.le_add_right _ _
  rw [← idx_mod shape, same, idx_mod shape,
    held.layout.readable _ (Nat.le_add_right _ _) (within.trans_le most), ← known,
    List.getElem?_append_left within, ← split, List.getElem?_drop]

variable (shape : g.Shape p r) (held : Inv g m p r seen s)
  (stage : s.stage = .releasing)

include held stage

/-- The pool that is released is the oldest one, and the one behind it is full. -/
theorem Inv.releasing_bounds : s.control.swapper = .working ∧
    s.nPool2Swap2 = released seen % 2 ^ r ∧
    (m < 2 ^ r → (released seen + 2) * 2 ^ p ≤ (pushed seen).length) := by
  obtain ⟨works, moves, releases⟩ : s.control.swapper = .working ∧
      moved seen = swaps (events seen) + m + 1 - 2 ^ r ∧
      moved seen = released seen + 1 := by simpa [Staged, stage] using held.stage
  have round : swaps (events seen) + m = released seen + 2 ^ r := by omega
  refine ⟨works, by rw [held.file, round, Nat.add_mod_right], fun few => ?_⟩
  have behind := held.swaps_lt works
  rw [held.filled] at behind
  exact (Nat.le_div_iff_mul_le (Nat.two_pow_pos p)).mp (by omega)

include shape

/-- `nBeginPos` and `nEndPos`. -/
theorem Inv.released_positions :
    g.fullIdx ((s.nPool2Swap2 <<< g.rootMaskShift) % 2 ^ digits) =
        released seen * 2 ^ p % 2 ^ (p + r) ∧
      g.fullIdx (((s.nPool2Swap2 + 1) <<< g.rootMaskShift) % 2 ^ digits) =
        (released seen * 2 ^ p + 2 ^ p) % 2 ^ (p + r) := by
  obtain ⟨-, file, -⟩ := held.releasing_bounds stage
  constructor
  · rw [fullIdx_wrapped shape, shape.rootMaskShift, shape.fullIdx_eq, Nat.shiftLeft_eq, file,
      ← mul_two_pow_mod, Nat.mod_mod]
  · rw [fullIdx_wrapped shape, shape.rootMaskShift, shape.fullIdx_eq, Nat.shiftLeft_eq, file,
      Nat.succ_mul, ← mul_two_pow_mod, Nat.mod_add_mod]

/-- What `_swap` does about a pool, in terms of its points. -/
theorem Inv.releasePool_eq (two : 2 ≤ m) (few : m < 2 ^ r) {front pool rest : List α}
    {first next : α}
    (known : front <+: pushed seen)
    (split : front.drop (released seen * 2 ^ p) = pool ++ next :: rest)
    (size : pool.length = 2 ^ p) (head : pool.head? = some first) :
    s.releasePool g c = (c.releaseAll (c.link first) pool s.client).bind fun x =>
      c.fixLink next ((released seen * 2 ^ p + 2 ^ p) % 2 ^ (p + r)) x := by
  obtain ⟨begins, ends⟩ := held.released_positions shape stage
  have larger : 2 ^ p < 2 ^ (p + r) := Nat.pow_lt_pow_right Nat.one_lt_two (by
    cases r <;> omega)
  have positive := Nat.two_pow_pos p
  have length : (pool ++ next :: rest).length = 2 ^ p + (rest.length + 1) := by
    rw [List.length_append, List.length_cons, size]
  have wrapped : ∀ j, (released seen * 2 ^ p % 2 ^ (p + r) + j) % 2 ^ digits % 2 ^ (p + r) =
      (released seen * 2 ^ p + j) % 2 ^ (p + r) := by
    intro j
    rw [mod_wrapped shape, Nat.mod_add_mod]
  have atFirst : s.idx g (released seen * 2 ^ p % 2 ^ (p + r)) = some first := by
    rw [held.read_front shape known split (j := 0) (by omega) (by rw [Nat.mod_mod, add_zero]),
      List.getElem?_append_left (by omega), ← List.head?_eq_getElem?, head]
  have atNext : s.idx g ((released seen * 2 ^ p + 2 ^ p) % 2 ^ (p + r)) = some next := by
    rw [held.read_front shape known split (j := 2 ^ p) (by omega) (Nat.mod_mod _ _), ← size,
      List.getElem?_append_right le_rfl, Nat.sub_self, List.getElem?_cons_zero]
  have scan : s.releaseRuns g c ((released seen * 2 ^ p + 2 ^ p) % 2 ^ (p + r)) (g.capacity + 1)
      (released seen * 2 ^ p % 2 ^ (p + r)) (c.link first) s.client =
        c.releaseAll (c.link first) pool s.client := by
    apply releaseRuns_eq
    · rw [size, shape.capacity_eq]
      omega
    · exact (Nat.mod_lt _ (Nat.two_pow_pos _)).trans_le
        (Nat.pow_le_pow_right Nat.two_pos shape.fits)
    · intro j below
      rw [held.read_front shape known split (j := j) (by omega) (wrapped j),
        List.getElem?_append_left below]
    · intro j below
      rw [shape.fullIdx_eq, shape.fullIdx_eq, wrapped, Nat.mod_mod]
      exact (mod_ne_of_lt (by omega) (by omega)).symm
    · rw [shape.fullIdx_eq, shape.fullIdx_eq, wrapped, Nat.mod_mod, size]
  rw [releasePool, begins, ends, atFirst, atNext, Option.bind_some, scan]
  rfl

end Scan

section Window

variable {α X : Type*} {cfg : Config} {p r : ℕ} {seen : List (Seen α)} {s : Ring α X}

/-- Outside of the release of a pool, the window begins with the points that were not released. -/
theorem Inv.released_eq {g : BitMaskCalculator} {m : ℕ} (held : Inv g m p r seen s)
    (stage : s.stage ≠ .releasing) : released seen = moved seen := by
  have staged := held.stage
  unfold Staged at staged
  split at staged
  · exact staged.2
  · rename_i releasing
    exact absurd releasing stage
  · exact staged.2.2
  · exact staged.2.2.1
  · exact staged.2.2.1

variable (shape : cfg.metrix.Shape p r) (large : cfg.metrix.nPoolSize = 2 ^ p)
  (few : cfg.memPools < 2 ^ r) (held : Inv cfg.metrix cfg.memPools p r seen s)
  (stage : s.stage ≠ .releasing)

include shape held stage

theorem Inv.fullIdx_begin (i : ℕ) : cfg.metrix.fullIdx (s.beginPos + i) =
    (released seen * 2 ^ p + i) % 2 ^ (p + r) := by
  rw [shape.fullIdx_eq, held.beginPos, Nat.mod_add_mod, held.released_eq stage]

theorem Inv.nth_eq {i : ℕ} (inside : i < ((pushed seen).drop (released seen * 2 ^ p)).length) :
    s.nth cfg.metrix i = ((pushed seen).drop (released seen * 2 ^ p))[i]? := by
  refine held.read_front shape List.prefix_rfl rfl inside ?_
  rw [mod_wrapped shape, held.beginPos, Nat.mod_add_mod, held.released_eq stage]

omit shape stage in
include large few in
/-- The last point is never released. -/
theorem Inv.released_lt :
    released seen * 2 ^ p = 0 ∨ released seen * 2 ^ p < (pushed seen).length := by
  have least := Nat.mul_le_mul_right (2 ^ p) (held.moved_bounds few).2.2.1
  have most := held.windowBegin_lt large few
  have whole := Nat.div_mul_le_self (pushed seen).length (2 ^ p)
  rw [windowBegin, producerBegin, large, held.filled] at most
  omega

include large few

/-- The window, between two calls of the producer. -/
theorem Inv.size_eq (calm : completed seen = (pushed seen).length) :
    s.size cfg.metrix = ((pushed seen).drop (released seen * 2 ^ p)).length := by
  have least := held.windowBegin_le large few
  have most := held.window_lt shape large few
  rw [windowBegin, large, calm, shape.capacity_eq, ← held.released_eq stage] at most
  rw [windowBegin, large, calm, ← held.released_eq stage] at least
  rw [size, fullIdx_wrapped shape, shape.fullIdx_eq, held.endPos, held.beginPos, calm,
    ← held.released_eq stage, List.length_drop]
  generalize (pushed seen).length = n at *
  generalize released seen * 2 ^ p = low at *
  have fits : 2 ^ (p + r) ∣ 2 ^ digits := pow_dvd_pow 2 shape.fits
  have below : low % 2 ^ (p + r) ≤ 2 ^ digits :=
    (Nat.mod_lt _ (Nat.two_pow_pos _)).le.trans (Nat.le_of_dvd (Nat.two_pow_pos _) fits)
  have congruent : n % 2 ^ (p + r) + (2 ^ digits - low % 2 ^ (p + r)) + low ≡ n - low + low
      [MOD 2 ^ (p + r)] := by
    calc n % 2 ^ (p + r) + (2 ^ digits - low % 2 ^ (p + r)) + low
        ≡ n % 2 ^ (p + r) + (2 ^ digits - low % 2 ^ (p + r)) + low % 2 ^ (p + r)
          [MOD 2 ^ (p + r)] := (Nat.mod_modEq _ _).symm.add_left _
      _ = n % 2 ^ (p + r) + 2 ^ digits := by omega
      _ ≡ n + 0 [MOD 2 ^ (p + r)] :=
          (Nat.mod_modEq _ _).add (Nat.modEq_zero_iff_dvd.mpr fits)
      _ = n - low + low := by omega
  rw [← Nat.mod_eq_of_lt most]
  exact congruent.add_right_cancel'

end Window

end Ring

end Crs.RingPool
