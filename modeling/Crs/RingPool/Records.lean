import Crs.RingPool.Calls

/-!
# The records of a run

What the calls of a core and the swaps of its ring do to the records and the index.
-/

namespace Crs.RingPool

open Foundation Handshake

namespace DAQ

variable {D F : Type*} [BEq F] {cfg : Config} {zero : IntensityPoint D} {p r : ℕ} {s : DAQ D F}
  {history : List (Call D F × Ring.Seen (IntensityPoint D))} {points : List (IntensityPoint D)}

open Crs.RingPool.Ring DAQCore

section OneFile

/-- A whole pool of points with the record of the field. -/
theorem Calm.fill (shape : cfg.metrix.Shape p r) (large : cfg.metrix.nPoolSize = 2 ^ p)
    (few : cfg.memPools < 2 ^ r) (calm : Calm cfg zero p points .checking s)
    (whole : points.length % 2 ^ p = 0) (data : D) : ∃ s' : DAQ D F,
      Calm cfg zero p (points ++ List.replicate (2 ^ p) ⟨data, s.ring.client.field⟩) .working s' ∧
      s'.ring.client.field = s.ring.client.field := by
  obtain ⟨n, size⟩ : ∃ n, 2 ^ p = n + 1 := Nat.exists_eq_add_one.mpr (Nat.two_pow_pos p)
  obtain ⟨s₁, calm₁, field₁⟩ := calm.acquires shape large few (n := n) (by omega) data
  obtain ⟨s₂, calm₂, field₂⟩ := calm₁.acquire_last shape large few rfl
    (by rw [List.length_append, List.length_replicate, ← Nat.mod_add_mod, whole, zero_add, size,
      Nat.mod_eq_of_lt (Nat.lt_succ_self n)]) data
  refine ⟨s₂, ?_, field₂.trans field₁⟩
  rwa [field₁, List.append_assoc, ← List.replicate_succ', ← size] at calm₂

variable (shape : cfg.metrix.Shape p r) (large : cfg.metrix.nPoolSize = 2 ^ p)
  (one : cfg.memPools + 1 = 2 ^ r) {data : D}

include shape large one

/-- The first pool is filled and swapped. -/
theorem exists_first_pool (newState : F) : ∃ s : DAQ D F,
    Calm cfg zero p (List.replicate (2 ^ p) ⟨data, some 0⟩) .checking s ∧
      s.ring.client.field = some 0 := by
  have few : cfg.memPools < 2 ^ r := by omega
  have start : Calm cfg zero p [] .checking (new cfg zero : DAQ D F) := new_calm
  obtain ⟨client, changes, calm₁⟩ := start.field shape large few newState
  obtain rfl : ({} : DAQCore F).renew newState = client := Option.some.inj changes
  obtain ⟨s₂, calm₂, field₂⟩ := calm₁.fill shape large few (Nat.zero_mod _) data
  obtain ⟨s₃, calm₃, client₃⟩ := calm₂.swap shape large few rfl (by
    rw [List.nil_append, List.length_replicate, Nat.div_self (Nat.two_pow_pos p)]
    omega)
  exact ⟨s₃, calm₃, client₃ ▸ field₂⟩

/-- The second pool is filled, and the first one leaves the window. -/
theorem Calm.exists_second_pool {b : ℕ}
    (calm : Calm cfg zero p (List.replicate (2 ^ p) ⟨data, some 0⟩) .checking s)
    (field : s.ring.client.field = some b) : ∃ history, ∃ s' : DAQ D F, ∃ settled rest,
      GentleRun cfg zero history s' ∧ s'.acquiring = false ∧ s'.ring.stage = .releasing ∧
      released (history.map Prod.snd) = 0 ∧ Inv cfg p r (history.map Prod.snd) settled s' ∧
      openLinks p (history.map Prod.snd) settled =
        List.replicate (2 ^ p) (some 0) ++ some b :: rest := by
  have few : cfg.memPools < 2 ^ r := by omega
  have positive := Nat.two_pow_pos p
  obtain ⟨s₁, calm₁, -⟩ := calm.fill shape large few (by simp) data
  rw [field] at calm₁
  have count : (List.replicate (2 ^ p) (⟨data, some 0⟩ : IntensityPoint D) ++
      List.replicate (2 ^ p) (⟨data, some b⟩ : IntensityPoint D)).length / 2 ^ p = 2 := by
    rw [List.length_append, List.length_replicate, List.length_replicate, ← Nat.two_mul,
      Nat.mul_div_cancel _ positive]
  obtain ⟨history, s₂, gentleRun, pushes, release, outside, stage⟩ :=
    calm₁.evict shape large few rfl (by omega)
  obtain ⟨settled, held⟩ := gentleRun.inv shape large few
  have none : released (history.map Prod.snd) = 0 := by omega
  obtain ⟨n, size⟩ : ∃ n, 2 ^ p = n + 1 := Nat.exists_eq_add_one.mpr positive
  refine ⟨history, s₂, settled, List.replicate n (some b), gentleRun, outside, stage, none,
    held, ?_⟩
  rw [openLinks, none, zero_mul, List.drop_zero, ← (held.outside outside).2, pushes,
    List.map_append, List.map_replicate, List.map_replicate, ← List.replicate_succ, ← size]

end OneFile

/-- A run in which every pool is released under the condition has its links and its index
right at the end of every operation, and the next pool can be released under it. If pools
are released between operations only, the condition is also necessary. -/
theorem run_linked_iff (roomy : max 2 cfg.nMemPools.toNat < cfg.metrix.nRootSize)
    (run : (machine cfg.metrix).Run (new cfg zero : DAQ D F) history s) :
    ((machine cfg.metrix).BeforeEach (new cfg zero)
        (fun _ s a => GentleStep cfg.metrix s a) history →
      (machine cfg.metrix).Throughout (new cfg zero)
        (fun _ s => (Boundary s → Linked cfg.metrix s) ∧
          (s.ring.stage = .releasing → Gentle cfg.metrix s →
            ((machine cfg.metrix).step s .swapper).isSome)) history) ∧
    ((machine cfg.metrix).BeforeEach (new cfg zero)
        (fun _ s a => a = .swapper → s.ring.stage = .releasing → s.acquiring = false) history →
      (machine cfg.metrix).Throughout (new cfg zero)
        (fun _ s => Boundary s → Linked cfg.metrix s) history →
      (machine cfg.metrix).BeforeEach (new cfg zero)
        (fun _ s a => GentleStep cfg.metrix s a) history) := by
  obtain ⟨p, r, shape, large, few⟩ := exists_roomy_shape roomy
  constructor
  · intro gentle earlier t front reached
    obtain ⟨settled, held⟩ := run_inv shape large few reached
      fun before a o u within => gentle before a o u (within.trans front)
    refine ⟨fun boundary => held.linked shape large few boundary, fun stage now => ?_⟩
    obtain ⟨ring, releases⟩ := held.exists_gentle shape large few stage now
    simp [machine, releases]
  · intro between all
    induction run with
    | nil => exact fun earlier a o t before => by simp at before
    | @snoc history t u a o earlier step ih =>
        obtain ⟨allBefore, now⟩ := (Machine.throughout_snoc earlier step).mp all
        obtain ⟨betweenBefore, calm⟩ := (Machine.beforeEach_snoc earlier).mp between
        have gentle := ih betweenBefore allBefore
        obtain ⟨settled, held⟩ := run_inv shape large few earlier gentle
        refine (Machine.beforeEach_snoc earlier).mpr ⟨gentle, ?_⟩
        rintro rfl stage
        by_contra harsh
        simp only [machine, Option.map_eq_some_iff] at step
        obtain ⟨next, swaps, result⟩ := step
        obtain ⟨rfl, rfl⟩ := by simpa using result
        obtain ⟨boundary, broken⟩ :=
          release_harsh shape large few held stage harsh (calm rfl stage) swaps
        exact broken (now boundary)

/-- Four pools, of which three are in memory. -/
private def oneFile : Config := ⟨3, 0, 3⟩

private theorem oneFile_shape : ∃ p r, oneFile.metrix.Shape p r ∧
    oneFile.metrix.nPoolSize = 2 ^ p ∧ oneFile.memPools + 1 = 2 ^ r := by
  have one : oneFile.memPools + 1 = oneFile.metrix.nRootSize := by decide
  obtain ⟨p, r, shape, large, -⟩ : ∃ p r, oneFile.metrix.Shape p r ∧
      oneFile.metrix.nPoolSize = 2 ^ p ∧ oneFile.memPools < 2 ^ r := exists_roomy_shape (by decide)
  exact ⟨p, r, shape, large, one.trans shape.nRootSize⟩

/-- Two pools with one field, of which the first one is released. -/
theorem run_linked_iff_one_field : ∃ (history : List (Call ℕ ℕ × Seen (IntensityPoint ℕ)))
    (s : DAQ ℕ ℕ), (machine oneFile.metrix).Run (new oneFile ⟨0, none⟩) history s ∧
      released (history.map Prod.snd) = 1 ∧ Linked oneFile.metrix s := by
  obtain ⟨p, r, shape, large, one⟩ := oneFile_shape
  have few : oneFile.memPools < 2 ^ r := by omega
  obtain ⟨s₁, calm, field⟩ : ∃ s : DAQ ℕ ℕ,
      Calm oneFile ⟨0, none⟩ p (List.replicate (2 ^ p) ⟨7, some 0⟩) .checking s ∧
        s.ring.client.field = some 0 := exists_first_pool shape large one 1
  obtain ⟨history, s₂, settled, rest, gentleRun, outside, stage, none, held, split⟩ :=
    calm.exists_second_pool shape large one field
  obtain ⟨⟨ring, releases, behind⟩, condition⟩ := held.exists_release shape large few stage split
  have step : (machine oneFile.metrix).step s₂ .swapper = some (.released, { s₂ with ring }) := by
    simp [machine, releases]
  have gentleRun' := gentleRun.snoc (fun _ _ => condition.mpr rfl) step
  refine ⟨_, _, gentleRun'.run, ?_, ?_⟩
  · simp [none, Seen.isReleased]
  · have throughout := (run_linked_iff (by decide) gentleRun'.run).1 gentleRun'.gentle
    exact (throughout _ _ List.prefix_rfl gentleRun'.run).1 ⟨outside, by simp [behind]⟩

/-- A pool with one field, and then a pool with another one: the record of the first pool stays
in the index when the pool leaves the window. -/
theorem record_leaks : max 2 oneFile.nMemPools.toNat < oneFile.metrix.nRootSize ∧
    ∃ (history : List (Call ℕ ℕ × Seen (IntensityPoint ℕ))) (s : DAQ ℕ ℕ),
      (machine oneFile.metrix).Run (new oneFile ⟨0, none⟩) history s ∧ Boundary s ∧
      ¬ Linked oneFile.metrix s := by
  refine ⟨by decide, ?_⟩
  obtain ⟨p, r, shape, large, one⟩ := oneFile_shape
  have few : oneFile.memPools < 2 ^ r := by omega
  obtain ⟨s₁, calm, field⟩ : ∃ s : DAQ ℕ ℕ,
      Calm oneFile ⟨0, none⟩ p (List.replicate (2 ^ p) ⟨7, some 0⟩) .checking s ∧
        s.ring.client.field = some 0 := exists_first_pool shape large one 1
  obtain ⟨first, gentleRun, -⟩ := calm.reached
  obtain ⟨settled₁, held₁⟩ := gentleRun.inv shape large few
  obtain ⟨found, there⟩ := Option.isSome_iff_exists.mp (held₁.filed.field_isSome field)
  obtain ⟨client, changes, calm'⟩ := calm.field shape large few (found.state + 1)
  obtain rfl : s₁.ring.client.renew (found.state + 1) = client := by
    simpa [DAQCore.setField, field, there] using changes
  obtain ⟨history, s₂, settled, rest, gentleRun', outside, stage, -, held, split⟩ :=
    calm'.exists_second_pool shape large one rfl
  obtain ⟨⟨ring, releases, -⟩, condition⟩ := held.exists_release shape large few stage split
  have harsh : ¬ Gentle oneFile.metrix s₂ := by
    have later := held₁.filed.allocated
    rw [field, age_some] at later
    rw [condition]
    omega
  have step : (machine oneFile.metrix).step s₂ .swapper = some (.released, { s₂ with ring }) := by
    simp [machine, releases]
  obtain ⟨boundary, broken⟩ := release_harsh shape large few held stage harsh outside releases
  exact ⟨_, _, gentleRun'.run.snoc step, boundary, broken⟩

end DAQ

end Crs.RingPool
