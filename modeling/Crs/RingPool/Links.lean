import Crs.RingPool.Evictions

/-!
# The links of the window

`_swap` calls `_release` with the first point behind a change of the link, and `_fixLink`
with the first point behind the pool. So a record that began in an earlier pool is not
deleted when it ends, and the last record of the pool is deleted even if it continues.
Both go well if the field does not change between the first point of the pool and the
first point behind it, or if the pool begins without a field and the field changes with
the pool.
-/

namespace Crs.RingPool

open Foundation Handshake

namespace DAQ

variable {D F : Type*} {cfg : Config} {p r : ℕ}
  {seen : List (Ring.Seen (IntensityPoint D))} {s s' : DAQ D F}

open Crs.RingPool.Ring DAQCore

/-- With the links of the window filed, the core is as it should be. -/
theorem linked_of_filed (shape : cfg.metrix.Shape p r) (large : cfg.metrix.nPoolSize = 2 ^ p)
    (few : cfg.memPools < 2 ^ r) (held : Ring.Inv cfg.metrix cfg.memPools p r seen s.ring)
    (stage : s.ring.stage ≠ .releasing) (calm : completed seen = (pushed seen).length)
    (filed : Filed (2 ^ (p + r)) (released seen * 2 ^ p)
      (((pushed seen).drop (released seen * 2 ^ p)).map IntensityPoint.link) s.ring.client) :
    Linked cfg.metrix s := by
  have size := held.size_eq shape large few stage calm
  have nth := fun i => held.nth_eq shape stage (i := i)
  generalize (pushed seen).drop (released seen * 2 ^ p) = points at *
  refine ⟨?_, ?_, filed.deleted⟩
  · intro i below
    rw [size] at below
    refine ⟨points[i], (nth i below).trans (List.getElem?_eq_getElem below), fun r link => ?_⟩
    have linked : some r ∈ points.map IntensityPoint.link :=
      link ▸ List.mem_map_of_mem (List.getElem_mem below)
    obtain ⟨-, found, at_r, -⟩ := filed.filed r (filed.linked r linked)
    exact ⟨at_r ▸ rfl, filed.linked r linked⟩
  · intro r indexed
    obtain ⟨linked, found, at_r, position⟩ := filed.filed r indexed
    have below := List.idxOf_lt_length_of_mem linked
    have here := List.getElem_idxOf below
    have before : ∀ j < (points.map IntensityPoint.link).idxOf (some r), ∀ other,
        points[j]? = some other → other.link ≠ some r := by
      intro j less other at_j same
      obtain ⟨within, rfl⟩ := List.getElem?_eq_some_iff.mp at_j
      have differs := List.not_of_lt_findIdx less
      simp [same] at differs
    generalize (points.map IntensityPoint.link).idxOf (some r) = i at *
    rw [List.length_map] at below
    rw [List.getElem_map] at here
    refine ⟨i, size ▸ below, points[i], found, (nth i below).trans (List.getElem?_eq_getElem below),
      here, fun j less other at_j => ?_, at_r, ?_⟩
    · exact before j less other ((nth j (less.trans below)).symm.trans at_j)
    · rw [held.fullIdx_begin shape stage, shape.fullIdx_eq, position]

/-- The links of the settled points that have not been released. -/
def openLinks (p : ℕ) (seen : List (Seen (IntensityPoint D))) (settled : List (IntensityPoint D)) :
    List (Option ℕ) := (settled.drop (released seen * 2 ^ p)).map IntensityPoint.link

/-- The points are settled, except for one that was pushed by an `acquire` at work. -/
structure Inv (cfg : Config) (p r : ℕ) (seen : List (Seen (IntensityPoint D)))
    (settled : List (IntensityPoint D)) (s : DAQ D F) : Prop where
  ring : Ring.Inv cfg.metrix cfg.memPools p r seen s.ring
  outside : s.acquiring = false → s.ring.control.producer = .idle ∧ pushed seen = settled
  writing : s.acquiring = true → s.ring.control.producer = .writing → pushed seen = settled ∧
    ∃ held, s.ring.writing = some held ∧ held.2.link = s.ring.client.field
  flying : s.acquiring = true → s.ring.control.producer ≠ .writing → ∃ point,
    pushed seen = settled ++ [point] ∧ point.link = s.ring.client.field
  filed : Filed (2 ^ (p + r)) (released seen * 2 ^ p) (openLinks p seen settled) s.ring.client

/-- The condition on a step of a run. -/
def GentleStep (g : BitMaskCalculator) (s : DAQ D F) (a : Call D F) : Prop :=
  a = .swapper → s.ring.stage = .releasing → Gentle g s

theorem GentleStep.of_ne {g : BitMaskCalculator} {s : DAQ D F} {a : Call D F}
    (other : a ≠ .swapper) : GentleStep g s a :=
  fun same => absurd same other

section Steps

variable {settled : List (IntensityPoint D)} {o : Seen (IntensityPoint D)} {client : DAQCore F}
  (shape : cfg.metrix.Shape p r) (large : cfg.metrix.nPoolSize = 2 ^ p) (few : cfg.memPools < 2 ^ r)
  (held : Inv cfg p r seen settled s)

theorem openLinks_snoc (quiet : o.isReleased = false) :
    openLinks p (seen ++ [o]) settled = openLinks p seen settled := by
  simp [openLinks, quiet]

/-- The links that remain. -/
theorem openLinks_released {pool rest : List (Option ℕ)} (size : pool.length = 2 ^ p)
    (split : openLinks p seen settled = pool ++ rest) :
    openLinks p (seen ++ [.released]) settled = rest := by
  have behind := congrArg (List.drop (2 ^ p)) split
  rw [← size, List.drop_left, size, openLinks, ← List.map_drop, List.drop_drop] at behind
  rw [openLinks, released_snoc]
  simpa [Seen.isReleased, Nat.add_mul] using behind

include held

/-- At most one point is not settled. -/
theorem Inv.pushed_eq : settled <+: pushed seen ∧ (pushed seen).length ≤ settled.length + 1 := by
  cases acquiring : s.acquiring with
  | false =>
      obtain ⟨-, same⟩ := held.outside acquiring
      exact ⟨same ▸ List.prefix_rfl, same ▸ Nat.le_succ _⟩
  | true =>
      by_cases phase : s.ring.control.producer = .writing
      · obtain ⟨same, -⟩ := held.writing acquiring phase
        exact ⟨same ▸ List.prefix_rfl, same ▸ Nat.le_succ _⟩
      · obtain ⟨point, more, -⟩ := held.flying acquiring phase
        rw [more]
        exact ⟨List.prefix_append _ _, by simp⟩

include shape large few

theorem Inv.ring_step {a : Ring.Call (IntensityPoint D) (DAQCore F)}
    {ring : Ring (IntensityPoint D) (DAQCore F)}
    (step : (Ring.machine cfg.metrix DAQCore.client).step s.ring a = some (o, ring)) :
    Ring.Inv cfg.metrix cfg.memPools p r (seen ++ [o]) ring :=
  step_inv shape large (le_memPools cfg) few held.ring step

theorem field_inv [BEq F] {newState : F} (calm : s.acquiring = false)
    (step : s.ring.client.setField newState = some client) :
    Inv cfg p r (seen ++ [.quiet]) settled { s with ring := { s.ring with client } } := by
  have ring := held.ring_step shape large few (a := .derived client) rfl
  refine ⟨ring, fun _ => ?_, fun busy => ?_, fun busy => ?_, ?_⟩
  · simpa [Seen.point?] using held.outside calm
  · simp [calm] at busy
  · simp [calm] at busy
  · rw [openLinks_snoc (o := .quiet) rfl, released_snoc]
    exact held.filed.setField step

theorem acquire_inv {data : D} {ring : Ring (IntensityPoint D) (DAQCore F)}
    (calm : s.acquiring = false)
    (step : s.ring.push cfg.metrix ⟨data, s.ring.client.field⟩ = some (o, ring)) :
    Inv cfg p r (seen ++ [o]) settled ⟨ring, true⟩ := by
  have ring' := held.ring_step shape large few (a := .push _) step
  obtain ⟨rfl, phase, client, pool, holds⟩ := push_frame step
  refine ⟨ring', nofun, fun _ _ => ?_, fun _ other => absurd phase other, ?_⟩
  · obtain ⟨-, same⟩ := held.outside calm
    refine ⟨by simpa [Seen.point?] using same, _, holds, ?_⟩
    rw [client]
  · rw [openLinks_snoc rfl, released_snoc, client]
    exact held.filed

theorem producer_inv {ring : Ring (IntensityPoint D) (DAQCore F)}
    (step : s.ring.produce cfg.metrix = some (o, ring)) :
    Inv cfg p r (seen ++ [o]) settled { s with ring } := by
  have ring' := held.ring_step shape large few (a := .producer) step
  obtain ⟨notIdle, notWriting, client, quiet, stores, passes⟩ := produce_frame step
  have busy : s.acquiring = true := by
    by_contra calm
    exact notIdle (held.outside (by simpa using calm)).1
  refine ⟨ring', fun calm => ?_, fun _ phase => absurd phase notWriting, fun _ _ => ?_, ?_⟩
  · simp [busy] at calm
  · rw [client, pushed_snoc]
    by_cases phase : s.ring.control.producer = .writing
    · obtain ⟨same, pair, holds, link⟩ := held.writing busy phase
      obtain ⟨pair', holds', point⟩ := stores phase
      obtain rfl : pair = pair' := Option.some.inj (holds.symm.trans holds')
      exact ⟨pair.2, by rw [point, same, Option.toList_some], link⟩
    · obtain ⟨point, more, link⟩ := held.flying busy phase
      exact ⟨point, by rw [passes phase, more, Option.toList_none, List.append_nil], link⟩
  · rw [openLinks_snoc quiet, released_snoc, quiet, client]
    exact held.filed

theorem index_inv (busy : s.acquiring = true) (idle : s.ring.control.producer = .idle)
    (step : s.ring.client.index s.ring.endPos = some client) :
    ∃ settled', Inv cfg p r (seen ++ [.quiet]) settled' ⟨{ s.ring with client }, false⟩ := by
  have ring := held.ring_step shape large few (a := .derived client) rfl
  obtain ⟨point, more, link⟩ := held.flying busy (by simp [idle])
  refine ⟨settled ++ [point], ring, fun _ => ⟨idle, ?_⟩, nofun, nofun, ?_⟩
  · simpa [Seen.point?] using more
  · have completes := held.ring.completes
    rw [more, List.length_append, List.length_singleton, idle, Producer.toComplete, add_zero]
      at completes
    have behind : released seen * 2 ^ p ≤ settled.length := by
      have last := held.ring.released_lt large few
      rw [more, List.length_append, List.length_singleton] at last
      omega
    have links : openLinks p seen (settled ++ [point]) =
        openLinks p seen settled ++ [s.ring.client.field] := by
      rw [openLinks, List.drop_append_of_le_length behind, List.map_append,
        List.map_singleton, link, openLinks]
    have position : (s.ring.endPos + (2 ^ digits - 1)) % 2 ^ digits % 2 ^ (p + r) =
        (released seen * 2 ^ p + (openLinks p seen settled).length) % 2 ^ (p + r) := by
      rw [openLinks, List.length_map, List.length_drop, Nat.add_sub_of_le behind,
        mod_wrapped shape, held.ring.endPos, ← completes, Nat.mod_add_mod, add_assoc,
        Nat.add_sub_of_le (Nat.one_le_two_pow), ← mod_wrapped shape, Nat.add_mod_right,
        mod_wrapped shape]
    rw [openLinks_snoc (o := .quiet) rfl, released_snoc, links]
    exact held.filed.index step position

/-- A step of the swapper that releases nothing. -/
theorem swapper_inv {ring : Ring (IntensityPoint D) (DAQCore F)}
    (other : s.ring.control.swapper = .working → s.ring.stage ≠ .releasing)
    (step : s.ring.swapperRun cfg.metrix DAQCore.client = some (o, ring)) :
    Inv cfg p r (seen ++ [o]) settled { s with ring } := by
  have ring' := held.ring_step shape large few (a := .swapper) step
  obtain ⟨phase, holds, client, quiet, noPoint⟩ := swapper_frame step other
  have pushes : pushed (seen ++ [o]) = pushed seen := by simp [noPoint]
  refine ⟨ring', ?_, ?_, ?_, ?_⟩
  · rw [phase, pushes]
    exact held.outside
  · rw [phase, pushes, holds, client]
    exact held.writing
  · rw [phase, pushes, client]
    exact held.flying
  · rw [openLinks_snoc quiet, released_snoc, quiet, client]
    exact held.filed

section Release

variable (stage : s.ring.stage = .releasing)

omit shape large in
include stage in
/-- The settled points reach beyond the pool that is released. -/
theorem Inv.exists_released (wide : 8 ≤ p) : ∃ first pool next rest,
    settled.drop (released seen * 2 ^ p) = (first :: pool) ++ next :: rest ∧
      (first :: pool).length = 2 ^ p := by
  obtain ⟨-, -, bound⟩ := held.ring.releasing_bounds stage
  have positive : 2 ≤ 2 ^ p := Nat.pow_le_pow_right Nat.two_pos (by omega : 1 ≤ p)
  have long : 2 ^ p < (settled.drop (released seen * 2 ^ p)).length := by
    have most := held.pushed_eq.2
    have least := bound few
    rw [Nat.add_mul] at least
    rw [List.length_drop]
    omega
  generalize settled.drop (released seen * 2 ^ p) = points at *
  cases points with
  | nil => simp at long
  | cons first points =>
      rw [List.length_cons] at long
      have below : 2 ^ p - 1 < points.length := by omega
      refine ⟨first, points.take (2 ^ p - 1), points[2 ^ p - 1],
        points.drop (2 ^ p - 1 + 1), ?_, ?_⟩
      · rw [List.cons_append, ← List.drop_eq_getElem_cons below, List.take_append_drop]
      · rw [List.length_cons, List.length_take]
        omega

include stage

/-- What a swap does about the pool that has left the window, and what the condition says. -/
theorem Inv.release_spec : ∃ first pool next rest ip,
    openLinks p seen settled = (first :: pool) ++ next :: rest ∧ (first :: pool).length = 2 ^ p ∧
    ip.link = next ∧ (Gentle cfg.metrix s ↔ DAQCore.Gentle (first :: pool) next) ∧
    s.ring.releasePool cfg.metrix DAQCore.client =
      (s.ring.client.without ((first :: pool).filter fun l => l ≠ first)).fixLink (D := D) ip
        ((released seen * 2 ^ p + 2 ^ p) % 2 ^ (p + r)) := by
  obtain ⟨first, pool, next, rest, split, size⟩ := held.exists_released few stage shape.wide
  have links : openLinks p seen settled = (first.link :: pool.map IntensityPoint.link) ++
      next.link :: rest.map IntensityPoint.link := by
    rw [openLinks, split, List.map_append, List.map_cons, List.map_cons]
  have known := held.pushed_eq.1
  have filed := held.filed
  rw [links] at filed
  refine ⟨first.link, pool.map IntensityPoint.link, next.link, rest.map IntensityPoint.link, next,
    links, by simpa using size, rfl, ?_, ?_⟩
  · obtain ⟨begins, ends⟩ := held.ring.released_positions shape stage
    have read : ∀ j k, j < (first :: pool ++ next :: rest).length →
        k % 2 ^ (p + r) = (released seen * 2 ^ p + j) % 2 ^ (p + r) →
        s.linkAt cfg.metrix k = (openLinks p seen settled)[j]? := by
      intro j k inside same
      rw [linkAt, held.ring.read_front shape known split inside same, openLinks, split,
        List.getElem?_map]
    have positive := Nat.two_pow_pos p
    have length : (first :: pool ++ next :: rest).length = 2 ^ p + (rest.length + 1) := by
      rw [List.length_append, size, List.length_cons]
    have size' : (first.link :: pool.map IntensityPoint.link).length = 2 ^ p := by
      simpa using size
    have atFirst : s.linkAt cfg.metrix (released seen * 2 ^ p % 2 ^ (p + r)) = some first.link := by
      rw [read 0 _ (by omega) (by simp), links]
      rfl
    have atLast : s.linkAt cfg.metrix (released seen * 2 ^ p % 2 ^ (p + r) + 2 ^ p - 1) =
        (first.link :: pool.map IntensityPoint.link).getLast? := by
      rw [Nat.add_sub_assoc positive, read (2 ^ p - 1) _ (by omega) (Nat.mod_add_mod _ _ _), links,
        List.getElem?_append_left (by omega), List.getLast?_eq_getElem?, size']
    have atNext : s.linkAt cfg.metrix ((released seen * 2 ^ p + 2 ^ p) % 2 ^ (p + r)) =
        some next.link := by
      rw [read (2 ^ p) _ (by omega) (Nat.mod_mod _ _), links, ← size',
        List.getElem?_append_right le_rfl, Nat.sub_self, List.getElem?_cons_zero]
    rw [Gentle, begins, ends, large, atFirst, atLast, atNext]
    rfl
  · have sorted := (List.pairwise_append.mp filed.sorted).1
    have least := (List.pairwise_cons.mp sorted).1
    rw [held.ring.releasePool_eq shape stage (le_memPools cfg) few known split size rfl,
      client_link, releaseAll_eq, Option.bind_some, client_fixLink, List.map_cons]
    · refine List.pairwise_cons.mpr ⟨fun l inside => ?_, sorted⟩
      obtain rfl | inside := List.mem_cons.mp inside
      · exact le_rfl
      · exact least l inside
    · exact filed.nodup
    · intro r inside _
      obtain ⟨-, found, at_r, -⟩ := filed.filed r (filed.linked r (List.mem_append_left _ inside))
      exact at_r ▸ rfl

/-- A pool is released under the condition. -/
theorem release_inv {ring : Ring (IntensityPoint D) (DAQCore F)} (gentle : Gentle cfg.metrix s)
    (step : s.ring.swapperRun cfg.metrix DAQCore.client = some (o, ring)) :
    Inv cfg p r (seen ++ [o]) settled { s with ring } := by
  have ring' := held.ring_step shape large few (a := .swapper) step
  obtain ⟨works, -⟩ := held.ring.releasing_bounds stage
  obtain ⟨client, releases, rfl, rfl⟩ := releasing_step step works stage
  obtain ⟨first, pool, next, rest, ip, split, size, link, condition, result⟩ :=
    held.release_spec shape large few stage
  rw [result] at releases
  have filed := held.filed
  rw [split] at filed
  have filed' := filed.evict (filed.gone_iff rfl (condition.mp gentle)) link
    (by rw [size, Nat.mod_mod]) releases
  rw [size] at filed'
  have field := (fixLink_spec releases).1.2.1
  refine ⟨ring', fun calm => ?_, fun busy phase => ?_, fun busy phase => ?_, ?_⟩
  · simpa [Seen.point?] using held.outside calm
  · obtain ⟨same, pair, holds, link⟩ := held.writing busy phase
    exact ⟨by simpa [Seen.point?] using same, pair, holds, link.trans field.symm⟩
  · obtain ⟨point, more, link⟩ := held.flying busy phase
    exact ⟨point, by simpa [Seen.point?] using more, link.trans field.symm⟩
  · rw [openLinks_released size split, released_snoc]
    simpa [Seen.isReleased, Nat.add_mul] using filed'

/-- A pool is released without the condition, between two calls: the core is wrong then. -/
theorem release_harsh {ring : Ring (IntensityPoint D) (DAQCore F)} (harsh : ¬ Gentle cfg.metrix s)
    (calm : s.acquiring = false)
    (step : s.ring.swapperRun cfg.metrix DAQCore.client = some (o, ring)) :
    Boundary { s with ring } ∧ ¬ Linked cfg.metrix { s with ring } := by
  have ring' := held.ring_step shape large few (a := .swapper) step
  obtain ⟨works, -⟩ := held.ring.releasing_bounds stage
  obtain ⟨client, releases, rfl, rfl⟩ := releasing_step step works stage
  obtain ⟨first, pool, next, rest, ip, split, size, link, condition, result⟩ :=
    held.release_spec shape large few stage
  rw [result] at releases
  have filed := held.filed
  rw [split] at filed
  obtain ⟨r', indexed, unlinked⟩ :=
    filed.leaked rfl (fun gentle => harsh (condition.mpr gentle)) link releases
  have stage' : Stage.fetching ≠ Stage.releasing := by decide
  refine ⟨⟨calm, stage'⟩, fun linked => ?_⟩
  obtain ⟨idle, same⟩ := held.outside calm
  have counted := ring'.completes
  simp only [idle, Producer.toComplete, add_zero] at counted
  have pushes : pushed (seen ++ [.released]) = settled := by simpa [Seen.point?] using same
  obtain ⟨i, below, point, found, here, links, -⟩ := linked.records r' indexed
  have inside : i < ((pushed (seen ++ [.released])).drop
      (released (seen ++ [.released]) * 2 ^ p)).length := by
    rw [← ring'.size_eq shape large few stage' counted.symm]
    exact below
  have read := (ring'.nth_eq shape stage' inside).symm.trans here
  refine unlinked ?_
  rw [← openLinks_released size split, openLinks, ← pushes]
  exact List.mem_map.mpr ⟨point, List.mem_of_getElem? read, links⟩

/-- Under the condition, no record is followed that was deleted. -/
theorem Inv.exists_gentle (gentle : Gentle cfg.metrix s) :
    ∃ ring, s.ring.swapperRun cfg.metrix DAQCore.client = some (.released, ring) := by
  obtain ⟨works, -⟩ := held.ring.releasing_bounds stage
  obtain ⟨first, pool, next, rest, ip, split, size, link, condition, result⟩ :=
    held.release_spec shape large few stage
  have filed := held.filed
  rw [split] at filed
  obtain ⟨client, fixed⟩ :
      ∃ client, s.ring.releasePool cfg.metrix DAQCore.client = some client := by
    rw [result]
    refine filed.exists_fixLink (fun n here isGone => ?_) link _
    exact ((filed.gone_iff rfl (condition.mp gentle) n).mp isGone).2 here.symm
  exact ⟨_, swapperRun_released works stage fixed⟩

/-- A pool of one record is released, and the condition is that the record continues. -/
theorem Inv.exists_release {a b : ℕ} {rest : List (Option ℕ)}
    (split : openLinks p seen settled = List.replicate (2 ^ p) (some a) ++ some b :: rest) :
    (∃ ring, s.ring.swapperRun cfg.metrix DAQCore.client = some (.released, ring) ∧
      ring.stage = .fetching) ∧ (Gentle cfg.metrix s ↔ a = b) := by
  obtain ⟨works, -⟩ := held.ring.releasing_bounds stage
  obtain ⟨first, pool, next, rest', ip, split', size, link, condition, result⟩ :=
    held.release_spec shape large few stage
  have filed := held.filed
  rw [split'] at split filed
  obtain ⟨whole, behind⟩ := List.append_inj split (by rw [size, List.length_replicate])
  obtain rfl : next = some b := (List.cons.inj behind).1
  have only : ∀ l ∈ first :: pool, l = some a := fun l inside =>
    List.eq_of_mem_replicate (whole ▸ inside)
  obtain rfl : first = some a := only first List.mem_cons_self
  constructor
  · have spared : ((some a :: pool).filter fun l => l ≠ some a) = [] :=
      List.filter_eq_nil_iff.mpr fun l inside => by simp [only l inside]
    obtain ⟨client, fixed⟩ :
        ∃ client, s.ring.releasePool cfg.metrix DAQCore.client = some client := by
      rw [result, spared]
      exact filed.exists_fixLink (fun n _ => List.not_mem_nil) link _
    exact ⟨_, swapperRun_released works stage fixed, rfl⟩
  · rw [condition, DAQCore.Gentle]
    simp

end Release

theorem Inv.linked (boundary : Boundary s) : Linked cfg.metrix s := by
  obtain ⟨calm, stage⟩ := boundary
  obtain ⟨idle, same⟩ := held.outside calm
  have completes := held.ring.completes
  rw [idle, Producer.toComplete, add_zero] at completes
  have filed := held.filed
  rw [openLinks, ← same] at filed
  exact linked_of_filed shape large few held.ring stage completes.symm filed

theorem step_inv' [BEq F] {a : Call D F} (gentle : GentleStep cfg.metrix s a)
    (step : (machine cfg.metrix).step s a = some (o, s')) :
    ∃ settled', Inv cfg p r (seen ++ [o]) settled' s' := by
  cases a with
  | field newState =>
      simp only [machine, Option.ite_none_left_eq_some, Option.map_eq_some_iff] at step
      obtain ⟨calm, client, changes, result⟩ := step
      obtain ⟨rfl, rfl⟩ := by simpa using result
      exact ⟨settled, field_inv shape large few held (by simpa using calm) changes⟩
  | acquire data =>
      simp only [machine, Option.ite_none_left_eq_some, Option.map_eq_some_iff] at step
      obtain ⟨calm, next, pushes, result⟩ := step
      obtain ⟨rfl, rfl⟩ := by simpa using result
      exact ⟨settled, acquire_inv shape large few held (by simpa using calm) pushes⟩
  | producer =>
      simp only [machine, Option.map_eq_some_iff] at step
      obtain ⟨next, produces, result⟩ := step
      obtain ⟨rfl, rfl⟩ := by simpa using result
      exact ⟨settled, producer_inv shape large few held produces⟩
  | index =>
      simp only [machine, Option.ite_none_right_eq_some, Option.map_eq_some_iff] at step
      obtain ⟨⟨busy, idle⟩, client, indexes, result⟩ := step
      obtain ⟨rfl, rfl⟩ := by simpa using result
      exact index_inv shape large few held busy idle indexes
  | swapper =>
      simp only [machine, Option.map_eq_some_iff] at step
      obtain ⟨next, swaps, result⟩ := step
      obtain ⟨rfl, rfl⟩ := by simpa using result
      by_cases stage : s.ring.stage = .releasing
      · exact ⟨settled, release_inv shape large few held stage (gentle rfl stage) swaps⟩
      · exact ⟨settled, swapper_inv shape large few held (fun _ => stage) swaps⟩

end Steps

section Runs

variable {zero : IntensityPoint D}

theorem new_inv (shape : cfg.metrix.Shape p r) (large : cfg.metrix.nPoolSize = 2 ^ p)
    (few : cfg.memPools < 2 ^ r) : Inv cfg p r [] [] (new cfg zero : DAQ D F) := by
  refine ⟨Ring.new_inv shape large few, fun _ => ⟨rfl, rfl⟩, nofun, nofun, ?_⟩
  rw [openLinks, List.drop_nil, List.map_nil]
  exact new_filed

variable [BEq F] {history : List (Call D F × Seen (IntensityPoint D))}

theorem run_inv (shape : cfg.metrix.Shape p r) (large : cfg.metrix.nPoolSize = 2 ^ p)
    (few : cfg.memPools < 2 ^ r) (run : (machine cfg.metrix).Run (new cfg zero) history s)
    (gentle : (machine cfg.metrix).BeforeEach (new cfg zero)
      (fun _ s a => GentleStep cfg.metrix s a) history) :
    ∃ settled, Inv cfg p r (history.map Prod.snd) settled s := by
  induction run with
  | nil => exact ⟨[], new_inv shape large few⟩
  | snoc earlier step ih =>
      obtain ⟨before, now⟩ := (Machine.beforeEach_snoc earlier).mp gentle
      obtain ⟨settled, held⟩ := ih before
      simpa using step_inv' shape large few held now step

end Runs

end DAQ

end Crs.RingPool
