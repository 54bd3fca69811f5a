import Crs.RingPool.Calls
import Crs.RingPool.Iterators

/-!
# What a core was told

A journal notes the calls of a core alone: each acquired data with the field of that time. The
fields are numbered as they change. It says what the points of the window are to show, whatever
the ring and the records do in between.
-/

namespace Crs.RingPool

open Foundation Handshake

/-- How often the field changed, the field with its number, and the acquired data. -/
structure Journal (D F : Type*) where
  changes : ℕ := 0
  field : Option (ℕ × F) := none
  entries : List (Option (ℕ × F) × D) := []

namespace Journal

variable {D F : Type*} [BEq F]

def change (newState : F) (j : Journal D F) : Journal D F :=
  { j with changes := j.changes + 1, field := some (j.changes, newState) }

def note (j : Journal D F) : DAQ.Call D F → Journal D F
  | .field newState =>
      match j.field with
      | none => j.change newState
      | some (_, old) => if old != newState then j.change newState else j
  | .acquire data => { j with entries := j.entries ++ [(j.field, data)] }
  | .producer | .index | .swapper => j

/-- A field that was current at some time. -/
def Known (j : Journal D F) (r : ℕ) (state : F) : Prop :=
  j.field = some (r, state) ∨ ∃ data, (some (r, state), data) ∈ j.entries

/-- The point that is made of an entry. -/
def point (e : Option (ℕ × F) × D) : IntensityPoint D := ⟨e.2, e.1.map Prod.fst⟩

end Journal

def journal {D F ω : Type*} [BEq F] (history : List (DAQ.Call D F × ω)) : Journal D F :=
  history.foldl (fun j event => j.note event.1) {}

namespace Ring

section Releases

variable {α X : Type*} {g : BitMaskCalculator} {c : Client α X} {s : Ring α X} {P : X → Prop}
  (release : ∀ point x x', P x → c.release point x = some x' → P x')

include release

/-- What `_release` keeps, the loop over a pool keeps. -/
theorem releaseRuns_post {e fuel i : ℕ} {lnk : Option ℕ} {x x' : X} (holds : P x)
    (runs : s.releaseRuns g c e fuel i lnk x = some x') : P x' := by
  induction fuel generalizing i lnk x with
  | zero => cases runs
  | succ fuel ih =>
    rw [releaseRuns] at runs
    split at runs
    · exact Option.some.inj runs ▸ holds
    · obtain ⟨point, -, runs⟩ := Option.bind_eq_some_iff.mp runs
      split at runs
      · exact ih holds runs
      · obtain ⟨y, releases, runs⟩ := Option.bind_eq_some_iff.mp runs
        exact ih (release point x y holds releases) runs

theorem releasePool_post (fixLink : ∀ point n x x', P x → c.fixLink point n x = some x' → P x')
    {x' : X} (holds : P s.client) (runs : s.releasePool g c = some x') : P x' := by
  obtain ⟨first, -, runs⟩ := Option.bind_eq_some_iff.mp runs
  obtain ⟨x, releases, runs⟩ := Option.bind_eq_some_iff.mp runs
  obtain ⟨e, -, fixes⟩ := Option.bind_eq_some_iff.mp runs
  exact fixLink e _ x x' (releaseRuns_post release holds releases) fixes

end Releases

section Positions

variable {α X : Type*} {cfg : Config} {p r : ℕ} {seen : List (Seen α)} {s : Ring α X}
  (shape : cfg.metrix.Shape p r) (held : Inv cfg.metrix cfg.memPools p r seen s)

include shape held

theorem Inv.bounded : s.Bounded cfg.metrix := by
  have last := shape.usedBits
  have positive := Nat.two_pow_pos (p + r)
  refine ⟨?_, ?_⟩
  · rw [held.beginPos, last]
    exact Nat.le_pred_of_lt (Nat.mod_lt _ positive)
  · rw [held.endPos, last]
    exact Nat.le_pred_of_lt (Nat.mod_lt _ positive)

/-- The place of an iterator among all points that were pushed. -/
theorem Inv.position_eq (stage : s.stage ≠ .releasing) (i : Iterator) :
    i.index.toNat % 2 ^ (p + r) =
      (released seen * 2 ^ p + s.distance cfg.metrix i) % 2 ^ (p + r) := by
  have distance := (distance_modEq shape (held.bounded shape) i).add_left (s.beginPos : ℤ)
  rw [add_sub_cancel] at distance
  rw [← held.fullIdx_begin shape stage, shape.fullIdx_eq]
  exact (Int.natCast_modEq_iff.mp (mod_cast distance)).symm

end Positions

end Ring

namespace DAQCore

variable {D F : Type*} {x x' y : DAQCore F} {ip : IntensityPoint D}

/-- Records were deleted or moved, and nothing else. -/
structure Thinned (x x' : DAQCore F) : Prop where
  allocated : x'.allocated = x.allocated
  field : x'.field = x.field
  newFieldState : x'.newFieldState = x.newFieldState
  fieldIndex : x'.fieldIndex.Sublist x.fieldIndex
  records : ∀ r found', x'.records r = some found' →
    ∃ found, x.records r = some found ∧ found.state = found'.state

theorem Thinned.refl (x : DAQCore F) : Thinned x x :=
  ⟨rfl, rfl, rfl, .refl _, fun _ found' there => ⟨found', there, rfl⟩⟩

theorem Thinned.release (thinned : Thinned x x') (step : x'.release ip = some y) :
    Thinned x y := by
  unfold DAQCore.release at step
  split at step
  · exact Option.some.inj step ▸ thinned
  · rename_i n link
    obtain ⟨found, -, rfl⟩ := Option.map_eq_some_iff.mp step
    refine ⟨thinned.allocated, thinned.field, thinned.newFieldState,
      List.erase_sublist.trans thinned.fieldIndex, fun r found' there => ?_⟩
    obtain rfl | apart := eq_or_ne r n
    · simp at there
    · exact thinned.records r found' (by simpa [apart] using there)

theorem Thinned.fixLink (thinned : Thinned x x') {newPos : ℕ}
    (step : x'.fixLink ip newPos = some y) : Thinned x y := by
  obtain ⟨⟨index, field, allocated, isNew⟩, others, moved⟩ := fixLink_spec step
  refine ⟨allocated.trans thinned.allocated, field.trans thinned.field,
    isNew.trans thinned.newFieldState, index ▸ thinned.fieldIndex, fun r found' there => ?_⟩
  by_cases same : some r = ip.link
  · obtain ⟨found, before, behind⟩ := moved r same
    obtain rfl := Option.some.inj (behind.symm.trans there)
    exact thinned.records r found before
  · exact thinned.records r found' ((others r same).symm.trans there)

theorem releasePool_thins {g : BitMaskCalculator} {s : Ring (IntensityPoint D) (DAQCore F)}
    (runs : s.releasePool g client = some x') : Thinned s.client x' :=
  Ring.releasePool_post (P := Thinned s.client) (fun _ _ _ thinned step => thinned.release step)
    (fun _ _ _ _ thinned step => thinned.fixLink step) (.refl _) runs

end DAQCore

namespace DAQ

variable {D F : Type*} {cfg : Config} {zero : IntensityPoint D} {g : BitMaskCalculator}
  {j : Journal D F} {s s' : DAQ D F} {o : Ring.Seen (IntensityPoint D)}
  {seen : List (Ring.Seen (IntensityPoint D))}
  {history : List (Call D F × Ring.Seen (IntensityPoint D))}

open Crs.RingPool.Ring DAQCore

/-- The point that the producer is about to store. -/
def unstored (s : DAQ D F) : List (IntensityPoint D) :=
  if s.ring.control.producer = .writing then (s.ring.writing.map Prod.snd).toList else []

/-- The core agrees with the journal. Its index is in the order of the numbers, the last one
first. -/
structure Journaled (j : Journal D F) (seen : List (Seen (IntensityPoint D))) (s : DAQ D F) :
    Prop where
  allocated : s.ring.client.allocated = j.changes
  field : s.ring.client.field = j.field.map Prod.fst
  states : ∀ r state, j.Known r state → r < j.changes ∧
    ∀ found, s.ring.client.records r = some found → found.state = state
  index : s.ring.client.fieldIndex.Pairwise (· > ·)
  older : ∀ r ∈ s.ring.client.fieldIndex, r < j.changes ∧
    (s.ring.client.newFieldState = true → s.ring.client.field ≠ some r)
  recent : ∀ r, s.ring.client.field = some r → r + 1 = j.changes
  points : pushed seen ++ s.unstored = j.entries.map Journal.point

theorem pushed_silent (silent : o.point? = none) : pushed (seen ++ [o]) = pushed seen := by
  rw [pushed_snoc, silent, Option.toList_none, List.append_nil]

theorem new_journaled : Journaled ({} : Journal D F) [] (new cfg zero : DAQ D F) :=
  ⟨rfl, rfl, by rintro r state (⟨⟨⟩⟩ | ⟨-, ⟨⟩⟩), .nil, nofun, nofun, rfl⟩

/-- A step of the two threads that leaves journal, index and records alone. -/
theorem Journaled.frame (journaled : Journaled j seen s) {client : DAQCore F}
    (thinned : Thinned s.ring.client client) (same : s'.ring.client = client)
    (points : pushed (seen ++ [o]) ++ s'.unstored = pushed seen ++ s.unstored) :
    Journaled j (seen ++ [o]) s' := by
  subst same
  refine ⟨thinned.allocated.trans journaled.allocated, thinned.field.trans journaled.field,
    fun r state known => ?_, journaled.index.sublist thinned.fieldIndex, fun r member => ?_,
    fun r field => journaled.recent r (thinned.field ▸ field), points.trans journaled.points⟩
  · obtain ⟨earlier, same⟩ := journaled.states r state known
    refine ⟨earlier, fun found' there => ?_⟩
    obtain ⟨found, before, equal⟩ := thinned.records r found' there
    exact equal ▸ same found before
  · rw [thinned.newFieldState, thinned.field]
    exact journaled.older r (thinned.fieldIndex.subset member)

theorem change_journaled (journaled : Journaled j seen s) {newState : F}
    {client : DAQCore F} (renews : client = s.ring.client.renew newState) :
    Journaled (j.change newState) (seen ++ [.quiet])
      { s with ring := { s.ring with client } } := by
  subst renews
  refine ⟨congrArg (· + 1) journaled.allocated, ?_, fun r state known => ?_, journaled.index,
    fun r member => ?_, fun r field => ?_, ?_⟩
  · show some s.ring.client.allocated = some j.changes
    rw [journaled.allocated]
  · obtain now | ⟨data, earlier⟩ := known
    · obtain ⟨rfl, rfl⟩ := by simpa [Journal.change] using now
      refine ⟨Nat.lt_succ_self _, fun found there => ?_⟩
      simp only [renew, journaled.allocated, Function.update_self] at there
      exact (Option.some.inj there) ▸ rfl
    · obtain ⟨less, same⟩ := journaled.states r state (.inr ⟨data, earlier⟩)
      refine ⟨less.trans (Nat.lt_succ_self _), fun found there => same found ?_⟩
      have other : r ≠ s.ring.client.allocated := journaled.allocated ▸ less.ne
      rw [renew_records other] at there
      split at there
      · cases there
      · exact there
  · have less := (journaled.older r member).1
    refine ⟨less.trans (Nat.lt_succ_self _), fun _ same => ?_⟩
    exact absurd (Option.some.inj same) (journaled.allocated ▸ less.ne')
  · obtain rfl := Option.some.inj field
    exact congrArg (· + 1) journaled.allocated
  · rw [pushed_silent rfl]
    exact journaled.points

theorem field_journaled [BEq F] (journaled : Journaled j seen s) {newState : F} {client : DAQCore F}
    (step : s.ring.client.setField newState = some client) :
    Journaled (j.note (.field newState)) (seen ++ [.quiet])
      { s with ring := { s.ring with client } } := by
  have linked := journaled.field
  unfold setField at step
  split at step
  · rename_i none
    rw [none, eq_comm, Option.map_eq_none_iff] at linked
    rw [Journal.note, linked]
    exact change_journaled journaled (Option.some.inj step).symm
  · rename_i old field
    obtain ⟨found, at_old, rfl⟩ := Option.map_eq_some_iff.mp step
    rw [field, eq_comm, Option.map_eq_some_iff] at linked
    obtain ⟨⟨number, state⟩, current, rfl⟩ := linked
    have same : found.state = state :=
      (journaled.states number state (.inl current)).2 found at_old
    simp only [Journal.note, current, same]
    split
    · exact change_journaled journaled rfl
    · exact journaled.frame (.refl _) rfl (congrArg (· ++ s.unstored) (pushed_silent rfl))

theorem acquire_journaled [BEq F] (journaled : Journaled j seen s) {data : D}
    {ring : Ring (IntensityPoint D) (DAQCore F)}
    (step : s.ring.push g ⟨data, s.ring.client.field⟩ = some (o, ring)) :
    Journaled (j.note (.acquire data)) (seen ++ [o]) ⟨ring, true⟩ := by
  have idle : s.ring.control.producer = .idle := by
    unfold Ring.push at step
    split at step
    · assumption
    all_goals cases step
  obtain ⟨rfl, phase, same, pool, holds⟩ := push_frame step
  have outside : s.unstored = [] := by simp [unstored, idle]
  refine ⟨same ▸ journaled.allocated, same ▸ journaled.field, fun r state known => ?_,
    same ▸ journaled.index, same ▸ journaled.older, same ▸ journaled.recent, ?_⟩
  · rw [same]
    refine journaled.states r state ?_
    obtain now | ⟨d, noted⟩ := known
    · exact .inl now
    · obtain earlier | last := List.mem_append.mp noted
      · exact .inr ⟨d, earlier⟩
      · exact .inl (Prod.mk.inj (List.mem_singleton.mp last)).1.symm
  · have points := journaled.points
    rw [outside, List.append_nil] at points
    rw [pushed_snoc, points, Journal.note, List.map_append]
    simp [unstored, phase, holds, Seen.point?, Journal.point, journaled.field]

theorem producer_journaled (journaled : Journaled j seen s)
    {ring : Ring (IntensityPoint D) (DAQCore F)} (step : s.ring.produce g = some (o, ring)) :
    Journaled j (seen ++ [o]) { s with ring } := by
  obtain ⟨-, phase', same, -, writes, others⟩ := produce_frame step
  refine journaled.frame (.refl _) same ?_
  have behind : ({ s with ring } : DAQ D F).unstored = [] := if_neg phase'
  by_cases phase : s.ring.control.producer = .writing
  · obtain ⟨held, holds, stored⟩ := writes phase
    rw [pushed_snoc, stored, behind, unstored, if_pos phase, holds, List.append_nil]
    rfl
  · rw [pushed_silent (others phase), behind, unstored, if_neg phase]

theorem index_journaled (journaled : Journaled j seen s) {endPos : ℕ} {client : DAQCore F}
    (step : s.ring.client.index endPos = some client) :
    Journaled j (seen ++ [.quiet]) ⟨{ s.ring with client }, false⟩ := by
  have points : pushed (seen ++ [.quiet]) ++
      (⟨{ s.ring with client }, false⟩ : DAQ D F).unstored = pushed seen ++ s.unstored :=
    congrArg (· ++ s.unstored) (pushed_silent rfl)
  unfold DAQCore.index at step
  split at step
  · rename_i isNew
    obtain ⟨new, field, step⟩ := Option.bind_eq_some_iff.mp step
    obtain ⟨found, at_new, rfl⟩ := Option.map_eq_some_iff.mp step
    have last := journaled.recent new field
    refine ⟨journaled.allocated, journaled.field, fun r state known => ?_, ?_, fun r member => ?_,
      journaled.recent, points.trans journaled.points⟩
    · obtain ⟨less, same⟩ := journaled.states r state known
      refine ⟨less, fun found' there => ?_⟩
      obtain rfl | apart := eq_or_ne r new
      · simp only [Function.update_self, Option.some.injEq] at there
        exact there ▸ same found at_new
      · exact same found' (by simpa [apart] using there)
    · refine List.pairwise_cons.mpr ⟨fun r member => ?_, journaled.index⟩
      obtain ⟨less, unlike⟩ := journaled.older r member
      have apart : new ≠ r := fun same => unlike isNew (same ▸ field)
      show r < new
      omega
    · refine ⟨?_, nofun⟩
      obtain rfl | earlier := List.mem_cons.mp member
      · omega
      · exact (journaled.older r earlier).1
  · obtain rfl := Option.some.inj step
    exact journaled.frame (.refl _) rfl points

theorem swapper_journaled (journaled : Journaled j seen s)
    {ring : Ring (IntensityPoint D) (DAQCore F)}
    (step : s.ring.swapperRun g DAQCore.client = some (o, ring)) :
    Journaled j (seen ++ [o]) { s with ring } := by
  by_cases releases : s.ring.control.swapper = .working ∧ s.ring.stage = .releasing
  · obtain ⟨client, thins, rfl, rfl⟩ := releasing_step step releases.1 releases.2
    exact journaled.frame (releasePool_thins thins) rfl
      (congrArg (· ++ s.unstored) (pushed_silent rfl))
  · obtain ⟨phase, holds, same, -, none⟩ :=
      swapper_frame step fun works stage => releases ⟨works, stage⟩
    refine journaled.frame (.refl _) same ?_
    rw [pushed_silent none, unstored, unstored, phase, holds]

theorem step_journaled [BEq F] (journaled : Journaled j seen s) {a : Call D F}
    (step : (machine g).step s a = some (o, s')) : Journaled (j.note a) (seen ++ [o]) s' := by
  cases a with
  | field newState =>
    simp only [machine, Option.ite_none_left_eq_some, Option.map_eq_some_iff] at step
    obtain ⟨-, client, sets, result⟩ := step
    obtain ⟨rfl, rfl⟩ := by simpa using result
    exact field_journaled journaled sets
  | acquire data =>
    simp only [machine, Option.ite_none_left_eq_some, Option.map_eq_some_iff] at step
    obtain ⟨-, next, pushes, result⟩ := step
    obtain ⟨rfl, rfl⟩ := by simpa using result
    exact acquire_journaled journaled pushes
  | producer =>
    obtain ⟨next, produces, result⟩ := Option.map_eq_some_iff.mp step
    obtain ⟨rfl, rfl⟩ := by simpa using result
    exact producer_journaled journaled produces
  | index =>
    simp only [machine, Option.ite_none_right_eq_some, Option.map_eq_some_iff] at step
    obtain ⟨-, client, indexes, result⟩ := step
    obtain ⟨rfl, rfl⟩ := by simpa using result
    exact index_journaled journaled indexes
  | swapper =>
    obtain ⟨next, swaps, result⟩ := Option.map_eq_some_iff.mp step
    obtain ⟨rfl, rfl⟩ := by simpa using result
    exact swapper_journaled journaled swaps

theorem run_journaled [BEq F] (run : (machine g).Run (new cfg zero) history s) :
    Journaled (journal history) (history.map Prod.snd) s := by
  induction run with
  | nil => exact new_journaled
  | @snoc history t u a o _ step ih =>
    rw [journal, List.foldl_append, List.map_append]
    exact step_journaled ih step

/-- `*ti`. -/
def record (g : BitMaskCalculator) (s : DAQ D F) (ti : Iterator) : Option (IntensityPoint D) :=
  s.ring.idx g ti.index.toNat

/-- `field (ti)`. -/
def fieldAt (g : BitMaskCalculator) (s : DAQ D F) (ti : Iterator) : Option F :=
  (s.record g ti).bind fun point => point.link.bind fun fsr =>
    (s.ring.client.records fsr).map FieldStateRec.state

def expand (g : BitMaskCalculator) (s : DAQ D F) (ti : Iterator) : Option (F × D) :=
  (s.fieldAt g ti).bind fun state => (s.record g ti).map fun point => (state, point.data)

/-- The entries whose pools were not released. -/
def window [BEq F] (cfg : Config) (history : List (Call D F × Seen (IntensityPoint D))) :
    List (Option (ℕ × F) × D) :=
  (journal history).entries.drop (released (history.map Prod.snd) * cfg.metrix.nPoolSize)

section Window

variable {p r : ℕ} {settled : List (IntensityPoint D)} (shape : cfg.metrix.Shape p r)
  (large : cfg.metrix.nPoolSize = 2 ^ p) (few : cfg.memPools < 2 ^ r)
  (held : Inv cfg p r (history.map Prod.snd) settled s) (boundary : Boundary s)

include held boundary

/-- Between two calls, all points are stored and counted. -/
theorem Inv.calm : completed (history.map Prod.snd) = (pushed (history.map Prod.snd)).length ∧
    pushed (history.map Prod.snd) = settled ∧ s.unstored = [] := by
  obtain ⟨idle, same⟩ := held.outside boundary.1
  have completes := held.ring.completes
  rw [idle, Producer.toComplete, add_zero] at completes
  exact ⟨completes.symm, same, by simp [unstored, idle]⟩

variable [BEq F] (run : (machine cfg.metrix).Run (new cfg zero) history s)

include large run

/-- The points that were not released are those of the entries. -/
theorem Inv.points_eq : (pushed (history.map Prod.snd)).drop
    (released (history.map Prod.snd) * 2 ^ p) = (window cfg history).map Journal.point := by
  have points := (run_journaled run).points
  rw [(held.calm boundary).2.2, List.append_nil] at points
  rw [points, window, large, List.map_drop]

theorem Inv.links_eq : openLinks p (history.map Prod.snd) settled =
    (window cfg history).map fun e => e.1.map Prod.fst := by
  rw [openLinks, ← (held.calm boundary).2.1, held.points_eq large boundary run, List.map_map]
  rfl

/-- The records of the entries are there, with their fields. -/
theorem Inv.exists_record {fsr : ℕ} {state : F} {data : D}
    (here : (some (fsr, state), data) ∈ window cfg history) : fsr ∈ s.ring.client.fieldIndex ∧
      ∃ found, s.ring.client.records fsr = some found ∧ found.state = state := by
  have linked : some fsr ∈ openLinks p (history.map Prod.snd) settled := by
    rw [held.links_eq large boundary run]
    exact List.mem_map_of_mem here
  have indexed := held.filed.linked fsr linked
  obtain ⟨-, found, at_fsr, -⟩ := held.filed.filed fsr indexed
  have known : (journal history).Known fsr state := .inr ⟨data, List.mem_of_mem_drop here⟩
  exact ⟨indexed, found, at_fsr, ((run_journaled run).states fsr state known).2 found at_fsr⟩

include shape few

theorem Inv.size_window : s.ring.size cfg.metrix = (window cfg history).length := by
  rw [held.ring.size_eq shape large few boundary.2 (held.calm boundary).1,
    held.points_eq large boundary run, List.length_map]

omit few in
theorem Inv.record_eq {ti : Iterator} {e : Option (ℕ × F) × D}
    (here : (window cfg history)[s.ring.distance cfg.metrix ti]? = some e) :
    s.record cfg.metrix ti = some (Journal.point e) := by
  have there : ((window cfg history).map Journal.point)[s.ring.distance cfg.metrix ti]? =
      some (Journal.point e) := by rw [List.getElem?_map, here, Option.map_some]
  rw [record, ← there]
  refine held.ring.read_front shape List.prefix_rfl (held.points_eq large boundary run) ?_
    (held.ring.position_eq shape boundary.2 ti)
  rw [List.length_map]
  exact (List.getElem?_eq_some_iff.mp here).1

end Window

def Call.isSwapper : Call D F → Bool
  | .swapper => true
  | .field _ | .acquire _ | .producer | .index => false

theorem quiet_of_all (own : history.all (fun e => !e.1.isSwapper) = true) :
    ∀ e ∈ history, e.1 ≠ .swapper := by
  intro e member same
  have other := List.all_eq_true.mp own e member
  rw [same] at other
  cases other

/-- As long as the thread does not swap, no pool is released. -/
theorem gentle_of_labels [BEq F] (own : ∀ e ∈ history, e.1 ≠ .swapper) :
    (machine g).BeforeEach (new cfg zero : DAQ D F) (fun _ s a => GentleStep g s a) history :=
  fun _ a o _ before _ =>
    .of_ne (own (a, o) (before.subset (List.mem_append_right _ List.mem_cons_self)))

end DAQ

end Crs.RingPool
