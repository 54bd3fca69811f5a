import Crs.RingPool.Core

/-!
# Which records are in the index

The records are numbered as they are made, so the links of the points in the window are in
order: first the points without a link, then one run for each record. The index has the
records of these runs. A new record gets into it when its first point is settled, that is
behind the last statement of `acquire`.
-/

namespace Crs.RingPool

open Foundation Handshake

/-- The loop over the points of a pool. -/
def Client.releaseAll {α X : Type*} (c : Client α X) : Option ℕ → List α → X → Option X
  | _, [], x => some x
  | lnk, point :: points, x =>
      if c.link point = lnk then c.releaseAll lnk points x
      else (c.release point x).bind fun x => c.releaseAll (c.link point) points x

namespace DAQCore

variable {D F : Type*} {x x' : DAQCore F} {links pool rest : List (Option ℕ)}
  {first next : Option ℕ} {capacity low r : ℕ}

/-- The order in which the links were made. -/
def age : Option ℕ → ℕ
  | none => 0
  | some r => r + 1

@[simp] theorem age_none : age none = 0 := rfl

@[simp] theorem age_some (r : ℕ) : age (some r) = r + 1 := rfl

theorem age_inj {a b : Option ℕ} (same : age a = age b) : a = b := by
  cases a <;> cases b <;> simp_all

/-- The links of the settled points from number `low` on, in a ring for `capacity` points. -/
structure Filed (capacity low : ℕ) (links : List (Option ℕ)) (x : DAQCore F) : Prop where
  sorted : links.Pairwise fun a b => age a ≤ age b
  recent : ∀ l ∈ links, age l ≤ age x.field
  allocated : age x.field ≤ x.allocated
  nodup : x.fieldIndex.Nodup
  filed : ∀ r ∈ x.fieldIndex, some r ∈ links ∧ ∃ found, x.records r = some found ∧
    found.link % capacity = (low + links.idxOf (some r)) % capacity
  linked : ∀ r, some r ∈ links → r ∈ x.fieldIndex
  new : x.newFieldState = true → ∃ r, x.field = some r ∧ (x.records r).isSome ∧ some r ∉ links
  old : x.newFieldState = false → ∀ r, x.field = some r → links.getLast? = some (some r)
  deleted : ∀ r, (x.records r).isSome → r ∈ x.fieldIndex ∨
    x.newFieldState = true ∧ x.field = some r

theorem new_filed : Filed capacity low [] ({} : DAQCore F) :=
  ⟨.nil, nofun, le_rfl, .nil, nofun, nofun, nofun, nofun, nofun⟩

theorem Filed.age_lt (filed : Filed capacity low links x) (linked : some r ∈ links) :
    r < x.allocated := by
  have := filed.recent _ linked
  have := filed.allocated
  rw [age_some] at *
  omega

/-- The record of the field is there. -/
theorem Filed.field_isSome (filed : Filed capacity low links x) (here : x.field = some r) :
    (x.records r).isSome := by
  cases isNew : x.newFieldState with
  | true =>
      obtain ⟨r', here', found, -⟩ := filed.new isNew
      obtain rfl : r = r' := Option.some.inj (here.symm.trans here')
      exact found
  | false =>
      have last := filed.old isNew r here
      obtain ⟨-, found, at_r, -⟩ := filed.filed r (filed.linked r (List.mem_of_getLast? last))
      exact at_r ▸ rfl

theorem renew_records {newState : F} (apart : r ≠ x.allocated) : (x.renew newState).records r =
    if x.newFieldState = true ∧ x.field = some r then none else x.records r := by
  rw [DAQCore.renew]
  simp only [Function.update_of_ne apart]
  cases x.field with
  | none => simp
  | some old =>
      by_cases isNew : x.newFieldState = true
      · simp [isNew, Function.update_apply, eq_comm]
      · simp [isNew]

/-- The field gets a new record. -/
theorem Filed.renew (filed : Filed capacity low links x) (newState : F) :
    Filed capacity low links (x.renew newState) := by
  have kept : ∀ r, some r ∈ links → (x.renew newState).records r = x.records r := by
    intro r linked
    rw [renew_records (filed.age_lt linked).ne, if_neg]
    rintro ⟨isNew, here⟩
    obtain ⟨r', here', -, unlinked⟩ := filed.new isNew
    exact unlinked (here' ▸ here ▸ linked)
  refine ⟨filed.sorted, fun l linked => ?_, le_rfl, filed.nodup, fun r indexed => ?_, filed.linked,
    fun _ => ⟨x.allocated, rfl, by simp [DAQCore.renew], fun linked => ?_⟩, nofun,
    fun r there => ?_⟩
  · have := filed.recent l linked
    have := filed.allocated
    simp only [DAQCore.renew, age_some]
    omega
  · obtain ⟨linked, found, at_r, position⟩ := filed.filed r indexed
    exact ⟨linked, found, (kept r linked).trans at_r, position⟩
  · exact lt_irrefl _ (filed.age_lt linked)
  · obtain rfl | apart := eq_or_ne r x.allocated
    · exact .inr ⟨rfl, rfl⟩
    · rw [renew_records apart] at there
      split at there
      · cases there
      · rename_i notWaiting
        exact .inl ((filed.deleted r there).resolve_right notWaiting)

theorem Filed.setField [BEq F] (filed : Filed capacity low links x) {newState : F}
    (step : x.setField newState = some x') : Filed capacity low links x' := by
  unfold DAQCore.setField at step
  split at step
  · obtain rfl := Option.some.inj step
    exact filed.renew newState
  · obtain ⟨found, -, rfl⟩ := Option.map_eq_some_iff.mp step
    split
    · exact filed.renew newState
    · exact filed

theorem Filed.exists_setField [BEq F] (filed : Filed capacity low links x) (newState : F) :
    ∃ x', x.setField newState = some x' := by
  cases here : x.field with
  | none => exact ⟨_, by simp [DAQCore.setField, here]; rfl⟩
  | some old =>
      obtain ⟨found, at_old⟩ := Option.isSome_iff_exists.mp (filed.field_isSome here)
      exact ⟨_, by simp [DAQCore.setField, here, at_old]; rfl⟩

theorem Filed.exists_index (filed : Filed capacity low links x) (endPos : ℕ) :
    ∃ x', x.index endPos = some x' ∧ x'.field = x.field := by
  by_cases isNew : x.newFieldState = true
  · obtain ⟨new, here, there, -⟩ := filed.new isNew
    obtain ⟨found, at_new⟩ := Option.isSome_iff_exists.mp there
    exact ⟨_, by simp [DAQCore.index, isNew, here, at_new]; rfl, here.symm⟩
  · exact ⟨x, by simp [DAQCore.index, isNew], rfl⟩

/-- The point of an `acquire` is settled. -/
theorem Filed.index (filed : Filed capacity low links x) {endPos : ℕ}
    (step : x.index endPos = some x')
    (position : (endPos + (2 ^ digits - 1)) % 2 ^ digits % capacity =
      (low + links.length) % capacity) :
    Filed capacity low (links ++ [x.field]) x' := by
  have sorted : (links ++ [x.field]).Pairwise fun a b => age a ≤ age b := by
    refine List.pairwise_append.mpr ⟨filed.sorted, List.pairwise_singleton _ _, ?_⟩
    intro l linked l' here
    obtain rfl := List.mem_singleton.mp here
    exact filed.recent l linked
  have recent : ∀ l ∈ links ++ [x.field], age l ≤ age x.field := by
    intro l linked
    obtain linked | here := List.mem_append.mp linked
    · exact filed.recent l linked
    · rw [List.mem_singleton.mp here]
  have filed' : ∀ r ∈ x.fieldIndex, some r ∈ links ++ [x.field] ∧ ∃ found,
      x.records r = some found ∧
        found.link % capacity = (low + (links ++ [x.field]).idxOf (some r)) % capacity := by
    intro r indexed
    obtain ⟨linked, found, at_r, position⟩ := filed.filed r indexed
    refine ⟨List.mem_append_left _ linked, found, at_r, ?_⟩
    rw [List.idxOf_append_of_mem linked, position]
  unfold DAQCore.index at step
  split at step
  · rename_i isNew
    obtain ⟨new, here, unindexed, unlinked⟩ := filed.new isNew
    simp only [here, Option.bind_some, Option.map_eq_some_iff] at step
    obtain ⟨found, at_new, rfl⟩ := step
    have apart : ∀ r ∈ x.fieldIndex, r ≠ new := by
      rintro r indexed rfl
      exact unlinked (filed.filed r indexed).1
    refine ⟨sorted, here ▸ recent, here ▸ filed.allocated, ?_, ?_, ?_, nofun, ?_, ?_⟩
    · exact List.nodup_cons.mpr ⟨fun indexed => apart new indexed rfl, filed.nodup⟩
    · intro r indexed
      obtain rfl | indexed := List.mem_cons.mp indexed
      · refine ⟨by simp [here], _, Function.update_self .., ?_⟩
        rw [List.idxOf_append_of_notMem unlinked, here, List.idxOf_cons_self, add_zero]
        exact position
      · simpa only [Function.update_of_ne (apart r indexed)] using filed' r indexed
    · intro r linked
      obtain linked | linked := List.mem_append.mp linked
      · exact List.mem_cons_of_mem _ (filed.linked r linked)
      · rw [here, List.mem_singleton, Option.some.injEq] at linked
        exact linked ▸ List.mem_cons_self
    · intro _ r field
      rw [List.getLast?_concat, here, ← field]
    · intro r there
      obtain rfl | other := eq_or_ne r new
      · exact .inl List.mem_cons_self
      · simp only [Function.update_of_ne other] at there
        obtain indexed | ⟨-, waits⟩ := filed.deleted r there
        · exact .inl (List.mem_cons_of_mem _ indexed)
        · exact absurd (Option.some.inj (waits.symm.trans here)) other
  · rename_i isOld
    rw [Bool.not_eq_true] at isOld
    obtain rfl := Option.some.inj step
    refine ⟨sorted, recent, filed.allocated, filed.nodup, filed', ?_, fun isNew => ?_, ?_,
      filed.deleted⟩
    · intro r linked
      obtain linked | linked := List.mem_append.mp linked
      · exact filed.linked r linked
      · have last := filed.old isOld r (List.mem_singleton.mp linked).symm
        exact filed.linked r (List.mem_of_getLast? last)
    · rw [isOld] at isNew
      cases isNew
    · intro _ r field
      rw [List.getLast?_concat, ← field]

/-- A core after records were deleted. -/
def without (gone : List (Option ℕ)) (x : DAQCore F) : DAQCore F :=
  { x with
    records := fun r => if some r ∈ gone then none else x.records r
    fieldIndex := x.fieldIndex.filter fun r => some r ∉ gone }

theorem without_nil (x : DAQCore F) : x.without [] = x := by
  simp [without]

/-- One record more. -/
theorem without_erase (nodup : x.fieldIndex.Nodup) {gone gone' : List (Option ℕ)}
    (more : ∀ n, some n ∈ gone' ↔ n = r ∨ some n ∈ gone) :
    ({ x with
      fieldIndex := x.fieldIndex.erase r
      records := Function.update x.records r none } : DAQCore F).without gone =
        x.without gone' := by
  have records : (fun n => if some n ∈ gone then none else Function.update x.records r none n) =
      fun n => if some n ∈ gone' then none else x.records n := by
    funext n
    obtain rfl | apart := eq_or_ne n r
    · simp [more]
    · simp [more, apart]
  have fieldIndex : (x.fieldIndex.erase r).filter (fun n => some n ∉ gone) =
      x.fieldIndex.filter fun n => some n ∉ gone' := by
    rw [nodup.erase_eq_filter, List.filter_filter]
    refine List.filter_congr fun n _ => ?_
    by_cases here : n = r <;> simp [more, here]
  simp only [without, records, fieldIndex]

/-- The loop deletes all records of the points, except for the one that it begins with. -/
theorem releaseAll_eq {points : List (IntensityPoint D)} {lnk : Option ℕ}
    (sorted : (lnk :: points.map IntensityPoint.link).Pairwise fun a b => age a ≤ age b)
    (nodup : x.fieldIndex.Nodup)
    (there : ∀ r, some r ∈ points.map IntensityPoint.link → some r ≠ lnk → (x.records r).isSome) :
    client.releaseAll lnk points x =
      some (x.without ((points.map IntensityPoint.link).filter fun l => l ≠ lnk)) := by
  induction points generalizing lnk x with
  | nil => rw [Client.releaseAll, List.map_nil, List.filter_nil, without_nil]
  | cons point points ih =>
      rw [List.map_cons] at sorted there ⊢
      generalize behind : points.map IntensityPoint.link = links at *
      obtain ⟨before, sorted'⟩ := List.pairwise_cons.mp sorted
      obtain ⟨before', sorted''⟩ := List.pairwise_cons.mp sorted'
      by_cases same : point.link = lnk
      · rw [Client.releaseAll, client_link, if_pos same, List.filter_cons_of_neg (by simpa)]
        refine ih (List.pairwise_cons.mpr ⟨fun l linked => ?_, sorted''⟩) nodup fun r linked => ?_
        · exact before l (List.mem_cons_of_mem _ linked)
        · exact there r (List.mem_cons_of_mem _ linked)
      · rw [Client.releaseAll, client_link, if_neg same, List.filter_cons_of_pos (by simpa)]
        have least := before point.link List.mem_cons_self
        cases link : point.link with
        | none =>
            rw [link, age_none, Nat.le_zero] at least
            exact absurd (link.trans (age_inj least.symm)) same
        | some r =>
            rw [link] at same least before' there
            have later : ∀ l ∈ links, l ≠ lnk := by
              rintro l linked rfl
              exact same (age_inj (le_antisymm (before' l linked) least))
            obtain ⟨found, at_r⟩ := Option.isSome_iff_exists.mp (there r List.mem_cons_self same)
            simp only [client_release, DAQCore.release, link, at_r, Option.map_some,
              Option.bind_some]
            rw [ih (link ▸ sorted') (nodup.erase r) ?_, without_erase nodup]
            · intro n
              rw [List.mem_cons, Option.some.injEq, List.mem_filter, List.mem_filter]
              by_cases here : n = r
              · simp [here]
              · simpa [here] using later (some n)
            · intro n linked apart
              have apart' : n ≠ r := fun same => apart (congrArg some same)
              simpa only [Function.update_of_ne apart'] using
                there n (List.mem_cons_of_mem _ linked) (later _ linked)

theorem fixLink_spec {ip : IntensityPoint D} {newPos : ℕ} (step : x.fixLink ip newPos = some x') :
    (x'.fieldIndex = x.fieldIndex ∧ x'.field = x.field ∧ x'.allocated = x.allocated ∧
      x'.newFieldState = x.newFieldState) ∧
    (∀ r, some r ≠ ip.link → x'.records r = x.records r) ∧
    ∀ r, some r = ip.link → ∃ found, x.records r = some found ∧
      x'.records r = some { found with link := newPos } := by
  unfold DAQCore.fixLink at step
  split at step
  · rename_i unlinked
    obtain rfl := Option.some.inj step
    exact ⟨⟨rfl, rfl, rfl, rfl⟩, fun _ _ => rfl, fun r here => by simp [unlinked] at here⟩
  · rename_i n link
    obtain ⟨found, at_n, rfl⟩ := Option.map_eq_some_iff.mp step
    refine ⟨⟨rfl, rfl, rfl, rfl⟩, fun r other => ?_, fun r here => ?_⟩
    · exact Function.update_of_ne (by rintro rfl; exact other link.symm) _ _
    · obtain rfl : r = n := Option.some.inj (here.trans link)
      exact ⟨found, at_n, Function.update_self ..⟩

section Eviction

variable (filed : Filed capacity low (pool ++ next :: rest) x)

include filed

theorem Filed.age_le_next {l : Option ℕ} (inside : l ∈ pool) : age l ≤ age next :=
  (List.pairwise_append.mp filed.sorted).2.2 l inside next List.mem_cons_self

/-- What is still linked behind the pool was linked last in it. -/
theorem Filed.eq_next {l : Option ℕ} (inside : l ∈ pool) (behind : l ∈ next :: rest) :
    l = next := by
  obtain rfl | behind := List.mem_cons.mp behind
  · rfl
  · have sorted := (List.pairwise_append.mp filed.sorted).2.1
    have least := (List.pairwise_cons.mp sorted).1 l behind
    exact age_inj (le_antisymm (filed.age_le_next inside) least)

/-- A pool leaves the window, and its records are deleted except for the one that continues. -/
theorem Filed.evict {gone : List (Option ℕ)}
    (exact : ∀ r, some r ∈ gone ↔ some r ∈ pool ∧ some r ≠ next) {ip : IntensityPoint D}
    (link : ip.link = next) {newPos : ℕ}
    (position : newPos % capacity = (low + pool.length) % capacity)
    (step : (x.without gone).fixLink ip newPos = some x') :
    Filed capacity (low + pool.length) (next :: rest) x' := by
  obtain ⟨⟨indexes, field, allocated, isNew⟩, others, fixed⟩ := fixLink_spec step
  rw [link] at others fixed
  have sorted := (List.pairwise_append.mp filed.sorted).2.1
  have kept : ∀ r, some r ∈ next :: rest → some r ∉ gone := by
    intro r behind isGone
    obtain ⟨inside, apart⟩ := (exact r).mp isGone
    exact apart (filed.eq_next inside behind)
  refine ⟨sorted, fun l behind => ?_, ?_, ?_, fun r indexed => ?_, fun r behind => ?_,
    fun now => ?_, fun now r here => ?_, fun r there => ?_⟩
  · rw [field]
    exact filed.recent l (List.mem_append_right _ behind)
  · rw [field, allocated]
    exact filed.allocated
  · rw [indexes]
    exact filed.nodup.filter _
  · rw [indexes] at indexed
    obtain ⟨indexed, notGone⟩ := List.mem_filter.mp indexed
    rw [decide_eq_true_eq] at notGone
    obtain ⟨linked, found, at_r, place⟩ := filed.filed r indexed
    have behind : some r ∈ next :: rest := by
      obtain inside | behind := List.mem_append.mp linked
      · by_contra ended
        exact notGone ((exact r).mpr ⟨inside, fun same => ended (same ▸ List.mem_cons_self)⟩)
      · exact behind
    refine ⟨behind, ?_⟩
    by_cases continues : some r = next
    · obtain ⟨found', -, at_r'⟩ := fixed r continues
      refine ⟨_, at_r', ?_⟩
      rw [continues, List.idxOf_cons_self, add_zero]
      exact position
    · have outside : some r ∉ pool := fun inside => continues (filed.eq_next inside behind)
      refine ⟨found, ?_, ?_⟩
      · rw [others r continues, without]
        simp only [if_neg notGone, at_r]
      · rw [place, List.idxOf_append_of_notMem outside, add_assoc, add_comm pool.length]
  · rw [indexes]
    exact List.mem_filter.mpr ⟨filed.linked r (List.mem_append_right _ behind),
      decide_eq_true (kept r behind)⟩
  · rw [isNew] at now
    obtain ⟨r, here, there, unlinked⟩ := filed.new now
    have unlinked' : some r ∉ pool ∧ some r ∉ next :: rest := by
      simpa only [List.mem_append, not_or] using unlinked
    have apart : some r ≠ next := fun same => unlinked'.2 (same ▸ List.mem_cons_self)
    refine ⟨r, field.trans here, ?_, unlinked'.2⟩
    rw [others r apart, without]
    simpa only [if_neg fun isGone => unlinked'.1 ((exact r).mp isGone).1] using there
  · have last := filed.old (isNew ▸ now) r (field ▸ here)
    rwa [List.getLast?_append_of_ne_nil _ (List.cons_ne_nil _ _)] at last
  · have there' : ((x.without gone).records r).isSome := by
      by_cases continues : some r = next
      · obtain ⟨found, at_r, -⟩ := fixed r continues
        exact at_r ▸ rfl
      · rwa [others r continues] at there
    rw [without] at there'
    simp only at there'
    split at there'
    · cases there'
    · rename_i notGone
      rw [indexes, field, isNew]
      exact (filed.deleted r there').imp_left fun indexed =>
        List.mem_filter.mpr ⟨indexed, decide_eq_true notGone⟩

/-- The record that continues is there, unless it was deleted. -/
theorem Filed.exists_fixLink {gone : List (Option ℕ)} (spared : ∀ n, next = some n → some n ∉ gone)
    {ip : IntensityPoint D} (link : ip.link = next) (newPos : ℕ) :
    ∃ x', (x.without gone).fixLink ip newPos = some x' := by
  cases next with
  | none => exact ⟨_, by simp [DAQCore.fixLink, link]; rfl⟩
  | some n =>
      obtain ⟨-, found, at_n, -⟩ := filed.filed n (filed.linked n (by simp))
      exact ⟨_, by simp [DAQCore.fixLink, link, without, spared n rfl, at_n]; rfl⟩

/-- The condition on a pool and the first point behind it. -/
def Gentle (pool : List (Option ℕ)) (next : Option ℕ) : Prop :=
  pool.head? = some next ∨ pool.head? = some none ∧ pool.getLast? ≠ some next

/-- Under the condition, the loop deletes what ends in the pool. -/
theorem Filed.gone_iff (head : pool.head? = some first) (gentle : Gentle pool next) (r : ℕ) :
    some r ∈ pool.filter (fun l => l ≠ first) ↔ some r ∈ pool ∧ some r ≠ next := by
  rw [List.mem_filter, decide_eq_true_eq]
  refine and_congr_right fun inside => ?_
  obtain continues | ⟨unlinked, ends⟩ := gentle
  · obtain rfl : first = next := Option.some.inj (head.symm.trans continues)
    rfl
  · obtain rfl : first = none := Option.some.inj (head.symm.trans unlinked)
    refine ⟨fun _ same => ?_, fun _ => Option.some_ne_none r⟩
    -- the links are in order, so the last one of the pool is also the next one
    obtain ⟨before, last, shape⟩ :=
      (List.eq_nil_or_concat pool).resolve_left (List.ne_nil_of_mem inside)
    rw [List.concat_eq_append] at shape
    subst shape
    refine ends ?_
    rw [List.getLast?_concat, Option.some.injEq]
    have most := filed.age_le_next (List.mem_append_right before (List.mem_singleton_self last))
    refine age_inj (le_antisymm most ?_)
    rw [← same]
    obtain earlier | here := List.mem_append.mp inside
    · have sorted := (List.pairwise_append.mp (List.pairwise_append.mp filed.sorted).1).2.2
      exact sorted _ earlier last (List.mem_singleton_self last)
    · rw [List.mem_singleton.mp here]

/-- Without the condition, the loop spares a record that ends in the pool, or it deletes the one
that continues. -/
theorem Filed.leaked (head : pool.head? = some first) (harsh : ¬ Gentle pool next)
    {ip : IntensityPoint D} (link : ip.link = next) {newPos : ℕ}
    (step : (x.without (pool.filter fun l => l ≠ first)).fixLink ip newPos = some x') :
    ∃ r ∈ x'.fieldIndex, some r ∉ next :: rest := by
  obtain ⟨⟨indexes, -⟩, -, fixed⟩ := fixLink_spec step
  obtain ⟨apart, ends⟩ := not_or.mp harsh
  rw [head, Option.some.injEq] at apart
  have inside : first ∈ pool := List.mem_of_head? head
  cases first with
  | some r =>
      refine ⟨r, ?_, fun behind => apart (filed.eq_next inside behind)⟩
      rw [indexes, without]
      refine List.mem_filter.mpr ⟨filed.linked r (List.mem_append_left _ inside), ?_⟩
      simp
  | none =>
      have last : pool.getLast? = some next := by
        by_contra other
        exact ends ⟨head, other⟩
      cases next with
      | none => exact absurd rfl apart
      | some n =>
          obtain ⟨found, there, -⟩ := fixed n link.symm
          simp [without, List.mem_of_getLast? last] at there

end Eviction

end DAQCore

end Crs.RingPool
