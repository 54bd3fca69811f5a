import Crs.Handle.Counting
import Mathlib.Data.List.Count

/-!
# Runs of handle operations

Each operation is followed from the links before it to those after it. With the history of
what was allocated and deleted, this gives the balance of every address over a whole run.
-/

namespace Crs.Handle

open Foundation

universe u

variable {A C H : Type u}

/-- An address is in use as often as it was before, and as the report tells. -/
structure Accounts [DecidableEq A] [DecidableEq C] (report : Report A C) (m m' : Memory A C) :
    Prop where
  objects : ∀ a, (m.objects a).toNat + (report.created.map Prod.fst).toList.count a =
    (m'.objects a).toNat + (report.deleted.map Prod.fst).toList.count a
  counters : ∀ c, (m.nlinks c).isSome.toNat + (report.created.map Prod.snd).toList.count c =
    (m'.nlinks c).isSome.toNat + (report.deleted.map Prod.snd).toList.count c

theorem CHandle.represents_none_iff {x : CHandle A C} :
    x.Represents none ↔ x.object = none :=
  ⟨CHandle.Represents.object, fun empty => ⟨empty, by simp⟩⟩

section Operations

variable [DecidableEq A] [DecidableEq C] [DecidableEq H] [Fintype H]
  {link : H → Option (A × C)} {loose : Option A} {m : Memory A C} {h k : H} {x o : CHandle A C}
  {p : A × C}

theorem Accounts.refl (m : Memory A C) : Accounts {} m m := ⟨fun _ => rfl, fun _ => rfl⟩

theorem unbind_spec (linked : Linked link loose m) (represents : x.Represents (link h)) :
    ∃ deleted x' m', unbind x m = some (deleted, x', m') ∧
      Linked (Function.update link h none) loose m' ∧ Accounts { deleted } m m' ∧
      ∀ p, deleted = some p ↔
        link h = some p ∧ ∀ k, k ≠ h → (link k).map Prod.fst ≠ some p.1 := by
  cases here : link h with
  | none =>
    rw [here, CHandle.represents_none_iff] at represents
    refine ⟨none, x, m, by simp [unbind, represents], ?_, .refl m, by simp⟩
    rwa [← here, Function.update_eq_self]
  | some p =>
    obtain ⟨object, hcounter⟩ := here ▸ represents
    have counter := hcounter p rfl
    have value := linked.nlinks_of_link here
    have alive := linked.alive here
    by_cases alone : holders link p.1 = 1
    · refine ⟨some p, {}, _, ?_, linked.delete here alone, ?_, ?_⟩
      · simp [unbind, object, counter, releasehandle, value, alone, Memory.deleteCounter,
          Memory.deleteObject, alive]
      · constructor
        · intro a
          obtain rfl | other := eq_or_ne a p.1
          · simp [alive]
          · simp [other, other.symm]
        · intro c
          obtain rfl | other := eq_or_ne c p.2
          · simp [value]
          · simp [other, other.symm]
      · intro q
        have single := (holders_eq_one_iff here).mp alone
        simp only [Option.some.injEq]
        exact ⟨by rintro rfl; exact ⟨rfl, single⟩, And.left⟩
    · have positive := holders_pos_iff.mpr ⟨h, p.2, here⟩
      have notZero : (holders link p.1 : ℤ) - 1 ≠ 0 := by omega
      refine ⟨none, x, _, ?_, linked.release here alone, ?_, ?_⟩
      · simp [unbind, object, counter, releasehandle, value, notZero]
      · refine ⟨fun a => rfl, fun c => ?_⟩
        obtain rfl | other := eq_or_ne c p.2
        · simp [value]
        · simp [other]
      · intro q
        simp only [reduceCtorEq, Option.some.injEq, false_iff, not_and]
        rintro rfl single
        exact alone ((holders_eq_one_iff here).mpr single)

/-- From the links before an operation to those after it. What is deleted is what had a link
before and whose object has none afterwards. -/
structure Follows (link link' : H → Option (A × C)) (report : Report A C) (m m' : Memory A C) :
    Prop where
  linked : Linked link' none m'
  accounts : Accounts report m m'
  deleted : ∀ p, report.deleted = some p ↔
    (∃ j, link j = some p) ∧ ∀ j, (link' j).map Prod.fst ≠ some p.1

omit [DecidableEq H] in
theorem Follows.refl (linked : Linked link none m) : Follows link link {} m m :=
  ⟨linked, .refl m, fun p => by
    simp only [reduceCtorEq, false_iff, not_and]
    rintro ⟨j, there⟩ gone
    exact gone j (by simp [there])⟩

omit [DecidableEq A] [DecidableEq C] [Fintype H] in
/-- The handle with the last link, seen from the links before and after. -/
theorem last_link_iff {v : Option (A × C)}
    (moved : link h = some p → v.map Prod.fst ≠ some p.1) :
    (link h = some p ∧ ∀ k, k ≠ h → (link k).map Prod.fst ≠ some p.1) ↔
      (∃ j, link j = some p) ∧ ∀ j, (Function.update link h v j).map Prod.fst ≠ some p.1 := by
  constructor
  · rintro ⟨here, single⟩
    refine ⟨⟨h, here⟩, fun j => ?_⟩
    obtain rfl | other := eq_or_ne j h
    · simpa using moved here
    · simpa [other] using single j other
  · rintro ⟨⟨j, there⟩, gone⟩
    have single (k : H) (other : k ≠ h) : (link k).map Prod.fst ≠ some p.1 := by
      simpa [other] using gone k
    obtain rfl : j = h := by_contra fun other => single j other (by simp [there])
    exact ⟨there, single⟩

/-- An assignment from a handle with the link `l`, which is that of a handle or none. -/
theorem assign_spec {l : Option (A × C)} (linked : Linked link none m)
    (represents : x.Represents (link h)) (source : o.Represents l)
    (known : l = none ∨ l = link k) :
    ∃ report x' m', assign x o m = some (report, x', m') ∧ x'.Represents l ∧
      Follows link (Function.update link h l) report m m' := by
  by_cases same : x.object = o.object
  · have equal : link h = l := by
      rw [represents.object, source.object] at same
      obtain rfl | rfl := known
      · simpa using same
      · cases here : link h with
        | none => simpa [here, eq_comm] using same
        | some p =>
          cases there : link k with
          | none => simp [here, there] at same
          | some q =>
            have first : p.1 = q.1 := by simpa [here, there] using same
            rw [Prod.ext first ((linked.paired h k p q here there).mp first)]
    refine ⟨{}, x, m, by simp [assign, same], equal ▸ represents, ?_⟩
    rw [← equal, Function.update_eq_self]
    exact .refl linked
  · obtain ⟨deleted, y, m', run, released, accounts, last⟩ := unbind_spec linked represents
    have moved (p : A × C) (here : link h = some p) : l.map Prod.fst ≠ some p.1 := by
      intro again
      exact same (by rw [represents.object, source.object, here, again, Option.map_some])
    cases l with
    | none =>
      refine ⟨{ deleted }, { y with object := none }, m', ?_, ⟨rfl, by simp⟩, released, accounts,
        fun p => (last p).trans (last_link_iff (moved p))⟩
      have object : o.object = none := by simpa using source.object
      rw [assign, if_neg same, run]
      simp [assignPair, object]
    | some q =>
      have there : link k = some q := by simpa [eq_comm] using known
      have other : k ≠ h := by
        rintro rfl
        exact moved q there rfl
      have shared := released.share (Function.update_self h none link)
        ((Function.update_of_ne other none link).trans there)
      have value := released.nlinks_of_link ((Function.update_of_ne other none link).trans there)
      rw [Function.update_idem] at shared
      refine ⟨{ deleted }, { object := some q.1, hcounter := some q.2 }, _, ?_,
        ⟨rfl, by simp⟩, shared, ⟨accounts.objects, fun c => ?_⟩,
        fun p => (last p).trans (last_link_iff (moved p))⟩
      · have object : o.object = some q.1 := by simpa using source.object
        rw [assign, if_neg same, run]
        simp [assignPair, object, source.hcounter q rfl, addhandle, value]
      · have := accounts.counters c
        obtain rfl | apart := eq_or_ne c q.2
        · simpa [value] using this
        · simpa [apart] using this

/-- Binding a handle to null, to a new object or to the object that it holds. -/
theorem bind_spec {ptr : Pointer A} {c : C} (linked : Linked link none m)
    (represents : x.Represents (link h)) (available : ptr.available x c m = true) :
    ∃ report x' m' v, bind x (ptr.value x) c (ptr.allocate m) = some (report, x', m') ∧
      x'.Represents v ∧ Follows link (Function.update link h v) report m m' := by
  cases ptr with
  | held =>
    refine ⟨{}, x, m, link h, by simp [bind, Pointer.value, Pointer.allocate], represents, ?_⟩
    rw [Function.update_eq_self]
    exact .refl linked
  | null =>
    by_cases same : x.object = none
    · refine ⟨{}, x, m, link h, by simp [bind, Pointer.value, Pointer.allocate, same],
        represents, ?_⟩
      rw [Function.update_eq_self]
      exact .refl linked
    · obtain ⟨deleted, y, m', run, released, accounts, last⟩ := unbind_spec linked represents
      refine ⟨{ deleted }, { y with object := none }, m', none, ?_, ⟨rfl, by simp⟩, released,
        accounts, fun p => (last p).trans (last_link_iff (by simp))⟩
      simp [bind, Pointer.value, Pointer.allocate, same, run]
  | fresh a =>
    obtain ⟨unused, allocator⟩ : m.objects a = false ∧
        (unbind x (m.newObject a)).all (fun r => (r.2.2.nlinks c).isNone) = true := by
      simpa [Pointer.available] using available
    have notHeld (p : A × C) (here : link h = some p) : p.1 ≠ a := by
      rintro rfl
      rw [linked.alive here] at unused
      cases unused
    have same : x.object ≠ some a := by
      cases here : link h with
      | none => simp [represents.object, here]
      | some p => simpa [represents.object, here] using notHeld p here
    obtain ⟨deleted, y, m', run, released, accounts, last⟩ :=
      unbind_spec (linked.newObject unused) represents
    have free : m'.nlinks c = none := by simpa [run] using allocator
    have bound := released.own (Function.update_self h none link) free
    rw [Function.update_idem] at bound
    refine ⟨{ created := some (a, c), deleted }, { object := some a, hcounter := some c }, _,
      some (a, c), ?_, ⟨rfl, by simp⟩, bound, ⟨fun b => ?_, fun d => ?_⟩,
      fun p => (last p).trans (last_link_iff ?_)⟩
    · simp [bind, Pointer.value, Pointer.allocate, same, run, Memory.newCounter, free]
    · have := accounts.objects b
      obtain rfl | other := eq_or_ne b a
      · simpa [Memory.newObject, unused] using this
      · simpa [Memory.newObject, other, other.symm] using this
    · have := accounts.counters d
      obtain rfl | other := eq_or_ne d c
      · have before : (m.nlinks d).isSome.toNat = (deleted.map Prod.snd).toList.count d := by
          simpa [Memory.newObject, free] using this
        simp [before, Nat.add_comm]
      · simpa [Memory.newObject, other, other.symm] using this
    · intro here again
      exact notHeld p here (by simpa [eq_comm] using again)

/-- The handles of a state have these links, and the heap belongs to them. -/
structure Refines (s : State H A C) (link : H → Option (A × C)) : Prop where
  absent : ∀ h, s.handle h = none → link h = none
  represents : ∀ h x, s.handle h = some x → x.Represents (link h)
  linked : Linked link none s.memory

/-- An update of one handle and its link. -/
theorem Refines.update {s : State H A C} {y : Option (CHandle A C)} {v : Option (A × C)}
    {m : Memory A C} (refines : Refines s link)
    (linked : Linked (Function.update link h v) none m)
    (absent : y = none → v = none) (represents : ∀ x, y = some x → x.Represents v) :
    Refines { handle := Function.update s.handle h y, memory := m } (Function.update link h v) where
  absent k none := by
    obtain rfl | other := eq_or_ne k h
    · simpa using absent (by simpa using none)
    · simpa [other] using refines.absent k (by simpa [other] using none)
  represents k x here := by
    obtain rfl | other := eq_or_ne k h
    · simpa using represents x (by simpa using here)
    · simpa [other] using refines.represents k x (by simpa [other] using here)
  linked := linked

/-- An operation that may be called is carried out. -/
theorem perform_spec {s : State H A C} {op : Op H A C} (refines : Refines s link)
    (may : enabled s op = true) :
    ∃ report s' link', perform s op = some (report, s') ∧ Refines s' link' ∧
      Follows link link' report s.memory s'.memory := by
  cases op with
  | construct h ptr c =>
    obtain ⟨absent, available⟩ : s.handle h = none ∧ ptr.available {} c s.memory = true := by
      simpa [enabled] using may
    have empty : ({} : CHandle A C).Represents (link h) := by
      rw [refines.absent h absent]
      exact CHandle.represents_none_iff.mpr rfl
    obtain ⟨report, x, m, v, run, represents, follows⟩ :=
      bind_spec refines.linked empty available
    refine ⟨report, { handle := Function.update s.handle h (some x), memory := m }, _,
      by simp [perform, run], refines.update follows.linked (by simp) ?_, follows⟩
    rintro y same
    exact Option.some.inj same ▸ represents
  | copy h o =>
    obtain ⟨absent, z, source⟩ : s.handle h = none ∧ ∃ z, s.handle o = some z := by
      simpa [enabled, Option.isSome_iff_exists] using may
    have empty : ({} : CHandle A C).Represents (link h) := by
      rw [refines.absent h absent]
      exact CHandle.represents_none_iff.mpr rfl
    obtain ⟨report, x, m, run, represents, follows⟩ :=
      assign_spec (k := o) refines.linked empty (refines.represents o z source) (.inr rfl)
    refine ⟨report, { handle := Function.update s.handle h (some x), memory := m }, _,
      by simp [perform, source, run], refines.update follows.linked (by simp) ?_, follows⟩
    rintro y same
    exact Option.some.inj same ▸ represents
  | bind h ptr c =>
    obtain ⟨y, present, available⟩ : ∃ y, s.handle h = some y ∧
        ptr.available y c s.memory = true := by
      simpa [enabled, Option.any_eq_true] using may
    obtain ⟨report, x, m, v, run, represents, follows⟩ :=
      bind_spec refines.linked (refines.represents h y present) available
    refine ⟨report, { handle := Function.update s.handle h (some x), memory := m }, _,
      by simp [perform, present, run], refines.update follows.linked (by simp) ?_, follows⟩
    rintro y same
    exact Option.some.inj same ▸ represents
  | assign h o =>
    obtain ⟨⟨y, present⟩, z, source⟩ :
        (∃ y, s.handle h = some y) ∧ ∃ z, s.handle o = some z := by
      simpa [enabled, Option.isSome_iff_exists] using may
    obtain ⟨report, x, m, run, represents, follows⟩ := assign_spec (k := o) refines.linked
      (refines.represents h y present) (refines.represents o z source) (.inr rfl)
    refine ⟨report, { handle := Function.update s.handle h (some x), memory := m }, _,
      by simp [perform, present, source, run], refines.update follows.linked (by simp) ?_, follows⟩
    rintro y same
    exact Option.some.inj same ▸ represents
  | destroy h =>
    obtain ⟨y, present⟩ : ∃ y, s.handle h = some y := by
      simpa [enabled, Option.isSome_iff_exists] using may
    obtain ⟨deleted, x, m, run, released, accounts, last⟩ :=
      unbind_spec refines.linked (refines.represents h y present)
    exact ⟨{ deleted }, { handle := Function.update s.handle h none, memory := m }, _,
      by simp [perform, present, run], refines.update released (by simp) (by simp), released,
      accounts, fun p => (last p).trans (last_link_iff (by simp))⟩

end Operations

/-! ### Runs -/

section Runs

/-- The object that a handle holds, and its counter. -/
def State.object (s : State H A C) (h : H) : Option A := (s.handle h).bind CHandle.object

def State.counter (s : State H A C) (h : H) : Option C := (s.handle h).bind CHandle.hcounter

/-- The objects of a history, each as often as it was allocated or deleted. -/
def created (history : List (Op H A C × Report A C)) : List (A × C) :=
  history.filterMap fun e => e.2.created

def deleted (history : List (Op H A C × Report A C)) : List (A × C) :=
  history.filterMap fun e => e.2.deleted

theorem created_snoc (history : List (Op H A C × Report A C)) (e : Op H A C × Report A C) :
    created (history ++ [e]) = created history ++ e.2.created.toList :=
  Machine.filterMap_snoc _ history e

theorem deleted_snoc (history : List (Op H A C × Report A C)) (e : Op H A C × Report A C) :
    deleted (history ++ [e]) = deleted history ++ e.2.deleted.toList :=
  Machine.filterMap_snoc _ history e

/-- The objects that are alive are those that handles hold, and each has a counter of its own
with the number of its handles. No other counter is left. -/
structure Counted [DecidableEq A] [Fintype H] (s : State H A C) : Prop where
  held : ∀ h a, s.object h = some a → s.memory.objects a = true
  counter : ∀ a, s.memory.objects a = true → ∃ c,
    (∀ h, s.object h = some a → s.counter h = some c) ∧
    s.memory.nlinks c = some ((Finset.univ.filter fun h => s.object h = some a).card : ℤ) ∧
    1 ≤ (Finset.univ.filter fun h => s.object h = some a).card
  counters : ∀ c, (s.memory.nlinks c).isSome → ∃ h a, s.object h = some a ∧ s.counter h = some c

variable [DecidableEq A] [DecidableEq C] [Fintype H] {s : State H A C}
  {link : H → Option (A × C)} {history : List (Op H A C × Report A C)}

theorem Refines.object (refines : Refines s link) (h : H) :
    s.object h = (link h).map Prod.fst := by
  cases here : s.handle h with
  | none => simp [State.object, here, refines.absent h here]
  | some x => simp [State.object, here, (refines.represents h x here).object]

theorem Refines.link_iff (refines : Refines s link) (h : H) (a : A) (c : C) :
    link h = some (a, c) ↔ s.object h = some a ∧ s.counter h = some c := by
  rw [refines.object]
  cases here : link h with
  | none => simp
  | some p =>
    have counter : s.counter h = some p.2 := by
      cases handle : s.handle h with
      | none => simp [refines.absent h handle] at here
      | some x => simp [State.counter, handle, (refines.represents h x handle).hcounter p here]
    simp [counter, Prod.ext_iff]

theorem Refines.counted (refines : Refines s link) : Counted s where
  held h a here := by
    rw [refines.object] at here
    obtain ⟨p, linked, rfl⟩ := Option.map_eq_some_iff.mp here
    exact refines.linked.alive linked
  counter a alive := by
    have positive : 0 < holders link a := by simpa [alive] using (refines.linked.objects a).mp alive
    obtain ⟨h, c, here⟩ := holders_pos_iff.mp positive
    have same : (Finset.univ.filter fun h => s.object h = some a).card = holders link a := by
      simp only [refines.object, holders]
    refine ⟨c, fun k held => ?_, ?_, ?_⟩
    · rw [refines.object] at held
      obtain ⟨p, there, rfl⟩ := Option.map_eq_some_iff.mp held
      have := (refines.linked.paired k h p (p.1, c) there here).mp rfl
      exact ((refines.link_iff k p.1 c).mp (there.trans (congrArg some (Prod.ext rfl this)))).2
    · rw [same]
      exact refines.linked.nlinks_of_link here
    · rw [same]
      exact positive
  counters c used := by
    have positive : 0 < sharers link c := by
      rw [refines.linked.nlinks] at used
      by_contra none
      rw [if_pos (by omega)] at used
      cases used
    obtain ⟨h, a, here⟩ := sharers_pos_iff.mp positive
    exact ⟨h, a, (refines.link_iff h a c).mp here⟩

/-- Whatever was allocated is in use or has been deleted once. -/
structure Balanced (history : List (Op H A C × Report A C)) (s : State H A C) : Prop where
  objects : ∀ a, ((created history).map Prod.fst).count a =
    ((deleted history).map Prod.fst).count a + (s.memory.objects a).toNat
  counters : ∀ c, ((created history).map Prod.snd).count c =
    ((deleted history).map Prod.snd).count c + (s.memory.nlinks c).isSome.toNat

variable [DecidableEq H]

theorem run_refines (run : (machine H A C).Run {} history s) :
    Balanced history s ∧ ∃ link, Refines s link := by
  apply run.invariant (P := fun history s => Balanced history s ∧ ∃ link, Refines s link)
  · refine ⟨⟨by simp [created, deleted], by simp [created, deleted]⟩, fun _ => none, ?_⟩
    exact ⟨by simp, by simp, fun _ _ _ _ no => by simp at no, by simp [holders], by simp [sharers],
      by simp⟩
  · intro history s op report s' _ known step
    obtain ⟨balanced, link, refines⟩ := known
    obtain ⟨may, step⟩ : enabled s op = true ∧ perform s op = some (report, s') := by
      simpa [machine] using step
    obtain ⟨report, s', link', same, after, follows⟩ := perform_spec refines may
    obtain ⟨rfl, rfl⟩ := Prod.mk.inj (Option.some.inj (same.symm.trans step))
    refine ⟨⟨fun a => ?_, fun c => ?_⟩, link', after⟩
    · have before := balanced.objects a
      have now := follows.accounts.objects a
      rw [created_snoc, deleted_snoc, List.map_append, List.map_append, List.count_append,
        List.count_append]
      simp only [← Option.toList_map]
      omega
    · have before := balanced.counters c
      have now := follows.accounts.counters c
      rw [created_snoc, deleted_snoc, List.map_append, List.map_append, List.count_append,
        List.count_append]
      simp only [← Option.toList_map]
      omega

/-- In every state that is reached, the counter of an object is the number of its handles; what
was allocated is alive or has been deleted once; and the next operation is carried out, and
deletes an object with its counter exactly if it takes the last handle away. -/
theorem run_bindings (run : (machine H A C).Run {} history s) :
    Counted s ∧ Balanced history s ∧ ∀ op, enabled s op = true →
      ∃ report s', perform s op = some (report, s') ∧
        ∀ a c, report.deleted = some (a, c) ↔
          (∃ h, s.object h = some a ∧ s.counter h = some c) ∧ ∀ h, s'.object h ≠ some a := by
  obtain ⟨balanced, link, refines⟩ := run_refines run
  refine ⟨refines.counted, balanced, fun op may => ?_⟩
  obtain ⟨report, s', link', step, after, follows⟩ := perform_spec refines may
  refine ⟨report, s', step, fun a c => ?_⟩
  simp only [follows.deleted, refines.link_iff, after.object]

/-- A new object is given to a handle and copied to another one; then both let go. -/
theorem run_bindings_two : ∃ history s, (machine Bool ℕ ℕ).Run {} history s ∧
    deleted history = [(5, 7)] ∧ Counted s := by
  have executed : ∃ history s, (machine Bool ℕ ℕ).exec {} [.construct false (.fresh 5) 7,
      .copy true false, .bind false .null 8, .destroy true] = some (history, s) ∧
        deleted history = [(5, 7)] := ⟨_, _, rfl, rfl⟩
  obtain ⟨history, s, computed, shown⟩ := executed
  have run := Machine.run_of_exec computed
  exact ⟨history, s, run, shown, (run_bindings run).1⟩

end Runs
end Crs.Handle
