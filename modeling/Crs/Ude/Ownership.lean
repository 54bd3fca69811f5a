import Crs.Foundation.Machine
import Crs.Ude.ElementMap
import Mathlib.Algebra.BigOperators.Group.Multiset.Basic

/-!
# Ownership of the elements

A map is used by `add`, `remove` and both forms of `for_each`, and is destroyed at the
end. Each operation looks at one list at a time, and gives the pointers that it takes
out to the destroyer. What was added is always stored or destroyed, so an element is
destroyed twice in the end exactly if it was added twice.
-/

namespace Crs.Ude

open Foundation

namespace ElementMap

/-- A map, or what remains of one after its destructor, in the state of the world. -/
structure Owner (K E σ : Type*) [LT K] where
  map : ElementMap K E
  alive : Bool := true
  world : σ

/-- The operations; an action comes with the state of its functor. -/
inductive Call (K E γ σ : Type*) where
  | add (domain : K) (element : Option E)
  | remove (domain : K) (element : Option E)
  | forEachIn (domain : K) (action : E → γ × σ → Bool × γ × σ) (functor : γ)
  | forEach (action : E → γ × σ → Bool × γ × σ) (functor : γ)
  | destruct

variable {K E γ σ : Type*} [LinearOrder K] [DecidableEq E] {predicate : E → Bool}

/-- A step shows the elements that it destroys. -/
def machine (γ : Type*) (predicate : E → Bool) : Machine (Owner K E σ) (Call K E γ σ) (List E) where
  step s call :=
    if s.alive then
      match call with
      | .add domain element => some ([], { s with map := s.map.add domain element })
      | .remove domain element =>
          let (map, handed) := s.map.remove domain element
          some (ElementList.destroyed predicate handed, { s with map })
      | .forEachIn domain action functor =>
          let v := s.map.forEachIn domain action functor s.world
          some (ElementList.destroyed predicate v.handed, { s with map := v.map, world := v.state })
      | .forEach action functor =>
          let v := s.map.forEach action functor s.world
          some (ElementList.destroyed predicate v.handed, { s with map := v.map, world := v.state })
      | .destruct =>
          some (ElementList.destroyed predicate s.map.destruct,
            { s with map := empty, alive := false })
    else none

/-- The element that a call adds. -/
def Call.added : Call K E γ σ → Multiset E
  | .add _ element => element.elim 0 ({·})
  | .remove _ _ | .forEachIn _ _ _ | .forEach _ _ | .destruct => 0

section Histories

omit [LinearOrder K] [DecidableEq E]

variable {call : Call K E γ σ} {gone : List E}

/-- The elements added in a run, in any domain. -/
def added (history : List (Call K E γ σ × List E)) : Multiset E :=
  (history.map fun event => event.1.added).sum

/-- The elements destroyed in a run. -/
def destroyed (history : List (Call K E γ σ × List E)) : Multiset E :=
  (history.map fun event => (event.2 : Multiset E)).sum

variable (history : List (Call K E γ σ × List E))

@[simp] theorem added_snoc : added (history ++ [(call, gone)]) = added history + call.added := by
  simp [added]

@[simp] theorem destroyed_snoc :
    destroyed (history ++ [(call, gone)]) = destroyed history + gone := by
  simp [destroyed]

end Histories

/-- Every element is destroyed at most once, and none of them is still stored. -/
def Sound (history : List (Call K E γ σ × List E)) (s : Owner K E σ) : Prop :=
  (destroyed history).Nodup ∧ ∀ e ∈ destroyed history, e ∉ s.map.stored

variable {s s' : Owner K E σ} {call : Call K E γ σ} {gone : List E}

omit [DecidableEq E] in
theorem destroyed_of_owned (owned : ∀ e, predicate e = true) (handed : List E) :
    ElementList.destroyed predicate handed = handed :=
  List.filter_eq_self.mpr fun e _ => owned e

/-- What was stored or is added is stored or destroyed after the step, and a destroyed
map stores nothing. -/
theorem step_conserves (owned : ∀ e, predicate e = true)
    (step : (machine γ predicate).step s call = some (gone, s')) :
    s'.map.stored + gone = s.map.stored + call.added ∧ (s'.alive = false → s'.map.stored = 0) := by
  simp only [machine, destroyed_of_owned owned] at step
  split at step
  · rename_i alive
    cases call with
    | add domain element =>
        obtain ⟨rfl, rfl⟩ := by simpa using step
        refine ⟨?_, fun ended => by simp [alive] at ended⟩
        cases element with
        | none => simp [Call.added]
        | some e => simp [Call.added, add_comm, ← Multiset.singleton_add]
    | remove domain element =>
        obtain ⟨rfl, rfl⟩ := by simpa using step
        exact ⟨(stored_remove s.map domain element).trans (add_zero _).symm,
          fun ended => by simp [alive] at ended⟩
    | forEachIn domain action functor =>
        obtain ⟨rfl, rfl⟩ := by simpa using step
        exact ⟨(stored_forEachIn s.map domain action functor s.world).trans (add_zero _).symm,
          fun ended => by simp [alive] at ended⟩
    | forEach action functor =>
        obtain ⟨rfl, rfl⟩ := by simpa using step
        exact ⟨(stored_forEach s.map action functor s.world).trans (add_zero _).symm,
          fun ended => by simp [alive] at ended⟩
    | destruct =>
        obtain ⟨rfl, rfl⟩ := by simpa using step
        refine ⟨?_, fun _ => rfl⟩
        rw [coe_destruct, Call.added, stored_empty, zero_add, add_zero]
  · cases step

/-- In a run everything that was added is stored or destroyed. -/
theorem run_accounts (owned : ∀ e, predicate e = true) {world : σ}
    {history : List (Call K E γ σ × List E)}
    (run : (machine γ predicate).Run { map := empty, world } history s) :
    s.map.stored + destroyed history = added history ∧ (s.alive = false → s.map.stored = 0) := by
  apply run.invariant (P := fun history s =>
    s.map.stored + destroyed history = added history ∧ (s.alive = false → s.map.stored = 0))
  · exact ⟨rfl, fun ended => by cases ended⟩
  · intro history t call gone u _ held step
    obtain ⟨conserved, emptied⟩ := step_conserves owned step
    refine ⟨?_, emptied⟩
    rw [destroyed_snoc, added_snoc, ← held.1, add_right_comm, ← conserved]
    abel

/-- If no element is added twice, a run destroys each element at most once, and none
that is still stored; a run that ends with the destruction of the map does so only if
no element was added twice. -/
theorem run_owned (owned : ∀ e, predicate e = true) {world : σ}
    {history : List (Call K E γ σ × List E)}
    (run : (machine γ predicate).Run { map := empty, world } history s) :
    ((added history).Nodup → Sound history s) ∧
      (s.alive = false → (Sound history s ↔ (added history).Nodup)) := by
  obtain ⟨conserved, emptied⟩ := run_accounts owned run
  have sound : (added history).Nodup → Sound history s := by
    intro once
    rw [← conserved, Multiset.nodup_add] at once
    obtain ⟨-, gone, apart⟩ := once
    exact ⟨gone, fun e member stored => Multiset.disjoint_left.mp apart stored member⟩
  refine ⟨sound, fun ended => ⟨fun held => ?_, sound⟩⟩
  rw [← conserved, emptied ended, zero_add]
  exact held.1

/-- What a run on a new map destroys and leaves stored, and whether the map is alive. -/
private def ledger (calls : List (Call ℕ ℕ Unit Unit)) : Option (Multiset ℕ × List ℕ × Bool) :=
  ((machine Unit fun _ => true).exec { map := empty, world := () } calls).map fun r =>
    (destroyed r.1, r.2.map.destruct, r.2.alive)

private theorem run_of_ledger {calls : List (Call ℕ ℕ Unit Unit)} {gone : Multiset ℕ}
    {left : List ℕ} {alive : Bool} (computed : ledger calls = some (gone, left, alive)) :
    ∃ (history : List (Call ℕ ℕ Unit Unit × List ℕ)) (s : Owner ℕ ℕ Unit),
      (machine Unit fun _ => true).Run { map := empty, world := () } history s ∧
      destroyed history = gone ∧ s.map.stored = left ∧ s.alive = alive := by
  obtain ⟨⟨history, s⟩, executed, result⟩ := Option.map_eq_some_iff.mp computed
  obtain ⟨rfl, rfl, rfl⟩ := by simpa using result
  exact ⟨history, s, Machine.run_of_exec executed, rfl, (coe_destruct s.map).symm, rfl⟩

/-- Two elements, of which one is removed and the other one is destroyed with the map. -/
theorem run_owned_two : ∃ (history : List (Call ℕ ℕ Unit Unit × List ℕ)) (s : Owner ℕ ℕ Unit),
    destroyed history = {1, 2} ∧ Sound history s ∧ (added history).Nodup := by
  have computed : ledger [.add 0 (some 1), .add 1 (some 2), .remove 0 (some 1), .destruct] =
      some ({1, 2}, [], false) := by decide +kernel
  obtain ⟨history, s, run, gone, -, ended⟩ := run_of_ledger computed
  obtain ⟨-, exact⟩ := run_owned (fun _ => rfl) run
  have held : Sound history s := by
    refine ⟨by rw [gone]; decide, fun e _ => ?_⟩
    rw [(run_accounts (fun _ => rfl) run).2 ended]
    simp
  exact ⟨history, s, gone, held, (exact ended).mp held⟩

/-- An element under two domains is destroyed when it leaves the first one, while its
pointer is still stored under the second one. -/
theorem shared_element_destroyed : ∃ (history : List (Call ℕ ℕ Unit Unit × List ℕ))
    (s : Owner ℕ ℕ Unit),
    (machine Unit fun _ => true).Run { map := empty, world := () } history s ∧
      ¬ Sound history s := by
  have computed : ledger [.add 0 (some 1), .add 1 (some 1), .remove 0 (some 1)] =
      some ({1}, [1], true) := by decide +kernel
  obtain ⟨history, s, run, gone, left, -⟩ := run_of_ledger computed
  refine ⟨history, s, run, fun held => held.2 1 ?_ ?_⟩
  · simp [gone]
  · simp [left]

end ElementMap

end Crs.Ude
