import Crs.Foundation.OrderedMap
import Crs.Ude.ElementList
import Mathlib.Algebra.BigOperators.Group.List.Basic
import Mathlib.Algebra.Order.Group.Multiset
import Mathlib.Tactic.Abel

/-!
# Maps of element lists

Every domain that an element was ever added to has a list of its own. An action is a
functor with a state of its own, of which every list gets a fresh copy; the state of
the world goes on from one list to the next.
-/

namespace Crs.Ude

open Foundation Compaction

structure ElementMap (K E : Type*) [LT K] where
  container : OrderedMap K (ElementList E)

/-- A map after an operation; the calls and the destroyed pointers as for one list. -/
structure MapVisit (K E σ : Type*) [LT K] where
  map : ElementMap K E
  calls : List (E × Bool)
  handed : List E
  state : σ

namespace ElementMap

variable {K E γ σ : Type*} [LinearOrder K]

def empty : ElementMap K E := ⟨⟨[], .nil⟩⟩

/-- Add an element to the list of a domain, which is created if the domain is new. -/
def add (m : ElementMap K E) (domain : K) : Option E → ElementMap K E
  | none => m
  | some element =>
      let inserted := (m.container.insert domain .empty).1
      match inserted.get? domain with
      | some list => ⟨inserted.setValue domain (list.add (some element))⟩
      | none => ⟨inserted⟩

def remove [DecidableEq E] (m : ElementMap K E) (domain : K) (element : Option E) :
    ElementMap K E × List E :=
  match m.container.get? domain with
  | some list =>
      let v := list.remove element
      (⟨m.container.setValue domain v.list⟩, v.handed)
  | none => (m, [])

/-- The action on the list of one domain. -/
def forEachIn (m : ElementMap K E) (domain : K) (action : E → γ × σ → Bool × γ × σ) (functor : γ)
    (s : σ) : MapVisit K E σ :=
  match m.container.get? domain with
  | some list =>
      let v := list.forEach action (functor, s)
      ⟨⟨m.container.setValue domain v.list⟩, v.calls, v.handed, v.state.2⟩
  | none => ⟨m, [], [], s⟩

/-- The entries, calls, destroyed pointers and the state after the action on each list. -/
def visitEntries (action : E → γ × σ → Bool × γ × σ) (functor : γ) :
    List (K × ElementList E) → σ → List (K × ElementList E) × List (E × Bool) × List E × σ
  | [], s => ([], [], [], s)
  | (domain, list) :: rest, s =>
      let v := list.forEach action (functor, s)
      let r := visitEntries action functor rest v.state.2
      ((domain, v.list) :: r.1, v.calls ++ r.2.1, v.handed ++ r.2.2.1, r.2.2.2)

omit [LinearOrder K] in
theorem visitEntries_keys (action : E → γ × σ → Bool × γ × σ) (functor : γ)
    (entries : List (K × ElementList E)) (s : σ) :
    (visitEntries action functor entries s).1.map Prod.fst = entries.map Prod.fst := by
  induction entries generalizing s with
  | nil => rfl
  | cons e rest ih => exact congrArg (e.1 :: ·) (ih _)

/-- The action on the lists of all domains. -/
def forEach (m : ElementMap K E) (action : E → γ × σ → Bool × γ × σ) (functor : γ) (s : σ) :
    MapVisit K E σ :=
  let visited := visitEntries action functor m.container.entries s
  { map := ⟨{
      entries := visited.1
      sorted := by
        have keys := visitEntries_keys action functor m.container.entries s
        refine List.pairwise_map.mp ?_
        rw [keys]
        exact List.pairwise_map.mpr m.container.sorted }⟩
    calls := visited.2.1
    handed := visited.2.2.1
    state := visited.2.2.2 }

/-- The destructor deletes every list. -/
def destruct (m : ElementMap K E) : List E :=
  m.container.entries.flatMap fun e => e.2.destruct

/-- The pointers of a list of entries. -/
def entryPointers (entries : List (K × ElementList E)) : Multiset E :=
  (entries.map fun e => e.2.pointers).sum

/-- The pointers stored under any domain. -/
def stored (m : ElementMap K E) : Multiset E := entryPointers m.container.entries

section Stored

omit [LinearOrder K] in
@[simp] theorem entryPointers_nil : entryPointers ([] : List (K × ElementList E)) = 0 := rfl

omit [LinearOrder K] in
@[simp] theorem entryPointers_cons (e : K × ElementList E) (rest : List (K × ElementList E)) :
    entryPointers (e :: rest) = e.2.pointers + entryPointers rest := rfl

variable {m : ElementMap K E} {domain : K} {list list' : ElementList E} {element : E}

@[simp] theorem stored_empty : (empty : ElementMap K E).stored = 0 := rfl

theorem coe_destruct (m : ElementMap K E) : (m.destruct : Multiset E) = m.stored := by
  simp only [destruct, stored]
  induction m.container.entries with
  | nil => rfl
  | cons e rest ih =>
      rw [List.flatMap_cons, ← Multiset.coe_add, ih]
      rfl

/-- Exchanging the list of a domain exchanges its pointers. -/
theorem stored_setValue (found : m.container.get? domain = some list) (list' : ElementList E) :
    stored ⟨m.container.setValue domain list'⟩ + list.pointers = m.stored + list'.pointers := by
  obtain ⟨front, back, split, exchanged⟩ := OrderedMap.exists_entries_setValue found
  simp only [stored, entryPointers, split, exchanged, List.map_append, List.map_cons,
    List.sum_append, List.sum_cons]
  abel

@[simp] theorem stored_add_none (m : ElementMap K E) (domain : K) :
    (m.add domain none).stored = m.stored := rfl

@[simp] theorem stored_add_some (m : ElementMap K E) (domain : K) (element : E) :
    (m.add domain (some element)).stored = element ::ₘ m.stored := by
  have inserted : ∃ list map, (m.container.insert domain .empty).1 = map ∧
      map.get? domain = some list ∧ stored ⟨map⟩ = m.stored := by
    cases found : m.container.get? domain with
    | some list => exact ⟨list, m.container, by simp [OrderedMap.insert, found], found, rfl⟩
    | none =>
        refine ⟨.empty, m.container.insertNew domain .empty, by simp [OrderedMap.insert, found],
          by simp [OrderedMap.get?_insertNew found], ?_⟩
        have entries := (OrderedMap.entries_insertNew_perm found ElementList.empty).map
          fun e => e.2.pointers
        simpa [stored, entryPointers] using entries.sum_eq
  obtain ⟨list, map, created, found, same⟩ := inserted
  have exchanged := stored_setValue (m := ⟨map⟩) found (list.add (some element))
  simp only [add, created, found]
  rw [ElementList.pointers_add_some, same] at exchanged
  refine add_right_cancel (b := list.pointers) ?_
  rw [exchanged, ← Multiset.singleton_add, ← Multiset.singleton_add]
  abel

end Stored

section Conservation

variable (m : ElementMap K E) (domain : K)

/-- What `remove` takes out of the map it gives to the destroyer. -/
theorem stored_remove [DecidableEq E] (element : Option E) :
    (m.remove domain element).1.stored + (m.remove domain element).2 = m.stored := by
  simp only [remove]
  split
  · rename_i list found
    have kept := list.pointers_pass (ElementList.equals element) ()
    have exchanged := stored_setValue found (list.remove element).list
    refine add_right_cancel (b := list.pointers) ?_
    rw [add_right_comm, exchanged, add_assoc]
    exact congrArg (m.stored + ·) kept
  · exact add_zero _

theorem stored_forEachIn (action : E → γ × σ → Bool × γ × σ) (functor : γ) (s : σ) :
    (m.forEachIn domain action functor s).map.stored +
      (m.forEachIn domain action functor s).handed = m.stored := by
  simp only [forEachIn]
  split
  · rename_i list found
    have kept := list.pointers_pass action (functor, s)
    have exchanged := stored_setValue found (list.forEach action (functor, s)).list
    refine add_right_cancel (b := list.pointers) ?_
    rw [add_right_comm, exchanged, add_assoc]
    exact congrArg (m.stored + ·) kept
  · exact add_zero _

omit [LinearOrder K] in
theorem pointers_visitEntries (action : E → γ × σ → Bool × γ × σ) (functor : γ)
    (entries : List (K × ElementList E)) (s : σ) :
    entryPointers (visitEntries action functor entries s).1 +
      (visitEntries action functor entries s).2.2.1 = entryPointers entries := by
  induction entries generalizing s with
  | nil => rfl
  | cons e rest ih =>
      have kept := e.2.pointers_pass action (functor, s)
      have others := ih (e.2.forEach action (functor, s)).state.2
      simp only [visitEntries, entryPointers_cons, ← Multiset.coe_add]
      rw [add_add_add_comm, others]
      exact congrArg (· + entryPointers rest) kept

theorem stored_forEach (action : E → γ × σ → Bool × γ × σ) (functor : γ) (s : σ) :
    (m.forEach action functor s).map.stored + (m.forEach action functor s).handed = m.stored :=
  pointers_visitEntries action functor m.container.entries s

end Conservation

end ElementMap

end Crs.Ude
