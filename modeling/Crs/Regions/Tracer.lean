import Crs.Foundation.Machine
import Crs.Foundation.OrderedMap
import Mathlib.Order.Nat

/-!
# The regions tracer

A tracer looks up the entry with the greatest key not above a given one. With the cache it
first looks at the result of the last search, `iRecent`, and at the entry behind it, `iNext`;
two equal iterators mean that nothing is cached.

An iterator is the key of its entry, and to follow an iterator that has no entry is a fault.
An entry that is erased comes back only by a later operation, so an iterator that has an entry
in every state never belonged to an erased one.
-/

namespace Crs.Regions.Tracer

open Foundation

universe u

variable {K V : Type u} [LinearOrder K]

/-- The entries and the two cached iterators. -/
structure State (K V : Type u) [LT K] where
  map : OrderedMap K V
  iRecent : WithTop K
  iNext : WithTop K

/-- The key of the entry at an iterator. -/
def first (m : OrderedMap K V) : WithTop K → Option K
  | ⊤ => none
  | WithTop.some k => if (m.get? k).isSome then some k else none

/-- Move an iterator to the next entry. -/
def increment (m : OrderedMap K V) (it : WithTop K) : Option (WithTop K) :=
  (first m it).map m.next

def clearCache (s : State K V) : State K V :=
  { s with iRecent := s.map.begin, iNext := s.map.begin }

/-- The constructor with the value of the base entry; its key is the least one. -/
def new [OrderBot K] (defaultvalue : V) : State K V :=
  clearCache ⟨OrderedMap.singleton ⊥ defaultvalue, ⊤, ⊤⟩

/-- The last search was for an entry that `k` belongs to. -/
def inCache (s : State K V) (k : K) : Option Bool :=
  if s.iRecent = s.iNext then some false
  else
    (first s.map s.iRecent).bind fun recent =>
      if ¬ recent ≤ k then some false
      else if s.iNext = ⊤ then some true
      else (first s.map s.iNext).map fun next => decide (k < next)

/-- The search without the cache: the last entry, or the lower bound, or the entry before it. -/
def search (m : OrderedMap K V) (k : K) : Option K := do
  let last ← m.prev ⊤
  if k < last then
    let lower ← first m (m.lowerBound k)
    if lower ≠ k then m.prev lower else return lower
  else return last

def select (useCache : Bool) (s : State K V) (k : K) : Option (WithTop K × State K V) :=
  (if useCache then inCache s k else some false).bind fun cached =>
    if cached then some (s.iRecent, s)
    else
      (search s.map k).map fun (recent : K) =>
        (recent, { s with iRecent := recent, iNext := s.map.next recent })

def append (s : State K V) (k : K) (v : V) : Bool × State K V :=
  let (map, inserted) := s.map.insert k v
  if inserted then (true, clearCache { s with map }) else (false, { s with map })

/-- `erase` with an iterator; the base entry stays. -/
def eraseAt (s : State K V) (q : WithTop K) : Option (State K V) :=
  if q ≠ s.map.begin then
    let s := clearCache s
    (first s.map q).map fun k => { s with map := (s.map.erase k).1 }
  else some s

/-- Remove the entry that `k` belongs to. -/
def remove (useCache : Bool) (s : State K V) (k : K) : Option (Bool × State K V) := do
  let (cp, s) ← select useCache s k
  if cp ≠ ⊤ then
    let s ← eraseAt (clearCache s) cp
    return (true, s)
  else return (false, s)

def clear (s : State K V) : Option (State K V) := do
  let second ← increment s.map s.map.begin
  let map ← s.map.eraseRange second ⊤
  return clearCache { s with map }

def eraseRange (s : State K V) (q1 q2 : WithTop K) : Option (State K V) := do
  if q1 = s.map.begin then
    let q1 ← increment s.map q1
    let map ← s.map.eraseRange q1 q2
    return clearCache { s with map }
  else
    let map ← s.map.eraseRange q1 q2
    return clearCache { s with map }

/-- `erase` with a key; how many entries it has removed. -/
def erase [OrderBot K] (s : State K V) (k : K) : ℕ × State K V :=
  if k = ⊥ then (0, s)
  else
    let s := clearCache s
    let (map, erased) := s.map.erase k
    (erased.toNat, { s with map })

inductive Op (K V : Type u) where
  | append (k : K) (v : V)
  | remove (k : K)
  | eraseAt (q : WithTop K)
  | eraseRange (q1 q2 : WithTop K)
  | erase (k : K)
  | clear
  | select (k : K)

inductive Result (K : Type u) where
  | nothing
  | flag (b : Bool)
  | count (n : ℕ)
  | iterator (it : WithTop K)

/-- The iterators that a caller passes have entries, and a range is not empty. -/
def enabled (s : State K V) : Op K V → Bool
  | .eraseAt q => (first s.map q).isSome
  | .eraseRange q1 q2 => s.map.Valid q1 && s.map.Valid q2 && q1 < q2
  | .append _ _ | .remove _ | .erase _ | .clear | .select _ => true

def perform [OrderBot K] (useCache : Bool) (s : State K V) :
    Op K V → Option (Result K × State K V)
  | .append k v => let (inserted, s) := append s k v; some (.flag inserted, s)
  | .remove k => (remove useCache s k).map fun (removed, s) => (.flag removed, s)
  | .eraseAt q => (eraseAt s q).map fun s => (.nothing, s)
  | .eraseRange q1 q2 => (eraseRange s q1 q2).map fun s => (.nothing, s)
  | .erase k => let (erased, s) := erase s k; some (.count erased, s)
  | .clear => (clear s).map fun s => (.nothing, s)
  | .select k => (select useCache s k).map fun (it, s) => (.iterator it, s)

def machine (K V : Type u) [LinearOrder K] [OrderBot K] (useCache : Bool) :
    Machine (State K V) (Op K V) (Result K) where
  step s op := if enabled s op then perform useCache s op else none

/-! ### The searches -/

section Search

variable {s : State K V} {m : OrderedMap K V} {k r : K} {v : V}

@[simp] theorem first_coe (stored : m.get? k = some v) : first m (k : WithTop K) = some k := by
  simp [first, stored]

/-- `r` is the greatest key not above `k`. -/
structure Greatest (m : OrderedMap K V) (k r : K) : Prop where
  stored : ∃ v, m.get? r = some v
  below : r ≤ k
  greatest : ∀ j w, m.get? j = some w → j ≤ k → j ≤ r

theorem Greatest.unique {j : K} (one : Greatest m k r) (other : Greatest m k j) : r = j := by
  obtain ⟨v, here⟩ := one.stored
  obtain ⟨w, there⟩ := other.stored
  exact le_antisymm (other.greatest r v here one.below) (one.greatest j w there other.below)

/-- The entry in front of an iterator, if there is one. -/
theorem exists_prev (it : WithTop K) {j : K} {w : V} (stored : m.get? j = some w)
    (before : (j : WithTop K) < it) : ∃ l u, m.prev it = some l ∧ m.get? l = some u ∧
      (l : WithTop K) < it ∧ ∀ i x, m.get? i = some x → (i : WithTop K) < it → i ≤ l := by
  obtain ⟨l, u, last, -⟩ :=
    OrderedMap.exists_lastWhere (p := fun i : K => (i : WithTop K) < it) stored before
  obtain ⟨inside, front, greatest⟩ := OrderedMap.lastWhere_eq_some_iff.mp last
  exact ⟨l, u, OrderedMap.prev_eq_some_iff.mpr ⟨u, last⟩, inside, front, greatest⟩

/-- With an entry not above `k`, the search finds the greatest one. -/
theorem search_spec {j : K} {w : V} (stored : m.get? j = some w) (below : j ≤ k) :
    ∃ r, search m k = some r ∧ Greatest m k r := by
  obtain ⟨last, u, prev, inside, -, greatest⟩ := exists_prev ⊤ stored (WithTop.coe_lt_top j)
  by_cases above : k < last
  · obtain ⟨lower, x, position, here, upTo, least⟩ :=
      OrderedMap.exists_lowerBound inside above.le
    by_cases same : lower = k
    · subst same
      refine ⟨lower, ?_, ⟨x, here⟩, le_rfl, fun _ _ _ upTo => upTo⟩
      simp [search, prev, above, position, first_coe here]
    · have strict : k < lower := lt_of_le_of_ne upTo (Ne.symm same)
      obtain ⟨r, y, before, there, front, last⟩ := exists_prev (lower : WithTop K) stored
        (WithTop.coe_lt_coe.mpr (below.trans_lt strict))
      refine ⟨r, ?_, ⟨y, there⟩, (least r y there (position ▸ front)).le, fun i x inside upTo =>
        last i x inside (WithTop.coe_lt_coe.mpr (upTo.trans_lt strict))⟩
      simp [search, prev, above, position, first_coe here, same, before]
  · refine ⟨last, ?_, ⟨u, inside⟩, not_lt.mp above, fun i x here _ =>
      greatest i x here (WithTop.coe_lt_top i)⟩
    simp [search, prev, above]

end Search

/-! ### The cache -/

section Cache

variable [OrderBot K] {s s' : State K V} {k r : K}

/-- The base entry is stored, and the cache is empty or holds an entry and the next one. -/
structure Kept (s : State K V) : Prop where
  base : ∃ v, s.map.get? ⊥ = some v
  cache : s.iRecent = s.map.begin ∧ s.iNext = s.map.begin ∨
    ∃ (r : K) (v : V), s.map.get? r = some v ∧ s.iRecent = (r : WithTop K) ∧ s.iNext = s.map.next r

theorem begin_eq_bot {m : OrderedMap K V} (base : ∃ v, m.get? ⊥ = some v) :
    m.begin = ((⊥ : K) : WithTop K) :=
  OrderedMap.begin_eq_coe_iff.mpr ⟨base, fun _ _ _ => bot_le⟩

theorem clearCache_kept (base : ∃ v, s.map.get? ⊥ = some v) : Kept (clearCache s) :=
  ⟨base, .inl ⟨rfl, rfl⟩⟩

/-- A hit in the cache is the greatest key not above `k`. -/
theorem inCache_spec (kept : Kept s) (k : K) : ∃ cached, inCache s k = some cached ∧
    (cached = true → ∃ r : K, s.iRecent = (r : WithTop K) ∧ Greatest s.map k r) := by
  obtain ⟨recent, next⟩ | ⟨r, v, stored, recent, next⟩ := kept.cache
  · exact ⟨false, by simp [inCache, recent, next], by simp⟩
  · have apart : s.iRecent ≠ s.iNext := by
      rw [recent, next]
      exact ((OrderedMap.lt_upperBound_iff stored).mpr le_rfl).ne
    have found : first s.map s.iRecent = some r := by rw [recent, first_coe stored]
    have within (below : (k : WithTop K) < s.iNext) (upTo : r ≤ k) : Greatest s.map k r := by
      refine ⟨⟨v, stored⟩, upTo, fun j w inside under => ?_⟩
      rw [next] at below
      exact (OrderedMap.lt_upperBound_iff inside).mp
        ((WithTop.coe_le_coe.mpr under).trans_lt below)
    by_cases upTo : r ≤ k
    · by_cases last : s.iNext = ⊤
      · refine ⟨true, ?_, fun _ => ⟨r, recent, within (last ▸ WithTop.coe_lt_top k) upTo⟩⟩
        rw [inCache, if_neg apart, found]
        simp [upTo, last]
      · have valid : s.map.Valid s.iNext := next ▸ OrderedMap.valid_upperBound s.map r
        obtain no | ⟨e, inside, position⟩ := valid
        · exact absurd no last
        · have behind : first s.map s.iNext = some e.1 := by
            rw [position, first_coe (OrderedMap.get?_eq_some_iff.mpr inside)]
          refine ⟨decide (k < e.1), by simp [inCache, apart, found, upTo, last, behind],
            fun hit => ⟨r, recent, within ?_ upTo⟩⟩
          rw [position]
          exact WithTop.coe_lt_coe.mpr (by simpa using hit)
    · exact ⟨false, by simp [inCache, apart, found, upTo], by simp⟩

/-- With the cache and without it, `select` answers with the greatest key not above `k`. -/
theorem select_spec (useCache : Bool) (kept : Kept s) (k : K) : ∃ (r : K) (s' : State K V),
    select useCache s k = some ((r : WithTop K), s') ∧ Greatest s.map k r ∧ Kept s' ∧
      s'.map = s.map := by
  obtain ⟨v, base⟩ := kept.base
  obtain ⟨r, found, greatest⟩ := search_spec base (bot_le : ⊥ ≤ k)
  obtain ⟨w, stored⟩ := greatest.stored
  have anew : Kept { s with iRecent := (r : WithTop K), iNext := s.map.next r } :=
    ⟨kept.base, .inr ⟨r, w, stored, rfl, rfl⟩⟩
  obtain ⟨cached, looked, hit⟩ := inCache_spec kept k
  cases useCache with
  | false => exact ⟨r, _, by simp [select, found], greatest, anew, rfl⟩
  | true =>
    cases cached with
    | false => exact ⟨r, _, by simp [select, looked, found], greatest, anew, rfl⟩
    | true =>
      obtain ⟨j, recent, there⟩ := hit rfl
      exact ⟨j, s, by simp [select, looked, recent], there, kept, rfl⟩

/-! ### The operations -/

theorem append_kept (kept : Kept s) (k : K) (v : V) : Kept (append s k v).2 := by
  cases stored : s.map.get? k with
  | some w => simpa [append, OrderedMap.insert, stored] using kept
  | none =>
    obtain ⟨w, base⟩ := kept.base
    have other : (⊥ : K) ≠ k := by
      rintro rfl
      rw [base] at stored
      cases stored
    simp only [append, OrderedMap.insert, stored, Option.isSome_none, Bool.false_eq_true, if_false,
      if_true]
    exact clearCache_kept ⟨w, by simp [OrderedMap.get?_insertNew stored, other, base]⟩

/-- An entry other than the base is erased behind a cleared cache. -/
theorem erased_kept (base : ∃ v, s.map.get? ⊥ = some v) (other : k ≠ ⊥) :
    Kept { clearCache s with map := (s.map.erase k).1 } := by
  obtain ⟨v, stored⟩ := base
  have kept : ∃ v, (s.map.erase k).1.get? ⊥ = some v := ⟨v, by simp [other.symm, stored]⟩
  refine ⟨kept, .inl ?_⟩
  simp [clearCache, begin_eq_bot kept, begin_eq_bot ⟨v, stored⟩]

theorem erase_kept (kept : Kept s) (k : K) : Kept (erase s k).2 := by
  by_cases bottom : k = ⊥
  · rwa [erase, if_pos bottom]
  · rw [erase, if_neg bottom]
    exact erased_kept kept.base bottom

theorem eraseAt_spec {v : V} (base : ∃ v, s.map.get? ⊥ = some v) (stored : s.map.get? k = some v)
    (kept : k = ⊥ → Kept s) :
    ∃ s', eraseAt s (k : WithTop K) = some s' ∧ Kept s' := by
  by_cases bottom : k = ⊥
  · refine ⟨s, ?_, kept bottom⟩
    simp [eraseAt, begin_eq_bot base, bottom]
  · refine ⟨_, ?_, erased_kept base bottom⟩
    simp [eraseAt, begin_eq_bot base, bottom, clearCache, first_coe stored]

/-- A range behind the base entry is erased. -/
theorem range_spec {q1 q2 : WithTop K} (base : ∃ v, s.map.get? ⊥ = some v)
    (valid1 : s.map.Valid q1) (valid2 : s.map.Valid q2) (ordered : q1 ≤ q2)
    (behind : ((⊥ : K) : WithTop K) < q1) :
    ∃ map, s.map.eraseRange q1 q2 = some map ∧ Kept (clearCache { s with map }) := by
  obtain ⟨v, stored⟩ := base
  obtain ⟨map, run, lookups⟩ := OrderedMap.eraseRange_eq_some valid1 valid2 ordered
  refine ⟨map, run, clearCache_kept ⟨v, ?_⟩⟩
  rw [lookups, if_neg fun inside => behind.not_ge inside.1]
  exact stored

theorem increment_begin (base : ∃ v, s.map.get? ⊥ = some v) :
    increment s.map s.map.begin = some (s.map.next ⊥) ∧
      ((⊥ : K) : WithTop K) < s.map.next ⊥ := by
  obtain ⟨v, stored⟩ := base
  refine ⟨?_, (OrderedMap.lt_upperBound_iff stored).mpr le_rfl⟩
  rw [increment, begin_eq_bot ⟨v, stored⟩, first_coe stored]
  rfl

theorem eraseRange_spec {q1 q2 : WithTop K} (base : ∃ v, s.map.get? ⊥ = some v)
    (valid1 : s.map.Valid q1) (valid2 : s.map.Valid q2) (ordered : q1 < q2) :
    ∃ s', eraseRange s q1 q2 = some s' ∧ Kept s' := by
  by_cases first : q1 = s.map.begin
  · obtain ⟨next, above⟩ := increment_begin base
    have upTo : s.map.next ⊥ ≤ q2 := by
      obtain rfl | ⟨e, inside, rfl⟩ := valid2
      · exact le_top
      · by_contra before
        have under := (OrderedMap.lt_upperBound_iff (OrderedMap.get?_eq_some_iff.mpr inside)).mp
          (not_le.mp before)
        rw [first, begin_eq_bot base] at ordered
        exact under.not_gt (WithTop.coe_lt_coe.mp ordered)
    have valid : s.map.Valid (s.map.next ⊥) := OrderedMap.valid_upperBound s.map ⊥
    obtain ⟨map, run, kept⟩ := range_spec base valid valid2 upTo above
    refine ⟨_, ?_, kept⟩
    simp [eraseRange, first, next, run]
  · have behind : ((⊥ : K) : WithTop K) < q1 := by
      rw [begin_eq_bot base] at first
      obtain rfl | ⟨e, inside, rfl⟩ := valid1
      · exact WithTop.coe_lt_top ⊥
      · exact WithTop.coe_lt_coe.mpr (bot_lt_iff_ne_bot.mpr fun same => first (by rw [same]))
    obtain ⟨map, run, kept⟩ := range_spec base valid1 valid2 ordered.le behind
    refine ⟨_, ?_, kept⟩
    simp [eraseRange, first, run]

/-- An operation that may be called is carried out, and the cache stays in order. -/
theorem perform_spec (useCache : Bool) {op : Op K V} (kept : Kept s) (may : enabled s op = true) :
    ∃ result s', perform useCache s op = some (result, s') ∧ Kept s' := by
  cases op with
  | append k v => exact ⟨_, _, rfl, append_kept kept k v⟩
  | remove k =>
    obtain ⟨r, t, run, greatest, after, map⟩ := select_spec useCache kept k
    obtain ⟨v, stored⟩ := greatest.stored
    obtain ⟨s', erased, kept'⟩ := eraseAt_spec (s := clearCache t) after.base
      (map ▸ stored) fun _ => clearCache_kept after.base
    exact ⟨.flag true, s', by simp [perform, remove, run, erased], kept'⟩
  | eraseAt q =>
    cases q with
    | top => simp [enabled, first] at may
    | coe k =>
      cases stored : s.map.get? k with
      | none => simp [enabled, first, stored] at may
      | some v =>
        obtain ⟨s', erased, kept'⟩ := eraseAt_spec kept.base stored fun _ => kept
        exact ⟨.nothing, s', by simp [perform, erased], kept'⟩
  | eraseRange q1 q2 =>
    obtain ⟨⟨valid1, valid2⟩, ordered⟩ : (s.map.Valid q1 ∧ s.map.Valid q2) ∧ q1 < q2 := by
      simpa [enabled] using may
    obtain ⟨s', erased, kept'⟩ := eraseRange_spec kept.base valid1 valid2 ordered
    exact ⟨.nothing, s', by simp [perform, erased], kept'⟩
  | erase k => exact ⟨_, _, rfl, erase_kept kept k⟩
  | clear =>
    obtain ⟨next, above⟩ := increment_begin kept.base
    have valid : s.map.Valid (s.map.next ⊥) := OrderedMap.valid_upperBound s.map ⊥
    obtain ⟨map, run, kept'⟩ := range_spec kept.base valid (.inl rfl) le_top above
    exact ⟨.nothing, _, by simp [perform, clear, next, run], kept'⟩
  | select k =>
    obtain ⟨r, s', run, -, kept', -⟩ := select_spec useCache kept k
    exact ⟨.iterator r, s', by simp [perform, run], kept'⟩

variable {history : List (Op K V × Result K)} {v : V}

theorem run_kept {useCache : Bool} (run : (machine K V useCache).Run (new v) history s) :
    Kept s := by
  apply run.state_invariant (P := Kept)
  · exact clearCache_kept ⟨v, by simp⟩
  · intro s op result s' kept step
    obtain ⟨may, step⟩ : enabled s op = true ∧ perform useCache s op = some (result, s') := by
      simpa [machine] using step
    obtain ⟨result, s', same, kept'⟩ := perform_spec useCache kept may
    obtain ⟨rfl, rfl⟩ := Prod.mk.inj (Option.some.inj (same.symm.trans step))
    exact kept'

/-- In every state that is reached, the cached iterators have entries, or are at the end; each
operation is carried out; and `select` answers with and without the cache with the entry that
has the greatest key not above `k`. -/
theorem run_select (run : (machine K V true).Run (new v) history s) :
    (first s.map s.iRecent).isSome ∧ s.map.Valid s.iNext ∧
    (∀ op, enabled s op = true → (perform true s op).isSome) ∧
    ∀ k, ∃ (r : K) (s₁ s₂ : State K V), select true s k = some ((r : WithTop K), s₁) ∧
      select false s k = some ((r : WithTop K), s₂) ∧ Greatest s.map k r := by
  have kept := run_kept run
  obtain ⟨w, base⟩ := kept.base
  have bottom := begin_eq_bot kept.base
  refine ⟨?_, ?_, fun op may => ?_, fun k => ?_⟩
  · obtain ⟨recent, -⟩ | ⟨r, u, stored, recent, -⟩ := kept.cache
    · rw [recent, bottom, first_coe base]
      rfl
    · rw [recent, first_coe stored]
      rfl
  · obtain ⟨-, next⟩ | ⟨r, u, stored, -, next⟩ := kept.cache
    · rw [next, bottom]
      exact OrderedMap.valid_coe base
    · rw [next]
      exact OrderedMap.valid_upperBound s.map r
  · obtain ⟨result, s', step, -⟩ := perform_spec true kept may
    simp [step]
  · obtain ⟨r, s₁, cached, greatest, -⟩ := select_spec true kept k
    obtain ⟨j, s₂, uncached, other, -⟩ := select_spec false kept k
    obtain rfl := greatest.unique other
    exact ⟨r, s₁, s₂, cached, uncached, greatest⟩

/-- Two entries behind the base, a search that is repeated, and the entry it found is erased. -/
theorem run_select_twice : ∃ history s, (machine ℕ ℕ true).Run (new 0) history s ∧
    ∀ k, ∃ (r : ℕ) (s₁ s₂ : State ℕ ℕ), select true s k = some (WithTop.some r, s₁) ∧
      select false s k = some (WithTop.some r, s₂) ∧ Greatest s.map k r := by
  have executed : ∃ history s, (machine ℕ ℕ true).exec (new 0) [.append 3 1, .append 7 2, .select 5,
      .select 4, .eraseAt (WithTop.some 3), .select 5] = some (history, s) := ⟨_, _, rfl⟩
  obtain ⟨history, s, computed⟩ := executed
  have run := Machine.run_of_exec computed
  exact ⟨history, s, run, (run_select run).2.2.2⟩

end Cache

end Crs.Regions.Tracer
