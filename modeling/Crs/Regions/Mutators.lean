import Crs.Regions.Tracer

/-!
# What the mutators of a tracer change

Each of them leaves the base entry where it is: `erase` with an iterator does nothing for it, a
range that begins with it begins behind it instead, `erase` with a key compares the keys. The
empty range in front of the base has no begin behind it, and `remove` does not know whether
`erase` has done nothing.
-/

namespace Crs.Regions.Tracer

open Foundation

universe u

variable {K V : Type u} [LinearOrder K]

/-- The iterators that a caller passes have entries. A range may be empty. -/
def admits (s : State K V) : Op K V → Bool
  | .eraseRange q1 q2 => s.map.Valid q1 && s.map.Valid q2 && decide (q1 ≤ q2)
  | op => enabled s op

def mutators (K V : Type u) [LinearOrder K] [OrderBot K] (useCache : Bool) :
    Machine (State K V) (Op K V) (Result K) where
  step s op := if admits s op then perform useCache s op else none

/-- The entries that are to be removed, apart from the base. -/
def Names (m : OrderedMap K V) : Op K V → K → Prop
  | .remove k, j => Greatest m k j
  | .eraseAt q, j => (j : WithTop K) = q
  | .eraseRange q1 q2, j => q1 ≤ (j : WithTop K) ∧ (j : WithTop K) < q2
  | .erase k, j => j = k
  | .clear, _ => True
  | .append _ _, _ | .select _, _ => False

/-- An entry is there no more. -/
def Removed (m m' : OrderedMap K V) : Prop :=
  ∃ j, (m.get? j).isSome ∧ m'.get? j = none

/-- The entries change as the operation says. -/
structure Performs [OrderBot K] (m m' : OrderedMap K V) (op : Op K V) : Prop where
  named : ∀ j, Names m op j → j ≠ ⊥ → m'.get? j = none
  kept : ∀ j, ¬Names m op j ∨ j = ⊥ → (∀ v, op ≠ .append j v) → m'.get? j = m.get? j
  added : ∀ k v, op = .append k v → m'.get? k = some ((m.get? k).getD v)

/-- The result says whether an entry was added or removed. -/
def Reports (m m' : OrderedMap K V) : Op K V → Result K → Prop
  | .append k _, result => ∃ added, result = .flag added ∧ (added = true ↔ m.get? k = none)
  | .remove _, result => ∃ removed, result = .flag removed ∧ (removed = true ↔ Removed m m')
  | .erase _, result => ∃ n, result = .count n ∧ n ≤ 1 ∧ (n = 1 ↔ Removed m m')
  | _, _ => True

theorem removed_of_removes {m m' : OrderedMap K V} {P : K → Prop} [DecidablePred P]
    (lookups : ∀ j, m'.get? j = if P j then none else m.get? j) :
    Removed m m' ↔ ∃ j, (m.get? j).isSome ∧ P j := by
  constructor
  · rintro ⟨j, stored, gone⟩
    refine ⟨j, stored, ?_⟩
    by_contra no
    rw [lookups, if_neg no] at gone
    rw [gone] at stored
    exact Bool.noConfusion stored
  · rintro ⟨j, stored, yes⟩
    exact ⟨j, stored, by rw [lookups, if_pos yes]⟩

variable [OrderBot K]

/-- The call is carried out, with the right changes and the right result. -/
def Correct (useCache : Bool) (s : State K V) (op : Op K V) : Prop :=
  ∃ result s', perform useCache s op = some (result, s') ∧ Performs s.map s'.map op ∧
    Reports s.map s'.map op result

/-- `remove` finds an entry other than the base, and a range is not the empty one in front of it. -/
def Covers (s : State K V) : Op K V → Prop
  | .remove k => ∃ j v, s.map.get? j = some v ∧ j ≠ ⊥ ∧ j ≤ k
  | .eraseRange q1 q2 => ¬(q1 = s.map.begin ∧ q2 = s.map.begin)
  | _ => True

section Mutators

variable {s s' : State K V} {m m' : OrderedMap K V} {k : K} {q1 q2 : WithTop K} {v : V}

/-- A mutator that adds nothing, described by the entries that it removes. -/
theorem performs_of_removes {op : Op K V} {P : K → Prop} [DecidablePred P]
    (lookups : ∀ j, m'.get? j = if P j then none else m.get? j)
    (named : ∀ j, (m.get? j).isSome → (P j ↔ Names m op j ∧ j ≠ ⊥))
    (no_append : ∀ k v, op ≠ .append k v) : Performs m m' op where
  named j names other := by
    rw [lookups]
    split
    · rfl
    · next no =>
      cases stored : m.get? j with
      | none => rfl
      | some v => exact absurd ((named j (by rw [stored]; rfl)).mpr ⟨names, other⟩) no
  kept j unnamed _ := by
    rw [lookups]
    split
    · next yes =>
      cases stored : m.get? j with
      | none => rfl
      | some v =>
        obtain ⟨names, other⟩ := (named j (by rw [stored]; rfl)).mp yes
        exact absurd (unnamed.resolve_left (not_not.mpr names)) other
    · rfl
  added k v same := absurd same (no_append k v)

theorem append_correct (useCache : Bool) (s : State K V) (k : K) (v : V) :
    Correct useCache s (.append k v) := by
  cases stored : s.map.get? k with
  | some w =>
    have same : append s k v = (false, s) := by simp [append, OrderedMap.insert, stored]
    refine ⟨.flag false, s, by simp [perform, same], ⟨fun j names => names.elim, fun j _ _ => rfl,
      ?_⟩, false, rfl, by simp [stored]⟩
    rintro j u ⟨⟩
    rw [stored]
    rfl
  | none =>
    have same : append s k v = (true, clearCache { s with map := s.map.insertNew k v }) := by
      simp [append, OrderedMap.insert, stored]
    refine ⟨.flag true, clearCache { s with map := s.map.insertNew k v }, by simp [perform, same],
      ⟨fun j names => names.elim, ?_, ?_⟩, true, rfl, by simp [stored]⟩
    · intro j _ other
      have apart : j ≠ k := fun here => other v (by rw [here])
      simp [clearCache, OrderedMap.get?_insertNew stored, apart]
    · rintro j u ⟨⟩
      simp [clearCache, OrderedMap.get?_insertNew stored, stored]

/-- `erase` with an iterator, and what it leaves. -/
theorem eraseAt_lookups (base : ∃ v, s.map.get? ⊥ = some v) (stored : s.map.get? k = some v) :
    ∃ s', eraseAt s (k : WithTop K) = some s' ∧
      ∀ j, s'.map.get? j = if j = k ∧ j ≠ ⊥ then none else s.map.get? j := by
  by_cases bottom : k = ⊥
  · refine ⟨s, by simp [eraseAt, begin_eq_bot base, bottom], fun j => (if_neg ?_).symm⟩
    rintro ⟨rfl, other⟩
    exact other bottom
  · refine ⟨_, by simp [eraseAt, begin_eq_bot base, bottom, clearCache, first_coe stored]; rfl,
      fun j => ?_⟩
    rw [OrderedMap.get?_erase]
    congr 1
    apply propext
    exact ⟨fun here => ⟨here, here ▸ bottom⟩, fun both => both.1⟩

theorem eraseAt_correct (useCache : Bool) (kept : Kept s) (stored : s.map.get? k = some v) :
    Correct useCache s (.eraseAt (k : WithTop K)) := by
  obtain ⟨s', run, lookups⟩ := eraseAt_lookups kept.base stored
  refine ⟨.nothing, s', by simp [perform, run], ?_, trivial⟩
  refine performs_of_removes lookups (fun j _ => ?_) (by simp)
  rw [Names, WithTop.coe_eq_coe]

theorem erase_correct (useCache : Bool) (s : State K V) (k : K) :
    Correct useCache s (.erase k) := by
  by_cases bottom : k = ⊥
  · have same : erase s k = (0, s) := by rw [erase, if_pos bottom]
    have lookups (j : K) : s.map.get? j = if j = k ∧ j ≠ ⊥ then none else s.map.get? j := by
      rw [if_neg]
      rintro ⟨rfl, other⟩
      exact other bottom
    refine ⟨.count 0, s, by simp [perform, same],
      performs_of_removes lookups (fun j _ => Iff.rfl) (by simp), 0, rfl, by simp, ?_⟩
    rw [removed_of_removes lookups]
    simp [bottom]
  · have same : erase s k = ((s.map.get? k).isSome.toNat,
        { clearCache s with map := (s.map.erase k).1 }) := by
      rw [erase, if_neg bottom]
      rfl
    have lookups := s.map.get?_erase k
    refine ⟨_, _, by simp [perform, same]; exact ⟨rfl, rfl⟩,
      performs_of_removes lookups (fun j _ => ?_) (by simp), _, rfl, ?_, ?_⟩
    · exact ⟨fun here => ⟨here, here ▸ bottom⟩, fun both => both.1⟩
    · exact Bool.toNat_le _
    · rw [removed_of_removes lookups]
      cases stored : s.map.get? k <;> simp [stored]

/-- The base entry is in front of each other one. -/
theorem next_bot_le_iff {j : K} (stored : s.map.get? j = some v) :
    s.map.next ⊥ ≤ (j : WithTop K) ↔ j ≠ ⊥ := by
  have before : (j : WithTop K) < s.map.next ⊥ ↔ j ≤ ⊥ := OrderedMap.lt_upperBound_iff stored
  rw [← not_lt, not_congr before, le_bot_iff]

/-- The empty range in front of the base is not carried out. -/
theorem eraseRange_begin (useCache : Bool) (kept : Kept s) :
    perform useCache s (.eraseRange s.map.begin s.map.begin) = none := by
  obtain ⟨next, above⟩ := increment_begin kept.base
  have crossed : s.map.eraseRange (s.map.next ⊥) s.map.begin = none := by
    rw [OrderedMap.eraseRange, if_neg]
    rintro ⟨-, -, ordered⟩
    rw [begin_eq_bot kept.base] at ordered
    exact ordered.not_gt above
  simp [perform, eraseRange, next, crossed]

theorem eraseRange_correct_iff (useCache : Bool) (kept : Kept s) (valid1 : s.map.Valid q1)
    (valid2 : s.map.Valid q2) (ordered : q1 ≤ q2) :
    Correct useCache s (.eraseRange q1 q2) ↔ ¬(q1 = s.map.begin ∧ q2 = s.map.begin) := by
  obtain ⟨next, above⟩ := increment_begin kept.base
  have begin_eq := begin_eq_bot kept.base
  by_cases first : q1 = s.map.begin
  · by_cases last : q2 = s.map.begin
    · refine iff_of_false ?_ (not_not.mpr ⟨first, last⟩)
      rintro ⟨result, s', run, -⟩
      rw [first, last, eraseRange_begin _ kept] at run
      cases run
    · refine iff_of_true ?_ fun both => last both.2
      have valid : s.map.Valid (s.map.next ⊥) := OrderedMap.valid_upperBound s.map ⊥
      have upTo : s.map.next ⊥ ≤ q2 := by
        obtain rfl | ⟨e, inside, rfl⟩ := valid2
        · exact le_top
        · rw [next_bot_le_iff (OrderedMap.get?_eq_some_iff.mpr inside)]
          rintro bottom
          exact last (by rw [begin_eq, bottom])
      obtain ⟨map, run, lookups⟩ := OrderedMap.eraseRange_eq_some valid valid2 upTo
      refine ⟨.nothing, clearCache { s with map }, by simp [perform, eraseRange, first, next, run],
        performs_of_removes lookups (fun j stored => ?_) (by simp), trivial⟩
      obtain ⟨w, stored⟩ := Option.isSome_iff_exists.mp stored
      have least : q1 ≤ (j : WithTop K) := by
        rw [first, begin_eq]
        exact WithTop.coe_le_coe.mpr bot_le
      rw [next_bot_le_iff stored, Names]
      exact ⟨fun both => ⟨⟨least, both.2⟩, both.1⟩, fun both => ⟨both.2, both.1.2⟩⟩
  · refine iff_of_true ?_ fun both => first both.1
    obtain ⟨map, run, lookups⟩ := OrderedMap.eraseRange_eq_some valid1 valid2 ordered
    refine ⟨.nothing, clearCache { s with map }, by simp [perform, eraseRange, first, run],
      performs_of_removes lookups (fun j _ => ?_) (by simp), trivial⟩
    rw [Names, iff_self_and]
    rintro ⟨least, -⟩ rfl
    refine first (le_antisymm ?_ ?_)
    · rwa [begin_eq]
    · rw [begin_eq]
      obtain rfl | ⟨e, inside, rfl⟩ := valid1
      · exact le_top
      · exact WithTop.coe_le_coe.mpr bot_le

theorem clear_correct (useCache : Bool) (kept : Kept s) :
    Correct useCache s (.clear : Op K V) := by
  obtain ⟨next, -⟩ := increment_begin kept.base
  have valid : s.map.Valid (s.map.next ⊥) := OrderedMap.valid_upperBound s.map ⊥
  obtain ⟨map, run, lookups⟩ := OrderedMap.eraseRange_eq_some valid (.inl rfl) le_top
  refine ⟨.nothing, clearCache { s with map }, by simp [perform, clear, next, run],
    performs_of_removes lookups (fun j stored => ?_) (by simp), trivial⟩
  obtain ⟨w, stored⟩ := Option.isSome_iff_exists.mp stored
  rw [next_bot_le_iff stored, Names]
  simp

/-- `remove` answers true, also where it has found the base. -/
theorem remove_correct_iff (useCache : Bool) (kept : Kept s) (k : K) :
    Correct useCache s (.remove k : Op K V) ↔
      ∃ j v, s.map.get? j = some v ∧ j ≠ ⊥ ∧ j ≤ k := by
  obtain ⟨r, t, found, greatest, after, map⟩ := select_spec useCache kept k
  obtain ⟨v, stored⟩ := greatest.stored
  obtain ⟨s', run, lookups⟩ := eraseAt_lookups (s := clearCache t) after.base (map ▸ stored)
  have lookups (j : K) : s'.map.get? j = if j = r ∧ j ≠ ⊥ then none else s.map.get? j := by
    rw [lookups, clearCache, map]
  have performed : perform useCache s (.remove k) = some (.flag true, s') := by
    simp [perform, remove, found, run]
  have covers : (∃ j v, s.map.get? j = some v ∧ j ≠ ⊥ ∧ j ≤ k) ↔ r ≠ ⊥ := by
    constructor
    · rintro ⟨j, w, there, other, below⟩ rfl
      exact other (le_bot_iff.mp (greatest.greatest j w there below))
    · exact fun other => ⟨r, v, stored, other, greatest.below⟩
  have removed : Removed s.map s'.map ↔ r ≠ ⊥ := by
    rw [removed_of_removes lookups]
    constructor
    · rintro ⟨j, -, rfl, other⟩
      exact other
    · exact fun other => ⟨r, by rw [stored]; rfl, rfl, other⟩
  rw [covers, ← removed]
  constructor
  · rintro ⟨result, s'', performed', -, removed', rfl, exact_flag⟩
    rw [performed] at performed'
    cases performed'
    exact exact_flag.mp rfl
  · intro gone
    refine ⟨.flag true, s', performed, performs_of_removes lookups (fun j _ => ?_) (by simp),
      true, rfl, by simp [gone]⟩
    rw [Names]
    exact and_congr_left fun _ => ⟨fun here => here ▸ greatest, fun there => there.unique greatest⟩

theorem select_correct (useCache : Bool) (kept : Kept s) (k : K) :
    Correct useCache s (.select k : Op K V) := by
  obtain ⟨r, s', run, -, -, map⟩ := select_spec useCache kept k
  refine ⟨.iterator r, s', by simp [perform, run], ⟨fun j names => names.elim, fun j _ _ => ?_,
    fun j u same => ?_⟩, trivial⟩
  · rw [map]
  · cases same

end Mutators

section Runs

variable {s s' : State K V} {op : Op K V} {result : Result K} {useCache : Bool} {v : V}
  {history : List (Op K V × Result K)}

theorem perform_kept (kept : Kept s) (may : admits s op = true)
    (performed : perform useCache s op = some (result, s')) : Kept s' := by
  have by_spec (may : enabled s op = true) : Kept s' := by
    obtain ⟨result', s'', performed', kept'⟩ := perform_spec useCache kept may
    obtain ⟨-, rfl⟩ := Prod.mk.inj (Option.some.inj (performed'.symm.trans performed))
    exact kept'
  cases op with
  | eraseRange q1 q2 =>
    obtain ⟨⟨valid1, valid2⟩, ordered⟩ : (s.map.Valid q1 ∧ s.map.Valid q2) ∧ q1 ≤ q2 := by
      simpa [admits] using may
    obtain rfl | strict := ordered.eq_or_lt
    · have other : q1 ≠ s.map.begin := by
        rintro rfl
        rw [eraseRange_begin _ kept] at performed
        cases performed
      have behind : ((⊥ : K) : WithTop K) < q1 := by
        rw [begin_eq_bot kept.base] at other
        obtain rfl | ⟨e, inside, rfl⟩ := valid1
        · exact WithTop.coe_lt_top ⊥
        · exact WithTop.coe_lt_coe.mpr (bot_lt_iff_ne_bot.mpr fun same => other (by rw [same]))
      obtain ⟨map, run, kept'⟩ := range_spec kept.base valid1 valid2 le_rfl behind
      simp only [perform, eraseRange, if_neg other, run, Option.bind_eq_bind, Option.bind_some,
        Option.pure_def, Option.map_some, Option.some.injEq, Prod.mk.injEq] at performed
      exact performed.2 ▸ kept'
    · exact by_spec (by simp [enabled, valid1, valid2, strict])
  | _ => exact by_spec may

theorem mutators_kept (run : (mutators K V useCache).Run (new v) history s) : Kept s := by
  apply run.state_invariant (P := Kept)
  · exact clearCache_kept ⟨v, by simp⟩
  · intro s op result s' kept step
    obtain ⟨may, performed⟩ : admits s op = true ∧ perform useCache s op = some (result, s') := by
      simpa [mutators] using step
    exact perform_kept kept may performed

/-- In each state that is reached, a mutator does what its name says exactly if it is not `remove`
with the base for its entry, and not the empty range in front of the base. -/
theorem correct_iff (run : (mutators K V useCache).Run (new v) history s)
    (may : admits s op = true) : Correct useCache s op ↔ Covers s op := by
  have kept := mutators_kept run
  cases op with
  | append k v => exact iff_of_true (append_correct useCache s k v) trivial
  | remove k => exact remove_correct_iff useCache kept k
  | eraseAt q =>
    cases q with
    | top => simp [admits, enabled, first] at may
    | coe k =>
      cases stored : s.map.get? k with
      | none => simp [admits, enabled, first, stored] at may
      | some w => exact iff_of_true (eraseAt_correct useCache kept stored) trivial
  | eraseRange q1 q2 =>
    obtain ⟨⟨valid1, valid2⟩, ordered⟩ : (s.map.Valid q1 ∧ s.map.Valid q2) ∧ q1 ≤ q2 := by
      simpa [admits] using may
    exact eraseRange_correct_iff useCache kept valid1 valid2 ordered
  | erase k => exact iff_of_true (erase_correct useCache s k) trivial
  | clear => exact iff_of_true (clear_correct useCache kept) trivial
  | select k => exact iff_of_true (select_correct useCache kept k) trivial

/-- An entry behind the base is removed. -/
theorem correct_remove : ∃ history s, (mutators ℕ ℕ true).Run (new 0) history s ∧
    Correct true s (.remove 5 : Op ℕ ℕ) := by
  have step : (mutators ℕ ℕ true).step (new 0) (.append 3 1) =
      some (.flag true, (append (new 0) 3 1).2) := rfl
  refine ⟨_, _, .single step, (correct_iff (.single step) rfl).mpr ⟨3, 1, rfl, ?_, ?_⟩⟩
  · decide
  · decide

/-- `remove` answers true with only the base there, and the empty range in front of it is lost. -/
theorem not_correct_base : ∃ s, (mutators ℕ ℕ true).Run (new 0) [] s ∧
    ¬Correct true s (.remove 5 : Op ℕ ℕ) ∧
    admits s (.eraseRange s.map.begin s.map.begin : Op ℕ ℕ) = true ∧
    ¬Correct true s (.eraseRange s.map.begin s.map.begin : Op ℕ ℕ) := by
  have kept : Kept (new 0 : State ℕ ℕ) := clearCache_kept ⟨0, by simp⟩
  refine ⟨new 0, .nil, ?_, by decide, ?_⟩
  · rw [remove_correct_iff true kept]
    rintro ⟨j, v, stored, other, -⟩
    rw [new, clearCache, OrderedMap.get?_singleton] at stored
    simp_all
  · rintro ⟨result, s', performed, -⟩
    rw [eraseRange_begin _ kept] at performed
    cases performed

end Runs

end Crs.Regions.Tracer
