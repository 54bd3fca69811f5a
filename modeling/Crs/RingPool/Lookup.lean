import Crs.Foundation.OrderedBag
import Crs.RingPool.Intensity
import Crs.RingPool.Journal
import Mathlib.Data.Prod.Lex

/-!
# Looking up field states

The index of a core is a multiset of pointers, in the order of the field states that they point
to. It leads from a point to the record of its field, and from a field to the place of its first
point. A comparison follows both pointers.

A lookup is one step here; the source holds the mutex of the index all the time. The destructor
deletes the records of the index, and the record of the field that is not yet in it.
-/

namespace Crs.RingPool

open Foundation

/-- `cFieldState`, with an exact mass. -/
structure FieldState where
  npilot : UInt16
  mass : ℚ

namespace FieldState

/-- Ascending order by mass and pilot number. -/
instance : LinearOrder FieldState :=
  LinearOrder.lift' (fun state => toLex (state.mass, state.npilot.toNat)) fun a b same => by
    obtain ⟨mass, npilot⟩ := Prod.mk.inj (toLex_inj.mp same)
    cases a
    cases b
    exact congrArg₂ FieldState.mk (UInt16.toNat_inj.mp npilot) mass

theorem lt_iff {a b : FieldState} :
    a < b ↔ a.mass < b.mass ∨ a.mass = b.mass ∧ a.npilot < b.npilot :=
  Prod.Lex.toLex_lt_toLex

end FieldState

namespace DAQCore

variable {F : Type}

/-- The pointers in the index with their records, the last one that was inserted first. -/
def entries (x : DAQCore F) : Option (List (ℕ × FieldStateRec F)) :=
  x.fieldIndex.mapM fun fsr => (x.records fsr).map fun found => (fsr, found)

def state (e : ℕ × FieldStateRec F) : F := e.2.state

/-- `_fieldIndex`, in its order. -/
def orderedIndex [LinearOrder F] (x : DAQCore F) : Option (List (ℕ × FieldStateRec F)) :=
  x.entries.map (OrderedBag.ofList state)

def nFieldIndexes (x : DAQCore F) : ℕ := x.fieldIndex.length

variable {D : Type} {x x' : DAQCore F} {fsr : ℕ} {found : FieldStateRec F}
  {es : List (ℕ × FieldStateRec F)}

/-- The pointers are those of the index, and lead to their records. -/
structure Entries (x : DAQCore F) (es : List (ℕ × FieldStateRec F)) : Prop where
  pointers : es.map Prod.fst = x.fieldIndex
  records : ∀ e ∈ es, x.records e.1 = some e.2

theorem entries_eq_some_iff : x.entries = some es ↔ Entries x es := by
  have general (l : List ℕ) :
      l.mapM (fun fsr => (x.records fsr).map fun found => (fsr, found)) = some es ↔
        es.map Prod.fst = l ∧ ∀ e ∈ es, x.records e.1 = some e.2 := by
    induction l generalizing es with
    | nil => cases es <;> simp
    | cons r l ih =>
      simp only [List.mapM_cons, Option.bind_eq_bind, Option.bind_eq_some_iff,
        Option.map_eq_some_iff, Option.pure_def, Option.some.injEq]
      constructor
      · rintro ⟨_, ⟨found, at_r, rfl⟩, rest, looked, rfl⟩
        obtain ⟨rfl, later⟩ := ih.mp looked
        exact ⟨rfl, List.forall_mem_cons.mpr ⟨at_r, later⟩⟩
      · rintro ⟨pointers, records⟩
        cases es with
        | nil => cases pointers
        | cons e rest =>
          obtain ⟨rfl, more⟩ := List.cons.inj pointers
          obtain ⟨here, later⟩ := List.forall_mem_cons.mp records
          exact ⟨e, ⟨e.2, here, rfl⟩, rest, ih.mpr ⟨more, later⟩, rfl⟩
  rw [entries, general]
  exact ⟨fun ⟨pointers, records⟩ => ⟨pointers, records⟩,
    fun all => ⟨all.pointers, all.records⟩⟩

theorem exists_entries (there : ∀ fsr ∈ x.fieldIndex, (x.records fsr).isSome) :
    ∃ es, Entries x es := by
  have general (l : List ℕ) (there : ∀ fsr ∈ l, (x.records fsr).isSome) :
      ∃ es : List (ℕ × FieldStateRec F),
        es.map Prod.fst = l ∧ ∀ e ∈ es, x.records e.1 = some e.2 := by
    induction l with
    | nil => exact ⟨[], rfl, nofun⟩
    | cons r l ih =>
      obtain ⟨here, later⟩ := List.forall_mem_cons.mp there
      obtain ⟨found, at_r⟩ := Option.isSome_iff_exists.mp here
      obtain ⟨es, rfl, records⟩ := ih later
      exact ⟨(r, found) :: es, rfl, List.forall_mem_cons.mpr ⟨at_r, records⟩⟩
  obtain ⟨es, pointers, records⟩ := general x.fieldIndex there
  exact ⟨es, pointers, records⟩

theorem Entries.orderedIndex [LinearOrder F] (all : Entries x es) :
    x.orderedIndex = some (OrderedBag.ofList state es) := by
  rw [DAQCore.orderedIndex, entries_eq_some_iff.mpr all, Option.map_some]

theorem Entries.exists_mem (all : Entries x es) (indexed : fsr ∈ x.fieldIndex)
    (there : x.records fsr = some found) : (fsr, found) ∈ es := by
  rw [← all.pointers] at indexed
  obtain ⟨e, member, rfl⟩ := List.mem_map.mp indexed
  obtain rfl := Option.some.inj ((all.records e member).symm.trans there)
  exact member

/-- `_release` finds the pointer among those with its field state, and takes it out. -/
theorem Entries.release [LinearOrder F] (all : Entries x es) (nodup : x.fieldIndex.Nodup)
    {ip : IntensityPoint D} (link : ip.link = some fsr) (indexed : fsr ∈ x.fieldIndex)
    (there : x.records fsr = some found) : ∃ x', x.release ip = some x' ∧
      (fsr, found) ∈ OrderedBag.equalRange state found.state (OrderedBag.ofList state es) ∧
      x'.orderedIndex = some ((OrderedBag.ofList state es).filter fun e => e.1 ≠ fsr) := by
  refine ⟨_, by rw [DAQCore.release, link]; exact congrArg (Option.map _) there, ?_, ?_⟩
  · rw [OrderedBag.sorted_ofList.equalRange_eq]
    exact List.mem_filter.mpr ⟨OrderedBag.mem_ofList.mpr (all.exists_mem indexed there),
      decide_eq_true rfl⟩
  · rw [← OrderedBag.ofList_filter]
    refine Entries.orderedIndex ⟨?_, fun e member => ?_⟩
    · show (es.filter _).map Prod.fst = x.fieldIndex.erase fsr
      rw [nodup.erase_eq_filter, ← all.pointers, List.filter_map]
      exact congrArg (List.map Prod.fst) (List.filter_congr fun e _ => decide_not)
    · obtain ⟨inside, other⟩ := List.mem_filter.mp member
      show Function.update x.records fsr none e.1 = some e.2
      rw [Function.update_of_ne (of_decide_eq_true other)]
      exact all.records e inside

end DAQCore

namespace DAQ

variable {D F : Type}

inductive NotFound where
  | notFound
  deriving DecidableEq

variable (g : BitMaskCalculator) (s : DAQ D F)

/-- `_make_iter`, for the link of an entry. -/
def makeIter (e : ℕ × FieldStateRec F) : Iterator := ⟨UInt64.ofNat e.2.link⟩

/-- `convert (ti)`: the pointer that the iterator stands for, or the end. A search in an empty
index compares nothing. -/
def convertTime [LinearOrder F] (ti : Iterator) : Option (Option ℕ) := do
  let point ← s.record g ti
  let index ← s.ring.client.orderedIndex
  if index.isEmpty then return none
  let rec2find ← point.link
  let found ← s.ring.client.records rec2find
  let iRange := OrderedBag.equalRange DAQCore.state found.state index
  return (iRange.find? fun e => e.1 == rec2find).map Prod.fst

/-- `convert (mi)`. -/
def convertMass (mi : ℕ) : Option Iterator :=
  (s.ring.client.records mi).map fun found => makeIter (mi, found)

/-- The loop of `getIntensityByMass`. -/
def later (mti : Iterator) (e : ℕ × FieldStateRec F) : Iterator :=
  if s.ring.lt g mti (makeIter e) then makeIter e else mti

/-- `mti` at the end of `getIntensityByMass`. -/
def seek [LinearOrder F] (rec2find : F) : Option (Except NotFound Iterator) := do
  let index ← s.ring.client.orderedIndex
  match OrderedBag.equalRange DAQCore.state rec2find index with
  | [] =>
      match OrderedBag.lowerBound DAQCore.state rec2find index with
      | [] => return .error .notFound
      | first :: _ => return .ok (makeIter first)
  | first :: others => return .ok (others.foldl (s.later g) (makeIter first))

/-- The data that `mti` points to. -/
def soughtData [LinearOrder F] (rec2find : F) : Option (Except NotFound D) := do
  match ← s.seek g rec2find with
  | .error e => return .error e
  | .ok mti => (s.record g mti).map fun point => .ok point.data

def getIntensityByMass {nData : ℕ} (s : DAQ (Sample nData) FieldState) (nChannel : Fin nData)
    (mass : ℚ) : Option (Except NotFound ℚ) :=
  (s.soughtData g ⟨UInt16.ofNat nChannel, mass⟩).map fun sought =>
    sought.map fun data => data.intensity nChannel

variable {g} {s} {e : ℕ × FieldStateRec F} {l es : List (ℕ × FieldStateRec F)}
  {w : List (Option (ℕ × F) × D)} {i j fsr fsr' : ℕ} {state state' key : F} {data data' : D}

/-- The loop ends at the latest of the places. -/
theorem foldl_later (e : ℕ × FieldStateRec F) (l : List (ℕ × FieldStateRec F)) :
    ∃ last ∈ e :: l, l.foldl (s.later g) (makeIter e) = makeIter last ∧
      ∀ e' ∈ e :: l, s.ring.distance g (makeIter e') ≤ s.ring.distance g (makeIter last) := by
  induction l generalizing e with
  | nil => exact ⟨e, List.mem_cons_self, rfl, by simp⟩
  | cons next l ih =>
    rw [List.foldl_cons, later]
    by_cases less : s.ring.distance g (makeIter e) < s.ring.distance g (makeIter next)
    · obtain ⟨last, member, loops, most⟩ := ih next
      rw [if_pos (show s.ring.lt g (makeIter e) (makeIter next) = true from decide_eq_true less)]
      refine ⟨last, List.mem_cons_of_mem _ member, loops, List.forall_mem_cons.mpr ⟨?_, most⟩⟩
      exact less.le.trans (most next List.mem_cons_self)
    · obtain ⟨last, member, loops, most⟩ := ih e
      have here := most e List.mem_cons_self
      rw [if_neg (show ¬s.ring.lt g (makeIter e) (makeIter next) = true from
        fun holds => less (of_decide_eq_true holds))]
      refine ⟨last, ?_, loops, fun e' inside => ?_⟩
      · obtain rfl | inside := List.mem_cons.mp member
        · exact List.mem_cons_self
        · exact List.mem_cons_of_mem _ (List.mem_cons_of_mem _ inside)
      · obtain rfl | inside := List.mem_cons.mp inside
        · exact here
        · obtain rfl | inside := List.mem_cons.mp inside
          · exact (not_lt.mp less).trans here
          · exact most e' (List.mem_cons_of_mem _ inside)

/-- The entry `i` is the first one that is left of its field. -/
structure Begins (w : List (Option (ℕ × F) × D)) (i fsr : ℕ) (state : F) (data : D) : Prop where
  entry : w[i]? = some (some (fsr, state), data)
  first : ∀ j < i, ∀ e, w[j]? = some e → e.1.map Prod.fst ≠ some fsr

/-- What a lookup is to give: the last begin of a field in this state; without one, the first
begin of a field in the least state above; or nothing. -/
inductive Sought [LinearOrder F] (w : List (Option (ℕ × F) × D)) (key : F) :
    Except NotFound D → Prop where
  | latest {i fsr : ℕ} {data : D} : Begins w i fsr key data →
      (∀ j fsr' data', Begins w j fsr' key data' → j ≤ i) → Sought w key (.ok data)
  | above {i fsr : ℕ} {state : F} {data : D} : Begins w i fsr state data → key < state →
      (∀ j fsr' state' data', Begins w j fsr' state' data' →
        state' < key ∨ state < state' ∨ state = state' ∧ i ≤ j) → Sought w key (.ok data)
  | missing : (∀ j fsr' state' data', Begins w j fsr' state' data' → state' < key) →
      Sought w key (.error .notFound)

theorem Begins.index_le (begins : Begins w i fsr state data)
    (here : w[j]? = some (some (fsr, state'), data')) : i ≤ j :=
  not_lt.mp fun less => begins.first j less _ here rfl

/-- The first entry of a field. -/
theorem exists_begins (linked : some fsr ∈ w.map fun e => e.1.map Prod.fst) :
    ∃ state data, Begins w ((w.map fun e => e.1.map Prod.fst).idxOf (some fsr)) fsr state data := by
  have below := List.idxOf_lt_length_of_mem linked
  have here := List.getElem_idxOf below
  have before : ∀ j < (w.map fun e => e.1.map Prod.fst).idxOf (some fsr), ∀ e,
      w[j]? = some e → e.1.map Prod.fst ≠ some fsr := by
    intro j less e at_j same
    obtain ⟨within, rfl⟩ := List.getElem?_eq_some_iff.mp at_j
    have differs := List.not_of_lt_findIdx less
    simp [same] at differs
  generalize (w.map fun e => e.1.map Prod.fst).idxOf (some fsr) = i at *
  rw [List.length_map] at below
  rw [List.getElem_map, Option.map_eq_some_iff] at here
  obtain ⟨⟨number, state⟩, field, rfl⟩ := here
  refine ⟨state, w[i].2, ?_, before⟩
  rw [List.getElem?_eq_getElem below, ← field]

section Window

open Crs.RingPool.Ring DAQCore

variable [LinearOrder F] {cfg : Config} {zero : IntensityPoint D} {p r : ℕ}
  {history : List (Call D F × Seen (IntensityPoint D))} {settled : List (IntensityPoint D)}
  (shape : cfg.metrix.Shape p r) (large : cfg.metrix.nPoolSize = 2 ^ p)
  (few : cfg.memPools < 2 ^ r) (held : Inv cfg p r (history.map Prod.snd) settled s)
  (boundary : Boundary s) (run : (machine cfg.metrix).Run (new cfg zero) history s)

include large held boundary run

/-- The records in the index are those of the window, each with the place of its first entry. -/
theorem Inv.indexed_iff : fsr ∈ s.ring.client.fieldIndex ↔
    some fsr ∈ (window cfg history).map fun e => e.1.map Prod.fst := by
  rw [← held.links_eq large boundary run]
  exact ⟨fun indexed => (held.filed.filed fsr indexed).1, held.filed.linked fsr⟩

theorem Inv.nFieldIndexes_eq : s.ring.client.nFieldIndexes =
    ((window cfg history).filterMap fun e => e.1.map Prod.fst).dedup.length := by
  refine List.Perm.length_eq ((List.perm_ext_iff_of_nodup held.filed.nodup
    (List.nodup_dedup _)).mpr fun fsr => ?_)
  rw [held.indexed_iff large boundary run, List.mem_dedup, List.mem_filterMap, List.mem_map]

include shape few

/-- The place of an entry is the first one of its field in the window. -/
theorem Inv.exists_begins (all : Entries s.ring.client es) (member : e ∈ es) :
    ∃ data, Begins (window cfg history) (s.ring.distance cfg.metrix (makeIter e)) e.1
      (DAQCore.state e) data := by
  have indexed : e.1 ∈ s.ring.client.fieldIndex := all.pointers ▸ List.mem_map_of_mem member
  obtain ⟨linked, found, there, position⟩ := held.filed.filed e.1 indexed
  obtain rfl := Option.some.inj (there.symm.trans (all.records e member))
  rw [held.links_eq large boundary run] at linked position
  obtain ⟨state, data, begins⟩ := DAQ.exists_begins linked
  obtain ⟨-, found, at_fsr, rfl⟩ := held.exists_record large boundary run
    (List.mem_of_getElem? begins.entry)
  obtain rfl := Option.some.inj (there.symm.trans at_fsr)
  have few' := distance_lt s.ring shape s.ring.endIter
  rw [distance_end shape (held.ring.bounded shape),
    held.size_window shape large few boundary run] at few'
  have below := (List.getElem?_eq_some_iff.mp begins.entry).1
  have place := held.ring.position_eq shape boundary.2 (makeIter e)
  rw [makeIter, UInt64.toNat_ofNat', Nat.mod_mod_of_dvd _ (pow_dvd_pow 2 shape.fits),
    position] at place
  have same := (Nat.ModEq.add_left_cancel' _ place).eq_of_lt_of_lt (below.trans few')
    (distance_lt s.ring shape (makeIter e))
  exact ⟨data, same ▸ begins⟩

omit shape few in
/-- Fields begin in the order of their numbers. -/
theorem Inv.begins_le (begins : Begins (window cfg history) i fsr state data)
    (begins' : Begins (window cfg history) j fsr' state' data') (older : fsr ≤ fsr') : i ≤ j := by
  by_contra behind
  have less : j < i := not_le.mp behind
  have sorted := held.filed.sorted
  rw [held.links_eq large boundary run, List.pairwise_map, List.pairwise_iff_getElem] at sorted
  obtain ⟨below, here⟩ := List.getElem?_eq_some_iff.mp begins.entry
  obtain ⟨below', here'⟩ := List.getElem?_eq_some_iff.mp begins'.entry
  have ages := sorted j i below' below less
  rw [here, here'] at ages
  have newer : fsr' ≤ fsr := Nat.le_of_succ_le_succ ages
  obtain rfl := le_antisymm older newer
  exact begins.first j less _ begins'.entry rfl

omit shape few in
/-- A field of the window is in the index, in its state. -/
theorem Inv.exists_entry (all : Entries s.ring.client es)
    (begins : Begins (window cfg history) i fsr state data) :
    ∃ e ∈ es, e.1 = fsr ∧ DAQCore.state e = state := by
  obtain ⟨indexed, found, there, rfl⟩ := held.exists_record large boundary run
    (List.mem_of_getElem? begins.entry)
  exact ⟨(fsr, found), all.exists_mem indexed there, rfl, rfl⟩

omit few in
theorem Inv.record_makeIter (begins : Begins (window cfg history)
    (s.ring.distance cfg.metrix (makeIter e)) fsr state data) :
    (s.record cfg.metrix (makeIter e)).map (fun point => Except.ok point.data) =
      some (Except.ok data : Except NotFound D) := by
  rw [held.record_eq shape large boundary run begins.entry]
  rfl

/-- What a lookup gives. -/
theorem Inv.exists_sought (key : F) : ∃ answer, s.soughtData cfg.metrix key = some answer ∧
    Sought (window cfg history) key answer := by
  obtain ⟨es, all⟩ := exists_entries fun fsr indexed => by
    obtain ⟨-, found, there, -⟩ := held.filed.filed fsr indexed
    exact there ▸ rfl
  have newest : es.Pairwise fun a b => b.1 < a.1 := by
    have sorted := (run_journaled run).index
    rwa [← all.pointers, List.pairwise_map] at sorted
  have place {e : ℕ × FieldStateRec F} (member : e ∈ es) :=
    held.exists_begins shape large few boundary run all member
  have range : OrderedBag.equalRange DAQCore.state key (OrderedBag.ofList DAQCore.state es) =
      (es.filter fun e => DAQCore.state e = key).reverse := by
    rw [OrderedBag.sorted_ofList.equalRange_eq]
    exact OrderedBag.filter_ofList
  have inRange {e : ℕ × FieldStateRec F} :
      e ∈ (es.filter fun e => DAQCore.state e = key).reverse ↔
        e ∈ es ∧ DAQCore.state e = key := by
    rw [List.mem_reverse, List.mem_filter, decide_eq_true_iff]
  simp only [soughtData, seek, all.orderedIndex, Option.bind_eq_bind, Option.bind_some, range]
  cases found : (es.filter fun e => DAQCore.state e = key).reverse with
  | cons first others =>
    rw [found] at inRange
    obtain ⟨last, member, loops, most⟩ := foldl_later (g := cfg.metrix) (s := s) first others
    obtain ⟨inside, same⟩ := inRange.mp member
    obtain ⟨data, begins⟩ := place inside
    refine ⟨.ok data, ?_, .latest (same ▸ begins) fun j fsr' data' begins' => ?_⟩
    · have answer := held.record_makeIter shape large boundary run begins
      rw [← loops] at answer
      exact answer
    · obtain ⟨e', inside', rfl, same'⟩ := held.exists_entry large boundary run all begins'
      obtain ⟨data'', begins''⟩ := place inside'
      exact (begins'.index_le begins''.entry).trans (most e' (inRange.mpr ⟨inside', same'⟩))
  | nil =>
    have none {e : ℕ × FieldStateRec F} (member : e ∈ es) : DAQCore.state e ≠ key := by
      rw [found] at inRange
      exact fun same => nomatch inRange.mpr ⟨member, same⟩
    cases above : OrderedBag.lowerBound DAQCore.state key
        (OrderedBag.ofList DAQCore.state es) with
    | nil =>
      refine ⟨.error .notFound, rfl, .missing fun j fsr' state' data' begins' => ?_⟩
      obtain ⟨e', inside', rfl, rfl⟩ := held.exists_entry large boundary run all begins'
      rw [OrderedBag.sorted_ofList.lowerBound_eq, List.filter_eq_nil_iff] at above
      have less := above e' (OrderedBag.mem_ofList.mpr inside')
      rwa [decide_eq_true_iff, not_le] at less
    | cons first rest =>
      obtain ⟨inside, notLess, least, oldest⟩ :=
        OrderedBag.exists_least_above (a := first) (by rw [above, List.head?_cons])
      obtain ⟨data, begins⟩ := place inside
      refine ⟨.ok data, held.record_makeIter shape large boundary run begins,
        .above begins (lt_of_le_of_ne notLess (none inside).symm)
          fun j fsr' state' data' begins' => ?_⟩
      obtain ⟨e', inside', rfl, rfl⟩ := held.exists_entry large boundary run all begins'
      by_cases less : DAQCore.state e' < key
      · exact .inl less
      · obtain greater | same := (least e' inside' (not_lt.mp less)).lt_or_eq
        · exact .inr (.inl greater)
        · -- the oldest record of this state is the last one in the list
          have newer : first.1 ≤ e'.1 := by
            have sorted := newest.filter fun b => decide (DAQCore.state b = DAQCore.state first)
            obtain ⟨front, split⟩ := List.getLast?_eq_some_iff.mp oldest
            have member : e' ∈ front ++ [first] :=
              split ▸ List.mem_filter.mpr ⟨inside', decide_eq_true same.symm⟩
            rw [split] at sorted
            obtain earlier | here := List.mem_append.mp member
            · exact ((List.pairwise_append.mp sorted).2.2 e' earlier first
                List.mem_cons_self).le
            · rw [List.mem_singleton.mp here]
          exact .inr (.inr ⟨same, held.begins_le large boundary run begins begins' newer⟩)

/-- From a point to the record of its field, and from there to the first point of it. -/
theorem Inv.converts {ti : Iterator} (here : (window cfg history)[s.ring.distance cfg.metrix ti]? =
    some (some (fsr, state), data)) : s.convertTime cfg.metrix ti = some (some fsr) ∧
      ∃ ti' data', s.convertMass fsr = some ti' ∧
        Begins (window cfg history) (s.ring.distance cfg.metrix ti') fsr state data' := by
  obtain ⟨es, all⟩ := exists_entries fun fsr indexed => by
    obtain ⟨-, found, there, -⟩ := held.filed.filed fsr indexed
    exact there ▸ rfl
  obtain ⟨indexed, found, there, rfl⟩ := held.exists_record large boundary run
    (List.mem_of_getElem? here)
  have member : (fsr, found) ∈ es := all.exists_mem indexed there
  have inside : (fsr, found) ∈ OrderedBag.ofList DAQCore.state es :=
    OrderedBag.mem_ofList.mpr member
  refine ⟨?_, makeIter (fsr, found), ?_⟩
  · have inRange : (fsr, found) ∈ OrderedBag.equalRange DAQCore.state found.state
        (OrderedBag.ofList DAQCore.state es) := by
      rw [OrderedBag.sorted_ofList.equalRange_eq]
      exact List.mem_filter.mpr ⟨inside, decide_eq_true rfl⟩
    obtain ⟨e, finds⟩ := Option.isSome_iff_exists.mp
      (List.find?_isSome (p := fun (e : ℕ × FieldStateRec F) => e.1 == fsr) |>.mpr
        ⟨_, inRange, beq_self_eq_true fsr⟩)
    have test := List.find?_some finds
    have same : e.1 = fsr := beq_iff_eq.mp test
    rw [convertTime, held.record_eq shape large boundary run here]
    simp [all.orderedIndex, List.ne_nil_of_mem inside, Journal.point, there, finds, same]
  · obtain ⟨data', begins⟩ := held.exists_begins shape large few boundary run all member
    exact ⟨data', by rw [convertMass, there]; rfl, begins⟩

end Window

section Runs

open Crs.RingPool.Ring DAQCore

variable {cfg : Config}

private def sample (intensity : ℚ) : Sample 1 := ⟨0, fun _ => intensity⟩

end Runs

end DAQ

namespace DAQCore

variable {D F : Type*} {x : DAQCore F}

/-- `delete`; a record that is not there is a fault. -/
def deleteRecord (x : DAQCore F) (rec2Release : ℕ) : Option (DAQCore F) :=
  (x.records rec2Release).map fun _ =>
    { x with records := Function.update x.records rec2Release none }

/-- The destructor. -/
def destroy (x : DAQCore F) : Option (DAQCore F) := do
  let x ← x.fieldIndex.foldlM deleteRecord x
  let x := { x with fieldIndex := [] }
  match x.field with
  | some fsr => if x.newFieldState then x.deleteRecord fsr else some x
  | none => some x

theorem deleteRecord_eq {r : ℕ} (there : (x.records r).isSome) :
    x.deleteRecord r = some { x with records := Function.update x.records r none } := by
  obtain ⟨found, at_r⟩ := Option.isSome_iff_exists.mp there
  rw [deleteRecord, at_r, Option.map_some]

theorem foldlM_deleteRecord {rs : List ℕ} (nodup : rs.Nodup)
    (there : ∀ r ∈ rs, (x.records r).isSome) :
    rs.foldlM deleteRecord x =
      some { x with records := fun r => if r ∈ rs then none else x.records r } := by
  induction rs generalizing x with
  | nil => simp
  | cons r rs ih =>
    obtain ⟨once, others⟩ := List.nodup_cons.mp nodup
    have left : ∀ q ∈ rs, (Function.update x.records r none q).isSome := by
      intro q member
      have apart : q ≠ r := by
        rintro rfl
        exact once member
      rw [Function.update_of_ne apart]
      exact there q (List.mem_cons_of_mem _ member)
    rw [List.foldlM_cons, deleteRecord_eq (there r List.mem_cons_self), Option.bind_eq_bind,
      Option.bind_some, ih others left]
    congr 2
    funext q
    obtain rfl | apart := eq_or_ne q r
    · simp
    · simp [apart]

/-- The records of the index are different ones, and the record of the field is not among them as
long as it is new. -/
theorem Filed.destroy {capacity low : ℕ} {links : List (Option ℕ)}
    (filed : Filed capacity low links x) :
    ∃ x', x.destroy = some x' ∧ ∀ r, x'.records r = none := by
  have there : ∀ r ∈ x.fieldIndex, (x.records r).isSome := by
    intro r indexed
    obtain ⟨-, found, at_r, -⟩ := filed.filed r indexed
    exact at_r ▸ rfl
  rw [DAQCore.destroy, foldlM_deleteRecord filed.nodup there, Option.bind_eq_bind,
    Option.bind_some]
  by_cases isNew : x.newFieldState = true
  · obtain ⟨new, here, found, unlinked⟩ := filed.new isNew
    have unindexed : new ∉ x.fieldIndex := fun indexed =>
      unlinked (filed.filed new indexed).1
    simp only [here, isNew, if_true]
    rw [deleteRecord_eq (by simpa [unindexed] using found)]
    refine ⟨_, rfl, fun r => ?_⟩
    obtain rfl | apart := eq_or_ne r new
    · exact Function.update_self ..
    · simp only [Function.update_of_ne apart]
      split
      · rfl
      · next gone =>
        have waiting (there : (x.records r).isSome) : False :=
          (filed.deleted r there).elim gone fun isNew =>
            apart (Option.some.inj (isNew.2.symm.trans here))
        simpa using waiting
  · refine ⟨{ x with
      records := fun r => if r ∈ x.fieldIndex then none else x.records r
      fieldIndex := [] }, ?_, fun r => ?_⟩
    · cases x.field with
      | none => rfl
      | some fsr => exact if_neg isNew
    · dsimp only
      split
      · rfl
      · next gone =>
        have waiting (there : (x.records r).isSome) : False :=
          (filed.deleted r there).elim gone fun new => isNew new.1
        simpa using waiting

end DAQCore

namespace DAQ

open Crs.RingPool.Ring DAQCore

variable {D F : Type*} [BEq F] {cfg : Config} {zero : IntensityPoint D} {s : DAQ D F}
  {history : List (Call D F × Seen (IntensityPoint D))}

end DAQ

end Crs.RingPool
