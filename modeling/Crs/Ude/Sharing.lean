import Crs.Foundation.References
import Crs.Handle.Run
import Crs.Ude.SharedPackets

/-!
# Sharing as it is seen from outside

For the users of packets there is no counting: a packet is a reference to contents, a copy is a
second reference to the same contents, and contents that nobody refers to are of no interest.
`meaning` says this of a sequence of calls. The counted packets show exactly these contents, and
in the heap the arrays and counters are those of the packets that exist.

If nobody writes into contents that are shared, a packet may even be taken for a value.
-/

namespace Crs.Ude

open Foundation Handle

variable {A C H : Type}

/-- The bytes after a write, if it lies inside. -/
def written (offset : Nat) (data : List UInt8) (p : TalkPacket) : TalkPacket :=
  { p with contents := (Memory.write p.contents offset data).getD p.contents }

section Meaning

variable [DecidableEq H]

/-- What a call does to references. -/
def referred (r : References H TalkPacket) : SharedOp H A C → References H TalkPacket
  | .construct h how fresh _ _ =>
      match how.run fresh with
      | .ok p => r.create h p
      | .error _ => r
  | .copy h o | .assign h o => r.share h o
  | .write h offset data => r.modify h (written offset data)
  | .destroy h => r.drop h

def meaning (history : List (SharedOp H A C × Ended)) : References H TalkPacket :=
  history.foldl (fun r event => referred r event.1) (.empty H TalkPacket)

/-- What a call would do if each packet had contents of its own. -/
def alone (v : H → Option TalkPacket) : SharedOp H A C → H → Option TalkPacket
  | .construct h how fresh _ _ =>
      match how.run fresh with
      | .ok p => Function.update v h (some p)
      | .error _ => v
  | .copy h o | .assign h o => Function.update v h (v o)
  | .write h offset data => Function.update v h ((v h).map (written offset data))
  | .destroy h => Function.update v h none

def values (history : List (SharedOp H A C × Ended)) : H → Option TalkPacket :=
  history.foldl (fun v event => alone v event.1) fun _ => none

theorem meaning_snoc (history : List (SharedOp H A C × Ended)) (op : SharedOp H A C) (e : Ended) :
    meaning (history ++ [(op, e)]) = referred (meaning history) op := List.foldl_concat ..

theorem values_snoc (history : List (SharedOp H A C × Ended)) (op : SharedOp H A C) (e : Ended) :
    values (history ++ [(op, e)]) = alone (values history) op := List.foldl_concat ..

end Meaning

/-! ### The heap as that of handles -/

section Heaps

/-- What a packet counts, as a handle. -/
def SharedPacket.pointers (x : SharedPacket A C) : CHandle A C := ⟨x.contents, x.hcounter⟩

/-- The heap without the contents of the arrays. -/
def Heap.counted (m : Heap A C) : Handle.Memory A C := ⟨fun a => (m.arrays a).isSome, m.nlinks⟩

variable [DecidableEq A] [DecidableEq C] [DecidableEq H] [Fintype H]
  {link : H → Option (A × C)} {m : Heap A C} {h k : H} {x o : SharedPacket A C}

/-- The arrays that have a link are the same. -/
def Heap.Keeps (m : Heap A C) (link : H → Option (A × C)) (m' : Heap A C) : Prop :=
  ∀ j p, link j = some p → m'.arrays p.1 = m.arrays p.1

namespace SharedPacket

omit [DecidableEq H] in
/-- No link leads to an array that is deleted. -/
theorem keeps_of_deleted {a : A} {n : C → Option ℤ}
    (linked : Linked link none (⟨Function.update m.arrays a none, n⟩ : Heap A C).counted) :
    m.Keeps link ⟨Function.update m.arrays a none, n⟩ := by
  intro j q there
  obtain same | other := eq_or_ne q.1 a
  · have alive := linked.alive there
    simp [Heap.counted, same] at alive
  · exact Function.update_of_ne other none m.arrays

theorem unbind_spec (linked : Linked link none m.counted)
    (represents : x.pointers.Represents (link h)) :
    ∃ x' m', x.unbind m = some (x', m') ∧
      Linked (Function.update link h none) none m'.counted ∧
      m.Keeps (Function.update link h none) m' := by
  cases here : link h with
  | none =>
    have empty : x.contents = none := by simpa [here, pointers] using represents.object
    refine ⟨x, m, by simp [unbind, empty], ?_, fun _ _ _ => rfl⟩
    rwa [← here, Function.update_eq_self]
  | some p =>
    obtain ⟨object, hcounter⟩ := here ▸ represents
    have contents : x.contents = some p.1 := object
    have counter : x.hcounter = some p.2 := hcounter p rfl
    have value : m.nlinks p.2 = some (holders link p.1 : ℤ) := linked.nlinks_of_link here
    have alive : (m.arrays p.1).isSome := linked.alive here
    by_cases alone : holders link p.1 = 1
    · obtain ⟨bytes, there⟩ := Option.isSome_iff_exists.mp alive
      have deleted : Linked (Function.update link h none) none
          (⟨Function.update m.arrays p.1 none, Function.update m.nlinks p.2 none⟩ :
            Heap A C).counted := by
        have objects : (fun a => (Function.update m.arrays p.1 none a).isSome) =
            Function.update (fun a => (m.arrays a).isSome) p.1 false :=
          Function.comp_update Option.isSome m.arrays p.1 none
        have := linked.delete here alone
        simpa only [Heap.counted, objects] using this
      refine ⟨⟨0, none, none⟩, _, ?_, deleted, keeps_of_deleted deleted⟩
      simp [unbind, contents, counter, releasehandle, value, alone, Heap.deleteCounter, release,
        there]
    · have notZero : (holders link p.1 : ℤ) - 1 ≠ 0 := by
        have positive := holders_pos_iff.mpr ⟨h, p.2, here⟩
        omega
      refine ⟨x, ⟨m.arrays, Function.update m.nlinks p.2 (some ((holders link p.1 : ℤ) - 1))⟩, ?_,
        linked.release here alone, fun _ _ _ => rfl⟩
      simp [unbind, contents, counter, releasehandle, value, notZero]

omit [DecidableEq H] in
/-- Packets with one array have the same link. -/
theorem link_eq_of_contents (linked : Linked link none m.counted)
    (represents : x.pointers.Represents (link h)) (source : o.pointers.Represents (link k))
    (same : x.contents = o.contents) : link h = link k := by
  have objects : (link h).map Prod.fst = (link k).map Prod.fst := by
    rw [← represents.object, ← source.object]
    exact same
  cases here : link h with
  | none => simpa [here, eq_comm] using objects
  | some p =>
    cases there : link k with
    | none => simp [here, there] at objects
    | some q =>
      have first : p.1 = q.1 := by simpa [here, there] using objects
      rw [Prod.ext first ((linked.paired h k p q here there).mp first)]

/-- The packet gets the fields of the other one, or it has them already. -/
theorem assign_spec (linked : Linked link none m.counted)
    (represents : x.pointers.Represents (link h)) (source : o.pointers.Represents (link k))
    (held : (link k).isSome) :
    ∃ x' m', x.assign o m = some (x', m') ∧
      (x' = o ∨ x' = x ∧ m' = m ∧ link h = link k) ∧
      Linked (Function.update link h (link k)) none m'.counted ∧
      m.Keeps (Function.update link h (link k)) m' := by
  by_cases same : x.contents = o.contents
  · have equal := link_eq_of_contents linked represents source same
    refine ⟨x, m, if_pos same, .inr ⟨rfl, rfl, equal⟩, ?_, fun _ _ _ => rfl⟩
    rwa [← equal, Function.update_eq_self]
  · obtain ⟨q, there⟩ := Option.isSome_iff_exists.mp held
    have other : k ≠ h := by
      rintro rfl
      exact same (represents.object.trans source.object.symm)
    obtain ⟨y, m', run, released, kept⟩ := unbind_spec linked represents
    have still : Function.update link h none k = some q :=
      (Function.update_of_ne other none link).trans there
    have shared := released.share (Function.update_self h none link) still
    have value : m'.nlinks q.2 = some _ := released.nlinks_of_link still
    have counter : o.hcounter = some q.2 := source.hcounter q there
    rw [Function.update_idem, ← there] at shared
    refine ⟨o, ⟨m'.arrays, Function.update m'.nlinks q.2 _⟩, ?_, .inl rfl, shared, ?_⟩
    · simp [assign, same, run, addhandle, counter, value]
    · intro j p linkedTo
      obtain rfl | apart := eq_or_ne j h
      · rw [Function.update_self] at linkedTo
        exact kept k p ((Function.update_of_ne other none link).trans linkedTo)
      · rw [Function.update_of_ne apart] at linkedTo
        exact kept j p ((Function.update_of_ne apart none link).trans linkedTo)

end SharedPacket

/-- A new array with a new counter. -/
theorem create_spec {a : A} {c : C} (bytes : List UInt8) (linked : Linked link none m.counted)
    (empty : link h = none) (unused : m.arrays a = none) (uncounted : m.nlinks c = none) :
    ∃ m', (m.newCounter c 1).bind (fun m => m.newArray a bytes) = some m' ∧
      Linked (Function.update link h (some (a, c))) none m'.counted ∧
      m.Keeps link m' ∧ m'.arrays a = some bytes := by
  have dead : m.counted.objects a = false := by simp [Heap.counted, unused]
  have objects : (fun b => (Function.update m.arrays a (some bytes) b).isSome) =
      Function.update (fun b => (m.arrays b).isSome) a true :=
    Function.comp_update Option.isSome m.arrays a (some bytes)
  have owned := (linked.newObject dead).own empty uncounted
  refine ⟨⟨Function.update m.arrays a (some bytes), Function.update m.nlinks c (some 1)⟩, ?_, ?_,
    fun j p there => ?_, Function.update_self ..⟩
  · simp [Heap.newCounter, Heap.newArray, unused, uncounted]
  · rw [Heap.counted, objects]
    exact owned
  · have alive := linked.alive there
    have other : p.1 ≠ a := by
      rintro rfl
      simp [Heap.counted, unused] at alive
    exact Function.update_of_ne other _ m.arrays

end Heaps

/-! ### Calls -/

section Calls

/-- Two views that tell the same names apart still do after an update of both. -/
theorem agree_update {X Y : Type*} [DecidableEq H] {f : H → X} {g : H → Y}
    (agree : ∀ i j, f i = f j ↔ g i = g j) {h : H} {x : X} {y : Y}
    (fits : ∀ k, k ≠ h → (x = f k ↔ y = g k)) (i j : H) :
    Function.update f h x i = Function.update f h x j ↔
      Function.update g h y i = Function.update g h y j := by
  obtain rfl | notI := eq_or_ne i h
  · obtain rfl | notJ := eq_or_ne j i
    · simp
    · simpa [notJ] using fits j notJ
  · obtain rfl | notJ := eq_or_ne j h
    · simpa [notI, eq_comm] using fits i notI
    · simpa [notI, notJ] using agree i j

variable [DecidableEq A] [DecidableEq C] [Fintype H]
  {s : SharedPackets H A C} {link : H → Option (A × C)} {r : References H TalkPacket} {h k : H}

/-- The packets have these links, the heap belongs to them, and what the packets show is what
the references lead to. -/
structure Refers (s : SharedPackets H A C) (link : H → Option (A × C))
    (r : References H TalkPacket) : Prop where
  linked : Linked link none s.heap.counted
  absent : ∀ h, s.packet h = none ↔ link h = none
  represents : ∀ h x, s.packet h = some x → x.pointers.Represents (link h)
  value : ∀ h, s.value h = r.value h
  whole : ∀ h p, s.value h = some p → p.contents.length = p.size.toNat
  referred : ∀ h, r.ref h = none ↔ link h = none
  names : ∀ h k, r.ref h = r.ref k ↔ (link h).map Prod.fst = (link k).map Prod.fst

theorem Refers.exists_link (refers : Refers s link r) {x : SharedPacket A C}
    (here : s.packet h = some x) : ∃ p, link h = some p ∧ x.contents = some p.1 ∧
      s.value h = (s.heap.arrays p.1).map fun bytes => ⟨x.size, bytes⟩ := by
  obtain ⟨p, there⟩ := Option.ne_none_iff_exists'.mp
    (mt (refers.absent h).mpr (by simp [here]))
  have contents : x.contents = some p.1 := by
    simpa [there, SharedPacket.pointers] using (refers.represents h x here).object
  refine ⟨p, there, contents, ?_⟩
  cases array : s.heap.arrays p.1 <;> simp [SharedPackets.value, here, contents, array]

variable [DecidableEq H]

/-- One packet and one reference get other contents. -/
theorem Refers.update (refers : Refers s link r) {y : Option (SharedPacket A C)}
    {v : Option (A × C)} {m : Heap A C} {r' : References H TalkPacket} {n : Option ℕ}
    (linked : Linked (Function.update link h v) none m.counted)
    (kept : s.heap.Keeps (Function.update link h none) m) (absent : y = none ↔ v = none)
    (represents : ∀ x, y = some x → x.pointers.Represents v)
    (ref : r'.ref = Function.update r.ref h n) (referred : n = none ↔ v = none)
    (fits : ∀ k, k ≠ h → (n = r.ref k ↔ v.map Prod.fst = (link k).map Prod.fst))
    (others : ∀ k, k ≠ h → r'.value k = r.value k)
    (shown : (⟨Function.update s.packet h y, m⟩ : SharedPackets H A C).value h = r'.value h)
    (whole : ∀ p, r'.value h = some p → p.contents.length = p.size.toNat) :
    Refers ⟨Function.update s.packet h y, m⟩ (Function.update link h v) r' := by
  have same (k : H) (other : k ≠ h) :
      (⟨Function.update s.packet h y, m⟩ : SharedPackets H A C).value k = s.value k := by
    cases here : s.packet k with
    | none => simp [SharedPackets.value, other, here]
    | some x =>
      obtain ⟨p, there, contents, shows⟩ := refers.exists_link here
      have array := kept k p ((Function.update_of_ne other none link).trans there)
      rw [shows, ← array]
      cases still : m.arrays p.1 <;>
        simp [SharedPackets.value, other, here, contents, still]
  have value (k : H) :
      (⟨Function.update s.packet h y, m⟩ : SharedPackets H A C).value k = r'.value k := by
    obtain rfl | other := eq_or_ne k h
    · exact shown
    · rw [same k other, refers.value, others k other]
  refine ⟨linked, fun k => ?_, fun k x here => ?_, value, fun k p shows => ?_, fun k => ?_, ?_⟩
  · obtain rfl | other := eq_or_ne k h
    · simpa using absent
    · simpa [other] using refers.absent k
  · obtain rfl | other := eq_or_ne k h
    · simpa using represents x (by simpa using here)
    · simpa [other] using refers.represents k x (by simpa [other] using here)
  · obtain rfl | other := eq_or_ne k h
    · exact whole p ((value k).symm.trans shows)
    · exact refers.whole k p ((same k other).symm.trans shows)
  · rw [ref]
    obtain rfl | other := eq_or_ne k h
    · simpa using referred
    · simpa [other] using refers.referred k
  · have objects : (fun k => (Function.update link h v k).map Prod.fst) =
        Function.update (fun k => (link k).map Prod.fst) h (v.map Prod.fst) :=
      Function.comp_update (Option.map Prod.fst) link h v
    intro i j
    rw [ref]
    have agree := agree_update (f := r.ref) (g := fun k => (link k).map Prod.fst) refers.names
      fits i j
    rwa [← objects] at agree

omit [DecidableEq A] [DecidableEq C] [Fintype H] [DecidableEq H] in
/-- The size that a constructor stores is that of the array. -/
theorem length_of_run {how : Constructor} {fresh : Nat → UInt8} {p : TalkPacket}
    (built : how.run fresh = .ok p) : p.contents.length = p.size.toNat := by
  have ofFields {pid dmn rcp : UInt16} {csz : UInt32}
      (built : TalkPacket.construct fresh pid csz dmn rcp = .ok p) :
      p.contents.length = p.size.toNat := by
    by_cases enough : headerSize ≤ (TalkPacket.constructSize csz).toNat
    · rw [TalkPacket.construct_of_le enough] at built
      obtain rfl := Except.ok.inj built
      simp only [List.length_append, PacketHeader.length_toBytes, List.length_drop,
        TalkPacket.allocate, List.length_map, List.length_range]
      omega
    · rw [TalkPacket.construct_of_lt (by omega)] at built
      cases built
  cases how with
  | fields pid csz dmn rcp => exact ofFields built
  | header hdr => exact ofFields built
  | raw rawSize rawContents =>
    simp only [Constructor.run, TalkPacket.ofRaw] at built
    split at built
    · cases built
    · obtain rfl := Except.ok.inj built
      simp [TalkPacket.allocate]

/-- A packet that does not exist gets an array of its own. -/
theorem Refers.create (refers : Refers s link r) {a : A} {c : C} {p : TalkPacket}
    (absent : s.packet h = none) (unused : s.heap.arrays a = none)
    (uncounted : s.heap.nlinks c = none) (whole : p.contents.length = p.size.toNat) :
    ∃ m, (s.heap.newCounter c 1).bind (fun m => m.newArray a p.contents) = some m ∧
      Refers ⟨Function.update s.packet h (some ⟨p.size, some a, some c⟩), m⟩
        (Function.update link h (some (a, c))) (r.create h p) := by
  have empty := (refers.absent h).mp absent
  obtain ⟨m, run, linked, kept, stored⟩ :=
    create_spec p.contents refers.linked empty unused uncounted
  have apart (k : H) : (link k).map Prod.fst ≠ some a := by
    intro same
    obtain ⟨q, there, rfl⟩ := Option.map_eq_some_iff.mp same
    have alive := refers.linked.alive there
    simp [Heap.counted, unused] at alive
  have others : s.heap.Keeps (Function.update link h none) m := by
    rwa [← empty, Function.update_eq_self]
  refine ⟨m, run, refers.update linked others (by simp) ?_ rfl (by simp)
    (fun k _ => ?_) (fun k other => ?_) ?_ ?_⟩
  · rintro x same
    obtain rfl := Option.some.inj same
    exact ⟨rfl, by rintro q ⟨⟩; rfl⟩
  · refine iff_of_false (fun same => ?_) (fun same => apart k same.symm)
    exact Nat.lt_irrefl _ (r.inside k _ same.symm)
  · rw [References.value_create, if_neg other]
  · rw [References.value_create, if_pos rfl]
    simp [SharedPackets.value, stored]
  · intro q shows
    rw [References.value_create, if_pos rfl] at shows
    obtain rfl := Option.some.inj shows
    exact whole

/-- The packet `h`, or a new one under this name, gets the contents of `o`. -/
theorem Refers.assign (refers : Refers s link r) {x z : SharedPacket A C} {o : H}
    (represents : x.pointers.Represents (link h)) (source : s.packet o = some z)
    (own : (link h).isSome → s.packet h = some x) :
    ∃ x' m, x.assign z s.heap = some (x', m) ∧
      Refers ⟨Function.update s.packet h (some x'), m⟩ (Function.update link h (link o))
        (r.share h o) := by
  obtain ⟨q, there, contents, shows⟩ := refers.exists_link source
  obtain ⟨x', m, run, outcome, linked, kept⟩ := SharedPacket.assign_spec refers.linked represents
    (refers.represents o z source) (by simp [there])
  have before : s.heap.Keeps (Function.update link h none) m := by
    intro j p linkedTo
    obtain rfl | other := eq_or_ne j h
    · simp at linkedTo
    · exact kept j p (by simpa [other] using linkedTo)
  have array : m.arrays q.1 = s.heap.arrays q.1 := kept h q (by simp [there])
  refine ⟨x', m, run, refers.update linked before (by simp [there]) ?_ rfl (refers.referred o)
    (fun k _ => refers.names o k) (fun k other => ?_) ?_ ?_⟩
  · rintro y same
    obtain rfl := Option.some.inj same
    obtain rfl | ⟨rfl, -, equal⟩ := outcome
    · exact refers.represents o _ source
    · rwa [← equal]
  · rw [References.value_share, if_neg other]
  · rw [References.value_share, if_pos rfl, ← refers.value]
    obtain rfl | ⟨rfl, rfl, equal⟩ := outcome
    · rw [shows, ← array]
      cases still : m.arrays q.1 <;> simp [SharedPackets.value, contents, still]
    · have here := own (by rw [equal, there]; rfl)
      rw [← here, Function.update_eq_self, refers.value, refers.value, References.value,
        References.value, (refers.names h o).mpr (by rw [equal])]
  · intro p shown
    rw [References.value_share, if_pos rfl, ← refers.value] at shown
    exact refers.whole o p shown

theorem Refers.destroy (refers : Refers s link r) {x : SharedPacket A C}
    (here : s.packet h = some x) :
    ∃ x' m, x.unbind s.heap = some (x', m) ∧
      Refers ⟨Function.update s.packet h none, m⟩ (Function.update link h none) (r.drop h) := by
  obtain ⟨x', m, run, linked, kept⟩ :=
    SharedPacket.unbind_spec refers.linked (refers.represents h x here)
  refine ⟨x', m, run, refers.update linked kept (by simp) (by simp) rfl (by simp)
    (fun k _ => ?_) (fun k other => ?_) ?_ ?_⟩
  · rw [eq_comm, refers.referred]
    simp
  · rw [References.value_drop, if_neg other]
  · rw [References.value_drop, if_pos rfl]
    simp [SharedPackets.value]
  · intro p shown
    rw [References.value_drop, if_pos rfl] at shown
    cases shown

omit [DecidableEq A] [DecidableEq C] [Fintype H] [DecidableEq H] in
theorem length_written (offset : Nat) (data : List UInt8) (p : TalkPacket) :
    (written offset data p).contents.length = p.contents.length := by
  by_cases inside : offset + data.length ≤ p.contents.length
  · obtain ⟨bytes, run, length, -⟩ := Memory.write_spec p.contents offset data inside
    simp [written, run, length]
  · simp [written, Memory.write_of_lt (by omega : p.contents.length < offset + data.length)]

omit [DecidableEq H] in
/-- What is written through a packet is written for all packets with its array. -/
theorem Refers.write (refers : Refers s link r) {x : SharedPacket A C} {offset : Nat}
    {data : List UInt8} (here : s.packet h = some x)
    (inside : offset + data.length ≤ x.size.toNat) :
    ∃ m, x.write offset data s.heap = some m ∧
      Refers ⟨s.packet, m⟩ link (r.modify h (written offset data)) := by
  obtain ⟨p, there, contents, shows⟩ := refers.exists_link here
  obtain ⟨bytes, stored⟩ := Option.isSome_iff_exists.mp (refers.linked.alive there)
  rw [stored, Option.map_some] at shows
  have length := refers.whole h _ shows
  obtain ⟨bytes', run, same, -⟩ :=
    Memory.write_spec bytes offset data (inside.trans length.ge)
  have result (size : UInt32) : written offset data ⟨size, bytes⟩ = ⟨size, bytes'⟩ := by
    simp [written, run]
  have shared (k : H) : r.Shared h k ↔ (link k).map Prod.fst = some p.1 := by
    have known : (r.ref h).isSome := by
      rw [Option.isSome_iff_ne_none, Ne, refers.referred, there]
      nofun
    rw [References.Shared, refers.names, there]
    simp [known]
  have value (k : H) : (⟨s.packet, ⟨Function.update s.heap.arrays p.1 (some bytes'),
      s.heap.nlinks⟩⟩ : SharedPackets H A C).value k =
        (r.modify h (written offset data)).value k := by
    rw [References.value_modify, ← refers.value]
    cases packet : s.packet k with
    | none => simp [SharedPackets.value, packet]
    | some y =>
      obtain ⟨q, linkedTo, content, shown⟩ := refers.exists_link packet
      simp only [shared, linkedTo, Option.map_some, Option.some.injEq]
      obtain same | other := eq_or_ne q.1 p.1
      · rw [if_pos same, shown, same, stored, Option.map_some, Option.map_some, result]
        simp [SharedPackets.value, packet, content, same]
      · rw [if_neg other, shown]
        cases array : s.heap.arrays q.1 <;>
          simp [SharedPackets.value, packet, content, other, array]
  refine ⟨⟨Function.update s.heap.arrays p.1 (some bytes'), s.heap.nlinks⟩,
    by simp [SharedPacket.write, contents, stored, run], ?_, refers.absent, refers.represents,
    value, fun k q shown => ?_, refers.referred, refers.names⟩
  · have alive : (fun a => (Function.update s.heap.arrays p.1 (some bytes') a).isSome) =
        fun a => (s.heap.arrays a).isSome := by
      funext a
      obtain rfl | other := eq_or_ne a p.1
      · simp [stored]
      · rw [Function.update_of_ne other]
    rw [Heap.counted, alive]
    exact refers.linked
  · rw [value, References.value_modify, ← refers.value] at shown
    split at shown
    · obtain ⟨q, before, rfl⟩ := Option.map_eq_some_iff.mp shown
      rw [length_written]
      exact refers.whole k q before
    · exact refers.whole k q shown

/-- A call that may be made is carried out, and means what it means for references. -/
theorem perform_spec {op : SharedOp H A C} (refers : Refers s link r) (may : s.enabled op = true) :
    ∃ e s' link', s.perform op = some (e, s') ∧ Refers s' link' (referred r op) := by
  cases op with
  | construct h how fresh a c =>
    simp only [SharedPackets.enabled, Bool.and_eq_true, Option.isNone_iff_eq_none] at may
    obtain ⟨⟨⟨absent, unused⟩, uncounted⟩, fits⟩ := may
    cases built : how.run fresh with
    | error failure =>
      cases failure with
      | rangeError what =>
        exact ⟨.thrown, s, link, by simp [SharedPackets.perform, built],
          by simpa [referred, built] using refers⟩
      | outOfBounds => simp [built] at fits
    | ok p =>
      obtain ⟨m, run, created⟩ := refers.create absent unused uncounted (length_of_run built)
      obtain ⟨between, counted, stored⟩ := Option.bind_eq_some_iff.mp run
      refine ⟨.returned, _, _, ?_, by simpa only [referred, built] using created⟩
      simp [SharedPackets.perform, built, counted, stored]
  | copy h o =>
    obtain ⟨absent, z, source⟩ : s.packet h = none ∧ ∃ z, s.packet o = some z := by
      simpa [SharedPackets.enabled, Option.isSome_iff_exists] using may
    have empty := (refers.absent h).mp absent
    obtain ⟨x, m, run, after⟩ := refers.assign (h := h) (x := {})
      (by rw [empty]; exact CHandle.represents_none_iff.mpr rfl) source (by simp [empty])
    exact ⟨.returned, _, _, by simp [SharedPackets.perform, source, run], after⟩
  | assign h o =>
    obtain ⟨⟨x, here⟩, z, source⟩ : (∃ x, s.packet h = some x) ∧ ∃ z, s.packet o = some z := by
      simpa [SharedPackets.enabled, Option.isSome_iff_exists] using may
    obtain ⟨x', m, run, after⟩ :=
      refers.assign (refers.represents h x here) source fun _ => here
    exact ⟨.returned, _, _, by simp [SharedPackets.perform, here, source, run], after⟩
  | write h offset data =>
    obtain ⟨x, here, inside⟩ : ∃ x, s.packet h = some x ∧ offset + data.length ≤ x.size.toNat := by
      simpa [SharedPackets.enabled, Option.any_eq_true] using may
    obtain ⟨m, run, after⟩ := refers.write here inside
    exact ⟨.returned, _, _, by simp [SharedPackets.perform, here, run], after⟩
  | destroy h =>
    obtain ⟨x, here⟩ : ∃ x, s.packet h = some x := by
      simpa [SharedPackets.enabled, Option.isSome_iff_exists] using may
    obtain ⟨x', m, run, after⟩ := refers.destroy here
    exact ⟨.returned, _, _, by simp [SharedPackets.perform, here, run], after⟩

theorem step_refers {s' : SharedPackets H A C} {op : SharedOp H A C} {e : Ended}
    (refers : Refers s link r)
    (step : (SharedPackets.machine H A C).step s op = some (e, s')) :
    ∃ link', Refers s' link' (referred r op) := by
  obtain ⟨may, step⟩ : s.enabled op = true ∧ s.perform op = some (e, s') := by
    simpa [SharedPackets.machine] using step
  obtain ⟨e', t, link', same, after⟩ := perform_spec refers may
  obtain ⟨rfl, rfl⟩ := Prod.mk.inj (Option.some.inj (same.symm.trans step))
  exact ⟨link', after⟩

omit [DecidableEq H] in
theorem new_refers : Refers ({} : SharedPackets H A C) (fun _ => none) (.empty H TalkPacket) where
  linked := ⟨fun _ _ _ _ no => by simp at no, by simp [Heap.counted, holders],
    by simp [Heap.counted, sharers], by simp⟩
  absent := by simp
  represents := by simp
  value _ := rfl
  whole _ _ none := by cases none
  referred _ := by simp [References.empty]
  names _ _ := by simp [References.empty]

end Calls

/-! ### Runs -/

section Runs

/-- The arrays and counters in use are those of the packets, and a counter is the number of
packets with its array. -/
structure Tidy [DecidableEq A] [Fintype H] (s : SharedPackets H A C) : Prop where
  arrays : ∀ a, (s.heap.arrays a).isSome ↔ ∃ h, s.array h = some a
  counter : ∀ h a, s.array h = some a → ∃ c, s.counter h = some c ∧
    s.heap.nlinks c = some ((Finset.univ.filter fun k => s.array k = some a).card : ℤ)
  counters : ∀ c, (s.heap.nlinks c).isSome → ∃ h, s.counter h = some c

variable [DecidableEq A] [DecidableEq C] [DecidableEq H] [Fintype H]
  {s : SharedPackets H A C} {link : H → Option (A × C)} {r : References H TalkPacket}
  {history : List (SharedOp H A C × Ended)}

omit [DecidableEq H] in
theorem Refers.array (refers : Refers s link r) (h : H) : s.array h = (link h).map Prod.fst := by
  cases here : s.packet h with
  | none => simp [SharedPackets.array, here, (refers.absent h).mp here]
  | some x =>
    rw [SharedPackets.array, here]
    exact (refers.represents h x here).object

omit [DecidableEq H] in
theorem Refers.counter (refers : Refers s link r) {h : H} {p : A × C} (here : link h = some p) :
    s.counter h = some p.2 := by
  cases packet : s.packet h with
  | none => simp [(refers.absent h).mp packet] at here
  | some x =>
    rw [SharedPackets.counter, packet]
    exact (refers.represents h x packet).hcounter p here

omit [DecidableEq H] in
theorem Refers.tidy (refers : Refers s link r) : Tidy s where
  arrays a := by
    have alive : (s.heap.arrays a).isSome ↔ 0 < holders link a := by
      simpa [Heap.counted] using refers.linked.objects a
    simp only [alive, holders_pos_iff, refers.array, Option.map_eq_some_iff, Prod.exists]
    constructor
    · rintro ⟨h, c, here⟩
      exact ⟨h, a, c, here, rfl⟩
    · rintro ⟨h, _, c, here, rfl⟩
      exact ⟨h, c, here⟩
  counter h a here := by
    rw [refers.array] at here
    obtain ⟨p, there, rfl⟩ := Option.map_eq_some_iff.mp here
    refine ⟨p.2, refers.counter there, ?_⟩
    simp only [refers.array]
    exact refers.linked.nlinks_of_link there
  counters c used := by
    have count := refers.linked.nlinks c
    by_cases unshared : sharers link c = 0
    · rw [if_pos unshared] at count
      rw [show s.heap.nlinks c = none from count] at used
      cases used
    · obtain ⟨h, a, here⟩ := sharers_pos_iff.mp (Nat.pos_of_ne_zero unshared)
      exact ⟨h, refers.counter here⟩

theorem run_refers (run : (SharedPackets.machine H A C).Run {} history s) :
    ∃ link, Refers s link (meaning history) := by
  apply run.invariant (P := fun history (s : SharedPackets H A C) =>
    ∃ link, Refers s link (meaning history))
  · exact ⟨_, new_refers⟩
  · rintro history t op e u - ⟨link, refers⟩ step
    rw [meaning_snoc]
    exact step_refers refers step

/-- In every state that is reached, each packet shows what a reference to shared contents would
lead to, whoever wrote them; packets have one array exactly if they refer to the same contents;
an array is allocated exactly as long as a packet has it, and counted; and no call that may be
made next is a fault. -/
theorem run_shares (run : (SharedPackets.machine H A C).Run {} history s) :
    (∀ h, s.value h = (meaning history).value h) ∧
      (∀ h k, (s.array h).isSome → (s.array k = s.array h ↔ (meaning history).Shared h k)) ∧
      Tidy s ∧ ∀ op, s.enabled op = true → ∃ e s', s.perform op = some (e, s') := by
  obtain ⟨link, refers⟩ := run_refers run
  refine ⟨refers.value, fun h k known => ?_, refers.tidy, fun op may => ?_⟩
  · rw [refers.array] at known
    have named : ((meaning history).ref h).isSome := by
      rw [Option.isSome_iff_ne_none, Ne, refers.referred]
      rintro none
      simp [none] at known
    rw [References.Shared, refers.names, refers.array, refers.array]
    exact (and_iff_right named).symm
  · obtain ⟨e, s', -, run, -⟩ := perform_spec refers may
    exact ⟨e, s', run⟩

/-- A packet is written through a copy that outlives it. -/
theorem run_shares_two : ∃ history s, (SharedPackets.machine Bool ℕ ℕ).Run {} history s ∧
    Tidy s ∧ s.value false = none ∧ s.value true = (meaning history).value true ∧
      s.value true = some ⟨18, [8, 0, 0, 0, 0, 0, 0, 0, 0, 0, 7, 7, 9, 7, 7, 7, 7, 7]⟩ := by
  have executed : ∃ history s, (SharedPackets.machine Bool ℕ ℕ).exec {}
      [.construct false (.fields 0 8 0 0) (fun _ => 7) 3 4, .copy true false, .write true 12 [9],
        .destroy false] = some (history, s) ∧ s.value false = none ∧
      s.value true = some ⟨18, [8, 0, 0, 0, 0, 0, 0, 0, 0, 0, 7, 7, 9, 7, 7, 7, 7, 7]⟩ :=
    ⟨_, _, rfl, by decide +kernel, by decide +kernel⟩
  obtain ⟨history, s, computed, gone, shown⟩ := executed
  have run := Machine.run_of_exec computed
  have shares := run_shares run
  exact ⟨history, s, run, shares.2.2.1, gone, shares.1 true, shown⟩

omit [DecidableEq A] [DecidableEq C] [Fintype H] in
/-- References and values part in a write that changes contents which another name shares. -/
theorem referred_alone_iff (r : References H TalkPacket) (op : SharedOp H A C) :
    (referred r op).value = alone r.value op ↔
      ∀ h offset data, op = .write h offset data → ∀ k, k ≠ h → r.Shared h k →
        (r.value h).map (written offset data) = r.value h := by
  cases op with
  | construct h how fresh a c =>
    refine iff_of_true ?_ nofun
    funext k
    cases built : how.run fresh with
    | error failure => simp [referred, alone, built]
    | ok p => simp [referred, alone, built, References.value_create, Function.update_apply]
  | copy h o | assign h o =>
    refine iff_of_true ?_ nofun
    funext k
    simp [referred, alone, References.value_share, Function.update_apply]
  | destroy h =>
    refine iff_of_true ?_ nofun
    funext k
    simp [referred, alone, References.value_drop, Function.update_apply]
  | write h offset data =>
    have equal (k : H) (shared : r.Shared h k) : r.value k = r.value h := by
      rw [References.value, shared.2, References.value]
    constructor
    · rintro same h offset data ⟨⟩ k other shared
      have here := congrFun same k
      rw [referred, References.value_modify, if_pos shared, alone, Function.update_of_ne other,
        equal k shared] at here
      exact here
    · intro unseen
      funext k
      rw [referred, References.value_modify, alone]
      obtain rfl | other := eq_or_ne k h
      · rw [Function.update_self]
        split
        · rfl
        · rename_i apart
          have unnamed : r.value k = none := by
            rw [References.value]
            cases named : r.ref k with
            | none => rfl
            | some n => exact absurd ⟨by simp [named], rfl⟩ apart
          rw [unnamed]
          rfl
      · rw [Function.update_of_ne other]
        split
        · rename_i shared
          rw [equal k shared]
          exact unseen h offset data rfl k other shared
        · rfl

/-- All packets may be taken for values of their own exactly as long as nobody changes contents
that another packet has too. -/
theorem run_values_iff (run : (SharedPackets.machine H A C).Run {} history s) :
    (SharedPackets.machine H A C).Throughout {}
        (fun history s => ∀ h, s.value h = values history h) history ↔
      (SharedPackets.machine H A C).BeforeEach {} (fun _ s op => ∀ h offset data,
        op = .write h offset data → ∀ k, k ≠ h → s.array k = s.array h →
          (s.value h).map (written offset data) = s.value h) history := by
  refine run.throughout_iff (I := fun history s => ∃ link, Refers s link (meaning history))
    (fun _ => rfl) ⟨_, new_refers⟩ ?_ ?_
  · rintro history t op e u - ⟨link, refers⟩ step
    rw [meaning_snoc]
    exact step_refers refers step
  · rintro history t op e u same ⟨link, refers⟩ step
    obtain ⟨link', after⟩ := step_refers refers step
    have before : values history = (meaning history).value :=
      funext fun h => (same h).symm.trans (refers.value h)
    have split : (∀ h, u.value h = values (history ++ [(op, e)]) h) ↔
        (referred (meaning history) op).value = alone (meaning history).value op := by
      rw [values_snoc, before, funext_iff]
      exact forall_congr' fun h => by rw [after.value]
    rw [split, referred_alone_iff]
    refine forall₄_congr fun h offset data written => forall₂_congr fun k other => ?_
    subst written
    have named : ((meaning history).ref h).isSome := by
      have present : (t.packet h).isSome := by
        cases packet : t.packet h with
        | none => simp [SharedPackets.machine, SharedPackets.enabled, packet] at step
        | some x => rfl
      rw [Option.isSome_iff_ne_none, Ne, refers.referred, ← refers.absent]
      exact Option.isSome_iff_ne_none.mp present
    have shared : (meaning history).Shared h k ↔ t.array k = t.array h := by
      rw [References.Shared, refers.names, refers.array, refers.array]
      exact and_iff_right named
    rw [shared, refers.value]

/-- A write into shared contents shows in the copy. -/
theorem run_values_iff_two : ∃ history s, (SharedPackets.machine Bool ℕ ℕ).Run {} history s ∧
    ¬ (SharedPackets.machine Bool ℕ ℕ).BeforeEach {} (fun _ s op => ∀ h offset data,
      op = .write h offset data → ∀ k, k ≠ h → s.array k = s.array h →
        (s.value h).map (written offset data) = s.value h) history := by
  have executed : ∃ history s, (SharedPackets.machine Bool ℕ ℕ).exec {}
      [.construct false (.fields 0 8 0 0) (fun _ => 7) 3 4, .copy true false,
        .write true 12 [9]] = some (history, s) ∧ s.value false ≠ values history false :=
    ⟨_, _, rfl, by decide +kernel⟩
  obtain ⟨history, s, computed, differs⟩ := executed
  have run := Machine.run_of_exec computed
  refine ⟨history, s, run, fun calm => differs ?_⟩
  exact (run_values_iff run).mpr calm history s List.prefix_rfl run false

end Runs

end Crs.Ude
