import Crs.RingPool.Bytes

/-!
# Points and their arrays

A `cIntensityPoint` has an array of its own, or it is linked with memory of somebody else: with a
place in the big array of a pool, or with whatever another linked point is linked with. Copies have
arrays of their own. `operator =` writes through a linked point, `linkWith` does not.

`Contents` says this without arrays: a point is a value, or a view of a place. The objects show
these contents, every array that is not empty belongs to the one point that will delete it, and
no call that may be made is a fault.

An address may be used again after a deletion. An access outside of an array and a second
deletion are faults: the call has no result.
-/

namespace Crs.RingPool

open Foundation

/-- What `pStor` points to: an array of the heap, or a place of somebody else. -/
inductive Stor (A E : Type) where
  | null
  | array (a : A)
  | place (e : E)
  deriving DecidableEq

/-- A `cIntensityPoint` as it lies in memory. -/
structure PointObject (A E : Type) where
  bLocalStor : Bool := true
  nByteSize : UInt64 := 0
  pStor : Stor A E := .null
  deriving DecidableEq

/-- A point on memory of somebody else. -/
def PointObject.on {A E : Type} (nData : UInt64) (pExtStor : E) : PointObject A E where
  bLocalStor := false
  nByteSize := CIntensityPoint.getByteSize nData
  pStor := .place pExtStor

/-- The points that exist, the arrays of the heap, and the places. -/
structure Points (H A E : Type) where
  object : H → Option (PointObject A E) := fun _ => none
  arrays : A → Option (List UInt8) := fun _ => none
  places : E → List UInt8

/-- The calls on a point `h`. What needs an array gets the address `a`. -/
inductive PointCall (H A E : Type) where
  | construct (h : H)
  | constructOn (h : H) (nData : UInt64) (pExtStor : E)
  | constructFor (h : H) (nData tm : UInt64) (a : A) (fresh : ℕ → UInt8)
  | copy (h o : H) (a : A) (fresh : ℕ → UInt8)
  | destroy (h : H)
  | allocate (h : H) (nData : UInt64) (pExtStor : E)
  | linkWith (h o : H) (a : A) (fresh : ℕ → UInt8)
  | assign (h o : H) (a : A) (fresh : ℕ → UInt8)
  | write (h : H) (offset : ℕ) (data : List UInt8)

variable {H A E : Type}

namespace Points

section Memory

variable [DecidableEq A] [DecidableEq E]

/-- `new char [ nByteSize ]`; the allocator never answers with an address in use. -/
def newArray (s : Points H A E) (a : A) (nByteSize : UInt64) (fresh : ℕ → UInt8) :
    Option (Points H A E) :=
  if (s.arrays a).isNone then
    let bytes := (List.range nByteSize.toNat).map fresh
    some { s with arrays := Function.update s.arrays a (some bytes) }
  else none

/-- `delete [] pStor`. -/
def deleteArray (s : Points H A E) : Stor A E → Option (Points H A E)
  | .null => some s
  | .array a => (s.arrays a).map fun _ => { s with arrays := Function.update s.arrays a none }
  | .place _ => none

def load (s : Points H A E) (p : Stor A E) (count : ℕ) : Option (List UInt8) :=
  match p with
  | .null => if count = 0 then some [] else none
  | .array a => (s.arrays a).bind fun bytes => Memory.read bytes 0 count
  | .place e => Memory.read (s.places e) 0 count

def store (s : Points H A E) (p : Stor A E) (offset : ℕ) (data : List UInt8) :
    Option (Points H A E) :=
  match p with
  | .null => if data = [] then some s else none
  | .array a => do
      let bytes ← s.arrays a
      let bytes ← Memory.write bytes offset data
      return { s with arrays := Function.update s.arrays a (some bytes) }
  | .place e => (Memory.write (s.places e) offset data).map fun bytes =>
      { s with places := Function.update s.places e bytes }

def memcpy (s : Points H A E) (dst src : Stor A E) (count : ℕ) : Option (Points H A E) := do
  let bytes ← s.load src count
  s.store dst 0 bytes

/-- A new array takes the place of the old one. -/
def renew (s : Points H A E) (x : PointObject A E) (nByteSize : UInt64) (a : A)
    (fresh : ℕ → UInt8) : Option (PointObject A E × Points H A E) := do
  let s ← s.deleteArray x.pStor
  let s ← s.newArray a nByteSize fresh
  return ({ x with nByteSize, pStor := .array a }, s)

/-- An array of the right size, which is the old one if it has this size. -/
def adopt (s : Points H A E) (x : PointObject A E) (nByteSize : UInt64) (a : A)
    (fresh : ℕ → UInt8) : Option (PointObject A E × Points H A E) :=
  if x.bLocalStor then
    if x.nByteSize ≠ nByteSize then s.renew x nByteSize a fresh
    else some (x, s)
  else
    (s.newArray a nByteSize fresh).map fun s =>
      ({ bLocalStor := true, nByteSize, pStor := .array a }, s)

end Memory

section Calls

variable [DecidableEq H] [DecidableEq A] [DecidableEq E]

def put (s : Points H A E) (h : H) (x : Option (PointObject A E)) : Points H A E :=
  { s with object := Function.update s.object h x }

def constructFor (s : Points H A E) (h : H) (nData tm : UInt64) (a : A) (fresh : ℕ → UInt8) :
    Option (Points H A E) := do
  let nByteSize := CIntensityPoint.getByteSize nData
  let s ← s.newArray a nByteSize fresh
  let s ← s.store (.array a) 0 (List.replicate nByteSize.toNat 0)
  let s ← s.store (.array a) 0 (RawPoint.wordBytes tm)
  return s.put h (some { nByteSize, pStor := .array a })

def copy (s : Points H A E) (h o : H) (a : A) (fresh : ℕ → UInt8) : Option (Points H A E) := do
  let y ← s.object o
  let s ← s.newArray a y.nByteSize fresh
  let s ← s.memcpy (.array a) y.pStor y.nByteSize.toNat
  return s.put h (some { nByteSize := y.nByteSize, pStor := .array a })

def destroy (s : Points H A E) (h : H) : Option (Points H A E) := do
  let x ← s.object h
  if x.bLocalStor ∧ x.nByteSize ≠ 0 then
    let s ← s.deleteArray x.pStor
    return s.put h none
  else return s.put h none

def linkWith (s : Points H A E) (h o : H) (a : A) (fresh : ℕ → UInt8) :
    Option (Points H A E) := do
  let x ← s.object h
  let y ← s.object o
  if h = o then return s
  else if y.bLocalStor then
    let (x, s) ← s.adopt x y.nByteSize a fresh
    let s ← s.memcpy x.pStor y.pStor x.nByteSize.toNat
    return s.put h (some x)
  else
    let s ← if x.bLocalStor then s.deleteArray x.pStor else some s
    return s.put h (some { bLocalStor := y.bLocalStor, nByteSize := y.nByteSize, pStor := y.pStor })

def assign (s : Points H A E) (h o : H) (a : A) (fresh : ℕ → UInt8) : Option (Points H A E) := do
  let x ← s.object h
  let y ← s.object o
  if h = o then return s
  else
    let (x, s) ←
      if x.bLocalStor ∧ x.nByteSize ≠ y.nByteSize then s.renew x y.nByteSize a fresh
      else some (x, s)
    let count := if x.nByteSize < y.nByteSize then x.nByteSize else y.nByteSize
    let s ← s.memcpy x.pStor y.pStor count.toNat
    return s.put h (some x)

def perform (s : Points H A E) : PointCall H A E → Option (Points H A E)
  | .construct h => some (s.put h (some {}))
  | .constructOn h nData pExtStor => some (s.put h (some (.on nData pExtStor)))
  | .constructFor h nData tm a fresh => s.constructFor h nData tm a fresh
  | .copy h o a fresh => s.copy h o a fresh
  | .destroy h => s.destroy h
  | .allocate h nData pExtStor => some (s.put h (some (.on nData pExtStor)))
  | .linkWith h o a fresh => s.linkWith h o a fresh
  | .assign h o a fresh => s.assign h o a fresh
  | .write h offset data => do
      let x ← s.object h
      s.store x.pStor offset data

/-- The size of a point that can be allocated. -/
def small (nData : UInt64) : Bool := RawPoint.byteSize nData.toNat < 2 ^ 63

/-- The place has room for a point. -/
def fits (s : Points H A E) (nData : UInt64) (e : E) : Bool :=
  small nData && RawPoint.byteSize nData.toNat ≤ (s.places e).length

/-- The allocator may answer with this address when the point has given up its array. -/
def free (s : Points H A E) (h : H) (a : A) : Bool :=
  (s.arrays a).isNone || (s.object h).any fun x => x.pStor = .array a

/-- The calls that may be made: on points that exist, inside of a point, and `allocate` on a point
without an array. -/
def enabled (s : Points H A E) : PointCall H A E → Bool
  | .construct h => (s.object h).isNone
  | .constructOn h nData e => (s.object h).isNone && s.fits nData e
  | .constructFor h nData _ a _ =>
      (s.object h).isNone && small nData && (s.arrays a).isNone
  | .copy h o a _ => (s.object h).isNone && (s.object o).isSome && (s.arrays a).isNone
  | .destroy h => (s.object h).isSome
  | .allocate h nData e =>
      (s.object h).any (fun x => !x.bLocalStor || x.pStor = .null) && s.fits nData e
  | .linkWith h o a _ | .assign h o a _ =>
      (s.object h).isSome && (s.object o).isSome && s.free h a
  | .write h offset data =>
      (s.object h).any fun x => offset + data.length ≤ x.nByteSize.toNat

end Calls

end Points

/-- What a point is for its users: a value, or a view of the front of a place. -/
inductive Content (E : Type) where
  | value (bytes : List UInt8)
  | view (e : E) (count : ℕ)
  deriving DecidableEq

/-- Points without arrays. -/
structure Contents (H E : Type) where
  content : H → Option (Content E) := fun _ => none
  places : E → List UInt8

namespace Contents

/-- A part of the bytes is exchanged. -/
def patch (bytes : List UInt8) (offset : ℕ) (data : List UInt8) : List UInt8 :=
  bytes.take offset ++ data ++ bytes.drop (offset + data.length)

variable [DecidableEq H] [DecidableEq E]

def shown (m : Contents H E) : Content E → List UInt8
  | .value bytes => bytes
  | .view e count => (m.places e).take count

/-- The same with its bytes. -/
def point (m : Contents H E) (c : Content E) : CIntensityPoint where
  bLocalStor := match c with
    | .value _ => true
    | .view _ _ => false
  stor := m.shown c

def put (m : Contents H E) (h : H) (c : Option (Content E)) : Contents H E :=
  { m with content := Function.update m.content h c }

/-- A value changes for itself, a view changes the place. -/
def change (m : Contents H E) (h : H) (offset : ℕ) (data : List UInt8) : Contents H E :=
  match m.content h with
  | some (.value bytes) => m.put h (some (.value (patch bytes offset data)))
  | some (.view e _) =>
      { m with places := Function.update m.places e (patch (m.places e) offset data) }
  | none => m

def next (m : Contents H E) : PointCall H A E → Contents H E
  | .construct h => m.put h (some (.value []))
  | .constructOn h nData e | .allocate h nData e =>
      m.put h (some (.view e (RawPoint.byteSize nData.toNat)))
  | .constructFor h nData tm _ _ =>
      let bytes := List.replicate (RawPoint.byteSize nData.toNat) 0
      m.put h (some (.value (patch bytes 0 (RawPoint.wordBytes tm))))
  | .copy h o _ _ => m.put h ((m.content o).map fun y => .value (m.shown y))
  | .destroy h => m.put h none
  | .linkWith h o _ _ =>
      match m.content h, m.content o with
      | some _, some y => m.put h (some y)
      | _, _ => m
  | .assign h o _ _ =>
      match m.content h, m.content o with
      | some (.value _), some y => m.put h (some (.value (m.shown y)))
      | some (.view _ count), some y => m.change h 0 ((m.shown y).take count)
      | _, _ => m
  | .write h offset data => m.change h offset data

section Put

omit [DecidableEq E]

variable {m : Contents H E} {h k : H} {c : Option (Content E)}

@[simp] theorem put_self : (m.put h c).content h = c := Function.update_self ..

@[simp] theorem put_of_ne (apart : k ≠ h) : (m.put h c).content k = m.content k :=
  Function.update_of_ne apart ..

@[simp] theorem put_places : (m.put h c).places = m.places := rfl

@[simp] theorem put_put {d : Option (Content E)} : (m.put h d).put h c = m.put h c := by
  simp [put]

theorem put_same (here : m.content h = c) : m.put h c = m := by
  rw [put, ← here, Function.update_eq_self]

end Put

theorem patch_take (bytes : List UInt8) (count : ℕ) : patch bytes 0 (bytes.take count) = bytes := by
  rw [patch, List.take_zero, List.nil_append, Nat.zero_add, List.length_take]
  obtain short | long := le_total count bytes.length
  · rw [Nat.min_eq_left short, List.take_append_drop]
  · rw [Nat.min_eq_right long, List.take_of_length_le long, List.drop_length, List.append_nil]

theorem take_patch (bytes data : List UInt8) (count : ℕ) :
    (patch bytes 0 (data.take count)).take count =
      data.take count ++ (bytes.take count).drop data.length := by
  rw [patch, List.take_zero, List.nil_append, Nat.zero_add, List.length_take]
  obtain short | long := le_total data.length count
  · rw [List.take_of_length_le short, Nat.min_eq_right short, List.take_append,
      List.take_of_length_le short, List.drop_take]
  · rw [Nat.min_eq_left long, List.take_left' (by simp [long]),
      List.drop_of_length_le ((List.length_take_le ..).trans long), List.append_nil]

theorem patch_all {bytes data : List UInt8} (size : data.length = bytes.length) :
    patch bytes 0 data = data := by
  simp [patch, size]

theorem change_value {m : Contents H E} {h : H} {bytes data : List UInt8} {offset : ℕ}
    (here : m.content h = some (.value bytes)) :
    m.change h offset data = m.put h (some (.value (patch bytes offset data))) := by
  rw [change, here]

/-- A view that is written over itself. -/
theorem change_self {m : Contents H E} {h : H} {e : E} {count : ℕ}
    (here : m.content h = some (.view e count)) :
    m.change h 0 ((m.shown (.view e count)).take count) = m := by
  rw [change, here, shown, List.take_take, min_self]
  show { m with places := Function.update m.places e _ } = m
  rw [patch_take, Function.update_eq_self]

end Contents

namespace Points

section Machine

variable [DecidableEq H] [DecidableEq A] [DecidableEq E]

def machine (H A E : Type) [DecidableEq H] [DecidableEq A] [DecidableEq E] :
    Machine (Points H A E) (PointCall H A E) Unit where
  step s call := if s.enabled call then (s.perform call).map fun s => ((), s) else none

/-- What the calls of a history mean. -/
def meaning (places : E → List UInt8) (history : List (PointCall H A E × Unit)) : Contents H E :=
  history.foldl (fun m event => m.next event.1) { places }

/-- What a point shows. -/
def value (s : Points H A E) (h : H) : Option (List UInt8) :=
  (s.object h).bind fun x => s.load x.pStor x.nByteSize.toNat

end Machine

/-- The array is that of the point. -/
def Owns (s : Points H A E) (h : H) (a : A) : Prop :=
  ∃ x, s.object h = some x ∧ x.pStor = .array a

/-- An array has one point, and one that is not empty has a point as long as it is there. -/
structure Tidy (s : Points H A E) : Prop where
  there : ∀ h a, s.Owns h a → (s.arrays a).isSome
  alone : ∀ h k a, s.Owns h a → s.Owns k a → h = k
  freed : ∀ a bytes, s.arrays a = some bytes → bytes ≠ [] → ∃ h, s.Owns h a

/-- How an object holds its contents. -/
inductive Holds (s : Points H A E) : PointObject A E → Content E → Prop where
  | null : Holds s {} (.value [])
  | array {a : A} {bytes : List UInt8} {n : UInt64} (here : s.arrays a = some bytes)
      (size : bytes.length = n.toNat) :
      Holds s { bLocalStor := true, nByteSize := n, pStor := .array a } (.value bytes)
  | place {e : E} {n : UInt64} (room : n.toNat ≤ (s.places e).length) :
      Holds s { bLocalStor := false, nByteSize := n, pStor := .place e } (.view e n.toNat)

/-- The objects hold the contents. -/
structure Represents (s : Points H A E) (m : Contents H E) : Prop where
  places : m.places = s.places
  objects : ∀ h, (s.object h = none ∧ m.content h = none) ∨
    ∃ x c, s.object h = some x ∧ m.content h = some c ∧ Holds s x c
  alone : ∀ h k a, s.Owns h a → s.Owns k a → h = k
  freed : ∀ a bytes, s.arrays a = some bytes → bytes ≠ [] → ∃ h, s.Owns h a

section Accesses

variable {s s' : Points H A E} {m : Contents H E} {x y : PointObject A E} {c d : Content E}
  {h k o : H} {a b : A} {bytes data : List UInt8} {count offset : ℕ}

theorem Holds.congr (holds : Holds s x c)
    (arrays : ∀ a, x.pStor = .array a → s'.arrays a = s.arrays a)
    (places : ∀ e, (s'.places e).length = (s.places e).length) : Holds s' x c := by
  cases holds with
  | null => exact .null
  | array here size => exact .array ((arrays _ rfl).trans here) size
  | place room => exact .place (room.trans_eq (places _).symm)

theorem Holds.length_shown (holds : Holds s x c) (places : m.places = s.places) :
    (m.shown c).length = x.nByteSize.toNat := by
  cases holds with
  | null => rfl
  | array here size => exact size
  | place room =>
    rw [Contents.shown, places, List.length_take]
    exact Nat.min_eq_left room

theorem Holds.load (holds : Holds s x c) (places : m.places = s.places)
    (inside : count ≤ x.nByteSize.toNat) :
    s.load x.pStor count = some ((m.shown c).take count) := by
  cases holds with
  | null =>
    obtain rfl : count = 0 := Nat.le_zero.mp inside
    rfl
  | @array _ bytes n here size =>
    have fits : count ≤ n.toNat := inside
    rw [Points.load, here, Option.bind_some, Memory.read_of_le (by omega)]
    rfl
  | @place e n room =>
    have fits : count ≤ n.toNat := inside
    rw [Points.load, Memory.read_of_le (by omega), List.drop_zero, Contents.shown, places,
      List.take_take, Nat.min_eq_left fits]

theorem Holds.eq_value (holds : Holds s x c) (m : Contents H E) (isLocal : x.bLocalStor) :
    c = .value (m.shown c) := by
  cases holds with
  | null | array => rfl
  | place => cases isLocal

theorem Holds.ne_array (holds : Holds s x c) (linked : ¬ x.bLocalStor) (a : A) :
    x.pStor ≠ .array a := by
  cases holds with
  | null | array => exact absurd rfl linked
  | place => simp

theorem not_owns_of_ne (here : s.object h = some x) (bare : x.pStor ≠ .array a) : ¬ s.Owns h a := by
  rintro ⟨y, found, points⟩
  obtain rfl := Option.some.inj (found.symm.trans here)
  exact bare points

theorem Represents.holds (represents : Represents s m) (here : s.object h = some x) :
    ∃ c, m.content h = some c ∧ Holds s x c := by
  obtain ⟨none, -⟩ | ⟨y, c, there, content, holds⟩ := represents.objects h
  · simp [none] at here
  · obtain rfl := Option.some.inj (there.symm.trans here)
    exact ⟨c, content, holds⟩

theorem Represents.allocated (represents : Represents s m) (owns : s.Owns h a) :
    (s.arrays a).isSome := by
  obtain ⟨x, here, points⟩ := owns
  obtain ⟨c, -, holds⟩ := represents.holds here
  cases holds with
  | null | place => cases points
  | array there =>
    obtain rfl := Stor.array.inj points
    rw [there]
    rfl

theorem Represents.not_owns (represents : Represents s m) (unused : s.arrays a = none) :
    ¬ s.Owns k a := by
  intro owns
  have there := represents.allocated owns
  rw [unused] at there
  cases there

theorem not_owns_of_none (absent : s.object h = none) : ¬ s.Owns h a := by
  rintro ⟨x, here, -⟩
  rw [absent] at here
  cases here

end Accesses

section Updates

variable [DecidableEq H] {s s₁ : Points H A E} {m : Contents H E} {h k : H}

@[simp] theorem put_self (s : Points H A E) (h : H) (x : Option (PointObject A E)) :
    (s.put h x).object h = x := Function.update_self ..

@[simp] theorem put_of_ne (s : Points H A E) (x : Option (PointObject A E)) (apart : k ≠ h) :
    (s.put h x).object k = s.object k := Function.update_of_ne apart ..

/-- One point is exchanged, and the arrays that it had and has now. -/
theorem Represents.update (represents : Represents s m) (x' : Option (PointObject A E))
    (c' : Option (Content E)) (object : s₁.object = s.object) (places : s₁.places = s.places)
    (kept : ∀ k a, k ≠ h → s.Owns k a → s₁.arrays a = s.arrays a)
    (holds : x' = none ∧ c' = none ∨ ∃ x c, x' = some x ∧ c' = some c ∧ Holds s₁ x c)
    (apart : ∀ x a, x' = some x → x.pStor = .array a → ∀ k, k ≠ h → ¬ s.Owns k a)
    (freed : ∀ a bytes, s₁.arrays a = some bytes → bytes ≠ [] →
      (∃ x, x' = some x ∧ x.pStor = .array a) ∨ ∃ k, k ≠ h ∧ s.Owns k a) :
    Represents (s₁.put h x') (m.put h c') := by
  have other {k : H} (different : k ≠ h) (a : A) : (s₁.put h x').Owns k a ↔ s.Owns k a := by
    rw [Owns, Owns, put_of_ne _ _ different, object]
  have mine (a : A) : (s₁.put h x').Owns h a ↔ ∃ x, x' = some x ∧ x.pStor = .array a := by
    rw [Owns, put_self]
  refine ⟨represents.places.trans places.symm, fun k => ?_, fun j k a first second => ?_,
    fun a bytes there some => ?_⟩
  · obtain rfl | different := eq_or_ne k h
    · rw [put_self, Contents.put_self]
      obtain none | ⟨x, c, here, content, holds⟩ := holds
      · exact .inl none
      · exact .inr ⟨x, c, here, content, holds.congr (fun _ _ => rfl) fun _ => rfl⟩
    · rw [put_of_ne _ _ different, object, Contents.put_of_ne different]
      obtain none | ⟨x, c, here, content, holds⟩ := represents.objects k
      · exact .inl none
      · refine .inr ⟨x, c, here, content, holds.congr (fun a points => ?_) fun e => ?_⟩
        · exact kept k a different ⟨x, here, points⟩
        · exact congrArg (fun places => (places e).length) places
  · obtain rfl | firstOther := eq_or_ne j h
    · obtain rfl | secondOther := eq_or_ne k j
      · rfl
      · obtain ⟨x, here, points⟩ := (mine a).mp first
        exact absurd ((other secondOther a).mp second) (apart x a here points k secondOther)
    · obtain rfl | secondOther := eq_or_ne k h
      · obtain ⟨x, here, points⟩ := (mine a).mp second
        exact absurd ((other firstOther a).mp first) (apart x a here points j firstOther)
      · exact represents.alone j k a ((other firstOther a).mp first)
          ((other secondOther a).mp second)
  · obtain own | ⟨k, different, owns⟩ := freed a bytes there some
    · exact ⟨h, (mine a).mpr own⟩
    · exact ⟨k, (other different a).mpr owns⟩

end Updates

section Arrays

variable [DecidableEq A] {s : Points H A E} {x : PointObject A E} {bytes : List UInt8} {a : A}
  {n : UInt64} {fresh : ℕ → UInt8}

/-- A value gives up its array. -/
theorem deleteArray_spec (holds : Holds s x (.value bytes)) :
    ∃ s₁, s.deleteArray x.pStor = some s₁ ∧ s₁.object = s.object ∧ s₁.places = s.places ∧
      (∀ a, x.pStor = .array a → s₁.arrays a = none) ∧
      ∀ a, x.pStor ≠ .array a → s₁.arrays a = s.arrays a := by
  cases holds with
  | null =>
    refine ⟨s, rfl, rfl, rfl, fun a own => ?_, fun a _ => rfl⟩
    cases own
  | @array a _ n here =>
    refine ⟨{ s with arrays := Function.update s.arrays a none }, ?_, rfl, rfl, fun b own => ?_,
      fun b other => Function.update_of_ne (fun same => other (congrArg Stor.array same.symm)) ..⟩
    · show (s.arrays a).map _ = _
      rw [here, Option.map_some]
    · obtain rfl := Stor.array.inj own
      exact Function.update_self ..

theorem newArray_spec (s : Points H A E) (free : s.arrays a = none) (n : UInt64)
    (fresh : ℕ → UInt8) : ∃ s₁ junk, s.newArray a n fresh = some s₁ ∧ s₁.object = s.object ∧
      s₁.places = s.places ∧ junk.length = n.toNat ∧ s₁.arrays a = some junk ∧
      ∀ b, b ≠ a → s₁.arrays b = s.arrays b := by
  let junk := (List.range n.toNat).map fresh
  refine ⟨{ s with arrays := Function.update s.arrays a (some junk) }, junk, ?_, rfl, rfl,
    by simp [junk], Function.update_self .., fun b other => Function.update_of_ne other ..⟩
  rw [newArray, if_pos (Option.isNone_iff_eq_none.mpr free)]

end Arrays

section Changes

variable [DecidableEq H] [DecidableEq A] [DecidableEq E] {s : Points H A E} {m : Contents H E}
  {x : PointObject A E} {h : H} {offset : ℕ} {bytes data : List UInt8}

omit [DecidableEq A] [DecidableEq E] in
theorem put_same (here : s.object h = some x) : s.put h (some x) = s := by
  rw [put, ← here, Function.update_eq_self]

theorem length_patch (inside : offset + data.length ≤ bytes.length) :
    (Contents.patch bytes offset data).length = bytes.length := by
  simp only [Contents.patch, List.length_append, List.length_take, List.length_drop]
  omega

omit [DecidableEq A] [DecidableEq E] in
/-- An array is written. -/
theorem Represents.rewrite {s₁ : Points H A E} {a : A} {n : UInt64}
    (represents : Represents s m)
    (here : s.object h = some { bLocalStor := true, nByteSize := n, pStor := .array a })
    (object : s₁.object = s.object) (places : s₁.places = s.places)
    (written : s₁.arrays a = some bytes) (size : bytes.length = n.toNat)
    (kept : ∀ b, b ≠ a → s₁.arrays b = s.arrays b) :
    Represents s₁ (m.put h (some (.value bytes))) := by
  have own : s.Owns h a := ⟨_, here, rfl⟩
  rw [← put_same ((congrFun object h).trans here)]
  refine represents.update _ _ object places (fun k b different owns => ?_)
    (.inr ⟨_, _, rfl, rfl, .array written size⟩) (fun y b mine points k different owns => ?_)
    fun b bytes there some => ?_
  · refine kept b ?_
    rintro rfl
    exact different (represents.alone k h b owns own)
  · obtain rfl := Option.some.inj mine
    obtain rfl := Stor.array.inj points
    exact different (represents.alone k h _ owns own)
  · obtain rfl | other := eq_or_ne b a
    · exact .inl ⟨_, rfl, rfl⟩
    · rw [kept b other] at there
      obtain ⟨k, owns⟩ := represents.freed b bytes there some
      refine .inr ⟨k, ?_, owns⟩
      rintro rfl
      exact not_owns_of_ne here (fun points => other (Stor.array.inj points).symm) owns

/-- A part of a point is exchanged, in its array or in its place. -/
theorem Represents.change (represents : Represents s m) (here : s.object h = some x)
    (inside : offset + data.length ≤ x.nByteSize.toNat) :
    ∃ s₁, s.store x.pStor offset data = some s₁ ∧ s₁.object = s.object ∧
      Represents s₁ (m.change h offset data) := by
  obtain ⟨c, content, holds⟩ := represents.holds here
  cases holds with
  | null =>
    have none : offset + data.length ≤ 0 := inside
    obtain rfl : offset = 0 := by omega
    obtain rfl := List.length_eq_zero_iff.mp (show data.length = 0 by omega)
    refine ⟨s, rfl, rfl, ?_⟩
    have same : m.change h 0 [] = m :=
      (Contents.change_value content).trans (Contents.put_same content)
    rwa [same]
  | @array a bytes n there size =>
    have fits : offset + data.length ≤ bytes.length := inside.trans_eq size.symm
    let s₁ : Points H A E := { s with
      arrays := Function.update s.arrays a (some (Contents.patch bytes offset data)) }
    refine ⟨s₁, ?_, rfl, ?_⟩
    · simp only [store, there, Option.bind_eq_bind, Option.bind_some, Memory.write_of_le fits]
      rfl
    · rw [Contents.change, content]
      refine represents.rewrite here rfl rfl (Function.update_self ..)
        ((length_patch fits).trans size) fun b other => Function.update_of_ne other ..
  | @place e n room =>
    have fits : offset + data.length ≤ (s.places e).length := inside.trans room
    let s₁ : Points H A E := { s with
      places := Function.update s.places e (Contents.patch (s.places e) offset data) }
    have lengths (e' : E) : (s₁.places e').length = (s.places e').length := by
      obtain rfl | other := eq_or_ne e' e
      · simp [s₁, length_patch fits]
      · simp [s₁, Function.update_of_ne other]
    refine ⟨s₁, ?_, rfl, ?_⟩
    · simp only [store, Memory.write_of_le fits, Option.map_some]
      rfl
    · simp only [Contents.change, content]
      refine ⟨by simp only [s₁, represents.places], fun k => ?_, represents.alone, represents.freed⟩
      obtain none | ⟨y, d, found, shows, holds⟩ := represents.objects k
      · exact .inl none
      · exact .inr ⟨y, d, found, shows, holds.congr (fun _ _ => rfl) lengths⟩

end Changes

section Provisions

variable [DecidableEq H] {s s₁ : Points H A E} {m : Contents H E} {x y : PointObject A E}
  {c d : Content E} {h k o : H} {a : A} {bytes : List UInt8} {n : UInt64} {offset : ℕ}

/-- A point without an array shows something else that needs no array. -/
theorem Represents.link (represents : Represents s m) (bare : ∀ a, ¬ s.Owns h a)
    (x' : Option (PointObject A E)) (c' : Option (Content E))
    (none : ∀ x a, x' = some x → x.pStor ≠ .array a)
    (holds : x' = .none ∧ c' = .none ∨ ∃ x c, x' = some x ∧ c' = some c ∧ Holds s x c) :
    Represents (s.put h x') (m.put h c') := by
  refine represents.update x' c' rfl rfl (fun _ _ _ _ => rfl) holds
    (fun x a mine points => absurd points (none x a mine)) fun a bytes there some => ?_
  obtain ⟨k, owns⟩ := represents.freed a bytes there some
  refine .inr ⟨k, ?_, owns⟩
  rintro rfl
  exact bare a owns

/-- A point gets an array that no other point has, and gives up the old one. -/
theorem Represents.receive (represents : Represents s m) (object : s₁.object = s.object)
    (places : s₁.places = s.places) (written : s₁.arrays a = some bytes)
    (size : bytes.length = n.toNat) (mine : ∀ k, k ≠ h → ¬ s.Owns k a)
    (kept : ∀ k b, k ≠ h → s.Owns k b → s₁.arrays b = s.arrays b)
    (old : ∀ b, b ≠ a → s₁.arrays b = s.arrays b ∧ ¬ s.Owns h b ∨ s₁.arrays b = none) :
    Represents (s₁.put h (some { bLocalStor := true, nByteSize := n, pStor := .array a }))
      (m.put h (some (.value bytes))) := by
  refine represents.update _ _ object places kept (.inr ⟨_, _, rfl, rfl, .array written size⟩)
    (fun x b here points k different owns => ?_) fun b content there some => ?_
  · obtain rfl := Option.some.inj here
    obtain rfl := Stor.array.inj points
    exact mine k different owns
  · obtain rfl | other := eq_or_ne b a
    · exact .inl ⟨_, rfl, rfl⟩
    · obtain ⟨same, notOwn⟩ | gone := old b other
      · obtain ⟨k, owns⟩ := represents.freed b content (same.symm.trans there) some
        refine .inr ⟨k, ?_, owns⟩
        rintro rfl
        exact notOwn owns
      · rw [gone] at there
        cases there

/-- What a value of the right size is put into. -/
structure Provided (s : Points H A E) (m : Contents H E) (h : H) (n : UInt64)
    (x₁ : PointObject A E) (s₁ : Points H A E) : Prop where
  object : s₁.object = s.object
  places : s₁.places = s.places
  kept : ∀ k b, k ≠ h → s.Owns k b → s₁.arrays b = s.arrays b
  size : x₁.nByteSize = n
  represents : ∃ junk, junk.length = n.toNat ∧
    Represents (s₁.put h (some x₁)) (m.put h (some (.value junk)))

variable [DecidableEq A] {fresh : ℕ → UInt8}

/-- A point without an array gets a new one. -/
theorem Represents.newArray (represents : Represents s m) (bare : ∀ a, ¬ s.Owns h a)
    (free : s.arrays a = none) (n : UInt64) (fresh : ℕ → UInt8) :
    ∃ s₁, s.newArray a n fresh = some s₁ ∧
      Provided s m h n { bLocalStor := true, nByteSize := n, pStor := .array a } s₁ := by
  obtain ⟨s₁, junk, made, object, places, size, written, others⟩ := s.newArray_spec free n fresh
  have different {k : H} {b : A} (owns : s.Owns k b) : b ≠ a := by
    rintro rfl
    exact represents.not_owns free owns
  refine ⟨s₁, made, object, places, fun k b _ owns => others b (different owns), rfl, junk, size,
    represents.receive object places written size (fun k _ => represents.not_owns free)
      (fun k b _ owns => others b (different owns)) fun b other => .inl ⟨others b other, bare b⟩⟩

/-- The old array may lie where the new one comes to lie. -/
theorem Represents.renew (represents : Represents s m) (here : s.object h = some x)
    (content : m.content h = some (.value bytes)) (free : s.arrays a = none ∨ x.pStor = .array a)
    (n : UInt64) (fresh : ℕ → UInt8) :
    ∃ x₁ s₁, s.renew x n a fresh = some (x₁, s₁) ∧ x₁.bLocalStor = x.bLocalStor ∧
      Provided s m h n x₁ s₁ := by
  obtain ⟨c, shown, holds⟩ := represents.holds here
  obtain rfl := Option.some.inj (shown.symm.trans content)
  obtain ⟨s₀, deleted, object₀, places₀, gone, others₀⟩ := deleteArray_spec holds
  have unused : s₀.arrays a = none := by
    by_cases own : x.pStor = .array a
    · exact gone a own
    · rw [others₀ a own]
      exact free.resolve_right own
  obtain ⟨s₁, junk, made, object₁, places₁, size, written, others₁⟩ :=
    s₀.newArray_spec unused n fresh
  have mine (k : H) (different : k ≠ h) : ¬ s.Owns k a := by
    intro owns
    by_cases own : x.pStor = .array a
    · exact different (represents.alone k h a owns ⟨x, here, own⟩)
    · have there := represents.allocated owns
      rw [← others₀ a own, unused] at there
      cases there
  have kept (k : H) (b : A) (different : k ≠ h) (owns : s.Owns k b) :
      s₁.arrays b = s.arrays b := by
    have notNew : b ≠ a := by
      rintro rfl
      exact mine k different owns
    have notOld : x.pStor ≠ .array b := fun own =>
      different (represents.alone k h b owns ⟨x, here, own⟩)
    rw [others₁ b notNew, others₀ b notOld]
  have old (b : A) (other : b ≠ a) :
      s₁.arrays b = s.arrays b ∧ ¬ s.Owns h b ∨ s₁.arrays b = none := by
    rw [others₁ b other]
    by_cases own : x.pStor = .array b
    · exact .inr (gone b own)
    · exact .inl ⟨others₀ b own, not_owns_of_ne here own⟩
  have isLocal : x.bLocalStor = true := by cases holds <;> rfl
  refine ⟨{ x with nByteSize := n, pStor := .array a }, s₁, ?_, rfl, object₁.trans object₀,
    places₁.trans places₀, kept, rfl, junk, size, ?_⟩
  · simp only [Points.renew, deleted, made, Option.bind_eq_bind, Option.bind_some, Option.pure_def]
  · rw [isLocal]
    exact represents.receive (object₁.trans object₀) (places₁.trans places₀) written size mine
      kept old

/-- A value gives up its array, for what needs no array. -/
theorem Represents.release (represents : Represents s m) (here : s.object h = some x)
    (content : m.content h = some (.value bytes)) :
    ∃ s₁, s.deleteArray x.pStor = some s₁ ∧ s₁.places = s.places ∧
      ∀ x' c', (∀ x a, x' = some x → x.pStor ≠ .array a) →
        (x' = none ∧ c' = none ∨ ∃ x c, x' = some x ∧ c' = some c ∧ Holds s₁ x c) →
        Represents (s₁.put h x') (m.put h c') := by
  obtain ⟨c, shown, holds⟩ := represents.holds here
  obtain rfl := Option.some.inj (shown.symm.trans content)
  obtain ⟨s₁, deleted, object, places, gone, others⟩ := deleteArray_spec holds
  refine ⟨s₁, deleted, places, fun x' c' bare holds => represents.update x' c' object places
    (fun k b different owns => ?_) holds (fun x a mine points => absurd points (bare x a mine))
    fun b content there some => ?_⟩
  · exact others b fun own => different (represents.alone k h b owns ⟨x, here, own⟩)
  · have other : x.pStor ≠ .array b := by
      intro own
      rw [gone b own] at there
      cases there
    rw [others b other] at there
    obtain ⟨k, owns⟩ := represents.freed b content there some
    refine .inr ⟨k, ?_, owns⟩
    rintro rfl
    exact not_owns_of_ne here other owns

end Provisions

section Steps

variable [DecidableEq H] [DecidableEq A] [DecidableEq E] {s s₁ : Points H A E}
  {m : Contents H E} {x y x₁ : PointObject A E} {c d : Content E} {h k o : H} {a : A}
  {bytes data : List UInt8} {n nData : UInt64} {offset : ℕ} {fresh : ℕ → UInt8}

theorem store_put (s : Points H A E) (h : H) (x : Option (PointObject A E)) (p : Stor A E)
    (offset : ℕ) (data : List UInt8) :
    (s.put h x).store p offset data = (s.store p offset data).map fun s => s.put h x := by
  cases p with
  | null =>
    simp only [store]
    split <;> rfl
  | array a =>
    show (s.arrays a).bind _ = ((s.arrays a).bind _).map _
    cases s.arrays a with
    | none => rfl
    | some bytes =>
      simp only [Option.bind_some]
      cases Memory.write bytes offset data <;> rfl
  | place e =>
    show (Memory.write (s.places e) offset data).map _ = _
    simp only [store, Option.map_map]
    rfl

/-- A point that is not yet put down is written. -/
theorem Represents.store (represents : Represents (s.put h (some x)) m)
    (inside : offset + data.length ≤ x.nByteSize.toNat) :
    ∃ s₁, s.store x.pStor offset data = some s₁ ∧
      Represents (s₁.put h (some x)) (m.change h offset data) := by
  obtain ⟨t, stored, -, changed⟩ := represents.change (put_self s h (some x)) inside
  rw [store_put] at stored
  obtain ⟨s₁, written, rfl⟩ := Option.map_eq_some_iff.mp stored
  exact ⟨s₁, written, changed⟩

theorem Provided.fill (provided : Provided s m h y.nByteSize x₁ s₁)
    (represents : Represents s m) (there : s.object o = some y) (shows : m.content o = some d)
    (apart : o ≠ h) :
    ∃ s₂, s₁.memcpy x₁.pStor y.pStor y.nByteSize.toNat = some s₂ ∧
      Represents (s₂.put h (some x₁)) (m.put h (some (.value (m.shown d)))) := by
  obtain ⟨c, content, holds⟩ := represents.holds there
  obtain rfl := Option.some.inj (content.symm.trans shows)
  have long := holds.length_shown represents.places
  have loaded : s₁.load y.pStor y.nByteSize.toNat = some (m.shown c) := by
    have kept : Holds s₁ y c := holds.congr
      (fun a points => provided.kept o a apart ⟨y, there, points⟩)
      fun e => congrArg (fun places => (places e).length) provided.places
    rw [kept.load (represents.places.trans provided.places.symm) le_rfl,
      List.take_of_length_le long.le]
  obtain ⟨junk, size, filled⟩ := provided.represents
  have inside : 0 + (m.shown c).length ≤ x₁.nByteSize.toNat := by
    rw [Nat.zero_add, long, provided.size]
  obtain ⟨s₂, stored, changed⟩ := filled.store inside
  refine ⟨s₂, ?_, ?_⟩
  · rw [memcpy, loaded]
    exact stored
  · rw [Contents.change_value (Contents.put_self ..), Contents.patch_all (long.trans size.symm),
      Contents.put_put] at changed
    exact changed

omit [DecidableEq H] in
theorem free_iff (here : s.object h = some x) :
    s.free h a = true ↔ s.arrays a = none ∨ x.pStor = .array a := by
  simp [free, here]

/-- A point with an array of the right size. -/
theorem Represents.adopt (represents : Represents s m) (here : s.object h = some x)
    (free : s.free h a) (n : UInt64) (fresh : ℕ → UInt8) :
    ∃ x₁ s₁, s.adopt x n a fresh = some (x₁, s₁) ∧ Provided s m h n x₁ s₁ := by
  rw [free_iff here] at free
  obtain ⟨c, content, holds⟩ := represents.holds here
  by_cases isLocal : x.bLocalStor
  · by_cases same : x.nByteSize = n
    · refine ⟨x, s, ?_, rfl, rfl, fun _ _ _ _ => rfl, same, ?_⟩
      · rw [Points.adopt, if_pos isLocal, if_neg (not_not_intro same)]
      · cases holds with
        | null =>
          refine ⟨[], congrArg UInt64.toNat same, ?_⟩
          rwa [put_same here, Contents.put_same content]
        | @array _ bytes _ _ size =>
          refine ⟨bytes, size.trans (congrArg UInt64.toNat same), ?_⟩
          rwa [put_same here, Contents.put_same content]
        | place => cases isLocal
    · have value := content.trans (congrArg some (holds.eq_value m isLocal))
      obtain ⟨x₁, s₁, renewed, -, provided⟩ := represents.renew here value free n fresh
      exact ⟨x₁, s₁, by rw [Points.adopt, if_pos isLocal, if_pos same, renewed], provided⟩
  · have bare := holds.ne_array isLocal
    obtain ⟨s₁, made, provided⟩ := represents.newArray
      (fun b => not_owns_of_ne here (bare b)) (free.resolve_right (bare a)) n fresh
    exact ⟨_, s₁, by rw [Points.adopt, if_neg isLocal, made]; rfl, provided⟩

end Steps

section Runs

variable {s s' : Points H A E} {m : Contents H E} {x y : PointObject A E} {c d : Content E}
  {h k o : H} {a : A} {e : E} {nData : UInt64} {fresh : ℕ → UInt8}

/-- The place has room for a point. -/
theorem holds_on (fits : s.fits nData e) :
    Holds s (.on nData e) (.view e (RawPoint.byteSize nData.toNat)) := by
  simp only [Points.fits, Bool.and_eq_true, decide_eq_true_eq] at fits
  have size := toNat_getByteSize (of_decide_eq_true fits.1)
  rw [← size]
  exact .place (size.trans_le fits.2)

variable [DecidableEq H]

theorem Represents.on (represents : Represents s m) (bare : ∀ a, ¬ s.Owns h a)
    (fits : s.fits nData e) :
    Represents (s.put h (some (.on nData e)))
      (m.put h (some (.view e (RawPoint.byteSize nData.toNat)))) := by
  refine represents.link bare _ _ (fun x a here => ?_) (.inr ⟨_, _, rfl, rfl, holds_on fits⟩)
  obtain rfl := Option.some.inj here
  simp [PointObject.on]

variable [DecidableEq A] [DecidableEq E]

theorem Represents.constructFor (represents : Represents s m) (absent : s.object h = none)
    (size : small nData) (free : s.arrays a = none) (tm : UInt64) :
    ∃ s', s.constructFor h nData tm a fresh = some s' ∧
      Represents s' (m.next (.constructFor h nData tm a fresh)) := by
  have long := toNat_getByteSize (of_decide_eq_true size)
  obtain ⟨s₁, made, provided⟩ := represents.newArray (fun a => not_owns_of_none absent) free
    (CIntensityPoint.getByteSize nData) fresh
  obtain ⟨junk, length, put⟩ := provided.represents
  have whole : 0 + (List.replicate (CIntensityPoint.getByteSize nData).toNat (0 : UInt8)).length ≤
      (CIntensityPoint.getByteSize nData).toNat := by simp
  obtain ⟨s₂, cleared, zeros⟩ := put.store whole
  rw [Contents.change_value (Contents.put_self ..), Contents.patch_all (by simp [length]),
    Contents.put_put, long] at zeros
  have front : 0 + (RawPoint.wordBytes tm).length ≤
      (CIntensityPoint.getByteSize nData).toNat := by
    rw [long, RawPoint.length_wordBytes, RawPoint.byteSize]
    omega
  obtain ⟨s₃, stamped, timed⟩ := zeros.store front
  rw [Contents.change_value (Contents.put_self ..), Contents.put_put] at timed
  refine ⟨_, ?_, timed⟩
  simp only [Points.constructFor, made, cleared, stamped, Option.bind_eq_bind, Option.bind_some,
    Option.pure_def]

theorem Represents.copy (represents : Represents s m) (absent : s.object h = none)
    (there : s.object o = some y) (free : s.arrays a = none) :
    ∃ s', s.copy h o a fresh = some s' ∧ Represents s' (m.next (.copy h o a fresh)) := by
  have apart : o ≠ h := by
    rintro rfl
    rw [absent] at there
    cases there
  obtain ⟨d, shows, -⟩ := represents.holds there
  have next : m.next (.copy h o a fresh) = m.put h (some (.value (m.shown d))) := by
    rw [Contents.next, shows, Option.map_some]
  obtain ⟨s₁, made, provided⟩ := represents.newArray (fun a => not_owns_of_none absent) free
    y.nByteSize fresh
  obtain ⟨s₂, copied, filled⟩ := provided.fill represents there shows apart
  rw [next]
  refine ⟨_, ?_, filled⟩
  simp only [Points.copy, there, made, copied, Option.bind_eq_bind, Option.bind_some,
    Option.pure_def]

omit [DecidableEq E] in
theorem Represents.destroy (represents : Represents s m) (here : s.object h = some x) :
    ∃ s', s.destroy h = some s' ∧ Represents s' (m.put h none) := by
  obtain ⟨c, content, holds⟩ := represents.holds here
  by_cases owner : x.bLocalStor ∧ x.nByteSize ≠ 0
  · obtain ⟨s₁, deleted, -, released⟩ :=
      represents.release here (content.trans (congrArg some (holds.eq_value m owner.1)))
    refine ⟨s₁.put h none, ?_, released none none (by simp) (.inl ⟨rfl, rfl⟩)⟩
    simp only [Points.destroy, here, Option.bind_eq_bind, Option.bind_some, if_pos owner, deleted,
      Option.pure_def]
  · refine ⟨s.put h none, ?_, ?_⟩
    · simp only [Points.destroy, here, Option.bind_eq_bind, Option.bind_some, if_neg owner,
        Option.pure_def]
    · refine represents.update none none rfl rfl (fun _ _ _ _ => rfl) (.inl ⟨rfl, rfl⟩) (by simp)
        fun b bytes there some => ?_
      obtain ⟨k, owns⟩ := represents.freed b bytes there some
      refine .inr ⟨k, ?_, owns⟩
      rintro rfl
      obtain ⟨y, found, points⟩ := owns
      obtain rfl := Option.some.inj (found.symm.trans here)
      cases holds with
      | null | place => cases points
      | @array a content n this size =>
        -- an empty array is left behind
        obtain rfl := Stor.array.inj points
        obtain rfl := Option.some.inj (this.symm.trans there)
        have zero : n = 0 := of_not_not fun some => owner ⟨rfl, some⟩
        rw [zero] at size
        exact some (List.length_eq_zero_iff.mp size)

theorem Represents.linkWith (represents : Represents s m) (here : s.object h = some x)
    (there : s.object o = some y) (free : s.free h a) :
    ∃ s', s.linkWith h o a fresh = some s' ∧ Represents s' (m.next (.linkWith h o a fresh)) := by
  obtain ⟨c, content, holds⟩ := represents.holds here
  obtain ⟨d, shows, reads⟩ := represents.holds there
  have next : m.next (.linkWith h o a fresh) = m.put h (some d) := by
    simp only [Contents.next, content, shows]
  rw [next]
  by_cases same : h = o
  · subst same
    refine ⟨s, ?_, ?_⟩
    · simp only [Points.linkWith, here, Option.bind_eq_bind, Option.bind_some, if_pos,
        Option.pure_def]
    · rwa [Contents.put_same shows]
  · by_cases source : y.bLocalStor
    · obtain ⟨x₁, s₁, adopted, provided⟩ := represents.adopt here free y.nByteSize fresh
      obtain ⟨s₂, copied, filled⟩ := provided.fill represents there shows (Ne.symm same)
      rw [← reads.eq_value m source] at filled
      refine ⟨_, ?_, filled⟩
      simp only [Points.linkWith, here, there, Option.bind_eq_bind, Option.bind_some, if_neg same,
        if_pos source, adopted, provided.size, copied, Option.pure_def]
    · have bare (x : PointObject A E) (a : A) (mine : some y = some x) : x.pStor ≠ .array a := by
        obtain rfl := Option.some.inj mine
        exact reads.ne_array source a
      by_cases isLocal : x.bLocalStor
      · obtain ⟨s₁, deleted, places, released⟩ :=
          represents.release here (content.trans (congrArg some (holds.eq_value m isLocal)))
        have kept : Holds s₁ y d := reads.congr (fun a points => absurd points (bare y a rfl))
          fun e => congrArg (fun places => (places e).length) places
        refine ⟨_, ?_, released (some y) (some d) bare (.inr ⟨y, d, rfl, rfl, kept⟩)⟩
        simp only [Points.linkWith, here, there, Option.bind_eq_bind, Option.bind_some,
          if_neg same, if_neg source, if_pos isLocal, deleted, Option.pure_def]
      · have none (b : A) : ¬ s.Owns h b := not_owns_of_ne here (holds.ne_array isLocal b)
        refine ⟨_, ?_, represents.link none (some y) (some d) bare (.inr ⟨y, d, rfl, rfl, reads⟩)⟩
        simp only [Points.linkWith, here, there, Option.bind_eq_bind, Option.bind_some,
          if_neg same, if_neg source, if_neg isLocal, Option.pure_def]

theorem toNat_smaller (p q : UInt64) : (if p < q then p else q).toNat = min p.toNat q.toNat := by
  split
  · next less => exact (Nat.min_eq_left (UInt64.lt_iff_toNat_lt.mp less).le).symm
  · next least =>
    exact (Nat.min_eq_right (not_lt.mp fun less => least (UInt64.lt_iff_toNat_lt.mpr less))).symm

theorem Represents.assign (represents : Represents s m) (here : s.object h = some x)
    (there : s.object o = some y) (free : s.free h a) :
    ∃ s', s.assign h o a fresh = some s' ∧ Represents s' (m.next (.assign h o a fresh)) := by
  obtain ⟨c, content, holds⟩ := represents.holds here
  obtain ⟨d, shows, reads⟩ := represents.holds there
  by_cases isLocal : x.bLocalStor
  · have next : m.next (.assign h o a fresh) = m.put h (some (.value (m.shown d))) := by
      rw [holds.eq_value m isLocal] at content
      simp only [Contents.next, content, shows]
    rw [next]
    by_cases same : h = o
    · subst same
      obtain rfl := Option.some.inj (there.symm.trans here)
      refine ⟨s, ?_, ?_⟩
      · simp only [Points.assign, here, Option.bind_eq_bind, Option.bind_some, if_pos,
          Option.pure_def]
      · rwa [← reads.eq_value m isLocal, Contents.put_same shows]
    · obtain ⟨x₁, s₁, adopted, provided⟩ := represents.adopt here free y.nByteSize fresh
      rw [Points.adopt, if_pos isLocal] at adopted
      obtain ⟨s₂, copied, filled⟩ := provided.fill represents there shows (Ne.symm same)
      refine ⟨_, ?_, filled⟩
      by_cases equal : x.nByteSize = y.nByteSize
      · rw [if_neg (not_not_intro equal)] at adopted
        obtain ⟨rfl, rfl⟩ := Prod.mk.inj (Option.some.inj adopted)
        simp only [Points.assign, here, there, Option.bind_eq_bind, Option.bind_some, if_neg same,
          equal, ne_eq, not_true_eq_false, and_false, if_false, ite_self, copied,
          Option.pure_def]
      · rw [if_pos equal] at adopted
        simp only [Points.assign, here, there, Option.bind_eq_bind, Option.bind_some, if_neg same,
          if_pos (And.intro isLocal equal), adopted, provided.size, ite_self,
          copied, Option.pure_def]
  · by_cases same : h = o
    · subst same
      obtain rfl := Option.some.inj (there.symm.trans here)
      refine ⟨s, ?_, ?_⟩
      · simp only [Points.assign, here, Option.bind_eq_bind, Option.bind_some, if_pos,
          Option.pure_def]
      · cases reads with
        | null | array => exact absurd rfl isLocal
        | place =>
          simp only [Contents.next, shows, Contents.change_self shows]
          exact represents
    · -- a linked point gets what fits into it
      let count := if x.nByteSize < y.nByteSize then x.nByteSize else y.nByteSize
      have smaller : count.toNat = min x.nByteSize.toNat y.nByteSize.toNat := toNat_smaller ..
      have long := reads.length_shown represents.places
      have cut : (m.shown d).take count.toNat = (m.shown d).take x.nByteSize.toNat := by
        rw [smaller, ← long, ← List.take_take, List.take_length]
      have within : count.toNat ≤ y.nByteSize.toNat := by omega
      have loaded := reads.load represents.places within
      rw [cut] at loaded
      have inside : 0 + ((m.shown d).take x.nByteSize.toNat).length ≤ x.nByteSize.toNat := by
        rw [List.length_take]
        omega
      obtain ⟨s₁, stored, object, changed⟩ := represents.change here inside
      have next : m.next (.assign h o a fresh) =
          m.change h 0 ((m.shown d).take x.nByteSize.toNat) := by
        cases holds with
        | null | array => exact absurd rfl isLocal
        | place => simp only [Contents.next, content, shows]
      refine ⟨s₁, ?_, ?_⟩
      · have copied : s.memcpy x.pStor y.pStor count.toNat = some s₁ := by
          rw [memcpy, loaded]
          exact stored
        simp only [Points.assign, here, there, Option.bind_eq_bind, Option.bind_some, if_neg same,
          isLocal, Option.pure_def]
        show (s.memcpy x.pStor y.pStor count.toNat).bind _ = _
        rw [copied, Option.bind_some, put_same ((congrFun object h).trans here)]
      · rwa [next]

omit [DecidableEq A] in
/-- The records of a pool are assigned like the points. -/
theorem Represents.assigned (represents : Represents s m) (content : m.content h = some c)
    (shows : m.content o = some d) :
    ∃ c', (m.next (.assign h o a fresh)).content h = some c' ∧
      (m.next (.assign h o a fresh)).point c' = (m.point c).assign (m.point d) := by
  cases c with
  | value bytes =>
    have next : m.next (.assign h o a fresh) = m.put h (some (.value (m.shown d))) := by
      simp only [Contents.next, content, shows]
    rw [next]
    refine ⟨_, Contents.put_self .., ?_⟩
    by_cases sized : (m.shown d).length = bytes.length
    · rw [CIntensityPoint.assign_sized sized]
      rfl
    · rw [CIntensityPoint.assign, if_pos ⟨rfl, Ne.symm sized⟩]
      rfl
  | view e count =>
    have next : m.next (.assign h o a fresh) = m.change h 0 ((m.shown d).take count) := by
      simp only [Contents.next, content, shows]
    have room : count ≤ (m.places e).length := by
      obtain ⟨-, none⟩ | ⟨x, c, -, here, holds⟩ := represents.objects h
      · rw [none] at content
        cases content
      · obtain rfl := Option.some.inj (here.symm.trans content)
        rw [represents.places]
        cases holds
        assumption
    have changed : (m.change h 0 ((m.shown d).take count)).places e =
        Contents.patch (m.places e) 0 ((m.shown d).take count) := by
      rw [Contents.change, content]
      exact Function.update_self ..
    have kept : (m.change h 0 ((m.shown d).take count)).content = m.content := by
      rw [Contents.change, content]
    rw [next, kept]
    refine ⟨.view e count, content, ?_⟩
    rw [CIntensityPoint.assign, if_neg (fun owner => by cases owner.1)]
    show CIntensityPoint.mk false (List.take count _) =
      ⟨false, (m.shown d).take ((m.places e).take count).length ++
        ((m.places e).take count).drop (m.shown d).length⟩
    rw [changed, Contents.take_patch, List.length_take, Nat.min_eq_left room]

theorem Represents.step {call : PointCall H A E} (represents : Represents s m)
    (enabled : s.enabled call) :
    ∃ s', s.perform call = some s' ∧ Represents s' (m.next call) := by
  cases call with
  | construct h =>
    have absent := Option.isNone_iff_eq_none.mp enabled
    refine ⟨_, rfl, represents.link (fun a => not_owns_of_none absent) _ _ (fun x a here => ?_)
      (.inr ⟨_, _, rfl, rfl, .null⟩)⟩
    obtain rfl := Option.some.inj here
    simp
  | constructOn h nData e =>
    obtain ⟨absent, fits⟩ := Bool.and_eq_true_iff.mp enabled
    exact ⟨_, rfl, represents.on
      (fun a => not_owns_of_none (Option.isNone_iff_eq_none.mp absent)) fits⟩
  | constructFor h nData tm a fresh =>
    obtain ⟨others, free⟩ := Bool.and_eq_true_iff.mp enabled
    obtain ⟨absent, size⟩ := Bool.and_eq_true_iff.mp others
    exact represents.constructFor (Option.isNone_iff_eq_none.mp absent) size
      (Option.isNone_iff_eq_none.mp free) tm
  | copy h o a fresh =>
    obtain ⟨others, free⟩ := Bool.and_eq_true_iff.mp enabled
    obtain ⟨absent, there⟩ := Bool.and_eq_true_iff.mp others
    obtain ⟨y, there⟩ := Option.isSome_iff_exists.mp there
    exact represents.copy (Option.isNone_iff_eq_none.mp absent) there
      (Option.isNone_iff_eq_none.mp free)
  | destroy h =>
    obtain ⟨x, here⟩ := Option.isSome_iff_exists.mp enabled
    exact represents.destroy here
  | allocate h nData e =>
    obtain ⟨linked, fits⟩ := Bool.and_eq_true_iff.mp enabled
    obtain ⟨x, here, bare⟩ := Option.any_eq_true .. |>.mp linked
    obtain ⟨c, -, holds⟩ := represents.holds here
    refine ⟨_, rfl, represents.on (fun a => not_owns_of_ne here ?_) fits⟩
    obtain linked | null := Bool.or_eq_true_iff.mp bare
    · exact holds.ne_array (by simpa using linked) a
    · rw [of_decide_eq_true null]
      simp
  | linkWith h o a fresh | assign h o a fresh =>
    obtain ⟨others, free⟩ := Bool.and_eq_true_iff.mp enabled
    obtain ⟨here, there⟩ := Bool.and_eq_true_iff.mp others
    obtain ⟨x, here⟩ := Option.isSome_iff_exists.mp here
    obtain ⟨y, there⟩ := Option.isSome_iff_exists.mp there
    first
    | exact represents.linkWith here there free
    | exact represents.assign here there free
  | write h offset data =>
    obtain ⟨x, here, inside⟩ := Option.any_eq_true .. |>.mp enabled
    obtain ⟨s', stored, -, changed⟩ := represents.change here (of_decide_eq_true inside)
    refine ⟨s', ?_, changed⟩
    simp only [perform, here, stored, Option.bind_eq_bind, Option.bind_some]

omit [DecidableEq H] [DecidableEq A] [DecidableEq E] in
theorem Represents.initial (places : E → List UInt8) :
    Represents ({ places } : Points H A E) { places } where
  places := rfl
  objects _ := .inl ⟨rfl, rfl⟩
  alone := by
    rintro h k a ⟨x, here, -⟩
    cases here
  freed := by
    intro a bytes there
    cases there

variable {places : E → List UInt8} {history : List (PointCall H A E × Unit)}

theorem run_represents (run : (machine H A E).Run { places } history s) :
    Represents s (meaning places history) := by
  refine run.invariant (P := fun history s => Represents s (meaning places history))
    (.initial places) fun history t call o u _ represents step => ?_
  simp only [machine] at step
  split at step
  · next enabled =>
    obtain ⟨s', performed, holds⟩ := represents.step enabled
    obtain ⟨_, performed', same⟩ := Option.map_eq_some_iff.mp step
    obtain rfl := Option.some.inj (performed'.symm.trans performed)
    obtain ⟨-, rfl⟩ := Prod.mk.inj same
    rw [meaning, List.foldl_append]
    exact holds
  · cases step

omit [DecidableEq H] [DecidableEq A] [DecidableEq E] in
theorem Represents.value (represents : Represents s m) (h : H) :
    s.value h = (m.content h).map m.shown := by
  obtain ⟨none, none'⟩ | ⟨x, c, here, content, holds⟩ := represents.objects h
  · rw [Points.value, none, none']
    rfl
  · rw [Points.value, here, content, Option.bind_some, Option.map_some,
      holds.load represents.places le_rfl,
      List.take_of_length_le (holds.length_shown represents.places).le]

end Runs

end Points

end Crs.RingPool
