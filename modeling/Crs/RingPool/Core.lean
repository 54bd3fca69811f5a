import Crs.RingPool.Window

/-!
# The records of the field states

A DAQ core is a ring whose points link to records of field states. A record is made when
the field changes, gets into the index with the first point that links to it, and has the
position of that point. When a pool leaves the window, the ring calls the two virtual
functions, so that the core deletes what nothing links to any more.

A record is known by the number in which it was allocated; the address of a deleted one
is not used again here. Its number stays in no pointer that is followed: to follow it is
a step that does not exist. The order of the index by the field states is left out.
-/

namespace Crs.RingPool

open Foundation Handshake

/-- A point, with its pointer to a record. -/
structure IntensityPoint (D : Type*) where
  data : D
  link : Option ℕ

structure FieldStateRec (F : Type*) where
  state : F
  link : ℕ := 0

/-- What `cDAQCore` adds to a ring. -/
structure DAQCore (F : Type*) where
  records : ℕ → Option (FieldStateRec F) := fun _ => none
  allocated : ℕ := 0
  field : Option ℕ := none
  fieldIndex : List ℕ := []
  newFieldState : Bool := false

namespace DAQCore

variable {D F : Type*}

def release (ip : IntensityPoint D) (x : DAQCore F) : Option (DAQCore F) :=
  match ip.link with
  | none => some x
  | some rec2Release =>
      (x.records rec2Release).map fun _ =>
        { x with
          fieldIndex := x.fieldIndex.erase rec2Release
          records := Function.update x.records rec2Release none }

def fixLink (ip : IntensityPoint D) (newPos : ℕ) (x : DAQCore F) : Option (DAQCore F) :=
  match ip.link with
  | none => some x
  | some rec2Release =>
      (x.records rec2Release).map fun found =>
        { x with records :=
            Function.update x.records rec2Release (some { found with link := newPos }) }

/-- The virtual functions of a DAQ core. -/
def client : Client (IntensityPoint D) (DAQCore F) := ⟨IntensityPoint.link, release, fixLink⟩

@[simp] theorem client_link (ip : IntensityPoint D) :
    (client : Client (IntensityPoint D) (DAQCore F)).link ip = ip.link := rfl

@[simp] theorem client_release (ip : IntensityPoint D) (x : DAQCore F) :
    client.release ip x = x.release ip := rfl

@[simp] theorem client_fixLink (ip : IntensityPoint D) (newPos : ℕ) (x : DAQCore F) :
    client.fixLink ip newPos x = x.fixLink ip newPos := rfl

/-- A new record for the field, in place of one that no point has got. -/
def renew (newState : F) (x : DAQCore F) : DAQCore F :=
  let kept :=
    match x.field with
    | some old => if x.newFieldState then Function.update x.records old none else x.records
    | none => x.records
  { x with
    records := Function.update kept x.allocated (some ⟨newState, 0⟩)
    allocated := x.allocated + 1
    field := some x.allocated
    newFieldState := true }

/-- `cDAQCore::field`. -/
def setField [BEq F] (newState : F) (x : DAQCore F) : Option (DAQCore F) :=
  match x.field with
  | none => some (x.renew newState)
  | some old =>
      (x.records old).map fun found =>
        if found.state != newState then x.renew newState else x

/-- What `acquire` does after the push. -/
def index (endPos : ℕ) (x : DAQCore F) : Option (DAQCore F) :=
  if x.newFieldState then
    x.field.bind fun new =>
      (x.records new).map fun found =>
        { x with
          records := Function.update x.records new
            (some { found with link := (endPos + (2 ^ digits - 1)) % 2 ^ digits })
          fieldIndex := new :: x.fieldIndex
          newFieldState := false }
  else some x

end DAQCore

/-- A core, and whether its thread is in `acquire`. -/
structure DAQ (D F : Type*) where
  ring : Ring (IntensityPoint D) (DAQCore F)
  acquiring : Bool := false

namespace DAQ

variable {D F : Type*} [BEq F] (g : BitMaskCalculator)

/-- The thread of the core calls `field` or `acquire`; it goes on in the push; it does what
follows the push; the swapper goes on. -/
inductive Call (D F : Type*) where
  | field (newState : F)
  | acquire (data : D)
  | producer
  | index
  | swapper

def machine : Machine (DAQ D F) (Call D F) (Ring.Seen (IntensityPoint D)) where
  step s
    | .field newState =>
        if s.acquiring then none
        else
          (s.ring.client.setField newState).map fun client =>
            (.quiet, { s with ring := { s.ring with client } })
    | .acquire data =>
        if s.acquiring then none
        else
          (s.ring.push g ⟨data, s.ring.client.field⟩).map fun next =>
            (next.1, ⟨next.2, true⟩)
    | .producer => (s.ring.produce g).map fun next => (next.1, { s with ring := next.2 })
    | .index =>
        if s.acquiring = true ∧ s.ring.control.producer = .idle then
          (s.ring.client.index s.ring.endPos).map fun client =>
            (.quiet, ⟨{ s.ring with client }, false⟩)
        else none
    | .swapper =>
        (s.ring.swapperRun g DAQCore.client).map fun next => (next.1, { s with ring := next.2 })

/-- The constructor. -/
def new (cfg : Config) (zero : IntensityPoint D) : DAQ D F := ⟨Ring.new cfg zero {}, false⟩

/-- The thread is outside of `field` and `acquire`, and no pool is between the two places
where it leaves the window and where it is released. -/
def Boundary (s : DAQ D F) : Prop := s.acquiring = false ∧ s.ring.stage ≠ .releasing

/-- Every point in the window that has a link has it to a record in the index, and every
record in the index has the position of the first point in the window with a link to it.
Positions are compared as iterators are. All other records were deleted, except for a new
one that waits for its first point. -/
structure Linked (s : DAQ D F) : Prop where
  points : ∀ i < s.ring.size g, ∃ point, s.ring.nth g i = some point ∧
    ∀ r, point.link = some r → (s.ring.client.records r).isSome ∧ r ∈ s.ring.client.fieldIndex
  records : ∀ r ∈ s.ring.client.fieldIndex, ∃ i < s.ring.size g, ∃ point found,
    s.ring.nth g i = some point ∧ point.link = some r ∧
    (∀ j < i, ∀ other, s.ring.nth g j = some other → other.link ≠ some r) ∧
    s.ring.client.records r = some found ∧
    g.fullIdx found.link = g.fullIdx (s.ring.beginPos + i)
  deleted : ∀ r, (s.ring.client.records r).isSome → r ∈ s.ring.client.fieldIndex ∨
    s.ring.client.newFieldState = true ∧ s.ring.client.field = some r

/-- The link of the point at a position. -/
def linkAt (s : DAQ D F) (i : ℕ) : Option (Option ℕ) := (s.ring.idx g i).map IntensityPoint.link

/-- The pool that leaves the window begins with the record of the first point behind it, or
it begins without a record and does not end with that one. -/
def Gentle (s : DAQ D F) : Prop :=
  let nBeginPos := g.fullIdx ((s.ring.nPool2Swap2 <<< g.rootMaskShift) % 2 ^ digits)
  let nEndPos := g.fullIdx (((s.ring.nPool2Swap2 + 1) <<< g.rootMaskShift) % 2 ^ digits)
  s.linkAt g nBeginPos = s.linkAt g nEndPos ∨
    s.linkAt g nBeginPos = some none ∧
      s.linkAt g (nBeginPos + g.nPoolSize - 1) ≠ s.linkAt g nEndPos

end DAQ

end Crs.RingPool
