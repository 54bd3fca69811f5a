import Crs.Foundation.Machine
import Mathlib.Data.Finset.Card
import Mathlib.Data.Fintype.Basic
import Mathlib.Algebra.BigOperators.Group.Finset.Basic
import Mathlib.Logic.Function.Basic

/-!
# Counted handles

A handle is a pointer to an object and a pointer to the counter of the handles that hold the
object. Both pointers are plain addresses: a handle that is set to null keeps the address of
its counter, and a handle that lets go of an object which others still hold keeps both until
it is bound again. Addresses may be used again after a deletion, so a stale pointer can come
to point at something else.

An access to a deleted counter and a second deletion are faults: the operation has no result.
A section under the spin lock of a counter is one step.
-/

namespace Crs.Handle

open Foundation

universe u

variable {A C H : Type u}

/-- The heap: which objects are allocated, and the counters with their values. -/
structure Memory (A C : Type u) where
  objects : A → Bool := fun _ => false
  nlinks : C → Option ℤ := fun _ => none

/-- A `cHandle`. -/
structure CHandle (A C : Type u) where
  object : Option A := none
  hcounter : Option C := none
deriving DecidableEq

/-- What an operation has allocated and deleted: an object with its counter. -/
structure Report (A C : Type u) where
  created : Option (A × C) := none
  deleted : Option (A × C) := none
deriving DecidableEq

section Operations

variable [DecidableEq A] [DecidableEq C]

def Memory.newObject (m : Memory A C) (a : A) : Memory A C :=
  { m with objects := Function.update m.objects a true }

def Memory.deleteObject (m : Memory A C) (a : A) : Option (Memory A C) :=
  if m.objects a then some { m with objects := Function.update m.objects a false } else none

/-- The allocator never answers with an address in use. -/
def Memory.newCounter (m : Memory A C) (c : C) (nStartCounter : ℤ) : Option (Memory A C) :=
  if (m.nlinks c).isNone then
    some { m with nlinks := Function.update m.nlinks c (some nStartCounter) }
  else none

def Memory.deleteCounter (m : Memory A C) (c : C) : Option (Memory A C) :=
  (m.nlinks c).map fun _ => { m with nlinks := Function.update m.nlinks c none }

def addhandle (c : C) (m : Memory A C) : Option (Memory A C) :=
  (m.nlinks c).map fun n => { m with nlinks := Function.update m.nlinks c (some (n + 1)) }

def releasehandle (c : C) (m : Memory A C) : Option (ℤ × Memory A C) :=
  (m.nlinks c).map fun n =>
    (n - 1, { m with nlinks := Function.update m.nlinks c (some (n - 1)) })

/-- Let go of the object; the last handle deletes the counter and the object. -/
def unbind (x : CHandle A C) (m : Memory A C) :
    Option (Option (A × C) × CHandle A C × Memory A C) :=
  match x.object with
  | none => some (none, x, m)
  | some a => do
      let c ← x.hcounter
      let (n, m) ← releasehandle c m
      if n = 0 then
        let m ← m.deleteCounter c
        let m ← m.deleteObject a
        return (some (a, c), { object := none, hcounter := none }, m)
      else return (none, x, m)

/-- `assign` of an object and a counter. -/
def assignPair (x : CHandle A C) (objectptr : Option A) (hcounterptr : Option C)
    (m : Memory A C) : Option (CHandle A C × Memory A C) :=
  match objectptr with
  | none => some ({ x with object := none }, m)
  | some a => do
      let c ← hcounterptr
      let m ← addhandle c m
      return ({ object := some a, hcounter := some c }, m)

def assign (x o : CHandle A C) (m : Memory A C) :
    Option (Report A C × CHandle A C × Memory A C) :=
  if x.object = o.object then some ({}, x, m)
  else do
    let (deleted, x, m) ← unbind x m
    let (x, m) ← assignPair x o.object o.hcounter m
    return ({ deleted }, x, m)

/-- `bind`, with the address that a new counter gets. -/
def bind (x : CHandle A C) (ptr : Option A) (c : C) (m : Memory A C) :
    Option (Report A C × CHandle A C × Memory A C) :=
  if x.object = ptr then some ({}, x, m)
  else do
    let (deleted, x, m) ← unbind x m
    match ptr with
    | none => return ({ deleted }, { x with object := none }, m)
    | some a =>
        let m ← m.newCounter c 1
        return ({ created := some (a, c), deleted }, { object := some a, hcounter := some c }, m)

end Operations

/-- A pointer that may be given to a handle: null, one to a new object, or the one that the
handle holds. -/
inductive Pointer (A : Type u) where
  | null
  | fresh (a : A)
  | held

/-- The operations on a handle `h`. A new counter gets the address `c`. -/
inductive Op (H A C : Type u) where
  | construct (h : H) (ptr : Pointer A) (c : C)
  | copy (h o : H)
  | bind (h : H) (ptr : Pointer A) (c : C)
  | assign (h o : H)
  | destroy (h : H)

/-- The handles that exist, and the heap. -/
structure State (H A C : Type u) where
  handle : H → Option (CHandle A C) := fun _ => none
  memory : Memory A C := {}

section Machine

variable [DecidableEq A] [DecidableEq C] [DecidableEq H]

/-- The pointer as an address. -/
def Pointer.value (x : CHandle A C) : Pointer A → Option A
  | .null => none
  | .fresh a => some a
  | .held => x.object

/-- A new object is allocated before the operation. -/
def Pointer.allocate (m : Memory A C) : Pointer A → Memory A C
  | .fresh a => m.newObject a
  | .null | .held => m

/-- The allocator of objects gives an address that is not in use, and so does that of
counters, which is asked after the handle has let go of its object. -/
def Pointer.available (x : CHandle A C) (c : C) (m : Memory A C) : Pointer A → Bool
  | .fresh a =>
      !m.objects a && (unbind x (m.newObject a)).all fun r => (r.2.2.nlinks c).isNone
  | .null | .held => true

/-- Constructors are called for handles that do not exist, all else for those that do. -/
def enabled (s : State H A C) : Op H A C → Bool
  | .construct h ptr c => (s.handle h).isNone && ptr.available {} c s.memory
  | .copy h o => (s.handle h).isNone && (s.handle o).isSome
  | .bind h ptr c => (s.handle h).any fun x => ptr.available x c s.memory
  | .assign h o => (s.handle h).isSome && (s.handle o).isSome
  | .destroy h => (s.handle h).isSome

def perform (s : State H A C) : Op H A C → Option (Report A C × State H A C)
  | .construct h ptr c => do
      let (report, x, memory) ← bind {} (ptr.value ({} : CHandle A C)) c (ptr.allocate s.memory)
      return (report, { handle := Function.update s.handle h (some x), memory })
  | .copy h o => do
      let o ← s.handle o
      let (report, x, memory) ← assign {} o s.memory
      return (report, { handle := Function.update s.handle h (some x), memory })
  | .bind h ptr c => do
      let x ← s.handle h
      let (report, x, memory) ← bind x (ptr.value x) c (ptr.allocate s.memory)
      return (report, { handle := Function.update s.handle h (some x), memory })
  | .assign h o => do
      let x ← s.handle h
      let o ← s.handle o
      let (report, x, memory) ← assign x o s.memory
      return (report, { handle := Function.update s.handle h (some x), memory })
  | .destroy h => do
      let x ← s.handle h
      let (deleted, _, memory) ← unbind x s.memory
      return ({ deleted }, { handle := Function.update s.handle h none, memory })

def machine (H A C : Type u) [DecidableEq H] [DecidableEq A] [DecidableEq C] :
    Machine (State H A C) (Op H A C) (Report A C) where
  step s op := if enabled s op then perform s op else none

end Machine

end Crs.Handle
