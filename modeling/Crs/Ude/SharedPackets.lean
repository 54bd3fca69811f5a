import Crs.Foundation.Machine
import Crs.Ude.PacketSizes
import Crs.Handle.Basic

/-!
# Packets that share their contents

A `cTalkPacket` is a size, a pointer to an array and a pointer to a counter of the packets
that have this array. A copy shares the array, so what is written through one packet is read
through the other one. A packet is not a `cHandle`, but it counts in the same way; unlike a
handle it is never empty between two calls, since each constructor makes an array, takes the one
of another packet, or throws.

Addresses may be used again after a deletion. An access to a deleted counter or array, an
access outside an array and a second deletion are faults: the operation has no result.
-/

namespace Crs.Ude

open Foundation

variable {A C H : Type}

/-- The arrays of characters with their contents, and the counters with their values. -/
structure Heap (A C : Type) where
  arrays : A → Option (List UInt8) := fun _ => none
  nlinks : C → Option ℤ := fun _ => none

/-- A `cTalkPacket` as it lies in memory. -/
structure SharedPacket (A C : Type) where
  size : UInt32 := 0
  contents : Option A := none
  hcounter : Option C := none
deriving DecidableEq

/-- The constructors that make an array. -/
inductive Constructor where
  | fields (pid : UInt16) (csz : UInt32) (dmn rcp : UInt16)
  | header (hdr : PacketHeader)
  | raw (rawSize : UInt64) (rawContents : Nat → UInt8)

/-- The size and the array. -/
def Constructor.run (fresh : Nat → UInt8) : Constructor → Except Failure TalkPacket
  | fields pid csz dmn rcp => TalkPacket.construct fresh pid csz dmn rcp
  | header hdr => TalkPacket.ofHeader fresh hdr
  | raw rawSize rawContents => TalkPacket.ofRaw rawSize rawContents

section Operations

variable [DecidableEq A] [DecidableEq C]

/-- The allocator never answers with an address in use. -/
def Heap.newArray (m : Heap A C) (a : A) (bytes : List UInt8) : Option (Heap A C) :=
  if (m.arrays a).isNone then
    some { m with arrays := Function.update m.arrays a (some bytes) }
  else none

def Heap.newCounter (m : Heap A C) (c : C) (nStartCounter : ℤ) : Option (Heap A C) :=
  if (m.nlinks c).isNone then
    some { m with nlinks := Function.update m.nlinks c (some nStartCounter) }
  else none

def Heap.deleteCounter (m : Heap A C) (c : C) : Option (Heap A C) :=
  (m.nlinks c).map fun _ => { m with nlinks := Function.update m.nlinks c none }

namespace SharedPacket

def addhandle (x : SharedPacket A C) (m : Heap A C) : Option (Heap A C) := do
  let c ← x.hcounter
  let n ← m.nlinks c
  return { m with nlinks := Function.update m.nlinks c (some (n + 1)) }

def releasehandle (c : C) (m : Heap A C) : Option (ℤ × Heap A C) :=
  (m.nlinks c).map fun n =>
    (n - 1, { m with nlinks := Function.update m.nlinks c (some (n - 1)) })

/-- `delete [] contents`, of the array at `a`. -/
def release (a : A) (m : Heap A C) : Option (Heap A C) :=
  (m.arrays a).map fun _ => { m with arrays := Function.update m.arrays a none }

/-- Let go of the array; the last packet deletes the counter and the array. -/
def unbind (x : SharedPacket A C) (m : Heap A C) : Option (SharedPacket A C × Heap A C) :=
  match x.contents with
  | none => some (x, m)
  | some a => do
      let c ← x.hcounter
      let (n, m) ← releasehandle c m
      if n = 0 then
        let m ← m.deleteCounter c
        let m ← release a m
        return ({ size := 0, contents := none, hcounter := none }, m)
      else return (x, m)

def assign (x o : SharedPacket A C) (m : Heap A C) : Option (SharedPacket A C × Heap A C) :=
  if x.contents = o.contents then some (x, m)
  else do
    let (x, m) ← unbind x m
    let x := { x with size := o.size, contents := o.contents, hcounter := o.hcounter }
    let m ← addhandle x m
    return (x, m)

/-- An access through the pointers into the packet: `header ()`, `byte ()` and the others. -/
def write (x : SharedPacket A C) (offset : Nat) (data : List UInt8) (m : Heap A C) :
    Option (Heap A C) := do
  let a ← x.contents
  let bytes ← m.arrays a
  let bytes ← Memory.write bytes offset data
  return { m with arrays := Function.update m.arrays a (some bytes) }

end SharedPacket

end Operations

/-- The operations on a packet `h`. A constructor gets the addresses `a` and `c`. -/
inductive SharedOp (H A C : Type) where
  | construct (h : H) (how : Constructor) (fresh : Nat → UInt8) (a : A) (c : C)
  | copy (h o : H)
  | assign (h o : H)
  | write (h : H) (offset : Nat) (data : List UInt8)
  | destroy (h : H)

/-- Whether the operation returned or threw an exception. -/
inductive Ended where
  | returned
  | thrown
  deriving DecidableEq

/-- The packets that exist, and the heap. -/
structure SharedPackets (H A C : Type) where
  packet : H → Option (SharedPacket A C) := fun _ => none
  heap : Heap A C := {}

namespace SharedPackets

/-- What a packet shows: its size and its array. -/
def value (s : SharedPackets H A C) (h : H) : Option TalkPacket := do
  let x ← s.packet h
  let a ← x.contents
  let bytes ← s.heap.arrays a
  return ⟨x.size, bytes⟩

/-- The array of a packet. -/
def array (s : SharedPackets H A C) (h : H) : Option A :=
  (s.packet h).bind SharedPacket.contents

def counter (s : SharedPackets H A C) (h : H) : Option C :=
  (s.packet h).bind SharedPacket.hcounter

section Machine

variable [DecidableEq H] [DecidableEq A] [DecidableEq C]

/-- Constructors are called for packets that do not exist, all else for those that do. The
header of a new packet, and whatever else is written, fits into the array. -/
def enabled (s : SharedPackets H A C) : SharedOp H A C → Bool
  | .construct h how fresh a c => (s.packet h).isNone && (s.heap.arrays a).isNone &&
      (s.heap.nlinks c).isNone &&
      match how.run fresh with
      | .error .outOfBounds => false
      | .error (.rangeError _) | .ok _ => true
  | .copy h o => (s.packet h).isNone && (s.packet o).isSome
  | .assign h o => (s.packet h).isSome && (s.packet o).isSome
  | .write h offset data => (s.packet h).any fun x => offset + data.length ≤ x.size.toNat
  | .destroy h => (s.packet h).isSome

def perform (s : SharedPackets H A C) : SharedOp H A C → Option (Ended × SharedPackets H A C)
  | .construct h how fresh a c =>
      match how.run fresh with
      | .error .outOfBounds => none
      | .error (.rangeError _) => some (.thrown, s)
      | .ok p => do
          let heap ← s.heap.newCounter c 1
          let heap ← heap.newArray a p.contents
          return (.returned,
            { packet := Function.update s.packet h (some ⟨p.size, some a, some c⟩), heap })
  | .copy h o => do
      let o ← s.packet o
      let (x, heap) ← SharedPacket.assign {} o s.heap
      return (.returned, { packet := Function.update s.packet h (some x), heap })
  | .assign h o => do
      let x ← s.packet h
      let o ← s.packet o
      let (x, heap) ← x.assign o s.heap
      return (.returned, { packet := Function.update s.packet h (some x), heap })
  | .write h offset data => do
      let x ← s.packet h
      let heap ← x.write offset data s.heap
      return (.returned, { s with heap })
  | .destroy h => do
      let x ← s.packet h
      let (_, heap) ← x.unbind s.heap
      return (.returned, { packet := Function.update s.packet h none, heap })

def machine (H A C : Type) [DecidableEq H] [DecidableEq A] [DecidableEq C] :
    Machine (SharedPackets H A C) (SharedOp H A C) Ended where
  step s op := if enabled s op then perform s op else none

end Machine

end SharedPackets

end Crs.Ude
