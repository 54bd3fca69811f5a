import Crs.Foundation.Machine
import Mathlib.Algebra.Order.Ring.Nat
import Mathlib.Data.Fin.Basic

/-!
# The disjoint set data structure

A vector of points with a parent and a rank. A point whose parent is still `npos`
has not been visited; the first `find` on it makes it its own parent. `size_t` is a
natural number below `2 ^ 64`, and the two counters step modulo that number.

An access outside the vector and a walk that does not end are both `none`. The fuel
of the walk is the length of the vector.
-/

namespace Crs

open Foundation

namespace DisjointSet

/-- `static_cast<size_t> (-1)`. -/
def npos : Nat := 2 ^ 64 - 1

/-- `++x` on a `size_t`. -/
def increment (x : Nat) : Nat := (x + 1) % 2 ^ 64

/-- `--x` on a `size_t`. -/
def decrement (x : Nat) : Nat := (x + (2 ^ 64 - 1)) % 2 ^ 64

theorem increment_of_lt {x : Nat} (below : x + 1 < 2 ^ 64) : increment x = x + 1 :=
  Nat.mod_eq_of_lt below

theorem decrement_succ {x : Nat} (below : x < 2 ^ 64) : decrement (x + 1) = x := by
  simp only [decrement]
  omega

structure PointData where
  parent : Nat := npos
  rank : Nat := 0
  deriving DecidableEq, Repr

end DisjointSet

structure DisjointSet where
  cont : Array DisjointSet.PointData
  ngroups : Nat
  deriving DecidableEq, Repr

namespace DisjointSet

def new (sz : Nat) : DisjointSet := ⟨Array.replicate sz {}, sz⟩

def getParent (d : DisjointSet) (vx : Nat) : Option Nat := d.cont[vx]?.map (·.parent)

def getRank (d : DisjointSet) (vx : Nat) : Option Nat := d.cont[vx]?.map (·.rank)

/-- `_cont[vx].parent = parent`. -/
def setParent (d : DisjointSet) (vx parent : Nat) : Option DisjointSet :=
  if vx < d.cont.size then
    some { d with cont := d.cont.modify vx fun point => { point with parent } }
  else none

/-- `++_cont[vx].rank`. -/
def incrementRank (d : DisjointSet) (vx : Nat) : Option DisjointSet :=
  if vx < d.cont.size then
    some { d with cont := d.cont.modify vx fun point =>
      { point with rank := increment point.rank } }
  else none

def makeSet (d : DisjointSet) (vx : Nat) : Option (Nat × DisjointSet) := do
  let d ← d.setParent vx vx
  return (vx, d)

/-- The loop of `find`: go to the parent until an element is its own parent. -/
def walk (d : DisjointSet) : Nat → Nat → Option Nat
  | 0, _ => none
  | fuel + 1, parent => do
      let next ← d.getParent parent
      if parent ≠ next then d.walk fuel next else return parent

def find (d : DisjointSet) (vx : Nat) : Option (Nat × DisjointSet) := do
  let parent ← d.getParent vx
  if parent = npos then d.makeSet vx
  else
    let parent ← d.walk d.cont.size parent
    let d ← d.setParent vx parent
    return (parent, d)

def join (d : DisjointSet) (vx vy : Nat) : Option DisjointSet := do
  let (xroot, d) ← d.find vx
  let (yroot, d) ← d.find vy
  if xroot = yroot then return d
  let xrank ← d.getRank xroot
  let yrank ← d.getRank yroot
  let d ←
    if xrank < yrank then d.setParent xroot yroot
    else if yrank < xrank then d.setParent yroot xroot
    else do
      let d ← d.setParent yroot xroot
      d.incrementRank xroot
  return { d with ngroups := decrement d.ngroups }

def clear (d : DisjointSet) : DisjointSet :=
  { ngroups := d.cont.size, cont := Array.replicate d.cont.size {} }

/-- `find (x) == find (y)`. -/
def same (d : DisjointSet) (vx vy : Nat) : Option Bool := do
  let (xroot, d) ← d.find vx
  let (yroot, _) ← d.find vy
  return xroot == yroot

/-- The calls of the public interface on indices below `n`. -/
inductive Call (n : Nat) where
  | makeSet (vx : Fin n)
  | find (vx : Fin n)
  | join (vx vy : Fin n)
  | clear
  deriving DecidableEq

/-- The objects of the class under calls; a call may return an index. -/
def machine (n : Nat) : Machine DisjointSet (Call n) (Option Nat) where
  step d
    | .makeSet vx => (d.makeSet vx).map fun (root, d) => (some root, d)
    | .find vx => (d.find vx).map fun (root, d) => (some root, d)
    | .join vx vy => (d.join vx vy).map fun d => (none, d)
    | .clear => some (none, d.clear)

end DisjointSet
end Crs
