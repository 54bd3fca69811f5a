import Crs.Foundation.Histogram
import Mathlib.Algebra.Order.Field.Rat
import Mathlib.Data.List.Range
import Mathlib.Logic.Function.Basic

/-!
# Measuring a peak

The plain functions on a spectrum: smoothing by a moving average, the search for
the maximum and for the slopes around it, and the background level read off the
histogram of the intensities. Numbers are exact rationals, so that adding one
to a number gives one just for zero. An array is a function on indices, of which
the loops touch those below `nData`; `yo` is an array with arbitrary contents
that a function writes to.
-/

namespace Crs.Peak

open Foundation

abbrev Data := ℕ → ℚ

structure IntPair where
  first : ℕ := 0
  second : ℕ := 0
deriving DecidableEq

structure IntDoublePair where
  first : ℕ := 0
  second : ℚ := 0
deriving DecidableEq

/-- The body of the loop of `findMaximum`. -/
def keepMaximum (y : Data) (result : IntDoublePair) (i : ℕ) : IntDoublePair :=
  if result.second < y i then { first := i, second := y i } else result

def findMaximum (nData : ℕ) (y : Data) : IntDoublePair :=
  (List.range' 1 (nData - 1)).foldl (keepMaximum y) { first := 0, second := y 0 }

def isZero (expr : ℚ) : Prop := 1 + expr = 1

instance (expr : ℚ) : Decidable (isZero expr) := inferInstanceAs (Decidable (_ = _))

theorem isZero_iff {expr : ℚ} : isZero expr ↔ expr = 0 := add_eq_left

def slopeLevel (y : Data) (maxPosition : IntDoublePair) (height : ℚ) : ℚ :=
  if isZero maxPosition.second then y maxPosition.first * height else maxPosition.second * height

/-- The first index in front of the maximum above the level, else the maximum itself. -/
def findLevelLeft (_nData : ℕ) (y : Data) (maxPosition : IntDoublePair) (height : ℚ) : ℕ :=
  ((List.range maxPosition.first).find? fun i => slopeLevel y maxPosition height < y i).getD
    maxPosition.first

/-- The same from the end of the data, down to the index behind the maximum. -/
def findLevelRight (nData : ℕ) (y : Data) (maxPosition : IntDoublePair) (height : ℚ) : ℕ :=
  ((List.range' (maxPosition.first + 1) (nData - (maxPosition.first + 1))).reverse.find? fun i =>
    slopeLevel y maxPosition height < y i).getD maxPosition.first

def measPeak (nData : ℕ) (y : Data) (maxPosition : IntDoublePair) (height : ℚ) : IntPair where
  first := findLevelLeft nData y maxPosition height
  second := findLevelRight nData y maxPosition height

/-- The number of points on either side that take part in smoothing a point. -/
def halfPoints (nFilterSize : ℤ) : ℕ :=
  let nPoints := if nFilterSize.natAbs < 3 then 3 else nFilterSize.natAbs
  (nPoints - 1) / 2

/-- The average of the points around `i`, summed up in the order of the loop. -/
def averageAt (halfPoints : ℕ) (y : Data) (i : ℕ) : ℚ :=
  (List.range' 1 halfPoints).foldl (fun sum j => sum + (y (i - j) + y (i + j))) (y i) /
    (2 * halfPoints + 1)

/-- `memcpy` of `n` points from the index `start` on. -/
def copyPoints (yo y : Data) (start n : ℕ) : Data :=
  fun i => if start ≤ i ∧ i < start + n then y i else yo i

def fltMovingAverage (nData : ℕ) (_x y yo : Data) (nFilterSize : ℤ) : Data :=
  let half := halfPoints nFilterSize
  let yo := (List.range' half (nData - half - half)).foldl
    (fun yo i => Function.update yo i (averageAt half y i)) yo
  copyPoints (copyPoints yo y 0 half) y (nData - half) half

/-- The entry of a histogram a number of steps behind its begin. -/
def entryAt (hist : OrderedMap ℚ ℕ) (steps : ℕ) : ℚ × ℕ := hist.entries.getD steps (0, 0)

/-- The value most often found in the lower half of a histogram, zero unless it lies in the
lower third. An iterator is its distance from the begin. -/
def tracedLevel (hist : OrderedMap ℚ ℕ) : ℚ :=
  let bgIdxLimit := hist.entries.length / 2
  let maxPosition := (List.range' 1 (bgIdxLimit - 1)).foldl
    (fun maxPosition p => if (entryAt hist maxPosition).2 < (entryAt hist p).2 then p
      else maxPosition) 0
  if maxPosition < hist.entries.length / 3 then (entryAt hist maxPosition).1 else 0

def background (nData : ℕ) (y : Data) : ℚ :=
  tracedLevel ((List.range nData).foldl (fun hist i => hist.tally (y i)) OrderedMap.empty)

end Crs.Peak
