import Crs.Peak.Basic

/-!
# The optimised preprocessing

`estimateGuess` smooths, counts, and looks for the maximum in one pass, which
visits the two edges of the data first, from the outside inwards, and then the
points between them. A second pass walks away from the maximum on both sides,
subtracts the background, and keeps the last index above each level.

`Guess` holds what the function writes to; the zeros it starts with by default
stand for any contents. Its centroids are only reset here.
-/

namespace Crs.Peak

open Foundation

structure PeakWidthData where
  height : ℚ := 0
  width : ℚ := 0
  center : ℚ := 0
  centroid : ℚ := 0
  idxSlope : IntPair := {}

structure PeakCenterData where
  peakMaximum : IntDoublePair := {}
  height50 : PeakWidthData := {}
  height10 : PeakWidthData := {}
  height98 : PeakWidthData := {}

structure Guess where
  yo : Data := fun _ => 0
  pcd : PeakCenterData := {}
  bgLevel : ℚ := 0
  hist : OrderedMap ℚ ℕ := OrderedMap.empty

namespace Guess

/-- Write the smoothed value, trace the maximum intensity, and update the histogram. -/
def visit (y : Data) (value : ℕ → ℚ) (g : Guess) (i : ℕ) : Guess :=
  let yo := Function.update g.yo i (value i)
  { g with
    yo
    pcd.peakMaximum.first :=
      if yo g.pcd.peakMaximum.first < yo i then i else g.pcd.peakMaximum.first
    hist := g.hist.tally (y i) }

/-- Neither the first nor the last `half` points can be smoothed. -/
def visitEdges (nData half : ℕ) (y : Data) (g : Guess) : Guess :=
  (List.range half).foldl (fun g i => (g.visit y y i).visit y y (nData - i - 1)) g

def visitMiddle (nData half : ℕ) (y : Data) (g : Guess) : Guess :=
  (List.range' half (nData - half - half)).foldl (visit y (averageAt half y)) g

/-- Smooth the data, trace their maximum, and initialize and fill the histogram. -/
def smooth (nData half : ℕ) (y : Data) (g : Guess) : Guess :=
  let g := { g with hist := OrderedMap.empty, pcd.peakMaximum.first := 0 }
  (g.visitEdges nData half y).visitMiddle nData half y

end Guess

namespace PeakWidthData

/-- The start of a measurement at a share of the height of the peak. -/
def start (w : PeakWidthData) (share : ℚ) (peak : IntDoublePair) : PeakWidthData :=
  { w with
    height := share * peak.second
    idxSlope := { first := peak.first, second := peak.first }
    centroid := 0 }

def markFirst (w : PeakWidthData) (i : ℕ) (value : ℚ) : PeakWidthData :=
  if w.height < value then { w with idxSlope.first := i } else w

def markSecond (w : PeakWidthData) (i : ℕ) (value : ℚ) : PeakWidthData :=
  if w.height < value then { w with idxSlope.second := i } else w

def extent (w : PeakWidthData) (x : Data) : ℚ := x w.idxSlope.second - x w.idxSlope.first

def middle (w : PeakWidthData) (x : Data) : ℚ :=
  (x w.idxSlope.second + x w.idxSlope.first) / 2

end PeakWidthData

namespace PeakCenterData

/-- The slope of the measurement at 98 percent is not reset: in its place the one at 10 percent
is, for a second time. -/
def start (p : PeakCenterData) : PeakCenterData :=
  let height50 := p.height50.start (1 / 2) p.peakMaximum
  let height10 := p.height10.start (1 / 10) p.peakMaximum
  let height98 := { p.height98 with height := 98 / 100 * p.peakMaximum.second, centroid := 0 }
  { p with height50, height10, height98 }

def markFirst (p : PeakCenterData) (i : ℕ) (value : ℚ) : PeakCenterData :=
  { p with
    height98 := p.height98.markFirst i value
    height50 := p.height50.markFirst i value
    height10 := p.height10.markFirst i value }

def markSecond (p : PeakCenterData) (i : ℕ) (value : ℚ) : PeakCenterData :=
  { p with
    height98 := p.height98.markSecond i value
    height50 := p.height50.markSecond i value
    height10 := p.height10.markSecond i value }

/-- The rest of the parameters; the width at 98 percent is what the one at 10 percent exceeds. -/
def finish (p : PeakCenterData) (x : Data) : PeakCenterData :=
  { p with
    height50 := { p.height50 with width := p.height50.extent x, center := p.height50.middle x }
    height10 := { p.height10 with width := p.height10.extent x, center := p.height10.middle x }
    height98 := { p.height98 with
      width := p.height10.extent x - p.height98.extent x
      center := p.height98.middle x } }

end PeakCenterData

namespace Guess

/-- Trace the background level, and correct the maximum by it. -/
def level (g : Guess) : Guess :=
  let bgLevel := tracedLevel g.hist
  let top := g.yo g.pcd.peakMaximum.first - bgLevel
  { g with
    bgLevel
    yo := Function.update g.yo g.pcd.peakMaximum.first top
    pcd.peakMaximum.second := top }

/-- Correct a point, and mark it by `mark` where it is above a level. -/
def walk (mark : PeakCenterData → ℕ → ℚ → PeakCenterData) (g : Guess) (i : ℕ) : Guess :=
  let value := g.yo i - g.bgLevel
  { g with
    yo := Function.update g.yo i value
    pcd := mark g.pcd i value }

def walkLeft (g : Guess) : Guess :=
  (List.range g.pcd.peakMaximum.first).reverse.foldl (walk PeakCenterData.markFirst) g

def walkRight (nData : ℕ) (g : Guess) : Guess :=
  let next := g.pcd.peakMaximum.first + 1
  (List.range' next (nData - next)).foldl (walk PeakCenterData.markSecond) g

/-- Measure the peak of smoothed data, above their background. -/
def measure (nData : ℕ) (g : Guess) : Guess :=
  let g := g.level
  let g := { g with pcd := g.pcd.start }
  g.walkLeft.walkRight nData

end Guess

def estimateGuess (nData : ℕ) (x y : Data) (g : Guess) (nFilterSize : ℤ) : Guess :=
  let g := (g.smooth nData (halfPoints nFilterSize) y).measure nData
  { g with pcd := g.pcd.finish x }

/-- A spectrum, as far as its preprocessing reads and writes it; `smoothIntensity` and the
results are `guess`. -/
structure MassSpectrum where
  nPoints : ℕ
  mass : Data
  intensity : Data
  guess : Guess

/-- `fresh` is the contents of the newly allocated array. -/
def MassSpectrum.estimateGuess (s : MassSpectrum) (fresh : Data) (nFilterSize : ℤ := 5) :
    MassSpectrum :=
  { s with
    guess := Peak.estimateGuess s.nPoints s.mass s.intensity { s.guess with yo := fresh }
      nFilterSize }

end Crs.Peak
