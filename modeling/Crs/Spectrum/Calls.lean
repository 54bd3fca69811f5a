import Crs.Peak.Center
import Crs.Spectrum.Smoothing

/-!
# Calls to a spectrum

`use` is any call to a spectrum that names no other one. However the calls
follow each other, the arrays keep the size that is reserved and an element is
left for the next point. `read` calls `addPoint` only.
-/

namespace Crs.Spectrum

open Foundation Peak

/-- The body of the loops of `doCompensateBackground`, for one element. -/
def subtractAt (bgLevel : ℚ) (intensity : BoundedArray ℚ) (i : ℤ) : Option (BoundedArray ℚ) := do
  let value ← intensity.get i
  intensity.set i (value - bgLevel)

/-- The indices are of type `int`; one that does not fit into 32 bits is none. -/
def subtractPair (bgLevel : ℚ) (intensity : BoundedArray ℚ) (i : ℕ) :
    Option (BoundedArray ℚ) := do
  if 2 * i + 1 < 2 ^ 31 then
    let intensity ← subtractAt bgLevel intensity (2 * i : ℕ)
    subtractAt bgLevel intensity (2 * i + 1 : ℕ)
  else
    none

/-- The point that is left of an odd number. -/
def subtractLast (bgLevel : ℚ) (nPoints : ℕ) (intensity : BoundedArray ℚ) :
    Option (BoundedArray ℚ) :=
  if nPoints % 2 = 1 then subtractAt bgLevel intensity (nPoints - 1 : ℕ) else some intensity

/-- A pointer to no array has no elements behind it. -/
def arraySize (a : Option (BoundedArray ℚ)) : ℕ := (a.map BoundedArray.size).getD 0

inductive Use where
  | clear
  | addPoint (fresh : Data) (p : Point)
  | doSmoothing (fresh : Data)
  | doCompensateBackground
  | doPeakCenter
  | estimateGuess (fresh : Data) (nFilterSize : ℤ)

namespace MassSpectrum

def doCompensateBackground (s : MassSpectrum) : Option MassSpectrum := do
  let bgLevel ← Bounded.background (int s.nPoints) s.intensity
  if isZero bgLevel then
    some { s with bgLevel }
  else
    let intensity ← (List.range (s.nPoints / 2)).foldlM (subtractPair bgLevel) s.intensity
    let intensity ← subtractLast bgLevel s.nPoints intensity
    some { s with bgLevel, intensity }

def doPeakCenter (s : MassSpectrum) : Option MassSpectrum := do
  let smoothIntensity ← s.smoothIntensity
  let pcd ← Bounded.peakCenter (int s.nPoints) s.mass smoothIntensity
  some { s with pcd }

/-- `estimateGuess` on the arrays as they are allocated: an index that an earlier measurement has
left may lie behind the points, at an element that was written before. -/
def estimateGuessAllocated (s : MassSpectrum) (fresh : Data) (nFilterSize : ℤ) :
    Option MassSpectrum := do
  let guess : Guess := { yo := fresh, pcd := s.pcd, bgLevel := s.bgLevel, hist := s.hist }
  let guess ← Bounded.estimateGuess (int s.nPoints) s.mass s.intensity s.nPoints guess nFilterSize
  some { s with
    smoothIntensity := some ⟨s.nPoints, guess.yo⟩
    pcd := guess.pcd
    bgLevel := guess.bgLevel
    hist := guess.hist }

def use (s : MassSpectrum) : Use → Option MassSpectrum
  | .clear => some s.clear
  | .addPoint fresh p => s.addPoint fresh p
  | .doSmoothing fresh => s.doSmoothing fresh
  | .doCompensateBackground => s.doCompensateBackground
  | .doPeakCenter => s.doPeakCenter
  | .estimateGuess fresh nFilterSize => s.estimateGuessAllocated fresh nFilterSize

def smoothSize (s : MassSpectrum) : ℕ := arraySize s.smoothIntensity

end MassSpectrum

section Background

variable {bgLevel : ℚ} {intensity a : BoundedArray ℚ} {i n : ℕ}

theorem subtractAt_eq (inside : i < intensity.size) (bgLevel : ℚ) :
    subtractAt bgLevel intensity i = some { intensity with
      data := Function.update intensity.data i (intensity.data i - bgLevel) } := by
  rw [subtractAt, BoundedArray.get_natCast inside]
  exact BoundedArray.set_mk inside _

theorem size_of_subtractAt {j : ℤ} (done : subtractAt bgLevel intensity j = some a) :
    a.size = intensity.size := by
  obtain ⟨value, -, stored⟩ := Option.bind_eq_some_iff.mp done
  exact BoundedArray.size_of_set stored

theorem size_of_subtractPair (done : subtractPair bgLevel intensity i = some a) :
    a.size = intensity.size := by
  unfold subtractPair at done
  split at done
  · obtain ⟨first, even, odd⟩ := Option.bind_eq_some_iff.mp done
    exact (size_of_subtractAt odd).trans (size_of_subtractAt even)
  · cases done

theorem size_of_subtractLast (done : subtractLast bgLevel n intensity = some a) :
    a.size = intensity.size := by
  unfold subtractLast at done
  split at done
  · exact size_of_subtractAt done
  · cases done
    rfl

/-- The loop over the pairs, from the front on. -/
theorem foldlM_subtractPair (inside : 2 * n ≤ intensity.size) (small : 2 * n ≤ 2 ^ 31) :
    (List.range n).foldlM (subtractPair bgLevel) intensity = some { intensity with
      data := fun i => if i < 2 * n then intensity.data i - bgLevel else intensity.data i } := by
  induction n with
  | zero => simp
  | succ n ih =>
    have front := ih (by omega) (by omega)
    have fits : 2 * n + 1 < 2 ^ 31 := by omega
    rw [List.range_succ, List.foldlM_append, front]
    simp only [List.foldlM_cons, List.foldlM_nil, Option.bind_eq_bind, Option.bind_some,
      subtractPair, if_pos fits]
    rw [subtractAt_eq (by exact Nat.lt_of_lt_of_le (by omega) inside), Option.bind_some,
      subtractAt_eq (by exact Nat.lt_of_lt_of_le (by omega) inside), Option.bind_some]
    refine congrArg (fun data => some (BoundedArray.mk intensity.size data)) ?_
    funext i
    simp only [Function.update_apply]
    grind

/-- The pairs, and the last point behind them. -/
theorem subtractLast_eq (inside : n ≤ a.size) :
    subtractLast bgLevel n ⟨a.size, fun i =>
        if i < 2 * (n / 2) then a.data i - bgLevel else a.data i⟩ =
      some ⟨a.size, fun i => if i < n then a.data i - bgLevel else a.data i⟩ := by
  unfold subtractLast
  split
  · next odd =>
    rw [subtractAt_eq (by exact Nat.lt_of_lt_of_le (by omega) inside)]
    refine congrArg (fun data => some (BoundedArray.mk a.size data)) ?_
    funext i
    simp only [Function.update_apply]
    grind
  · next even =>
    have whole : 2 * (n / 2) = n := by omega
    rw [whole]

end Background

namespace MassSpectrum

variable {s t : MassSpectrum}

/-- The background is subtracted from every point, unless there are so many that an index
overflows. -/
theorem doCompensateBackground_eq (wellFormed : s.WellFormed) (small : s.nPoints ≤ 2 ^ 31) :
    let bgLevel := background (int s.nPoints).toNat s.intensity.data
    s.doCompensateBackground = some { s with
      bgLevel
      intensity := ⟨s.intensity.size, fun i =>
        if i < s.nPoints then s.intensity.data i - bgLevel else s.intensity.data i⟩ } := by
  intro bgLevel
  have inside : s.nPoints < s.intensity.size := wellFormed.intensity ▸ wellFormed.room
  have readable : int s.nPoints ≤ s.intensity.size :=
    (int_le s.nPoints).trans (Int.ofNat_le.mpr inside.le)
  have level : Bounded.background (int s.nPoints) s.intensity = some bgLevel :=
    Bounded.background_eq readable
  clear_value bgLevel
  rw [doCompensateBackground, level, Option.bind_eq_bind, Option.bind_some]
  split
  · next zero => simp [isZero_iff.mp zero]
  · rw [foldlM_subtractPair (by omega) (by omega), Option.bind_eq_bind, Option.bind_some,
      subtractLast_eq inside.le]
    rfl

/-- The first smoothed intensity is read even if there are no points. -/
theorem doPeakCenter_isSome_iff (wellFormed : s.WellFormed) :
    s.doPeakCenter.isSome ↔ max 1 (int s.nPoints) ≤ s.smoothSize := by
  have count := int_le s.nPoints
  have readable : max 1 (int s.nPoints) ≤ s.mass.size := by
    rw [wellFormed.mass]
    have room := wellFormed.room
    omega
  rw [doPeakCenter, smoothSize]
  cases s.smoothIntensity with
  | none =>
    constructor
    · intro done
      cases done
    · intro fits
      have positive : (1 : ℤ) ≤ 0 := (le_max_left _ _).trans fits
      omega
  | some smoothIntensity =>
    have inside := Bounded.peakCenter_isSome_iff (y := smoothIntensity) readable
    simpa [arraySize, Option.isSome_bind] using inside

theorem doPeakCenter_keeps (done : s.doPeakCenter = some t) :
    t.nPoints = s.nPoints ∧ t.smoothSize = s.smoothSize := by
  rw [doPeakCenter] at done
  obtain ⟨smoothIntensity, -, done⟩ := Option.bind_eq_some_iff.mp done
  obtain ⟨pcd, -, done⟩ := Option.bind_eq_some_iff.mp done
  cases done
  exact ⟨rfl, rfl⟩

theorem wellFormed_of_doCompensateBackground (wellFormed : s.WellFormed)
    (done : s.doCompensateBackground = some t) : t.WellFormed := by
  rw [doCompensateBackground] at done
  obtain ⟨bgLevel, -, done⟩ := Option.bind_eq_some_iff.mp done
  split at done
  · cases done
    exact ⟨⟨wellFormed.mass, wellFormed.time, wellFormed.intensity, wellFormed.sigma⟩,
      wellFormed.room⟩
  · obtain ⟨pairs, looped, done⟩ := Option.bind_eq_some_iff.mp done
    have size : pairs.size = s.intensity.size :=
      foldlM_post (P := fun (a : BoundedArray ℚ) => a.size = s.intensity.size) rfl
        (fun _ _ same _ _ stepped => (size_of_subtractPair stepped).trans same) looped
    have kept {intensity : BoundedArray ℚ} (same : intensity.size = pairs.size) :
        ({ s with bgLevel, intensity } : MassSpectrum).WellFormed :=
      ⟨⟨wellFormed.mass, wellFormed.time, (same.trans size).trans wellFormed.intensity,
        wellFormed.sigma⟩, wellFormed.room⟩
    obtain ⟨intensity, last, done⟩ := Option.bind_eq_some_iff.mp done
    cases done
    exact kept (size_of_subtractLast last)

/-- No call breaks the arrays. -/
theorem WellFormed.use (wellFormed : s.WellFormed) {call : Use} (done : s.use call = some t) :
    t.WellFormed := by
  have others {smoothIntensity pcd bgLevel hist} :
      ({ s with smoothIntensity, pcd, bgLevel, hist } : MassSpectrum).WellFormed :=
    ⟨⟨wellFormed.mass, wellFormed.time, wellFormed.intensity, wellFormed.sigma⟩, wellFormed.room⟩
  cases call with
  | clear =>
    cases done
    exact wellFormed.clear
  | addPoint fresh p =>
    obtain ⟨u, added, wellFormed_u, -⟩ := addPoint_spec wellFormed fresh p
    obtain rfl : u = t := Option.some.inj (added.symm.trans done)
    exact wellFormed_u
  | doSmoothing fresh =>
    rw [MassSpectrum.use, doSmoothing] at done
    obtain ⟨smoothIntensity, -, done⟩ := Option.bind_eq_some_iff.mp done
    cases done
    exact others
  | doCompensateBackground => exact wellFormed_of_doCompensateBackground wellFormed done
  | doPeakCenter =>
    rw [MassSpectrum.use, doPeakCenter] at done
    obtain ⟨smoothIntensity, -, done⟩ := Option.bind_eq_some_iff.mp done
    obtain ⟨pcd, -, done⟩ := Option.bind_eq_some_iff.mp done
    cases done
    exact others
  | estimateGuess fresh nFilterSize =>
    rw [MassSpectrum.use, estimateGuessAllocated] at done
    obtain ⟨guess, -, done⟩ := Option.bind_eq_some_iff.mp done
    cases done
    exact others

end MassSpectrum

end Crs.Spectrum
