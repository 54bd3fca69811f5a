import Crs.Spectrum.Basic

/-!
# Smoothing a spectrum

`doSmoothing` and `estimateGuess` allocate an array for as many points as there
are, and hand their number on as an `int`. The points of a spectrum are the
valid part of its arrays; they are all that may be read. An edge of the smoothed
data is as wide as half the filter, however few points there are.
-/

namespace Crs.Spectrum

open Foundation Peak

/-- A number as an `int` of 32 bits. -/
def int (n : ℕ) : ℤ := (n : ℤ).bmod (2 ^ 32)

namespace MassSpectrum

/-- The part of an array that holds points. -/
def valid (s : MassSpectrum) (a : BoundedArray ℚ) : BoundedArray ℚ := { a with size := s.nPoints }

def doSmoothing (s : MassSpectrum) (fresh : Data) : Option MassSpectrum := do
  let smoothIntensity := BoundedArray.mk s.nPoints fresh
  let smoothIntensity ← Bounded.fltMovingAverage (int s.nPoints) (s.valid s.mass)
    (s.valid s.intensity) smoothIntensity 5
  some { s with smoothIntensity }

def estimateGuess (s : MassSpectrum) (fresh : Data) (nFilterSize : ℤ := 5) :
    Option MassSpectrum := do
  let guess : Guess := { yo := fresh, pcd := s.pcd, bgLevel := s.bgLevel, hist := s.hist }
  let guess ← Bounded.estimateGuess (int s.nPoints) (s.valid s.mass) (s.valid s.intensity) s.nPoints
    guess nFilterSize
  some { s with
    smoothIntensity := some ⟨s.nPoints, guess.yo⟩
    pcd := guess.pcd
    bgLevel := guess.bgLevel
    hist := guess.hist }

end MassSpectrum

theorem bmod_le_self (n m : ℕ) : (n : ℤ).bmod m ≤ n := by
  have le : (n : ℤ) % m ≤ n := by exact_mod_cast Nat.mod_le n m
  rw [Int.bmod_def]
  split <;> omega

theorem int_le (n : ℕ) : int n ≤ n := bmod_le_self n (2 ^ 32)

theorem halfPoints_five : halfPoints 5 = 2 := by decide

/-- A number of points that the edges fit into is not cut off by too much. -/
theorem exists_int {half n : ℕ} (fits : half ≤ int n) :
    ∃ nData : ℕ, int n = nData ∧ half ≤ nData ∧ nData ≤ n := by
  obtain ⟨nData, nData_eq⟩ := Int.eq_ofNat_of_zero_le ((Int.natCast_nonneg half).trans fits)
  have le := int_le n
  exact ⟨nData, nData_eq, by omega, by omega⟩

open MassSpectrum

variable {history : List (Call × Unit)} {fresh : Data} {s : MassSpectrum} {nFilterSize : ℤ}

theorem doSmoothing_of_lt (short : int s.nPoints < 2) (fresh : Data) :
    s.doSmoothing fresh = none := by
  rw [← Nat.cast_ofNat, ← halfPoints_five] at short
  rw [doSmoothing, Bounded.fltMovingAverage_of_lt short]
  rfl

/-- With two points, every access is inside, and the data are smoothed. -/
theorem doSmoothing_eq {nData : ℕ} (count : int s.nPoints = nData) (fits : 2 ≤ nData)
    (le : nData ≤ s.nPoints) (fresh : Data) :
    s.doSmoothing fresh = some { s with smoothIntensity := some ⟨s.nPoints,
      fltMovingAverage nData s.mass.data s.intensity.data fresh 5⟩ } := by
  rw [← halfPoints_five] at fits
  have smoothed : Bounded.fltMovingAverage nData (s.valid s.mass) (s.valid s.intensity)
      ⟨s.nPoints, fresh⟩ 5 = _ := Bounded.fltMovingAverage_eq fits le le
  simp only [doSmoothing, count, smoothed, Option.bind_eq_bind, Option.bind_some]
  rfl

theorem estimateGuess_of_lt (short : int s.nPoints < halfPoints nFilterSize) (fresh : Data) :
    s.estimateGuess fresh nFilterSize = none := by
  rw [MassSpectrum.estimateGuess, Bounded.estimateGuess_of_lt short]
  rfl

/-- The optimised preprocessing needs as many points as an edge has, and slopes at 98 percent from
before that are indices of points. -/
theorem estimateGuess_eq {nData : ℕ} (count : int s.nPoints = nData)
    (fits : halfPoints nFilterSize ≤ nData) (le : nData ≤ s.nPoints)
    (slope98 : Bounded.Below nData s.pcd.height98.idxSlope) (fresh : Data) :
    let guess := Peak.estimateGuess nData s.mass.data s.intensity.data
      { yo := fresh, pcd := s.pcd, bgLevel := s.bgLevel, hist := s.hist } nFilterSize
    s.estimateGuess fresh nFilterSize = some { s with
      smoothIntensity := some ⟨s.nPoints, guess.yo⟩
      pcd := guess.pcd
      bgLevel := guess.bgLevel
      hist := guess.hist } := by
  have guessed : Bounded.estimateGuess nData (s.valid s.mass) (s.valid s.intensity) s.nPoints
      { yo := fresh, pcd := s.pcd, bgLevel := s.bgLevel, hist := s.hist } nFilterSize = _ :=
    Bounded.estimateGuess_eq fits le le le slope98
  simp only [MassSpectrum.estimateGuess, count, guessed, Option.bind_eq_bind, Option.bind_some]
  rfl

/-- On a spectrum that was built point by point, every access is inside just if there are as many
points as either edge has. -/
theorem smoothing_inside_iff (run : building.Run (massSpectrum fresh) history s)
    (fresh' : Data) (nFilterSize : ℤ) :
    ((s.doSmoothing fresh').isSome ∧ (s.estimateGuess fresh' nFilterSize).isSome) ↔
      2 ≤ int s.nPoints ∧ halfPoints nFilterSize ≤ int s.nPoints := by
  have built := built run
  constructor
  · rintro ⟨smoothed, guessed⟩
    constructor
    · by_contra short
      simp [doSmoothing_of_lt (not_le.mp short)] at smoothed
    · by_contra short
      simp [estimateGuess_of_lt (not_le.mp short)] at guessed
  · rintro ⟨two, fits⟩
    constructor
    · obtain ⟨nData, count, enough, le⟩ := exists_int two
      rw [doSmoothing_eq count enough le]
      rfl
    · obtain ⟨nData, count, enough, le⟩ := exists_int fits
      have positive : 0 < nData := (halfPoints_pos nFilterSize).trans_le enough
      rw [estimateGuess_eq count enough le]
      · rfl
      · rw [built.pcd]
        exact ⟨positive, positive⟩

/-- Two points are enough for the size that is the default. -/
theorem smoothing_inside_two :
    ∃ s, building.Run (massSpectrum fun _ => 0)
        [(.addPoint (fun _ => 0) ⟨1, 1, 1, 0⟩, ()), (.addPoint (fun _ => 0) ⟨2, 1, 1, 0⟩, ())] s ∧
      (s.doSmoothing fun _ => 0).isSome ∧ (s.estimateGuess fun _ => 0).isSome := by
  obtain ⟨s, run⟩ := exists_run (fun _ => 0)
    [.addPoint (fun _ => 0) ⟨1, 1, 1, 0⟩, .addPoint (fun _ => 0) ⟨2, 1, 1, 0⟩]
  have count : s.nPoints = 2 := by
    rw [← s.length_points, (built run).points]
    rfl
  refine ⟨s, run, (smoothing_inside_iff run _ 5).mpr ?_⟩
  rw [count]
  decide

/-- There is nothing to smooth in an empty spectrum, and the edges are copied all the same. -/
theorem smoothing_outside_empty :
    ¬∀ (fresh : Data) (history : List (Call × Unit)) (s : MassSpectrum),
      building.Run (massSpectrum fresh) history s → ∀ (fresh' : Data) (nFilterSize : ℤ),
        (s.doSmoothing fresh').isSome ∧ (s.estimateGuess fresh' nFilterSize).isSome := by
  intro all
  have smoothed := (all (fun _ => 0) [] _ .nil (fun _ => 0) 5).1
  rw [doSmoothing_of_lt (by decide)] at smoothed
  cases smoothed

end Crs.Spectrum
