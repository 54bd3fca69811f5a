import Crs.Spectrum.Calls

/-!
# Copies of a spectrum

The copy constructor takes the number of points of its source. The assignment
takes it only where the target has fewer points, and then copies as many points
as the target has: a target with more points keeps its number, and reads what
lies behind the points of the source. The smoothed intensities are an array of
their own, which need not exist or may be shorter than there are points; it is
copied with the same number.
-/

namespace Crs.Spectrum

open Foundation Peak

section Memcpy

/-- `memcpy` of `n` elements between arrays that need not exist. -/
def memcpy (dst src : Option (BoundedArray ℚ)) (n : ℕ) : Option (Option (BoundedArray ℚ)) :=
  match dst, src with
  | some dst, some src => (dst.copy src 0 n).map some
  | dst, _ => if n = 0 then some dst else none

variable {dst src t : Option (BoundedArray ℚ)} {n : ℕ}

theorem memcpy_post (done : memcpy dst src n = some t) :
    n ≤ arraySize src ∧ n ≤ arraySize dst ∧ arraySize t = arraySize dst := by
  unfold memcpy at done
  split at done
  · obtain ⟨b, copied, rfl⟩ := Option.map_eq_some_iff.mp done
    obtain ⟨readable, writable, rfl⟩ := BoundedArray.copy_start_iff.mp copied
    exact ⟨readable, writable, rfl⟩
  · split at done
    · next nothing =>
      cases done
      exact ⟨nothing ▸ Nat.zero_le _, nothing ▸ Nat.zero_le _, rfl⟩
    · cases done

theorem memcpy_eq (readable : n ≤ arraySize src) (writable : n ≤ arraySize dst) :
    ∃ t, memcpy dst src n = some t ∧
      ∀ i < n, t.bind (·.get (i : ℕ)) = src.bind (·.get (i : ℕ)) := by
  unfold memcpy
  split
  · next d s =>
    have copied := BoundedArray.copy_start_iff.mpr ⟨readable, writable, rfl⟩
    refine ⟨_, congrArg (Option.map some) copied, fun i below => ?_⟩
    have inside : i < s.size := below.trans_le readable
    have written : i < d.size := below.trans_le writable
    simp [BoundedArray.get, inside, written, below]
  · next missing =>
    have nothing : n = 0 := by
      cases src with
      | none => exact Nat.le_zero.mp readable
      | some s =>
        cases dst with
        | none => exact Nat.le_zero.mp writable
        | some d => exact absurd rfl (missing d s rfl)
    refine ⟨dst, if_pos nothing, fun i below => ?_⟩
    exact absurd (nothing ▸ below) (Nat.not_lt_zero i)

end Memcpy

namespace MassSpectrum

/-- How the copy constructor and the assignment end. -/
def copyArrays (s src : MassSpectrum) : Option MassSpectrum := do
  let mass ← s.mass.copy src.mass 0 s.nPoints
  let time ← s.time.copy src.time 0 s.nPoints
  let intensity ← s.intensity.copy src.intensity 0 s.nPoints
  let sigma ← s.sigma.copy src.sigma 0 s.nPoints
  let smoothIntensity ← memcpy s.smoothIntensity src.smoothIntensity s.nPoints
  some { s with
    mass, time, intensity, sigma, smoothIntensity
    bgLevel := src.bgLevel
    pcd := src.pcd
    hist := src.hist }

/-- The arrays of a copy that is constructed. -/
def newArrays (src : MassSpectrum) (fresh : Data) : MassSpectrum where
  nPoints := src.nPoints
  nPointsReserved := src.nPointsReserved
  mass := ⟨src.nPointsReserved, fresh⟩
  time := ⟨src.nPointsReserved, fresh⟩
  intensity := ⟨src.nPointsReserved, fresh⟩
  sigma := ⟨src.nPointsReserved, fresh⟩
  smoothIntensity := some ⟨src.nPoints, fresh⟩

/-- The copy constructor. -/
def copyOf (src : MassSpectrum) (fresh : Data) : Option MassSpectrum :=
  (src.newArrays fresh).copyArrays src

/-- New arrays, as long as those of the source, where they are longer. -/
def growArrays (s src : MassSpectrum) (fresh : Data) : MassSpectrum :=
  if s.nPointsReserved < src.nPointsReserved then
    { s with
      nPointsReserved := src.nPointsReserved
      mass := ⟨src.nPointsReserved, fresh⟩
      time := ⟨src.nPointsReserved, fresh⟩
      intensity := ⟨src.nPointsReserved, fresh⟩
      sigma := ⟨src.nPointsReserved, fresh⟩ }
  else s

/-- The number of points of the source is taken where it is greater. -/
def growPoints (s src : MassSpectrum) (fresh : Data) : MassSpectrum :=
  if s.nPoints < src.nPoints then
    { s with nPoints := src.nPoints, smoothIntensity := some ⟨src.nPoints, fresh⟩ }
  else s

/-- The assignment of another object. -/
def assign (s src : MassSpectrum) (fresh : Data) : Option MassSpectrum :=
  ((s.growArrays src fresh).growPoints src fresh).copyArrays src

/-- The smoothed intensity of each point, none where there is no element for it. -/
def smoothed (s : MassSpectrum) : List (Option ℚ) :=
  (List.range s.nPoints).map fun (i : ℕ) => s.smoothIntensity.bind (·.get i)

/-- What a spectrum holds, apart from the elements that are reserved. -/
structure Contents where
  nPoints : ℕ
  points : List Point
  smoothed : List (Option ℚ)
  bgLevel : ℚ
  pcd : PeakCenterData
  hist : OrderedMap ℚ ℕ

def contents (s : MassSpectrum) : Contents where
  nPoints := s.nPoints
  points := s.points
  smoothed := s.smoothed
  bgLevel := s.bgLevel
  pcd := s.pcd
  hist := s.hist

variable {s src t : MassSpectrum} {fresh : Data}

/-- A copy that stays inside finds a smoothed intensity for each point, on both sides. -/
theorem copyArrays_post (wellFormed : s.WellFormed) (done : s.copyArrays src = some t) :
    t.WellFormed ∧ t.nPoints = s.nPoints ∧ t.smoothSize = s.smoothSize ∧
      s.nPoints ≤ src.smoothSize ∧ s.nPoints ≤ s.smoothSize := by
  obtain ⟨mass, mass_copied, done⟩ := Option.bind_eq_some_iff.mp done
  obtain ⟨time, time_copied, done⟩ := Option.bind_eq_some_iff.mp done
  obtain ⟨intensity, intensity_copied, done⟩ := Option.bind_eq_some_iff.mp done
  obtain ⟨sigma, sigma_copied, done⟩ := Option.bind_eq_some_iff.mp done
  obtain ⟨smoothIntensity, smooth_copied, done⟩ := Option.bind_eq_some_iff.mp done
  obtain ⟨readable, writable, size⟩ := memcpy_post smooth_copied
  cases done
  refine ⟨⟨⟨?_, ?_, ?_, ?_⟩, wellFormed.room⟩, rfl, size, readable, writable⟩
  · exact (BoundedArray.size_of_copy mass_copied).trans wellFormed.mass
  · exact (BoundedArray.size_of_copy time_copied).trans wellFormed.time
  · exact (BoundedArray.size_of_copy intensity_copied).trans wellFormed.intensity
  · exact (BoundedArray.size_of_copy sigma_copied).trans wellFormed.sigma

/-- As many points as the source has are a copy of it. -/
theorem copyArrays_eq (wellFormed : s.WellFormed) (source : src.WellFormed)
    (same : s.nPoints = src.nPoints) (readable : src.nPoints ≤ src.smoothSize)
    (writable : src.nPoints ≤ s.smoothSize) :
    ∃ t, s.copyArrays src = some t ∧ t.contents = src.contents := by
  have room := wellFormed.room
  have source_room := source.room
  have copied {a b : BoundedArray ℚ} (size : a.size = s.nPointsReserved)
      (source_size : b.size = src.nPointsReserved) :
      a.copy b 0 s.nPoints =
        some ⟨a.size, fun i => if i < s.nPoints then b.data i else a.data i⟩ :=
    BoundedArray.copy_start_iff.mpr ⟨by omega, by omega, rfl⟩
  obtain ⟨smoothIntensity, smooth_copied, smooth_same⟩ :=
    memcpy_eq (n := s.nPoints) (same ▸ readable) (same ▸ writable)
  simp only [copyArrays, copied wellFormed.mass source.mass, copied wellFormed.time source.time,
    copied wellFormed.intensity source.intensity, copied wellFormed.sigma source.sigma,
    smooth_copied, Option.bind_eq_bind, Option.bind_some]
  refine ⟨_, rfl, ?_⟩
  simp only [contents, Contents.mk.injEq, and_true]
  refine ⟨same, ?_, ?_⟩
  · rw [points, points, same]
    refine List.map_congr_left fun i member => ?_
    have inside : i < src.nPoints := List.mem_range.mp member
    simp only [point, if_pos inside]
  · rw [smoothed, smoothed, same]
    exact List.map_congr_left fun i member => smooth_same i (same ▸ List.mem_range.mp member)

theorem WellFormed.newArrays (source : src.WellFormed) (fresh : Data) :
    (src.newArrays fresh).WellFormed :=
  ⟨⟨rfl, rfl, rfl, rfl⟩, source.room⟩

/-- The copy constructor needs the smoothed intensities, and nothing else. -/
theorem copyOf_contents_iff (source : src.WellFormed) (fresh : Data) :
    (∃ t, src.copyOf fresh = some t ∧ t.contents = src.contents) ↔
      src.nPoints ≤ src.smoothSize := by
  constructor
  · rintro ⟨t, done, -⟩
    obtain ⟨-, -, -, readable, -⟩ := copyArrays_post (source.newArrays fresh) done
    exact readable
  · intro readable
    exact copyArrays_eq (source.newArrays fresh) source rfl readable le_rfl

theorem growArrays_nPoints : (s.growArrays src fresh).nPoints = s.nPoints := by
  unfold growArrays
  split <;> rfl

theorem growArrays_smoothSize : (s.growArrays src fresh).smoothSize = s.smoothSize := by
  unfold growArrays
  split <;> rfl

theorem WellFormed.growArrays (wellFormed : s.WellFormed) (src : MassSpectrum) (fresh : Data) :
    (s.growArrays src fresh).WellFormed ∧
      src.nPointsReserved ≤ (s.growArrays src fresh).nPointsReserved := by
  unfold MassSpectrum.growArrays
  split
  · next more => exact ⟨⟨⟨rfl, rfl, rfl, rfl⟩, wellFormed.room.trans more⟩, le_rfl⟩
  · next enough => exact ⟨wellFormed, not_lt.mp enough⟩

theorem growPoints_nPoints : (s.growPoints src fresh).nPoints = max s.nPoints src.nPoints := by
  unfold growPoints
  split
  · next more => exact (max_eq_right more.le).symm
  · next enough => exact (max_eq_left (not_lt.mp enough)).symm

theorem growPoints_smoothSize : (s.growPoints src fresh).smoothSize =
    if s.nPoints < src.nPoints then src.nPoints else s.smoothSize := by
  unfold growPoints
  split <;> rfl

theorem WellFormed.growPoints (wellFormed : s.WellFormed)
    (room : src.nPoints < s.nPointsReserved) : (s.growPoints src fresh).WellFormed := by
  unfold MassSpectrum.growPoints
  split
  · exact ⟨⟨wellFormed.mass, wellFormed.time, wellFormed.intensity, wellFormed.sigma⟩, room⟩
  · exact wellFormed

/-- The target of the assignment, when the copying begins. -/
theorem WellFormed.grown (wellFormed : s.WellFormed) (source : src.WellFormed) (fresh : Data) :
    ((s.growArrays src fresh).growPoints src fresh).WellFormed := by
  obtain ⟨grown, le⟩ := wellFormed.growArrays src fresh
  exact grown.growPoints (source.room.trans_le le)

theorem grown_nPoints :
    ((s.growArrays src fresh).growPoints src fresh).nPoints = max s.nPoints src.nPoints := by
  rw [growPoints_nPoints, growArrays_nPoints]

theorem grown_smoothSize : ((s.growArrays src fresh).growPoints src fresh).smoothSize =
    if s.nPoints < src.nPoints then src.nPoints else s.smoothSize := by
  rw [growPoints_smoothSize, growArrays_nPoints, growArrays_smoothSize]

/-- The greater number of points is kept. -/
theorem assign_post (wellFormed : s.WellFormed) (source : src.WellFormed)
    (done : s.assign src fresh = some t) :
    t.WellFormed ∧ t.nPoints = max s.nPoints src.nPoints ∧
      t.smoothSize = (if s.nPoints < src.nPoints then src.nPoints else s.smoothSize) ∧
      t.nPoints ≤ src.smoothSize ∧ t.nPoints ≤ t.smoothSize := by
  obtain ⟨kept, count, size, readable, writable⟩ :=
    copyArrays_post (wellFormed.grown source fresh) done
  rw [← count] at readable writable
  rw [← size] at writable
  exact ⟨kept, count.trans grown_nPoints, size.trans grown_smoothSize, readable, writable⟩

/-- Where the assignment gives the target what the source holds. -/
structure Assignable (s src : MassSpectrum) : Prop where
  points : s.nPoints ≤ src.nPoints
  source : src.nPoints ≤ src.smoothSize
  target : s.nPoints = src.nPoints → src.nPoints ≤ s.smoothSize

theorem assign_contents_iff (wellFormed : s.WellFormed) (source : src.WellFormed)
    (fresh : Data) :
    (∃ t, s.assign src fresh = some t ∧ t.contents = src.contents) ↔ s.Assignable src := by
  constructor
  · rintro ⟨t, done, same⟩
    obtain ⟨-, count, size, readable, writable⟩ := assign_post wellFormed source done
    have equal : t.nPoints = src.nPoints := congrArg Contents.nPoints same
    refine ⟨?_, equal ▸ readable, fun tie => ?_⟩
    · exact (le_max_left _ _).trans (count.symm.trans equal).le
    · rw [if_neg tie.not_lt] at size
      rw [← size, ← equal]
      exact writable
  · rintro ⟨points, smoothed, target⟩
    have count : ((s.growArrays src fresh).growPoints src fresh).nPoints = src.nPoints :=
      grown_nPoints.trans (max_eq_right points)
    refine copyArrays_eq (wellFormed.grown source fresh) source count smoothed ?_
    rw [grown_smoothSize]
    split
    · exact le_rfl
    · next enough => exact target (points.antisymm (not_lt.mp enough))

end MassSpectrum

end Crs.Spectrum
