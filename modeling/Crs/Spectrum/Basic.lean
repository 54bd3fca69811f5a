import Crs.Foundation.Machine
import Crs.Peak.Bounds

/-!
# Mass spectra

The points of a spectrum lie in four arrays, which are replaced by longer ones
when the last reserved element was used. `points` reads them back: a spectrum
that is built by calls to `clear` and `addPoint` holds the points given since
the last `clear`, and no call leaves the arrays. `fresh` is what the memory of
the arrays that a call allocates holds before it is written.
-/

namespace Crs.Spectrum

open Foundation Peak

/-- The arguments of `addPoint`. -/
structure Point where
  mm : ℚ
  ii : ℚ
  ss : ℚ
  tt : ℚ

/-- A pointer to no array is none. -/
structure MassSpectrum where
  nPoints : ℕ
  nPointsReserved : ℕ
  mass : BoundedArray ℚ
  time : BoundedArray ℚ
  intensity : BoundedArray ℚ
  sigma : BoundedArray ℚ
  bgLevel : ℚ := 0
  smoothIntensity : Option (BoundedArray ℚ) := none
  pcd : PeakCenterData := {}
  hist : OrderedMap ℚ ℕ := OrderedMap.empty

/-- The constructor. -/
def massSpectrum (fresh : Data) : MassSpectrum where
  nPoints := 0
  nPointsReserved := 1000
  mass := ⟨1000, fresh⟩
  time := ⟨1000, fresh⟩
  intensity := ⟨1000, fresh⟩
  sigma := ⟨1000, fresh⟩

namespace MassSpectrum

def clear (s : MassSpectrum) : MassSpectrum := { s with nPoints := 0, bgLevel := 0 }

def reserve (s : MassSpectrum) (fresh : Data) : Option MassSpectrum := do
  let nPointsReserved := s.nPointsReserved + 1000
  let mass ← (BoundedArray.mk nPointsReserved fresh).copy s.mass 0 s.nPoints
  let time ← (BoundedArray.mk nPointsReserved fresh).copy s.time 0 s.nPoints
  let intensity ← (BoundedArray.mk nPointsReserved fresh).copy s.intensity 0 s.nPoints
  let sigma ← (BoundedArray.mk nPointsReserved fresh).copy s.sigma 0 s.nPoints
  some { s with nPointsReserved, mass, time, intensity, sigma }

def addPoint (s : MassSpectrum) (fresh : Data) (p : Point) : Option MassSpectrum := do
  let mass ← s.mass.set s.nPoints p.mm
  let intensity ← s.intensity.set s.nPoints p.ii
  let sigma ← s.sigma.set s.nPoints p.ss
  let time ← s.time.set s.nPoints p.tt
  let s := { s with nPoints := s.nPoints + 1, mass, intensity, sigma, time }
  if s.nPoints = s.nPointsReserved then s.reserve fresh else some s

/-- The arrays have the size that is reserved. -/
structure Allocated (s : MassSpectrum) : Prop where
  mass : s.mass.size = s.nPointsReserved
  time : s.time.size = s.nPointsReserved
  intensity : s.intensity.size = s.nPointsReserved
  sigma : s.sigma.size = s.nPointsReserved

/-- There is an element left for the next point. -/
structure WellFormed (s : MassSpectrum) : Prop extends s.Allocated where
  room : s.nPoints < s.nPointsReserved

def point (s : MassSpectrum) (i : ℕ) : Point where
  mm := s.mass.data i
  ii := s.intensity.data i
  ss := s.sigma.data i
  tt := s.time.data i

def points (s : MassSpectrum) : List Point := (List.range s.nPoints).map s.point

@[simp] theorem length_points (s : MassSpectrum) : s.points.length = s.nPoints := by
  simp [points]

variable {s : MassSpectrum}

theorem wellFormed_massSpectrum (fresh : Data) : (massSpectrum fresh).WellFormed :=
  ⟨⟨rfl, rfl, rfl, rfl⟩, Nat.zero_lt_succ 999⟩

theorem WellFormed.clear (wellFormed : s.WellFormed) : s.clear.WellFormed :=
  ⟨⟨wellFormed.mass, wellFormed.time, wellFormed.intensity, wellFormed.sigma⟩,
    Nat.zero_lt_of_lt wellFormed.room⟩

/-- More elements are reserved for the same points. -/
theorem reserve_spec (allocated : s.Allocated) (fits : s.nPoints ≤ s.nPointsReserved)
    (fresh : Data) :
    ∃ t, s.reserve fresh = some t ∧ t.WellFormed ∧ t.points = s.points ∧ t.pcd = s.pcd ∧
      t.smoothIntensity = s.smoothIntensity := by
  have copied {a : BoundedArray ℚ} (size : a.size = s.nPointsReserved) :
      (BoundedArray.mk (s.nPointsReserved + 1000) fresh).copy a 0 s.nPoints =
        some ⟨s.nPointsReserved + 1000,
          fun i => if 0 ≤ i ∧ i < 0 + s.nPoints then a.data i else fresh i⟩ := by
    have readable : 0 + s.nPoints ≤ a.size := by omega
    have writable : 0 + s.nPoints ≤ s.nPointsReserved + 1000 := by omega
    exact BoundedArray.copy_natCast readable writable
  simp only [reserve, copied allocated.mass, copied allocated.time, copied allocated.intensity,
    copied allocated.sigma, Option.bind_eq_bind, Option.bind_some]
  refine ⟨_, rfl, ⟨⟨rfl, rfl, rfl, rfl⟩, ?_⟩, ?_, rfl, rfl⟩
  · exact Nat.lt_of_le_of_lt fits (Nat.lt_add_of_pos_right (by decide))
  · refine List.map_congr_left fun i member => ?_
    have inside : 0 ≤ i ∧ i < 0 + s.nPoints := by simpa using member
    simp only [point, if_pos inside]

/-- A point is added behind the others. -/
theorem addPoint_spec (wellFormed : s.WellFormed) (fresh : Data) (p : Point) :
    ∃ t, s.addPoint fresh p = some t ∧ t.WellFormed ∧ t.points = s.points ++ [p] ∧
      t.pcd = s.pcd ∧ t.smoothIntensity = s.smoothIntensity := by
  have room := wellFormed.room
  have written {a : BoundedArray ℚ} (size : a.size = s.nPointsReserved) (v : ℚ) :
      a.set s.nPoints v = some ⟨a.size, Function.update a.data s.nPoints v⟩ :=
    BoundedArray.set_mk (size.symm ▸ room) v
  simp only [addPoint, written wellFormed.mass, written wellFormed.time,
    written wellFormed.intensity, written wellFormed.sigma, Option.bind_eq_bind, Option.bind_some]
  set u : MassSpectrum := { s with
    nPoints := s.nPoints + 1
    mass := ⟨s.mass.size, Function.update s.mass.data s.nPoints p.mm⟩
    intensity := ⟨s.intensity.size, Function.update s.intensity.data s.nPoints p.ii⟩
    sigma := ⟨s.sigma.size, Function.update s.sigma.data s.nPoints p.ss⟩
    time := ⟨s.time.size, Function.update s.time.data s.nPoints p.tt⟩ }
  have allocated : u.Allocated :=
    ⟨wellFormed.mass, wellFormed.time, wellFormed.intensity, wellFormed.sigma⟩
  have points : u.points = s.points ++ [p] := by
    have before : ∀ i ∈ List.range s.nPoints, u.point i = s.point i := by
      intro i member
      have other : i ≠ s.nPoints := (List.mem_range.mp member).ne
      simp [u, point, other]
    have last : u.point s.nPoints = p := by simp [u, point]
    have front : (List.range s.nPoints).map u.point = s.points := List.map_congr_left before
    rw [MassSpectrum.points, List.range_succ, List.map_append, front, List.map_singleton, last]
  have pcd : u.pcd = s.pcd := rfl
  have smoothed : u.smoothIntensity = s.smoothIntensity := rfl
  have fits : u.nPoints ≤ u.nPointsReserved := room
  split
  · next full =>
    obtain ⟨t, reserved, wellFormed_t, points_t, pcd_t, smoothed_t⟩ :=
      reserve_spec allocated fits fresh
    exact ⟨t, reserved, wellFormed_t, points_t.trans points, pcd_t.trans pcd,
      smoothed_t.trans smoothed⟩
  · next left => exact ⟨u, rfl, ⟨allocated, fits.lt_of_ne left⟩, points, pcd, smoothed⟩

end MassSpectrum

section Runs

inductive Call where
  | clear
  | addPoint (fresh : Data) (p : Point)

open MassSpectrum

/-- A call that leaves an array is no step. -/
def building : Machine MassSpectrum Call Unit where
  step
    | s, .clear => some ((), s.clear)
    | s, .addPoint fresh p => (s.addPoint fresh p).map ((), ·)

/-- The points given since the last `clear`. -/
def given (history : List (Call × Unit)) : List Point :=
  history.foldl (fun points event => match event.1 with
    | .clear => []
    | .addPoint _ p => points ++ [p]) []

/-- What is known of a spectrum that is built by these calls. -/
structure Built (history : List (Call × Unit)) (s : MassSpectrum) : Prop extends
    s.WellFormed where
  points : s.points = given history
  pcd : s.pcd = {}

variable {fresh : Data} {history : List (Call × Unit)} {s : MassSpectrum}

theorem Built.step (built : Built history s) (call : Call) :
    ∃ t, building.step s call = some ((), t) ∧ Built (history ++ [(call, ())]) t := by
  cases call with
  | clear =>
    refine ⟨_, rfl, built.toWellFormed.clear, ?_, built.pcd⟩
    simp [given, clear, MassSpectrum.points]
  | addPoint fresh p =>
    obtain ⟨t, added, wellFormed, points, pcd, -⟩ := addPoint_spec built.toWellFormed fresh p
    refine ⟨t, by simp [building, added], wellFormed, ?_, pcd.trans built.pcd⟩
    rw [points, built.points]
    simp [given]

/-- Every spectrum that is built holds the points it was given. -/
theorem built (run : building.Run (massSpectrum fresh) history s) : Built history s := by
  refine run.invariant ⟨wellFormed_massSpectrum fresh, rfl, rfl⟩ ?_
  intro history s call _ t _ built step
  obtain ⟨t', stepped, kept⟩ := built.step call
  rw [stepped, Option.some_inj] at step
  cases step
  exact kept

/-- No call leaves the arrays. -/
theorem exists_run (fresh : Data) (calls : List Call) :
    ∃ s, building.Run (massSpectrum fresh) (calls.map (·, ())) s := by
  induction calls using List.reverseRecOn with
  | nil => exact ⟨_, .nil⟩
  | append_singleton calls call ih =>
    obtain ⟨s, run⟩ := ih
    obtain ⟨t, step, -⟩ := (built run).step call
    rw [List.map_append]
    exact ⟨t, run.snoc step⟩

end Runs

end Crs.Spectrum
