import Crs.Spectrum.Copies

/-!
# Assignments between spectra

The objects of a program, with every operation on them: `spectra` constructs,
copies and destroys them, calls them, and assigns one to another. `assign_iff`
says which assignments give the target what the source holds, whatever was done
to both before, and which calls may follow.
-/

namespace Crs.Spectrum

open Foundation Peak

section Later

/-- A call that the target gets after the assignment. -/
inductive Later where
  | addPoint (fresh : Data) (p : Point)
  | doPeakCenter

def Later.use : Later → Use
  | .addPoint fresh p => .addPoint fresh p
  | .doPeakCenter => .doPeakCenter

/-- Each search for the peak finds a smoothed intensity for all points that there are by then, as
far as their number is an `int`, and one in any case. -/
def Fits (size : ℕ) : ℕ → List Later → Prop
  | _, [] => True
  | nPoints, .addPoint _ _ :: later => Fits size (nPoints + 1) later
  | nPoints, .doPeakCenter :: later => max 1 (int nPoints) ≤ size ∧ Fits size nPoints later

open MassSpectrum

variable {s : MassSpectrum}

/-- A new point leaves the array of smoothed intensities as long as it was. -/
theorem later_isSome_iff (wellFormed : s.WellFormed) (later : List Later) :
    ((later.map Later.use).foldlM use s).isSome ↔ Fits s.smoothSize s.nPoints later := by
  induction later generalizing s with
  | nil => exact iff_of_true rfl trivial
  | cons call later ih =>
    rw [List.map_cons, List.foldlM_cons]
    cases call with
    | addPoint fresh p =>
      obtain ⟨t, added, kept, points, -, smoothed⟩ := addPoint_spec wellFormed fresh p
      have count : t.nPoints = s.nPoints + 1 := by
        simpa using congrArg List.length points
      have size : t.smoothSize = s.smoothSize := congrArg arraySize smoothed
      have step : s.use (Later.addPoint fresh p).use = some t := added
      rw [step]
      show ((later.map Later.use).foldlM use t).isSome ↔ Fits s.smoothSize (s.nPoints + 1) later
      rw [← count, ← size]
      exact ih kept
    | doPeakCenter =>
      have inside := doPeakCenter_isSome_iff wellFormed
      show (s.doPeakCenter.bind fun t => (later.map Later.use).foldlM use t).isSome ↔
        max 1 (int s.nPoints) ≤ s.smoothSize ∧ Fits s.smoothSize s.nPoints later
      cases done : s.doPeakCenter with
      | none =>
        rw [done] at inside
        constructor
        · intro impossible
          cases impossible
        · rintro ⟨fits, -⟩
          cases inside.mpr fits
      | some t =>
        rw [done] at inside
        have step : s.use .doPeakCenter = some t := done
        have kept : t.WellFormed := wellFormed.use step
        obtain ⟨count, size⟩ := doPeakCenter_keeps done
        apply Iff.trans _ (and_iff_right (inside.mp rfl)).symm
        rw [← count, ← size]
        exact ih kept

end Later

section Objects

open MassSpectrum

variable {O : Type} [DecidableEq O]

/-- The objects that there are. -/
abbrev Objects (O : Type) := O → Option MassSpectrum

inductive Operation (O : Type) where
  | construct (fresh : Data) (a : O)
  | copy (fresh : Data) (a b : O)
  | destroy (a : O)
  | use (a : O) (call : Use)
  | assign (fresh : Data) (a b : O)

/-- The object that an operation may change. -/
def Operation.target : Operation O → O
  | .construct _ a => a
  | .copy _ a _ => a
  | .destroy a => a
  | .use a _ => a
  | .assign _ a _ => a

/-- What becomes of it. An access outside an array is none, as is an object that is not there. -/
def Operation.result (objects : Objects O) : Operation O → Option (Option MassSpectrum)
  | .construct fresh a => if (objects a).isNone then some (some (massSpectrum fresh)) else none
  | .copy fresh a b => if (objects a).isNone then do
      let src ← objects b
      (src.copyOf fresh).map some
    else none
  | .destroy a => (objects a).map fun _ => none
  | .use a call => do
      let s ← objects a
      (s.use call).map some
  | .assign fresh a b => do
      let s ← objects a
      let src ← objects b
      if a = b then some (some s) else (s.assign src fresh).map some

def spectra : Machine (Objects O) (Operation O) Unit where
  step objects operation :=
    (operation.result objects).map fun s => ((), Function.update objects operation.target s)

variable {history : List (Operation O × Unit)} {objects : Objects O} {a b : O}
  {s src t : MassSpectrum} {fresh : Data}

theorem wellFormed_of_result (all : ∀ a s, objects a = some s → s.WellFormed)
    {operation : Operation O} (done : operation.result objects = some (some t)) :
    t.WellFormed := by
  cases operation with
  | construct fresh a =>
    rw [Operation.result, Option.ite_none_right_eq_some, Option.some_inj, Option.some_inj] at done
    obtain ⟨-, rfl⟩ := done
    exact wellFormed_massSpectrum fresh
  | copy fresh a b =>
    rw [Operation.result, Option.ite_none_right_eq_some] at done
    obtain ⟨-, done⟩ := done
    obtain ⟨src, source, done⟩ := Option.bind_eq_some_iff.mp done
    obtain ⟨u, copied, same⟩ := Option.map_eq_some_iff.mp done
    cases same
    exact (copyArrays_post ((all b src source).newArrays fresh) copied).1
  | destroy a =>
    obtain ⟨s, -, impossible⟩ := Option.map_eq_some_iff.mp done
    cases impossible
  | use a call =>
    obtain ⟨s, target, done⟩ := Option.bind_eq_some_iff.mp done
    obtain ⟨u, used, same⟩ := Option.map_eq_some_iff.mp done
    cases same
    exact (all a s target).use used
  | assign fresh a b =>
    obtain ⟨s, target, done⟩ := Option.bind_eq_some_iff.mp done
    obtain ⟨src, source, done⟩ := Option.bind_eq_some_iff.mp done
    split at done
    · cases done
      exact all a _ target
    · obtain ⟨u, assigned, same⟩ := Option.map_eq_some_iff.mp done
      cases same
      exact (assign_post (all a s target) (all b src source) assigned).1

/-- Every object of a run is well formed, however the operations are mixed. -/
theorem wellFormed_of_run (run : spectra.Run (fun _ => none) history objects)
    (stored : objects a = some s) : s.WellFormed := by
  suffices all : ∀ a s, objects a = some s → s.WellFormed from all a s stored
  refine run.state_invariant (P := fun objects => ∀ a s, objects a = some s → s.WellFormed) ?_ ?_
  · intro a s impossible
    cases impossible
  · intro objects operation _ next all step b t stored
    obtain ⟨result, done, same⟩ := Option.map_eq_some_iff.mp step
    cases same
    by_cases here : b = operation.target
    · rw [here, Function.update_self] at stored
      exact wellFormed_of_result all (done.trans (congrArg some stored))
    · rw [Function.update_of_ne here] at stored
      exact all b t stored

/-- The assignment stays inside the arrays, the target then holds what the source does, the source
is what it was, and the calls to the target that follow stay inside as well. -/
def Assigned (objects : Objects O) (fresh : Data) (a b : O) (later : List Later) : Prop :=
  ∃ next t src, spectra.step objects (.assign fresh a b) = some ((), next) ∧
    next a = some t ∧ objects b = some src ∧ next b = some src ∧ t.contents = src.contents ∧
      ((later.map Later.use).foldlM use t).isSome

theorem assigned_self_iff (target : objects a = some s) (later : List Later) :
    Assigned objects fresh a a later ↔ ((later.map Later.use).foldlM use s).isSome := by
  have step : spectra.step objects (.assign fresh a a) = some ((), objects) := by
    simp only [spectra, Operation.result, Operation.target, target, Option.bind_eq_bind,
      Option.bind_some, if_true, Option.map_some]
    rw [← target, Function.update_eq_self]
  constructor
  · rintro ⟨next, t, src, done, after, -, -, -, inside⟩
    rw [step] at done
    cases done
    rw [target, Option.some_inj] at after
    exact after ▸ inside
  · intro inside
    exact ⟨objects, s, s, step, target, target, target, rfl, inside⟩

theorem assigned_iff (other : a ≠ b) (target : objects a = some s) (source : objects b = some src)
    (later : List Later) :
    Assigned objects fresh a b later ↔ ∃ t, s.assign src fresh = some t ∧
      t.contents = src.contents ∧ ((later.map Later.use).foldlM use t).isSome := by
  have step : spectra.step objects (.assign fresh a b) =
      (s.assign src fresh).map fun t => ((), Function.update objects a (some t)) := by
    simp only [spectra, Operation.result, Operation.target, target, source, Option.bind_eq_bind,
      Option.bind_some, if_neg other, Option.map_map]
    rfl
  constructor
  · rintro ⟨next, t, src', done, after, before, -, same, inside⟩
    rw [step] at done
    obtain ⟨u, assigned, equal⟩ := Option.map_eq_some_iff.mp done
    cases equal
    rw [Function.update_self, Option.some_inj] at after
    rw [source, Option.some_inj] at before
    subst after before
    exact ⟨u, assigned, same, inside⟩
  · rintro ⟨t, assigned, same, inside⟩
    refine ⟨Function.update objects a (some t), t, src, ?_, Function.update_self _ _ _, source, ?_,
      same, inside⟩
    · rw [step, assigned]
      rfl
    · rw [Function.update_of_ne other.symm]
      exact source

/-- The assignment and the calls that follow are right just if the target is the source itself, or
has no more points, of which each has a smoothed intensity on both sides; and if the array of
smoothed intensities is long enough for each later search for the peak. -/
theorem assign_iff (run : spectra.Run (fun _ => none) history objects)
    (target : objects a = some s) (source : objects b = some src) (fresh : Data)
    (later : List Later) :
    Assigned objects fresh a b later ↔ (a = b ∨ s.Assignable src) ∧
      Fits (if s.nPoints < src.nPoints then src.nPoints else s.smoothSize) src.nPoints later := by
  have wellFormed := wellFormed_of_run run target
  have source_wellFormed := wellFormed_of_run run source
  by_cases other : a = b
  · subst other
    obtain rfl : s = src := Option.some.inj (target.symm.trans source)
    rw [assigned_self_iff target, later_isSome_iff wellFormed, if_neg (lt_irrefl _)]
    exact (and_iff_right (Or.inl rfl)).symm
  · have enough (t : MassSpectrum) (assigned : s.assign src fresh = some t)
        (same : t.contents = src.contents) :
        ((later.map Later.use).foldlM use t).isSome ↔
          Fits (if s.nPoints < src.nPoints then src.nPoints else s.smoothSize) src.nPoints
            later := by
      obtain ⟨kept, -, size, -, -⟩ := assign_post wellFormed source_wellFormed assigned
      have count : t.nPoints = src.nPoints := congrArg Contents.nPoints same
      rw [later_isSome_iff kept, size, count]
    rw [assigned_iff other target source, or_iff_right other,
      ← assign_contents_iff wellFormed source_wellFormed fresh]
    constructor
    · rintro ⟨t, assigned, same, inside⟩
      exact ⟨⟨t, assigned, same⟩, (enough t assigned same).mp inside⟩
    · rintro ⟨⟨t, assigned, same⟩, fits⟩
      exact ⟨t, assigned, same, (enough t assigned same).mpr fits⟩

/-- How many points there are in an object, and how many smoothed intensities. -/
def counts (objects : Objects O) (a : O) : Option (ℕ × ℕ) :=
  (objects a).map fun s => (s.nPoints, s.smoothSize)

/-- A list of operations whose outcome is known by its counts. -/
theorem exists_run_counts (operations : List (Operation O)) {n m : ℕ × ℕ}
    (outcome : (spectra.exec (fun _ => none) operations).map (fun ran =>
      (counts ran.2 a, counts ran.2 b)) = some (some n, some m)) :
    ∃ history objects s src, spectra.Run (fun _ => none) history objects ∧
      objects a = some s ∧ objects b = some src ∧
      (s.nPoints, s.smoothSize) = n ∧ (src.nPoints, src.smoothSize) = m := by
  obtain ⟨⟨history, objects⟩, executed, same⟩ := Option.map_eq_some_iff.mp outcome
  obtain ⟨left, right⟩ := Prod.ext_iff.mp same
  obtain ⟨s, target, target_counts⟩ := Option.map_eq_some_iff.mp left
  obtain ⟨src, source, source_counts⟩ := Option.map_eq_some_iff.mp right
  exact ⟨history, objects, s, src, Machine.run_of_exec executed, target, source, target_counts,
    source_counts⟩

/-- A target without points, and a source of two that are smoothed. -/
theorem assign_two : ∃ history, ∃ objects : Objects Bool,
    spectra.Run (fun _ => none) history objects ∧ counts objects true = some (2, 2) ∧
      Assigned objects (fun _ => 0) false true
        [.doPeakCenter, .addPoint (fun _ => 0) ⟨3, 1, 1, 0⟩] := by
  obtain ⟨history, objects, s, src, run, target, source, none, two⟩ :=
    exists_run_counts (a := false) (b := true) (n := (0, 0)) (m := (2, 2))
      [.construct (fun _ => 0) true, .use true (.addPoint (fun _ => 0) ⟨1, 1, 1, 0⟩),
        .use true (.addPoint (fun _ => 0) ⟨2, 3, 1, 0⟩), .use true (.doSmoothing fun _ => 0),
        .construct (fun _ => 0) false] rfl
  obtain ⟨s_points, s_size⟩ := Prod.ext_iff.mp none
  obtain ⟨src_points, src_size⟩ := Prod.ext_iff.mp two
  simp only at s_points s_size src_points src_size
  refine ⟨history, objects, run, ?_, (assign_iff run target source _ _).mpr ⟨.inr ⟨?_, ?_, ?_⟩, ?_⟩⟩
  · rw [counts, source, Option.map_some, two]
  · omega
  · omega
  · omega
  · rw [s_points, src_points, s_size]
    exact ⟨by decide, trivial⟩

/-- A target with a point keeps it, when a spectrum without points is assigned to it. -/
theorem not_assign_none :
    ¬∀ (history : List (Operation Bool × Unit)) (objects : Objects Bool) (a b : Bool)
      (s src : MassSpectrum), spectra.Run (fun _ => none) history objects → objects a = some s →
        objects b = some src → ∀ (fresh : Data) (later : List Later),
          Assigned objects fresh a b later := by
  intro all
  obtain ⟨history, objects, s, src, run, target, source, one, none⟩ :=
    exists_run_counts (a := false) (b := true) (n := (1, 0)) (m := (0, 0))
      [.construct (fun _ => 0) true, .construct (fun _ => 0) false,
        .use false (.addPoint (fun _ => 0) ⟨1, 1, 1, 0⟩)] rfl
  obtain ⟨t, assigned, same, -⟩ := (assigned_iff (by decide) target source []).mp
    (all history objects false true s src run target source (fun _ => 0) [])
  have assignable := (assign_contents_iff (wellFormed_of_run run target)
    (wellFormed_of_run run source) _).mp ⟨t, assigned, same⟩
  have le : (s.nPoints, s.smoothSize).1 ≤ (src.nPoints, src.smoothSize).1 := assignable.points
  rw [one, none] at le
  cases le

end Objects

end Crs.Spectrum
