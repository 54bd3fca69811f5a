import Crs.Foundation.Word
import Crs.RingPool.Basic

/-!
# The iterators of a ring

An iterator has an index that is not normalized: every number of 64 bits stands for a position.
Positions are compared by their distance from the beginning of the window, and the window may
wrap around the end of the positions. A difference is an `int`, and so is what is added.

The record that an iterator holds, and whether it has to be read again, is not in here.
-/

namespace Crs.RingPool

open Foundation

structure Iterator where
  index : UInt64
  deriving DecidableEq

namespace Iterator

/-- An `int` is converted when it is added to the index. -/
def add (it : Iterator) (n : Int32) : Iterator := ⟨it.index + UInt64.ofInt n.toInt⟩

def sub (it : Iterator) (n : Int32) : Iterator := ⟨it.index - UInt64.ofInt n.toInt⟩

end Iterator

namespace Ring

variable {α X : Type*} (g : BitMaskCalculator) (s : Ring α X)

/-- `begin`, as an iterator. -/
def beginIter : Iterator := ⟨UInt64.ofNat s.beginPos⟩

def endIter : Iterator := ⟨UInt64.ofNat s.endPos⟩

def recentIter : Iterator :=
  if s.beginPos = s.endPos then s.endIter else ⟨UInt64.ofNat s.endPos - 1⟩

/-- `full_idx( getSafeIdx() - m )`, for the begin of the window. -/
def distance (i : Iterator) : ℕ := g.fullIdx (i.index - UInt64.ofNat s.beginPos).toNat

/-- `operator -` of two iterators. -/
def diff (i o : Iterator) : Int32 :=
  Int32.ofNat (UInt64.ofNat (s.distance g i) - UInt64.ofNat (s.distance g o)).toNat

/-- `operator ==`. -/
def eq (i o : Iterator) : Bool := g.fullIdx i.index.toNat == g.fullIdx o.index.toNat

/-- `operator <`. -/
def lt (i o : Iterator) : Bool := s.distance g i < s.distance g o

/-- The answer of `validate`, and the iterator. -/
def validate (it : Iterator) : Bool × Iterator :=
  if s.beginPos = s.endPos then (false, it)
  else
    let bpos := g.fullIdx (UInt64.ofNat s.beginPos - UInt64.ofNat s.endPos).toNat
    let ipos := g.fullIdx (it.index - UInt64.ofNat s.endPos).toNat
    if 0 < ipos ∧ ipos < bpos then (true, s.beginIter) else (false, it)

/-- The iterator stands for a position from begin to end. -/
def InWindow (i : Iterator) : Prop := s.distance g i ≤ s.size g

instance (i : Iterator) : Decidable (s.InWindow g i) :=
  inferInstanceAs (Decidable (s.distance g i ≤ s.size g))

/-- Begin and end are positions of the ring. -/
structure Bounded : Prop where
  beginPos : s.beginPos ≤ g.usedBits
  endPos : s.endPos ≤ g.usedBits

/-- The operators agree about the order and the distances of the iterators. -/
structure Lawful : Prop where
  distance_spec : ∀ i, s.distance g i < g.capacity ∧
    g.fullIdx (s.beginPos + s.distance g i) = g.fullIdx i.index.toNat
  lt_iff : ∀ i j, s.lt g i j = true ↔ s.distance g i < s.distance g j
  irreflexive : ∀ i, s.lt g i i = false
  transitive : ∀ i j k, s.lt g i j = true → s.lt g j k = true → s.lt g i k = true
  trichotomous : ∀ i j, s.lt g i j = false → s.lt g j i = false → eq g i j = true
  eq_iff : ∀ i j, eq g i j = true ↔ s.distance g i = s.distance g j
  diff_eq : ∀ i j, (s.diff g i j).toInt = s.distance g i - s.distance g j
  diff_add : ∀ i n, s.InWindow g i → s.InWindow g (i.add n) →
    (s.diff g (i.add n) i = n ↔
      0 ≤ s.distance g i + n.toInt ∧ s.distance g i + n.toInt ≤ s.size g)
  add_sub : ∀ i n, eq g ((i.add n).sub n) i = true
  begin_end : s.distance g s.beginIter = 0 ∧ s.distance g s.endIter = s.size g
  recent : s.beginPos ≠ s.endPos → s.distance g s.recentIter + 1 = s.size g
  validate_eq : s.beginPos ≠ s.endPos → ∀ i,
    s.validate g i = if s.InWindow g i then (false, i) else (true, s.beginIter)

section Runs

variable {g} {s} {p r : ℕ} {c : Client α X} {s' : Ring α X} {o : Seen α}

theorem produce_bounded (bounded : s.Bounded g)
    (step : s.produce g = some (o, s')) : s'.Bounded g := by
  cases phase : s.control.producer with
  | idle => simp [produce, phase] at step
  | writing =>
    simp only [produce, phase, Option.bind_eq_some_iff, Option.map_eq_some_iff] at step
    obtain ⟨held, written, stored, -, next, -, result⟩ := step
    obtain ⟨-, rfl⟩ := by simpa using result
    exact ⟨bounded.beginPos, bounded.endPos⟩
  | advancing | locking | resuming | waking =>
    simp only [produce, phase, Option.map_eq_some_iff] at step
    obtain ⟨next, -, result⟩ := step
    obtain ⟨-, rfl⟩ := by simpa using result
    exact ⟨bounded.beginPos, bounded.endPos⟩
  | counting =>
    simp only [produce, phase, Option.map_eq_some_iff] at step
    obtain ⟨next, -, result⟩ := step
    obtain ⟨-, rfl⟩ := by simpa using result
    exact ⟨bounded.beginPos, Nat.and_le_right⟩

theorem swap_bounded (shape : g.Shape p r) (bounded : s.Bounded g)
    (step : s.swap g c = some (o, s')) : s'.Bounded g := by
  cases stage : s.stage with
  | beginning =>
    simp only [swap, stage] at step
    split at step
    · obtain ⟨-, rfl⟩ := by simpa using step
      refine ⟨?_, bounded.endPos⟩
      rw [shape.shiftLeft_eq, shape.usedBits]
      exact Nat.le_pred_of_lt (Nat.mod_lt _ (Nat.two_pow_pos _))
    · obtain ⟨-, rfl⟩ := by simpa using step
      exact ⟨bounded.beginPos, bounded.endPos⟩
  | releasing =>
    simp only [swap, stage, Option.map_eq_some_iff] at step
    obtain ⟨client, -, result⟩ := step
    obtain ⟨-, rfl⟩ := by simpa using result
    exact ⟨bounded.beginPos, bounded.endPos⟩
  | fetching =>
    simp only [swap, stage, Option.bind_eq_some_iff, Option.map_eq_some_iff] at step
    obtain ⟨mp, -, fp, -, result⟩ := step
    obtain ⟨-, rfl⟩ := by simpa using result
    exact ⟨bounded.beginPos, bounded.endPos⟩
  | assigning mp fp =>
    simp only [swap, stage, Option.map_eq_some_iff] at step
    obtain ⟨assigned, -, result⟩ := step
    obtain ⟨-, rfl⟩ := by simpa using result
    exact ⟨bounded.beginPos, bounded.endPos⟩
  | exchanging =>
    simp only [swap, stage, Option.bind_eq_some_iff, Option.map_eq_some_iff] at step
    obtain ⟨mp, -, fp, -, next, -, result⟩ := step
    obtain ⟨-, rfl⟩ := by simpa using result
    exact ⟨bounded.beginPos, bounded.endPos⟩

theorem step_bounded (shape : g.Shape p r) (bounded : s.Bounded g) {a : Call α X}
    (step : (machine g c).step s a = some (o, s')) : s'.Bounded g := by
  cases a with
  | push point =>
    simp only [machine, push] at step
    split at step
    · simp only [Option.bind_eq_some_iff, Option.map_eq_some_iff] at step
      obtain ⟨pool, -, next, -, result⟩ := step
      obtain ⟨-, rfl⟩ := by simpa using result
      exact ⟨bounded.beginPos, bounded.endPos⟩
    all_goals cases step
  | producer => exact produce_bounded bounded step
  | swapper =>
    simp only [machine, swapperRun] at step
    split at step
    · exact swap_bounded shape bounded step
    all_goals
      obtain ⟨next, -, result⟩ := Option.map_eq_some_iff.mp step
      obtain ⟨-, rfl⟩ := by simpa using result
      exact ⟨bounded.beginPos, bounded.endPos⟩
  | derived client =>
    obtain ⟨-, rfl⟩ := by simpa [machine] using step
    exact ⟨bounded.beginPos, bounded.endPos⟩

/-- In a run, begin and end always are positions of the ring. -/
theorem run_bounded {cfg : Config} {zero : α} {client : X} {history : List (Call α X × Seen α)}
    (run : (machine cfg.metrix c).Run (new cfg zero client) history s) : s.Bounded cfg.metrix := by
  obtain ⟨p, r, shape⟩ := exists_shape cfg.nPoolSize cfg.nRootSize
  exact run.state_invariant ⟨Nat.zero_le _, Nat.zero_le _⟩
    fun _ _ _ _ bounded step => step_bounded shape bounded step

end Runs

@[simp] theorem distance_begin {g : BitMaskCalculator} {s : Ring α X} :
    s.distance g s.beginIter = 0 := by
  rw [distance, beginIter, UInt64.sub_self, UInt64.toNat_zero, BitMaskCalculator.fullIdx,
    Nat.zero_and]

section Distances

variable {g} {s} {p r : ℕ} (shape : g.Shape p r) (bounded : s.Bounded g)

include shape

/-- A position, calculated with integers. -/
theorem fullIdx_emod (a : UInt64) {x : ℤ} (same : (a.toNat : ℤ) ≡ x [ZMOD (2 ^ (p + r) : ℕ)]) :
    (g.fullIdx a.toNat : ℤ) = x % (2 ^ (p + r) : ℕ) := by
  rw [shape.fullIdx_eq, Int.natCast_mod]
  exact same

theorem fullIdx_unique (a : UInt64) {x : ℤ} (same : (a.toNat : ℤ) ≡ x [ZMOD (2 ^ (p + r) : ℕ)])
    (nonneg : 0 ≤ x) (below : x < (2 ^ (p + r) : ℕ)) : (g.fullIdx a.toNat : ℤ) = x := by
  rw [fullIdx_emod shape a same, Int.emod_eq_of_lt nonneg below]

theorem position_lt {idx : ℕ} (position : idx ≤ g.usedBits) : idx < 2 ^ (p + r) := by
  rw [← shape.capacity_eq]
  exact Nat.lt_succ_of_le position

/-- A position is a number of 64 bits. -/
theorem toNat_position {idx : ℕ} (position : idx ≤ g.usedBits) : (UInt64.ofNat idx).toNat = idx :=
  UInt64.toNat_ofNat_of_lt'
    ((position_lt shape position).trans_le (Nat.pow_le_pow_right Nat.two_pos shape.fits))

include bounded

theorem toNat_begin : (UInt64.ofNat s.beginPos).toNat = s.beginPos :=
  toNat_position shape bounded.beginPos

theorem toNat_end : (UInt64.ofNat s.endPos).toNat = s.endPos :=
  toNat_position shape bounded.endPos

theorem distance_emod (i : Iterator) :
    (s.distance g i : ℤ) = ((i.index.toNat : ℤ) - s.beginPos) % (2 ^ (p + r) : ℕ) := by
  have residue := Word.toNat_sub_intModEq shape.fits i.index (UInt64.ofNat s.beginPos)
  rw [toNat_begin shape bounded] at residue
  exact fullIdx_emod shape _ residue

/-- The size is the distance of the end. -/
theorem distance_end : s.distance g s.endIter = s.size g := by
  rw [distance, endIter, UInt64.toNat_sub, toNat_begin shape bounded, toNat_end shape bounded,
    size, Nat.add_comm, digits]

omit bounded in
variable (s) in
theorem distance_lt (i : Iterator) : s.distance g i < 2 ^ (p + r) := by
  rw [distance, shape.fullIdx_eq]
  exact Nat.mod_lt _ (Nat.two_pow_pos _)

/-- A step of an iterator is one of its distance, modulo the positions of the ring. -/
theorem distance_add (i : Iterator) (n : Int32) :
    (s.distance g (i.add n) : ℤ) = (s.distance g i + n.toInt) % (2 ^ (p + r) : ℕ) := by
  have moved := (Word.toNat_add_intModEq shape.fits i.index (UInt64.ofInt n.toInt)).trans
    ((Word.toNat_ofInt_intModEq shape.fits n.toInt).add_left _)
  rw [distance_emod shape bounded, distance_emod shape bounded, Int.emod_add_emod,
    sub_add_eq_add_sub]
  exact moved.sub_right _

theorem eq_iff_distance (i j : Iterator) :
    eq g i j = true ↔ s.distance g i = s.distance g j := by
  rw [eq, beq_iff_eq, ← Int.natCast_inj, ← Int.natCast_inj, distance_emod shape bounded,
    distance_emod shape bounded, fullIdx_emod shape _ (Int.ModEq.refl _),
    fullIdx_emod shape _ (Int.ModEq.refl _)]
  constructor
  · exact fun same => Int.ModEq.sub_right _ same
  · exact fun same => Int.ModEq.add_right_cancel' _ same

theorem distance_modEq (i : Iterator) :
    (s.distance g i : ℤ) ≡ (i.index.toNat : ℤ) - s.beginPos [ZMOD (2 ^ (p + r) : ℕ)] := by
  rw [distance_emod shape bounded]
  exact Int.mod_modEq _ _

theorem size_modEq : (s.size g : ℤ) ≡ (s.endPos : ℤ) - s.beginPos [ZMOD (2 ^ (p + r) : ℕ)] := by
  have residue := distance_modEq shape bounded s.endIter
  rwa [distance_end shape bounded, endIter, toNat_end shape bounded] at residue

/-- A window that ends where it begins has no points. -/
theorem size_pos_iff : 0 < s.size g ↔ s.beginPos ≠ s.endPos := by
  have front := position_lt shape bounded.beginPos
  have back := position_lt shape bounded.endPos
  have residue := size_modEq shape bounded
  rw [Nat.pos_iff_ne_zero, not_iff_not]
  constructor
  · intro none
    rw [none] at residue
    have same : (s.beginPos : ℤ) ≡ s.endPos [ZMOD (2 ^ (p + r) : ℕ)] := by
      simpa using residue.add_right (s.beginPos : ℤ)
    exact (Int.natCast_modEq_iff.mp same).eq_of_lt_of_lt front back
  · intro same
    rw [← distance_end shape bounded, ← Int.natCast_inj, distance_emod shape bounded, endIter,
      toNat_end shape bounded, same, sub_self, Int.zero_emod, Nat.cast_zero]

/-- The iterators that are not in the window are reset, and no others. -/
theorem validate_spec (some : s.beginPos ≠ s.endPos) (i : Iterator) :
    s.validate g i = if s.InWindow g i then (false, i) else (true, s.beginIter) := by
  have few := distance_lt s shape s.endIter
  have near := distance_lt s shape i
  have points := (size_pos_iff shape bounded).mpr some
  rw [distance_end shape bounded] at few
  have distance := distance_modEq shape bounded i
  have size := size_modEq shape bounded
  have whole : ((2 ^ (p + r) : ℕ) : ℤ) ≡ 0 [ZMOD (2 ^ (p + r) : ℕ)] :=
    Int.modEq_zero_iff_dvd.mpr dvd_rfl
  have bpos : (g.fullIdx (UInt64.ofNat s.beginPos - UInt64.ofNat s.endPos).toNat : ℤ) =
      (2 ^ (p + r) : ℕ) - s.size g := by
    apply fullIdx_unique shape
    · have residue := Word.toNat_sub_intModEq shape.fits (UInt64.ofNat s.beginPos)
        (UInt64.ofNat s.endPos)
      have back := (whole.sub size).symm
      rw [zero_sub, neg_sub] at back
      rw [toNat_begin shape bounded, toNat_end shape bounded] at residue
      exact residue.trans back
    · omega
    · omega
  have residue : ((i.index - UInt64.ofNat s.endPos).toNat : ℤ) ≡ s.distance g i - s.size g
      [ZMOD (2 ^ (p + r) : ℕ)] := by
    have residue := Word.toNat_sub_intModEq shape.fits i.index (UInt64.ofNat s.endPos)
    have back := (distance.sub size).symm
    rw [sub_sub_sub_cancel_right] at back
    rw [toNat_end shape bounded] at residue
    exact residue.trans back
  rw [validate, if_neg some]
  by_cases inside : s.InWindow g i
  · rw [if_pos inside]
    have within : s.distance g i ≤ s.size g := inside
    refine if_neg ?_
    rintro ⟨behind, before⟩
    obtain last | less := within.eq_or_lt
    · have ipos := fullIdx_unique shape _ residue (by omega) (by omega)
      omega
    · have wrapped := (whole.symm.add_left (s.distance g i - s.size g : ℤ))
      rw [add_zero] at wrapped
      have ipos := fullIdx_unique shape _ (residue.trans wrapped) (by omega) (by omega)
      omega
  · rw [if_neg inside]
    have outside : s.size g < s.distance g i := not_le.mp inside
    have ipos := fullIdx_unique shape _ residue (by omega) (by omega)
    exact if_pos ⟨by omega, by omega⟩

omit bounded in
theorem diff_eq (small : 2 ^ (p + r) ≤ 2 ^ 31) (i j : Iterator) :
    (s.diff g i j).toInt = s.distance g i - s.distance g j :=
  Word.toInt_ofNat_sub ((distance_lt s shape i).trans_le small)
    ((distance_lt s shape j).trans_le small)

/-- A step has the length of its difference exactly if it does not leave the window. -/
theorem diff_add_iff (small : 2 ^ (p + r) ≤ 2 ^ 31) (i : Iterator) (n : Int32)
    (inside : s.InWindow g (i.add n)) : s.diff g (i.add n) i = n ↔
      0 ≤ s.distance g i + n.toInt ∧ s.distance g i + n.toInt ≤ s.size g := by
  have within : s.distance g (i.add n) ≤ s.size g := inside
  have few := distance_lt s shape s.endIter
  rw [distance_end shape bounded] at few
  rw [← Int32.toInt_inj, diff_eq shape small]
  constructor
  · intro same
    omega
  · rintro ⟨nonneg, below⟩
    have moved := distance_add shape bounded i n
    rw [Int.emod_eq_of_lt nonneg (by omega)] at moved
    omega

/-- The last point is in front of the end. -/
theorem distance_recent (some : s.beginPos ≠ s.endPos) :
    s.distance g s.recentIter + 1 = s.size g := by
  have points := (size_pos_iff shape bounded).mpr some
  have few := distance_lt s shape s.endIter
  have before : s.recentIter = s.endIter.add (-1) := by
    have minusOne : UInt64.ofInt (-1 : Int32).toInt = -1 := by decide
    rw [recentIter, if_neg some, endIter, Iterator.add, minusOne, UInt64.sub_eq_add_neg]
  have moved := distance_add shape bounded s.endIter (-1)
  rw [← before, distance_end shape bounded] at moved
  rw [distance_end shape bounded] at few
  have one : (-1 : Int32).toInt = -1 := by decide
  rw [one, Int.emod_eq_of_lt (by omega) (by omega)] at moved
  omega

end Distances

/-- The operators of the iterators agree, if differences fit an `int`. -/
theorem iterators_lawful {cfg : Config} {s : Ring α X} (small : cfg.metrix.capacity ≤ 2 ^ 31)
    (bounded : s.Bounded cfg.metrix) : s.Lawful cfg.metrix := by
  obtain ⟨p, r, shape⟩ := exists_shape cfg.nPoolSize cfg.nRootSize
  change cfg.metrix.Shape p r at shape
  have int : 2 ^ (p + r) ≤ 2 ^ 31 := shape.capacity_eq ▸ small
  exact
    { distance_spec := fun i => by
        refine ⟨shape.capacity_eq ▸ distance_lt s shape i, ?_⟩
        rw [shape.fullIdx_eq, shape.fullIdx_eq]
        have back := (distance_modEq shape bounded i).add_left (s.beginPos : ℤ)
        rw [add_sub_cancel] at back
        exact Int.natCast_modEq_iff.mp (mod_cast back)
      lt_iff := fun i j => decide_eq_true_iff
      irreflexive := fun i => by simp [lt]
      transitive := fun i j k first second =>
        decide_eq_true ((of_decide_eq_true first).trans (of_decide_eq_true second))
      trichotomous := fun i j less more => by
        rw [eq_iff_distance shape bounded]
        exact le_antisymm (not_lt.mp (of_decide_eq_false more))
          (not_lt.mp (of_decide_eq_false less))
      eq_iff := eq_iff_distance shape bounded
      diff_eq := diff_eq shape int
      diff_add := fun i n _ inside => diff_add_iff shape bounded int i n inside
      add_sub := fun i n => by
        have back : (i.add n).sub n = i := by
          rw [Iterator.add, Iterator.sub, UInt64.add_sub_cancel]
        rw [back, eq, beq_self_eq_true]
      begin_end := ⟨distance_begin, distance_end shape bounded⟩
      recent := distance_recent shape bounded
      validate_eq := validate_spec shape bounded }

/-- The last two positions and the first one, in a ring of 512. -/
private def testRing : Ring ℕ Unit :=
  { Ring.new (⟨2, 255, 1⟩ : Config) 0 () with beginPos := 510, endPos := 1 }

private theorem testRing_bounded : testRing.Bounded (Config.metrix ⟨2, 255, 1⟩) :=
  ⟨by decide, by decide⟩

theorem iterators_lawful_wrapped : testRing.size (Config.metrix ⟨2, 255, 1⟩) = 3 ∧
    testRing.Lawful (Config.metrix ⟨2, 255, 1⟩) :=
  ⟨by decide, iterators_lawful (by decide) testRing_bounded⟩

/-- A step around the whole ring stays in the window, and its difference is zero. -/
theorem diff_add_capacity : (Config.metrix ⟨2, 255, 1⟩).capacity = 512 ∧
    testRing.Bounded (Config.metrix ⟨2, 255, 1⟩) ∧
    testRing.InWindow (Config.metrix ⟨2, 255, 1⟩) testRing.beginIter ∧
    testRing.InWindow (Config.metrix ⟨2, 255, 1⟩) (testRing.beginIter.add 512) ∧
    testRing.diff (Config.metrix ⟨2, 255, 1⟩) (testRing.beginIter.add 512) testRing.beginIter ≠
      512 :=
  ⟨by decide, testRing_bounded, by decide, by decide, by decide⟩

end Ring

end Crs.RingPool
