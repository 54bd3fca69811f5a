import Crs.Foundation.BinarySearch
import Crs.RingPool.Core
import Crs.RingPool.Evictions
import Crs.RingPool.Iterators
import Mathlib.Algebra.Order.Ring.Rat
import Mathlib.Tactic.Linarith

/-!
# The intensity at a time

`getIntensityByTime` searches the window twice. What it finds are the first point behind the
time and the first one not before it, and both are the same between two points. A step back is
there for a found point that is before the time, and there is none, unless the number of points
does not fit an `int`.

Times and intensities are exact numbers. A record that is read twice is read from the iterator
the second time.
-/

namespace Crs.RingPool

open Foundation BinarySearch

/-- The time of a point and its channels. -/
structure Sample (nData : ℕ) where
  time : ℚ
  intensity : Fin nData → ℚ

/-- `std::advance`. -/
def Iterator.advance (i : Iterator) (n : ℕ) : Iterator := i.add (Int32.ofNat n)

namespace Ring

variable {nData : ℕ} {X : Type*} (g : BitMaskCalculator)
  (s : Ring (IntensityPoint (Sample nData)) X)

/-- `operator *`. -/
def record (i : Iterator) : Option (IntensityPoint (Sample nData)) := s.idx g i.index.toNat

/-- The number of rounds that a search has at most: a loop with a negative length has none. -/
def searchLength : ℕ := (s.diff g s.endIter s.beginIter).toInt.toNat

/-- `std::lower_bound` of the window. -/
def lowerBound (time : ℚ) : Looked Iterator Iterator :=
  search Iterator.advance (fun i => (s.record g i).map fun point => decide (point.data.time < time))
    (s.searchLength g) s.beginIter (s.searchLength g)

/-- `std::upper_bound` of the window. -/
def upperBound (time : ℚ) : Looked Iterator Iterator :=
  search Iterator.advance
    (fun i => (s.record g i).map fun point => !decide (time < point.data.time))
    (s.searchLength g) s.beginIter (s.searchLength g)

/-- `getIntensityByTime`, behind the two searches. -/
def average (nChannel : Fin nData) (time : ℚ) (ub lb : Iterator) : Looked Iterator ℚ := do
  let point ← Looked.read (s.record g) lb
  let lb := if point.data.time < time ∧ eq g lb s.beginIter = false then ⟨lb.index - 1⟩ else lb
  let upper ← Looked.read (s.record g) ub
  let lower ← Looked.read (s.record g) lb
  return (upper.data.intensity nChannel + lower.data.intensity nChannel) / 2

def getIntensityByTime (nChannel : Fin nData) (time : ℚ) : Looked Iterator ℚ := do
  let ub ← s.upperBound g time
  let lb ← s.lowerBound g time
  s.average g nChannel time ub lb

/-- The points of the window, in order. -/
structure Content (points : List (IntensityPoint (Sample nData))) : Prop where
  size : s.size g = points.length
  nth : ∀ k < points.length, s.nth g k = points[k]?

/-- Between two points, the mean of them; and from the first point to the last one, only the
window is read. -/
structure Interpolates (points : List (IntensityPoint (Sample nData))) (nChannel : Fin nData)
    (time : ℚ) : Prop where
  mean : ∀ k p q, points[k]? = some p → points[k + 1]? = some q → p.data.time < time →
    time < q.data.time → (s.getIntensityByTime g nChannel time).result =
      some ((p.data.intensity nChannel + q.data.intensity nChannel) / 2)
  inside : ∀ first last, points.head? = some first → points.getLast? = some last →
    first.data.time ≤ time → time ≤ last.data.time →
      ∀ i ∈ (s.getIntensityByTime g nChannel time).positions, s.distance g i < s.size g

/-- How many of `n` points are searched: their number, as an `int`. -/
def searched (n : ℕ) : ℕ := (Int32.ofNat n).toInt.toNat

/-- The two points around the time have one intensity (or have the mean of the points where a
search ends that is too short), and the time is not the one of the last point (if all points are
searched). -/
structure Level (points : List (IntensityPoint (Sample nData))) (nChannel : Fin nData)
    (time : ℚ) : Prop where
  mean : ∀ k p q, points[k]? = some p → points[k + 1]? = some q → p.data.time < time →
    time < q.data.time →
      if k < searched points.length then p.data.intensity nChannel = q.data.intensity nChannel
      else ∀ u l, points[searched points.length]? = some u →
        points[searched points.length - 1]? = some l →
          u.data.intensity nChannel + l.data.intensity nChannel =
            p.data.intensity nChannel + q.data.intensity nChannel
  inside : points.length < 2 ^ 31 → ∀ last, points.getLast? = some last → time ≠ last.data.time

section Steps

variable {g} {s} {p r : ℕ} {n a b k : ℕ}

theorem searched_eq (fits : n < 2 ^ 31) : searched n = n := by
  rw [searched, Int32.toInt_ofNat_of_lt fits, Int.toNat_natCast]

theorem searched_lt : searched n < 2 ^ 31 := by
  have below := Int32.toInt_lt (Int32.ofNat n)
  rw [searched]
  omega

theorem searched_le : searched n ≤ n := by
  by_cases fits : n < 2 ^ 31
  · rw [searched_eq fits]
  · exact searched_lt.le.trans (not_lt.mp fits)

theorem advance_eq (i : Iterator) (fits : n < 2 ^ 31) :
    i.advance n = ⟨i.index + UInt64.ofNat n⟩ := by
  rw [Iterator.advance, Iterator.add, Int32.toInt_ofNat_of_lt fits, Word.ofInt_natCast]

theorem advance_zero (i : Iterator) : i.advance 0 = i := by
  rw [advance_eq i (by decide)]
  simp

theorem advance_advance (i : Iterator) (fits : a + b < 2 ^ 31) :
    (i.advance a).advance b = i.advance (a + b) := by
  rw [advance_eq i (by omega), advance_eq _ (by omega), advance_eq i fits, UInt64.ofNat_add,
    UInt64.add_assoc]

/-- `--` undoes the last step. -/
theorem advance_pred (i : Iterator) (fits : k + 1 < 2 ^ 31) :
    (⟨(i.advance (k + 1)).index - 1⟩ : Iterator) = i.advance k := by
  rw [advance_eq i fits, advance_eq i (by omega), UInt64.ofNat_add, ← UInt64.add_assoc]
  simp

variable (shape : g.Shape p r) (bounded : s.Bounded g)

include shape bounded

theorem distance_advance (fits : k < 2 ^ 31) (inside : k < 2 ^ (p + r)) :
    s.distance g (s.beginIter.advance k) = k := by
  have moved := distance_add shape bounded s.beginIter (Int32.ofNat k)
  rw [distance_begin, Int32.toInt_ofNat_of_lt fits, Int.emod_eq_of_lt (by omega) (by omega)]
    at moved
  have same : s.beginIter.advance k = s.beginIter.add (Int32.ofNat k) := rfl
  rw [same]
  omega

theorem searchLength_eq : s.searchLength g = searched (s.size g) := by
  have few := distance_lt s shape s.endIter
  have word := Nat.pow_le_pow_right Nat.two_pos shape.fits
  rw [distance_end shape bounded] at few
  have same : (UInt64.ofNat (s.size g) - UInt64.ofNat 0).toNat = s.size g := by
    change (UInt64.ofNat (s.size g) - 0).toNat = s.size g
    rw [UInt64.sub_zero, UInt64.toNat_ofNat_of_lt' (few.trans_le word)]
  rw [searchLength, diff, distance_begin, distance_end shape bounded, same, searched]

end Steps

section Points

variable {g} {s} {p r a b k : ℕ} {points : List (IntensityPoint (Sample nData))}
  {nChannel : Fin nData} {time : ℚ}

/-- What is read in the window. -/
theorem record_advance (content : s.Content g points) (fits : k < 2 ^ 31)
    (inside : k < points.length) : s.record g (s.beginIter.advance k) = points[k]? := by
  rw [← content.nth k inside, record, advance_eq _ fits, beginIter, nth, UInt64.toNat_add,
    UInt64.toNat_ofNat', UInt64.toNat_ofNat', ← Nat.add_mod, digits]

variable (shape : g.Shape p r) (bounded : s.Bounded g) (content : s.Content g points)

include shape bounded content

theorem distance_inside (fits : k < 2 ^ 31) (inside : k ≤ points.length) :
    s.distance g (s.beginIter.advance k) = k := by
  have few := distance_lt s shape s.endIter
  rw [distance_end shape bounded, content.size] at few
  exact distance_advance shape bounded fits (inside.trans_lt few)

/-- A search in the window ends at the border of the points that are searched. -/
theorem search_points {test : IntensityPoint (Sample nData) → Bool}
    (border : Border (fun j => points[j]?.map test) (searched points.length) k) :
    ∃ positions, search Iterator.advance (fun i => (s.record g i).map test) (s.searchLength g)
        s.beginIter (s.searchLength g) = ⟨positions, some (s.beginIter.advance k)⟩ ∧
      ∀ i ∈ positions, s.distance g i < s.size g := by
  have short := searched_lt (n := points.length)
  have least := searched_le (n := points.length)
  rw [searchLength_eq shape bounded, content.size]
  have reads (j : ℕ) (less : j < searched points.length) :
      (s.record g (s.beginIter.advance j)).map test = points[j]?.map test := by
    rw [record_advance content (by omega) (by omega)]
  have here : Border (fun j => (s.record g (s.beginIter.advance j)).map test)
      (searched points.length) k := by
    refine ⟨border.within, fun j less => ?_, fun j behind less => ?_⟩
    · rw [reads j (less.trans_le border.within)]
      exact border.below j less
    · rw [reads j less]
      exact border.above j behind less
  have steps (a b : ℕ) (sum : a + b ≤ searched points.length) :
      (s.beginIter.advance a).advance b = s.beginIter.advance (a + b) :=
    advance_advance _ (by omega)
  obtain ⟨positions, found, inside⟩ := @search_spec _ _ (fun i => (s.record g i).map test) _ _ _ _
    le_rfl (advance_zero _) steps here
  refine ⟨positions, found, fun i member => ?_⟩
  obtain ⟨j, less, rfl⟩ := inside i member
  rw [distance_inside shape bounded content (by omega) (by omega)]
  omega

variable (nChannel) in
/-- The searches stay in the window, whatever the average does. -/
theorem exists_searches
    (lower : Border (fun j => points[j]?.map fun point => decide (point.data.time < time))
      (searched points.length) a)
    (upper : Border (fun j => points[j]?.map fun point => !decide (time < point.data.time))
      (searched points.length) b) :
    ∃ probes, (∀ i ∈ probes, s.distance g i < s.size g) ∧
      s.getIntensityByTime g nChannel time =
        ⟨probes ++ (s.average g nChannel time (s.beginIter.advance b)
            (s.beginIter.advance a)).positions,
          (s.average g nChannel time (s.beginIter.advance b) (s.beginIter.advance a)).result⟩ := by
  obtain ⟨first, found, inside⟩ := search_points shape bounded content upper
  obtain ⟨second, found', inside'⟩ := search_points shape bounded content lower
  refine ⟨first ++ second, fun i member => ?_, ?_⟩
  · exact (List.mem_append.mp member).elim (inside i) (inside' i)
  · rw [getIntensityByTime, upperBound, lowerBound, found, found', Looked.bind_some,
      Looked.bind_some, List.append_assoc]

/-- The step back is taken from a point before the time, except at the begin. -/
theorem average_eq {point : IntensityPoint (Sample nData)} (here : points[a]? = some point)
    (fits : a < 2 ^ 31) (ub : Iterator) :
    s.average g nChannel time ub (s.beginIter.advance a) =
      Looked.read (s.record g) (s.beginIter.advance a) >>= fun _ =>
        Looked.read (s.record g) ub >>= fun upper =>
          Looked.read (s.record g)
            (s.beginIter.advance (if point.data.time < time then a - 1 else a)) >>= fun lower =>
              pure ((upper.data.intensity nChannel + lower.data.intensity nChannel) / 2) := by
  obtain ⟨inside, -⟩ := List.getElem?_eq_some_iff.mp here
  have reads : s.record g (s.beginIter.advance a) = some point := by
    rw [record_advance content fits inside, here]
  have begins : eq g (s.beginIter.advance a) s.beginIter = false ↔ a ≠ 0 := by
    rw [← Bool.not_eq_true, eq_iff_distance shape bounded, distance_begin,
      distance_inside shape bounded content fits inside.le]
  have back : (if point.data.time < time ∧ eq g (s.beginIter.advance a) s.beginIter = false then
      (⟨(s.beginIter.advance a).index - 1⟩ : Iterator) else s.beginIter.advance a) =
        s.beginIter.advance (if point.data.time < time then a - 1 else a) := by
    by_cases before : point.data.time < time
    · rw [if_pos before]
      cases a with
      | zero => exact if_neg fun both => begins.mp both.2 rfl
      | succ a =>
        rw [if_pos ⟨before, begins.mpr (Nat.succ_ne_zero a)⟩, advance_pred _ fits,
          Nat.add_sub_cancel]
    · rw [if_neg (fun both => before both.1), if_neg before]
  rw [average, Looked.read_bind reads, Looked.read_bind reads, ← back]

/-- The average reads what the first search has found. -/
theorem mem_average {point : IntensityPoint (Sample nData)} (here : points[a]? = some point)
    (fits : a < 2 ^ 31) (ub : Iterator) :
    ub ∈ (s.average g nChannel time ub (s.beginIter.advance a)).positions := by
  have reads : s.record g (s.beginIter.advance a) = some point := by
    rw [record_advance content fits (List.getElem?_eq_some_iff.mp here).1, here]
  rw [average_eq shape bounded content here fits, Looked.read_bind reads]
  exact List.mem_cons_of_mem _ (Looked.mem_read_bind _ _ _)

/-- The average of two points of the window. -/
theorem average_points {point upper lower : IntensityPoint (Sample nData)} (fits : a < 2 ^ 31)
    (here : points[a]? = some point) (fits' : b < 2 ^ 31) (behind : points[b]? = some upper)
    (before : points[if point.data.time < time then a - 1 else a]? = some lower) :
    s.average g nChannel time (s.beginIter.advance b) (s.beginIter.advance a) =
      ⟨[s.beginIter.advance a, s.beginIter.advance b,
          s.beginIter.advance (if point.data.time < time then a - 1 else a)],
        some ((upper.data.intensity nChannel + lower.data.intensity nChannel) / 2)⟩ := by
  have reads {k : ℕ} {x : IntensityPoint (Sample nData)} (short : k < 2 ^ 31)
      (at_ : points[k]? = some x) : s.record g (s.beginIter.advance k) = some x := by
    rw [record_advance content short (List.getElem?_eq_some_iff.mp at_).1, at_]
  have back : (if point.data.time < time then a - 1 else a) < 2 ^ 31 := by split <;> omega
  rw [average_eq shape bounded content here fits, Looked.read_bind (reads fits here),
    Looked.read_bind (reads fits' behind), Looked.read_bind (reads back before)]
  rfl

/-- The average of two points of the window reads nothing else. -/
theorem average_inside (fits : a < 2 ^ 31) (near : a < points.length) (fits' : b < 2 ^ 31)
    (near' : b < points.length) :
    ∀ i ∈ (s.average g nChannel time (s.beginIter.advance b) (s.beginIter.advance a)).positions,
      s.distance g i < points.length := by
  have here (j : ℕ) (less : j < points.length) : ∃ point, points[j]? = some point :=
    ⟨_, List.getElem?_eq_getElem less⟩
  obtain ⟨point, found⟩ := here a near
  obtain ⟨upper, behind⟩ := here b near'
  have back : (if point.data.time < time then a - 1 else a) < points.length := by
    split <;> omega
  have short : (if point.data.time < time then a - 1 else a) < 2 ^ 31 := by split <;> omega
  obtain ⟨lower, before⟩ := here _ back
  rw [average_points shape bounded content fits found fits' behind before]
  intro i member
  simp only [List.mem_cons, List.not_mem_nil, or_false] at member
  obtain rfl | rfl | rfl := member
  · rwa [distance_inside shape bounded content fits near.le]
  · rwa [distance_inside shape bounded content fits' near'.le]
  · rwa [distance_inside shape bounded content short back.le]

omit shape bounded content

/-- The first search does not get behind a last point that is not before the time. -/
theorem lower_border_lt {y : IntensityPoint (Sample nData)}
    (last : points[points.length - 1]? = some y) (stop : time ≤ y.data.time)
    (lower : Border (fun j => points[j]?.map fun point => decide (point.data.time < time))
      (searched points.length) a) : a < points.length := by
  obtain ⟨inside, -⟩ := List.getElem?_eq_some_iff.mp last
  by_contra far
  have passed := lower.below (points.length - 1) (by omega)
  simp only [last, Option.map_some, Option.some.injEq, decide_eq_true_eq] at passed
  exact absurd stop (not_le.mpr passed)

/-- The other search ends at the end if all points are searched, and the last one is not behind
the time. -/
theorem upper_border_lt_iff {y : IntensityPoint (Sample nData)}
    (last : points[points.length - 1]? = some y) (stop : time ≤ y.data.time)
    (upper : Border (fun j => points[j]?.map fun point => !decide (time < point.data.time))
      (searched points.length) b) :
    b < points.length ↔ (points.length < 2 ^ 31 → time ≠ y.data.time) := by
  obtain ⟨inside, -⟩ := List.getElem?_eq_some_iff.mp last
  have short := searched_lt (n := points.length)
  have most := searched_le (n := points.length)
  constructor
  · rintro behind few rfl
    have failed := upper.above (points.length - 1) (by omega) (by rw [searched_eq few]; omega)
    simp [last] at failed
  · intro differs
    by_contra ends
    have passed := upper.below (points.length - 1) (by omega)
    simp only [last, Option.map_some, Option.some.injEq, Bool.not_eq_true',
      decide_eq_false_iff_not, not_lt] at passed
    have within := upper.within
    exact differs (by omega) (le_antisymm stop passed)

theorem time_lt (increasing : points.Pairwise fun p q => p.data.time < q.data.time) {i j : ℕ}
    {x y : IntensityPoint (Sample nData)} (less : i < j) (first : points[i]? = some x)
    (second : points[j]? = some y) : x.data.time < y.data.time := by
  obtain ⟨inside, rfl⟩ := List.getElem?_eq_some_iff.mp first
  obtain ⟨inside', rfl⟩ := List.getElem?_eq_some_iff.mp second
  exact List.pairwise_iff_getElem.mp increasing i j inside inside' less

theorem time_le (increasing : points.Pairwise fun p q => p.data.time < q.data.time) {i j : ℕ}
    {x y : IntensityPoint (Sample nData)} (least : i ≤ j) (first : points[i]? = some x)
    (second : points[j]? = some y) : x.data.time ≤ y.data.time := by
  obtain rfl | less := least.eq_or_lt
  · rw [first] at second
    rw [Option.some.inj second]
  · exact (time_lt increasing less first second).le

/-- Between two points, both searches end at the second one, or at the end of what is searched. -/
theorem border_between (test : IntensityPoint (Sample nData) → Bool)
    (increasing : points.Pairwise fun p q => p.data.time < q.data.time)
    {x y : IntensityPoint (Sample nData)} (first : points[k]? = some x)
    (second : points[k + 1]? = some y) (behind : x.data.time < time) (before : time < y.data.time)
    (passes : ∀ point, point.data.time < time → test point = true)
    (fails : ∀ point, time < point.data.time → test point = false) :
    Border (fun j => points[j]?.map test) (searched points.length)
      (min (k + 1) (searched points.length)) := by
  have least := searched_le (n := points.length)
  have here (j : ℕ) (less : j < searched points.length) : ∃ point, points[j]? = some point :=
    ⟨_, List.getElem?_eq_getElem (less.trans_le least)⟩
  refine ⟨min_le_right _ _, fun j less => ?_, fun j over_ less => ?_⟩
  · obtain ⟨point, found⟩ := here j (less.trans_le (min_le_right _ _))
    have earlier := time_le increasing (by omega) found first
    simp [found, passes point (earlier.trans_lt behind)]
  · obtain ⟨point, found⟩ := here j less
    have later := time_le increasing (by omega) second found
    simp [found, fails point (before.trans_le later)]

theorem exists_border_points (increasing : points.Pairwise fun p q => p.data.time < q.data.time)
    (test : IntensityPoint (Sample nData) → Bool)
    (falls : ∀ p q, p.data.time ≤ q.data.time → test q = true → test p = true) :
    ∃ k, Border (fun j => points[j]?.map test) (searched points.length) k := by
  have here (j : ℕ) (less : j < searched points.length) : ∃ point, points[j]? = some point :=
    ⟨_, List.getElem?_eq_getElem (less.trans_le searched_le)⟩
  apply exists_border
  · intro j less
    obtain ⟨point, found⟩ := here j less
    exact ⟨test point, by rw [found, Option.map_some]⟩
  · intro i j least less passed
    obtain ⟨x, first⟩ := here i (least.trans_lt less)
    obtain ⟨y, second⟩ := here j less
    rw [second, Option.map_some, Option.some.injEq] at passed
    rw [first, Option.map_some, falls x y (time_le increasing least first second) passed]

section Windows

variable (shape : g.Shape p r) (bounded : s.Bounded g) (content : s.Content g points)
  (increasing : points.Pairwise fun p q => p.data.time < q.data.time)

include shape bounded content increasing

/-- Between two points the intensity is the one of the second point, or of two points at the end
of what is searched. -/
theorem mean_between_iff {x y : IntensityPoint (Sample nData)} (first : points[k]? = some x)
    (second : points[k + 1]? = some y) (behind : x.data.time < time) (before : time < y.data.time) :
    (s.getIntensityByTime g nChannel time).result =
        some ((x.data.intensity nChannel + y.data.intensity nChannel) / 2) ↔
      if k < searched points.length then x.data.intensity nChannel = y.data.intensity nChannel
      else ∀ u l, points[searched points.length]? = some u →
        points[searched points.length - 1]? = some l →
          u.data.intensity nChannel + l.data.intensity nChannel =
            x.data.intensity nChannel + y.data.intensity nChannel := by
  have short := searched_lt (n := points.length)
  obtain ⟨inside, -⟩ := List.getElem?_eq_some_iff.mp second
  have lower := border_between (fun point => decide (point.data.time < time)) increasing first
    second behind before (fun point => decide_eq_true) fun point less =>
      decide_eq_false less.le.not_gt
  have upper := border_between (fun point => !decide (time < point.data.time)) increasing first
    second behind before (fun point less => by simp [less.le]) fun point less => by simp [less]
  obtain ⟨probes, -, result⟩ := exists_searches nChannel shape bounded content lower upper
  rw [result]
  by_cases enough : k < searched points.length
  · have here : points[min (k + 1) (searched points.length)]? = some y := by
      rwa [min_eq_left enough]
    have stays : points[if y.data.time < time then min (k + 1) (searched points.length) - 1
        else min (k + 1) (searched points.length)]? = some y := by
      rwa [if_neg before.le.not_gt]
    rw [average_points shape bounded content (by omega) here (by omega) here stays, if_pos enough,
      Option.some.injEq]
    constructor <;> intro same <;> linarith
  · rw [min_eq_right (by omega), if_neg enough]
    obtain ⟨u, upper'⟩ : ∃ u, points[searched points.length]? = some u :=
      ⟨_, List.getElem?_eq_getElem (by omega)⟩
    obtain ⟨l, lower'⟩ : ∃ l, points[searched points.length - 1]? = some l :=
      ⟨_, List.getElem?_eq_getElem (by omega)⟩
    have earlier := (time_le increasing (not_lt.mp enough) upper' first).trans_lt behind
    have goesBack : points[if u.data.time < time then searched points.length - 1
        else searched points.length]? = some l := by rwa [if_pos earlier]
    rw [average_points shape bounded content (by omega) upper' (by omega) upper' goesBack,
      Option.some.injEq]
    constructor
    · intro same u' l' here here'
      obtain rfl := Option.some.inj (upper'.symm.trans here)
      obtain rfl := Option.some.inj (lower'.symm.trans here')
      linarith
    · intro same
      have sum := same u l upper' lower'
      linarith

/-- Up to the last point the reads stay in the window, except for the time of that point. -/
theorem inside_iff {y : IntensityPoint (Sample nData)} (last : points.getLast? = some y)
    (stop : time ≤ y.data.time) :
    (∀ i ∈ (s.getIntensityByTime g nChannel time).positions, s.distance g i < s.size g) ↔
      (points.length < 2 ^ 31 → time ≠ y.data.time) := by
  have short := searched_lt (n := points.length)
  have lastly : points[points.length - 1]? = some y := by rwa [← List.getLast?_eq_getElem?]
  obtain ⟨a, lower⟩ := exists_border_points increasing
    (fun point => decide (point.data.time < time)) fun p q least passed =>
      decide_eq_true (least.trans_lt (of_decide_eq_true passed))
  obtain ⟨b, upper⟩ := exists_border_points increasing
    (fun point => !decide (time < point.data.time)) fun p q least passed => by
      simp only [Bool.not_eq_true', decide_eq_false_iff_not, not_lt] at passed ⊢
      exact least.trans passed
  obtain ⟨probes, inside, result⟩ := exists_searches nChannel shape bounded content lower upper
  have near := lower_border_lt lastly stop lower
  have fits : a < 2 ^ 31 := lower.within.trans_lt short
  have fits' : b < 2 ^ 31 := upper.within.trans_lt short
  rw [← upper_border_lt_iff lastly stop upper, result, content.size]
  rw [content.size] at inside
  constructor
  · intro all
    obtain ⟨point, found⟩ : ∃ point, points[a]? = some point :=
      ⟨_, List.getElem?_eq_getElem near⟩
    have read := all _ (List.mem_append_right _
      (mem_average shape bounded content found fits (s.beginIter.advance b)))
    rwa [distance_inside shape bounded content fits' (upper.within.trans searched_le)] at read
  · intro behind i member
    obtain probe | member := List.mem_append.mp member
    · exact inside i probe
    · exact average_inside shape bounded content fits near fits' behind i member

end Windows

/-- The mean between two points and the reads inside the window, exactly where the intensities
are level. -/
theorem interpolates_iff {cfg : Config} {s : Ring (IntensityPoint (Sample nData)) X}
    (bounded : s.Bounded cfg.metrix) (content : s.Content cfg.metrix points)
    (increasing : points.Pairwise fun p q => p.data.time < q.data.time) :
    s.Interpolates cfg.metrix points nChannel time ↔ Level points nChannel time := by
  obtain ⟨p, r, shape⟩ := exists_shape cfg.nPoolSize cfg.nRootSize
  change cfg.metrix.Shape p r at shape
  constructor
  · intro interpolates
    refine ⟨fun k x y first second behind before => ?_, fun few y last => ?_⟩
    · exact (mean_between_iff shape bounded content increasing first second behind before).mp
        (interpolates.mean k x y first second behind before)
    · rintro rfl
      obtain ⟨x, first⟩ : ∃ x, points.head? = some x := by
        cases points with
        | nil => cases last
        | cons x points => exact ⟨x, rfl⟩
      have start : x.data.time ≤ y.data.time := by
        rw [List.head?_eq_getElem?] at first
        rw [List.getLast?_eq_getElem?] at last
        exact time_le increasing (Nat.zero_le _) first last
      exact (inside_iff shape bounded content increasing last le_rfl).mp
        (interpolates.inside x y first last start le_rfl) few rfl
  · intro level
    refine ⟨fun k x y first second behind before => ?_, fun x y _ last _ stop => ?_⟩
    · exact (mean_between_iff shape bounded content increasing first second behind before).mpr
        (level.mean k x y first second behind before)
    · exact (inside_iff shape bounded content increasing last stop).mpr
        fun few => level.inside few y last

end Points

/-- Between two calls of the producer, and outside of the release of a pool, the window has the
points that were pushed and not released. -/
theorem Inv.content {cfg : Config} {p r : ℕ} {seen : List (Seen (IntensityPoint (Sample nData)))}
    {s : Ring (IntensityPoint (Sample nData)) X} (shape : cfg.metrix.Shape p r)
    (large : cfg.metrix.nPoolSize = 2 ^ p) (few : cfg.memPools < 2 ^ r)
    (held : Inv cfg.metrix cfg.memPools p r seen s) (stage : s.stage ≠ .releasing)
    (calm : completed seen = (pushed seen).length) :
    s.Content cfg.metrix ((pushed seen).drop (released seen * 2 ^ p)) :=
  ⟨held.size_eq shape large few stage calm, fun _ inside => held.nth_eq shape stage inside⟩

private def testPoint (time intensity : ℚ) : IntensityPoint (Sample 1) :=
  ⟨⟨time, fun _ => intensity⟩, none⟩

/-- Three points in a window that wraps around. -/
private def testWindow : Ring (IntensityPoint (Sample 1)) Unit :=
  { Ring.new ⟨2, 255, 1⟩ (testPoint 0 0) () with
    pool i :=
      if i = 0 then ⟨.mem, [testPoint 3 7, testPoint 4 0], 1⟩
      else ⟨.mem, List.replicate 254 (testPoint 0 0) ++ [testPoint 1 5, testPoint 2 5], 0⟩
    beginPos := 510
    endPos := 1 }

private def testPoints : List (IntensityPoint (Sample 1)) :=
  [testPoint 1 5, testPoint 2 5, testPoint 3 7]

private theorem testWindow_content : testWindow.Content (Config.metrix ⟨2, 255, 1⟩) testPoints := by
  refine ⟨by decide, fun k less => ?_⟩
  have few : k < 3 := less
  obtain rfl | rfl | rfl : k = 0 ∨ k = 1 ∨ k = 2 := by omega
  all_goals rfl

private theorem testPoints_increasing :
    testPoints.Pairwise fun p q => p.data.time < q.data.time := by
  decide +kernel

/-- Between two points of one intensity. -/
theorem interpolates_wrapped :
    testWindow.Interpolates (Config.metrix ⟨2, 255, 1⟩) testPoints 0 (3 / 2) := by
  refine (interpolates_iff ⟨by decide, by decide⟩ testWindow_content testPoints_increasing).mpr
    ⟨fun k p q first second behind before => ?_, fun _ last found => ?_⟩
  · have short : k + 1 < 3 := (List.getElem?_eq_some_iff.mp second).1
    obtain rfl | rfl : k = 0 ∨ k = 1 := by omega
    · obtain rfl := Option.some.inj first
      obtain rfl := Option.some.inj second
      rfl
    · obtain rfl := Option.some.inj first
      exact absurd behind (by decide +kernel)
  · obtain rfl := Option.some.inj found
    decide +kernel

/-- Between two points the result is the second one, not the mean; and at the time of the last
point the end is read. -/
theorem end_read : (testWindow.getIntensityByTime (Config.metrix ⟨2, 255, 1⟩) 0 (5 / 2)).result =
      some 7 ∧
    (∃ i ∈ (testWindow.getIntensityByTime (Config.metrix ⟨2, 255, 1⟩) 0 3).positions,
      eq (Config.metrix ⟨2, 255, 1⟩) i testWindow.endIter = true) ∧
    ¬testWindow.Interpolates (Config.metrix ⟨2, 255, 1⟩) testPoints 0 (5 / 2) := by
  have computed : (testWindow.getIntensityByTime (Config.metrix ⟨2, 255, 1⟩) 0 (5 / 2)).result =
      some 7 := by decide +kernel
  refine ⟨computed, by decide +kernel, fun interpolates => ?_⟩
  have mean := interpolates.mean 1 _ _ rfl rfl (by decide +kernel) (by decide +kernel)
  rw [computed] at mean
  revert mean
  decide +kernel

end Ring

end Crs.RingPool
