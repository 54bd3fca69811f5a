import Crs.RingPool.Basic

/-!
# Where the points are

A ring counts its pools without end, and pool `j` is at place `j` modulo the size of the
root. From the next pool to swap on, `m` pools are in memory and the rest are files. A
point that was pushed is readable as long as the pool that it was pushed into has not
been released.
-/

namespace Crs.RingPool

open Foundation Handshake

theorem mod_ne_of_lt {i j n : ℕ} (less : i < j) (near : j < i + n) : j % n ≠ i % n := by
  intro same
  have zero := Nat.sub_mod_eq_zero_of_mod_eq same
  rw [Nat.mod_eq_of_lt (by omega)] at zero
  omega

namespace Ring

variable {α X : Type*} {g : BitMaskCalculator} {m p r : ℕ} {s : Ring α X} {points : List α}
  {swapped released i j k id : ℕ}

/-- The pool with number `j`, counted without end. -/
def numbered (r : ℕ) (s : Ring α X) (j : ℕ) : Option ℕ := s.root[j % 2 ^ r]?

/-- The pools of a ring after `swapped` swaps, when `released` pools have left the window. -/
structure Layout (g : BitMaskCalculator) (m p r : ℕ) (points : List α) (swapped released : ℕ)
    (s : Ring α X) : Prop where
  length : s.root.length = 2 ^ r
  nodup : s.root.Nodup
  memory : ∀ j, swapped ≤ j → j < swapped + m → ∃ id, s.numbered r j = some id ∧
    (s.pool id).kind = .mem ∧ (s.pool id).records.length = 2 ^ p ∧
    (s.pool id).nCount = min (2 ^ p) (points.length - j * 2 ^ p)
  files : ∀ j, swapped + m ≤ j → j < swapped + 2 ^ r → ∃ id, s.numbered r j = some id ∧
    (s.pool id).kind = .file
  readable : ∀ k, released * 2 ^ p ≤ k → k < points.length → s.idx g k = points[k]?

theorem idx_eq (shape : g.Shape p r) (s : Ring α X) (k : ℕ) : s.idx g k =
    (s.numbered r (k / 2 ^ p)).bind fun id => (s.pool id).records[k % 2 ^ p]? := by
  rw [idx, shape.rootIdx_eq, shape.poolIdx_eq]
  rfl

/-- A position and its remainder read the same. -/
theorem idx_mod (shape : g.Shape p r) (s : Ring α X) (k : ℕ) :
    s.idx g (k % 2 ^ (p + r)) = s.idx g k := by
  rw [idx_eq shape, idx_eq shape, numbered, numbered, pow_add, Nat.mod_mul_right_div_self,
    Nat.mod_mod, Nat.mod_mul_right_mod]

/-- Two pools less than a round apart are different objects. -/
theorem numbered_ne (nodup : s.root.Nodup) (less : i < j) (near : j < i + 2 ^ r)
    (found : s.numbered r i = some id) : s.numbered r j ≠ some id := by
  intro same
  have inside : i % 2 ^ r < s.root.length := (List.getElem?_eq_some_iff.mp found).1
  exact mod_ne_of_lt less near ((List.getElem?_inj inside nodup).mp (found.trans same.symm)).symm

/-- What was released stays released. -/
theorem Layout.mono {released' : ℕ} (layout : Layout g m p r points swapped released s)
    (more : released ≤ released') : Layout g m p r points swapped released' s := by
  refine ⟨layout.length, layout.nodup, layout.memory, layout.files, fun k least below => ?_⟩
  exact layout.readable k ((Nat.mul_le_mul_right _ more).trans least) below

/-- What changes in one pool does not change the points in others. -/
theorem idx_update_of_ne (shape : g.Shape p r) {pool : Pool α}
    (other : s.numbered r (k / 2 ^ p) ≠ some id) :
    ({ s with pool := Function.update s.pool id pool } : Ring α X).idx g k = s.idx g k := by
  rw [idx_eq shape, idx_eq shape]
  change (s.numbered r (k / 2 ^ p)).bind _ = _
  cases found : s.numbered r (k / 2 ^ p) with
  | none => rfl
  | some place =>
      have apart : place ≠ id := fun same => other (same ▸ found)
      simp only [Option.bind_some, Function.update_of_ne apart]

/-- The place of the next point. -/
theorem Layout.writable (layout : Layout g m p r points swapped released s)
    (lower : swapped ≤ points.length / 2 ^ p) (upper : points.length / 2 ^ p < swapped + m) :
    ∃ id, s.numbered r (points.length / 2 ^ p) = some id ∧ (s.pool id).kind = .mem ∧
      (s.pool id).records.length = 2 ^ p ∧ (s.pool id).nCount = points.length % 2 ^ p := by
  obtain ⟨id, found, kind, size, count⟩ := layout.memory _ lower upper
  refine ⟨id, found, kind, size, count.trans ?_⟩
  have split := Nat.div_add_mod' points.length (2 ^ p)
  have below := Nat.mod_lt points.length (Nat.two_pow_pos p)
  omega

/-- The producer stores a point. -/
theorem Layout.store (layout : Layout g m p r points swapped released s) (shape : g.Shape p r)
    (few : m < 2 ^ r) (lower : swapped ≤ points.length / 2 ^ p)
    (upper : points.length / 2 ^ p < swapped + m) (window : swapped + m ≤ released + 2 ^ r)
    (here : s.numbered r (points.length / 2 ^ p) = some id) (point : α) :
    Layout g m p r (points ++ [point]) swapped released
      { s with pool := Function.update s.pool id { s.pool id with
        records := (s.pool id).records.set (points.length % 2 ^ p) point
        nCount := points.length % 2 ^ p + 1 } } := by
  have split := Nat.div_add_mod' points.length (2 ^ p)
  have below := Nat.mod_lt points.length (Nat.two_pow_pos p)
  obtain ⟨id', found, kind, size, count⟩ := layout.writable lower upper
  obtain rfl : id' = id := Option.some.inj (found.symm.trans here)
  have apart : ∀ j, j ≠ points.length / 2 ^ p → points.length / 2 ^ p < j + 2 ^ r →
      j < points.length / 2 ^ p + 2 ^ r → ∀ other, s.numbered r j = some other → other ≠ id' := by
    rintro j different near near' other at_j rfl
    obtain less | more := lt_or_gt_of_ne different
    · exact numbered_ne layout.nodup less near at_j here
    · exact numbered_ne layout.nodup more near' here at_j
  refine ⟨layout.length, layout.nodup, fun j least most => ?_, fun j least most => ?_,
    fun k least most => ?_⟩
  · rw [List.length_append, List.length_singleton]
    obtain rfl | different := eq_or_ne j (points.length / 2 ^ p)
    · refine ⟨id', found, ?_⟩
      simp only [Function.update_self, List.length_set]
      exact ⟨kind, size, by omega⟩
    · obtain ⟨other, at_j, kind', size', count'⟩ := layout.memory j least most
      refine ⟨other, at_j, ?_⟩
      have distinct := apart j different (by omega) (by omega) other at_j
      simp only [Function.update_of_ne distinct]
      refine ⟨kind', size', count'.trans ?_⟩
      obtain less | more := lt_or_gt_of_ne different
      · have := Nat.mul_le_mul_right (2 ^ p) (Nat.succ_le_of_lt less)
        rw [Nat.succ_mul] at this
        omega
      · have := Nat.mul_le_mul_right (2 ^ p) (Nat.succ_le_of_lt more)
        rw [Nat.succ_mul] at this
        omega
  · obtain ⟨other, at_j, kind'⟩ := layout.files j least most
    refine ⟨other, at_j, ?_⟩
    have distinct := apart j (by omega) (by omega) (by omega) other at_j
    simpa only [Function.update_of_ne distinct] using kind'
  · rw [List.length_append, List.length_singleton] at most
    obtain rfl | before := eq_or_lt_of_le (Nat.le_of_lt_succ most)
    · rw [idx_eq shape]
      change (s.numbered r _).bind _ = _
      rw [found, List.getElem?_concat_length]
      simp [size, below]
    · rw [List.getElem?_append_left before, ← layout.readable k least before]
      obtain same | different := eq_or_ne (k / 2 ^ p) (points.length / 2 ^ p)
      · have inside : k % 2 ^ p ≠ points.length % 2 ^ p := by
          have := Nat.div_add_mod' k (2 ^ p)
          rw [same] at this
          omega
        rw [idx_eq shape, idx_eq shape]
        change (s.numbered r _).bind _ = _
        rw [same, found]
        simp [List.getElem?_set_ne inside.symm]
      · refine idx_update_of_ne shape fun at_k => ?_
        have lowest : released ≤ k / 2 ^ p := (Nat.le_div_iff_mul_le (Nat.two_pow_pos p)).mpr least
        have highest : k / 2 ^ p ≤ points.length / 2 ^ p := Nat.div_le_div_right before.le
        exact apart _ different (by omega) (by omega) id' at_k rfl

/-- The swapper overwrites a file that has been released. -/
theorem Layout.assign (layout : Layout g m p r points swapped released s) (shape : g.Shape p r)
    (few : m < 2 ^ r) (past : swapped + m < released + 2 ^ r)
    (most : points.length ≤ (swapped + m) * 2 ^ p)
    (here : s.numbered r (swapped + m) = some id) {pool : Pool α} (kind : pool.kind = .file) :
    Layout g m p r points swapped released { s with pool := Function.update s.pool id pool } := by
  refine ⟨layout.length, layout.nodup, fun j least below => ?_, fun j least below => ?_,
    fun k least below => ?_⟩
  · obtain ⟨other, at_j, rest⟩ := layout.memory j least below
    refine ⟨other, at_j, ?_⟩
    have distinct : other ≠ id := by
      rintro rfl
      exact numbered_ne layout.nodup below (by omega) at_j here
    simpa only [Function.update_of_ne distinct] using rest
  · obtain ⟨other, at_j, kind'⟩ := layout.files j least below
    refine ⟨other, at_j, ?_⟩
    obtain rfl | distinct := eq_or_ne other id
    · simpa using kind
    · simpa only [Function.update_of_ne distinct] using kind'
  · rw [← layout.readable k least below]
    refine idx_update_of_ne shape fun at_k => ?_
    have lowest : released ≤ k / 2 ^ p := (Nat.le_div_iff_mul_le (Nat.two_pow_pos p)).mpr least
    have highest : k / 2 ^ p < swapped + m :=
      (Nat.div_lt_iff_lt_mul (Nat.two_pow_pos p)).mpr (by omega)
    exact numbered_ne layout.nodup highest (by omega) at_k here

/-- The root after two of its pointers were exchanged. -/
theorem exchanged_perm {root : List ℕ} {a b mp fp : ℕ} (first : root[a]? = some mp)
    (second : root[b]? = some fp) : ((root.set a fp).set b mp).Perm root := by
  obtain ⟨inside, rfl⟩ := List.getElem?_eq_some_iff.mp first
  obtain ⟨inside', rfl⟩ := List.getElem?_eq_some_iff.mp second
  exact List.set_set_perm inside inside'

theorem numbered_exchanged {s' : Ring α X} {a b mp fp : ℕ}
    (first : s.numbered r a = some mp) (second : s.numbered r b = some fp)
    (root : s'.root = (s.root.set (a % 2 ^ r) fp).set (b % 2 ^ r) mp) (j : ℕ) :
    s'.numbered r j = if j % 2 ^ r = b % 2 ^ r then some mp
      else if j % 2 ^ r = a % 2 ^ r then some fp else s.numbered r j := by
  have inside := (List.getElem?_eq_some_iff.mp first).1
  have inside' := (List.getElem?_eq_some_iff.mp second).1
  rw [numbered, root, List.getElem?_set, List.getElem?_set, List.length_set, numbered]
  grind

/-- The pointers to a full pool and its copy are exchanged, and the pool is cleared. -/
theorem Layout.exchange (layout : Layout g m p r points swapped released s) (shape : g.Shape p r)
    (some_memory : 0 < m) (few : m < 2 ^ r) (past : swapped + m < released + 2 ^ r)
    (most : points.length ≤ (swapped + m) * 2 ^ p) {mp fp : ℕ}
    (first : s.numbered r swapped = some mp) (second : s.numbered r (swapped + m) = some fp)
    (copied : (s.pool fp).records = (s.pool mp).records) {s' : Ring α X}
    (root : s'.root = (s.root.set (swapped % 2 ^ r) fp).set ((swapped + m) % 2 ^ r) mp)
    (pool : s'.pool = Function.update s.pool mp (s.pool mp).clear) :
    Layout g m p r points (swapped + 1) released s' := by
  have numbers := numbered_exchanged first second root
  have distinct : fp ≠ mp := by
    rintro rfl
    exact numbered_ne layout.nodup (by omega) (by omega) first second
  have perm : s'.root.Perm s.root := root ▸ exchanged_perm first second
  have unchanged : ∀ j, j % 2 ^ r ≠ swapped % 2 ^ r → j % 2 ^ r ≠ (swapped + m) % 2 ^ r →
      s'.numbered r j = s.numbered r j := fun j apart apart' => by
    rw [numbers, if_neg apart', if_neg apart]
  have notCleared : ∀ id, id ≠ mp → s'.pool id = s.pool id := fun id other => by
    rw [pool, Function.update_of_ne other]
  refine ⟨perm.length_eq.trans layout.length, perm.nodup_iff.mpr layout.nodup,
    fun j least below => ?_, fun j least below => ?_, fun k least below => ?_⟩
  · obtain rfl | before := eq_or_lt_of_le (Nat.le_of_lt_succ (by omega : j < swapped + m + 1))
    · obtain ⟨id, found, kind, size, -⟩ := layout.memory swapped le_rfl (by omega)
      obtain rfl : id = mp := Option.some.inj (found.symm.trans first)
      refine ⟨id, by rw [numbers, if_pos rfl], ?_⟩
      rw [pool, Function.update_self]
      exact ⟨kind, size, by simp only [Pool.clear]; omega⟩
    · obtain ⟨id, found, rest⟩ := layout.memory j (by omega) before
      have other : id ≠ mp := by
        rintro rfl
        exact numbered_ne layout.nodup least (by omega) first found
      refine ⟨id, ?_, by rwa [notCleared id other]⟩
      rw [unchanged j (mod_ne_of_lt least (by omega)) (mod_ne_of_lt before (by omega)).symm, found]
  · obtain rfl | before := eq_or_lt_of_le (Nat.le_of_lt_succ (by omega : j < swapped + 2 ^ r + 1))
    · obtain ⟨id, found, kind⟩ := layout.files (swapped + m) le_rfl (by omega)
      obtain rfl : id = fp := Option.some.inj (found.symm.trans second)
      refine ⟨id, ?_, by rwa [notCleared id distinct]⟩
      rw [numbers, Nat.add_mod_right, if_pos rfl, if_neg]
      exact (mod_ne_of_lt (by omega) (by omega)).symm
    · obtain ⟨id, found, kind⟩ := layout.files j (by omega) before
      have other : id ≠ mp := by
        rintro rfl
        exact numbered_ne layout.nodup (by omega) before first found
      refine ⟨id, ?_, by rwa [notCleared id other]⟩
      rw [unchanged j (mod_ne_of_lt (by omega) before) (mod_ne_of_lt (by omega) (by omega)), found]
  · have lowest : released ≤ k / 2 ^ p := (Nat.le_div_iff_mul_le (Nat.two_pow_pos p)).mpr least
    have highest : k / 2 ^ p < swapped + m :=
      (Nat.div_lt_iff_lt_mul (Nat.two_pow_pos p)).mpr (by omega)
    rw [← layout.readable k least below, idx_eq shape, idx_eq shape]
    have notFile := (mod_ne_of_lt highest (by omega : swapped + m < k / 2 ^ p + 2 ^ r)).symm
    obtain same | different := eq_or_ne (k / 2 ^ p) swapped
    · rw [same, first, numbers, if_neg (same ▸ notFile), if_pos rfl]
      simp only [Option.bind_some, notCleared fp distinct, copied]
    · have apart : k / 2 ^ p % 2 ^ r ≠ swapped % 2 ^ r := by
        obtain less | more := lt_or_gt_of_ne different
        · exact (mod_ne_of_lt less (by omega)).symm
        · exact mod_ne_of_lt more (by omega)
      rw [unchanged _ apart notFile]
      cases found : s.numbered r (k / 2 ^ p) with
      | none => rfl
      | some id =>
          have other : id ≠ mp := by
            rintro rfl
            have inside := (List.getElem?_eq_some_iff.mp found).1
            exact apart ((List.getElem?_inj inside layout.nodup).mp (found.trans first.symm))
          simp only [Option.bind_some, notCleared id other]

end Ring

end Crs.RingPool
