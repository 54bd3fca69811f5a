import Mathlib.Data.List.Basic
import Mathlib.Order.Lattice

/-!
# Ordered bags

A bag holds elements in the order of their keys. A new element goes behind all elements that
are not greater, so elements with the same key stand in the order of their insertion. Searches
are for a key.
-/

namespace Foundation.OrderedBag

variable {α κ : Type*} [LinearOrder κ] (key : α → κ)

def insert (a : α) : List α → List α
  | [] => [a]
  | b :: l => if key a < key b then a :: b :: l else b :: insert a l

/-- The elements of a list, inserted from the last one on. -/
def ofList : List α → List α
  | [] => []
  | a :: l => insert key a (ofList l)

/-- The elements that are not less, behind those that are. -/
def lowerBound (k : κ) (l : List α) : List α := l.dropWhile fun a => decide (key a < k)

def equalRange (k : κ) (l : List α) : List α :=
  (lowerBound key k l).takeWhile fun a => !decide (k < key a)

def Sorted (l : List α) : Prop := l.Pairwise fun a b => key a ≤ key b

variable {key} {a b : α} {k : κ} {l : List α}

theorem insert_perm : (insert key a l).Perm (a :: l) := by
  induction l with
  | nil => exact .refl _
  | cons b l ih =>
    rw [insert]
    split
    · exact .refl _
    · exact (ih.cons b).trans (.swap a b l)

theorem ofList_perm : (ofList key l).Perm l := by
  induction l with
  | nil => exact .refl _
  | cons a l ih => exact insert_perm.trans (ih.cons a)

theorem mem_ofList : a ∈ ofList key l ↔ a ∈ l := ofList_perm.mem_iff

theorem sorted_insert (sorted : Sorted key l) : Sorted key (insert key a l) := by
  induction l with
  | nil => exact List.pairwise_singleton _ _
  | cons b l ih =>
    obtain ⟨least, rest⟩ := List.pairwise_cons.mp sorted
    rw [OrderedBag.insert]
    split
    · rename_i less
      refine List.pairwise_cons.mpr ⟨fun c member => ?_, sorted⟩
      obtain rfl | later := List.mem_cons.mp member
      · exact less.le
      · exact less.le.trans (least c later)
    · rename_i notLess
      refine List.pairwise_cons.mpr ⟨fun c member => ?_, ih rest⟩
      obtain rfl | later := List.mem_cons.mp (insert_perm.mem_iff.mp member)
      · exact not_lt.mp notLess
      · exact least c later

theorem sorted_ofList : Sorted key (ofList key l) := by
  induction l with
  | nil => exact .nil
  | cons a l ih => exact sorted_insert ih

/-- A new element is the last one with its key. -/
theorem filter_insert (sorted : Sorted key l) :
    (insert key a l).filter (fun b => key b = k) =
      l.filter (fun b => key b = k) ++ if key a = k then [a] else [] := by
  induction l with
  | nil => by_cases same : key a = k <;> simp [OrderedBag.insert, same]
  | cons b l ih =>
    obtain ⟨least, rest⟩ := List.pairwise_cons.mp sorted
    rw [OrderedBag.insert]
    split
    · rename_i less
      by_cases same : key a = k
      · -- everything from `b` on is greater
        have none : (b :: l).filter (fun c => key c = k) = [] := by
          refine List.filter_eq_nil_iff.mpr fun c member => ?_
          have above : key a < key c := by
            obtain rfl | later := List.mem_cons.mp member
            · exact less
            · exact less.trans_le (least c later)
          simpa [same] using (same ▸ above).ne'
        rw [List.filter_cons, none]
        simp [same]
      · simp [List.filter_cons, same]
    · rw [List.filter_cons, List.filter_cons, ih rest]
      split <;> rfl

/-- Elements with the same key stand in the order of their insertion. -/
theorem filter_ofList : (ofList key l).filter (fun b => key b = k) =
    (l.filter fun b => key b = k).reverse := by
  induction l with
  | nil => rfl
  | cons a l ih =>
    rw [ofList, filter_insert sorted_ofList, ih, List.filter_cons]
    by_cases same : key a = k <;> simp [same]

/-- Elements can be taken out before or behind the insertions. -/
theorem filter_insert_comm {p : α → Bool} (sorted : Sorted key l) :
    (insert key a l).filter p = if p a then insert key a (l.filter p) else l.filter p := by
  induction l with
  | nil => by_cases keep : p a <;> simp [OrderedBag.insert, keep]
  | cons b l ih =>
    obtain ⟨least, rest⟩ := List.pairwise_cons.mp sorted
    have later := ih rest
    rw [OrderedBag.insert]
    split
    · rename_i less
      by_cases keep : p a
      · rw [List.filter_cons_of_pos keep, if_pos keep]
        -- the next element that stays is greater
        cases next : (b :: l).filter p with
        | nil => rfl
        | cons c m =>
          have member : c ∈ b :: l := List.mem_of_mem_filter (next ▸ List.mem_cons_self)
          have above : key a < key c := by
            obtain rfl | inside := List.mem_cons.mp member
            · exact less
            · exact less.trans_le (least c inside)
          rw [OrderedBag.insert, if_pos above]
      · rw [List.filter_cons_of_neg keep, if_neg keep]
    · rename_i notLess
      by_cases keep : p b
      · rw [List.filter_cons_of_pos keep, List.filter_cons_of_pos keep, later]
        split
        · rw [OrderedBag.insert, if_neg notLess]
        · rfl
      · rw [List.filter_cons_of_neg keep, List.filter_cons_of_neg keep, later]

theorem ofList_filter {p : α → Bool} : ofList key (l.filter p) = (ofList key l).filter p := by
  induction l with
  | nil => rfl
  | cons a l ih =>
    rw [ofList, filter_insert_comm sorted_ofList, ← ih, List.filter_cons]
    split <;> rfl

theorem Sorted.lowerBound_eq (sorted : Sorted key l) :
    lowerBound key k l = l.filter fun a => decide (k ≤ key a) := by
  induction l with
  | nil => rfl
  | cons a l ih =>
    obtain ⟨least, rest⟩ := List.pairwise_cons.mp sorted
    by_cases less : key a < k
    · rw [lowerBound, List.dropWhile_cons_of_pos (by simpa using less),
        List.filter_cons_of_neg (by simpa using less)]
      exact ih rest
    · have all : ∀ b ∈ a :: l, decide (k ≤ key b) = true := by
        intro b member
        obtain rfl | later := List.mem_cons.mp member
        · exact decide_eq_true (not_lt.mp less)
        · exact decide_eq_true ((not_lt.mp less).trans (least b later))
      rw [lowerBound, List.dropWhile_cons_of_neg (by simpa using less), List.filter_eq_self.mpr all]

theorem Sorted.equalRange_eq (sorted : Sorted key l) :
    equalRange key k l = l.filter fun a => decide (key a = k) := by
  rw [equalRange, sorted.lowerBound_eq]
  induction l with
  | nil => rfl
  | cons a l ih =>
    obtain ⟨least, rest⟩ := List.pairwise_cons.mp sorted
    have later := ih rest
    obtain less | same | greater := lt_trichotomy (key a) k
    · rw [List.filter_cons_of_neg (by simpa using less),
        List.filter_cons_of_neg (by simpa using less.ne), later]
    · rw [List.filter_cons_of_pos (by simpa using same.ge),
        List.filter_cons_of_pos (by simpa using same),
        List.takeWhile_cons_of_pos (by simpa using same.le), later]
    · have none : (a :: l).filter (fun b => decide (key b = k)) = [] := by
        refine List.filter_eq_nil_iff.mpr fun b member => ?_
        have above : k < key b := by
          obtain rfl | inside := List.mem_cons.mp member
          · exact greater
          · exact greater.trans_le (least b inside)
        simpa using above.ne'
      rw [none, List.filter_cons_of_pos (by simpa using greater.le),
        List.takeWhile_cons_of_neg (by simpa using greater)]

/-- Where nothing has the key, the lower bound is the first insertion with the least key above. -/
theorem exists_least_above (above : (lowerBound key k (ofList key l)).head? = some a) :
    a ∈ l ∧ k ≤ key a ∧ (∀ b ∈ l, k ≤ key b → key a ≤ key b) ∧
      (l.filter fun b => key b = key a).getLast? = some a := by
  rw [sorted_ofList.lowerBound_eq] at above
  obtain ⟨rest, split⟩ := List.head?_eq_some_iff.mp above
  have member : a ∈ (ofList key l).filter fun b => decide (k ≤ key b) :=
    split ▸ List.mem_cons_self
  obtain ⟨inside, notLess⟩ := List.mem_filter.mp member
  have whole : Sorted key (ofList key l) := sorted_ofList
  have sorted := whole.filter fun b => decide (k ≤ key b)
  rw [split] at sorted
  refine ⟨mem_ofList.mp inside, of_decide_eq_true notLess, fun b member notLess => ?_, ?_⟩
  · have here : b ∈ a :: rest := by
      rw [← split]
      exact List.mem_filter.mpr ⟨mem_ofList.mpr member, decide_eq_true notLess⟩
    obtain rfl | later := List.mem_cons.mp here
    · exact le_rfl
    · exact (List.pairwise_cons.mp sorted).1 b later
  · have same : (ofList key l).filter (fun b => key b = key a) =
        a :: rest.filter fun b => key b = key a := by
      have both : (ofList key l).filter (fun b => key b = key a) =
          ((ofList key l).filter fun b => decide (k ≤ key b)).filter fun b => key b = key a := by
        rw [List.filter_filter]
        refine List.filter_congr fun b _ => ?_
        by_cases same : key b = key a <;> simp [same, of_decide_eq_true notLess]
      rw [both, split, List.filter_cons_of_pos (by simp)]
    rw [filter_ofList] at same
    rw [← List.head?_reverse, same, List.head?_cons]

end Foundation.OrderedBag
