import Mathlib.Data.Multiset.Filter

/-!
# Removal by the last element

A pass over a list asks a test, in order, which elements to remove. A removed
element is replaced by the last one of the list, and the pass goes on behind it:
the element that came from the end is kept without having been asked. The test has
a state of its own, so that its answers may depend on the earlier ones.

`scan` is such a pass. It neither loses nor doubles an element, but it asks all of
them only if it removes none but the last: `asks_all_iff`.

`pack` fills the empty places of a list from the back and looks at each place again
after it was filled. All elements are kept, but only those in front of the first empty
place keep their positions.
-/

namespace Foundation.Compaction

variable {E σ : Type*} {f : E → σ → Bool × σ} {s : σ} {x y : E} {l : List E}

/-- What a pass leaves in place, the questions with their answers, and what it removed. -/
structure Outcome (E σ : Type*) where
  kept : List E
  calls : List (E × Bool)
  handed : List E
  state : σ

namespace Outcome

variable (o : Outcome E σ)

def asked : List E := o.calls.map Prod.fst

def accepted : List E := (o.calls.filter fun c => !c.2).map Prod.fst

def refused : List E := (o.calls.filter fun c => c.2).map Prod.fst

end Outcome

/-- A removed element is replaced by the last one, which the pass skips. -/
def scan (f : E → σ → Bool × σ) : List E → σ → Outcome E σ
  | [], s => ⟨[], [], [], s⟩
  | x :: rest, s =>
      let (answer, s) := f x s
      if answer then
        match rest.getLast? with
        | none => ⟨[], [(x, true)], [x], s⟩
        | some y =>
            let o := scan f rest.dropLast s
            ⟨y :: o.kept, (x, true) :: o.calls, x :: o.handed, o.state⟩
      else
        let o := scan f rest s
        ⟨x :: o.kept, (x, false) :: o.calls, o.handed, o.state⟩
termination_by l => l.length
decreasing_by
  · simp only [List.length_dropLast, List.length_cons]
    omega
  · simp

/-- The test answers `false` to every element, in order. -/
def Quiet (f : E → σ → Bool × σ) : List E → σ → Prop
  | [], _ => True
  | x :: rest, s => (f x s).1 = false ∧ Quiet f rest (f x s).2

/-- The state after the test has seen every element, in order. -/
def after (f : E → σ → Bool × σ) (l : List E) (s : σ) : σ :=
  l.foldl (fun s x => (f x s).2) s

section Equations

@[simp] theorem scan_nil : scan f [] s = ⟨[], [], [], s⟩ := by rw [scan]

theorem scan_cons_of_false {rest : List E} (no : (f x s).1 = false) :
    scan f (x :: rest) s =
      let o := scan f rest (f x s).2
      ⟨x :: o.kept, (x, false) :: o.calls, o.handed, o.state⟩ := by
  rw [scan]
  simp [no]

theorem scan_singleton_of_true (yes : (f x s).1 = true) :
    scan f [x] s = ⟨[], [(x, true)], [x], (f x s).2⟩ := by
  rw [scan]
  simp [yes]

theorem scan_snoc_of_true {middle : List E} (yes : (f x s).1 = true) :
    scan f (x :: (middle ++ [y])) s =
      let o := scan f middle (f x s).2
      ⟨y :: o.kept, (x, true) :: o.calls, x :: o.handed, o.state⟩ := by
  rw [scan]
  simp only [yes, if_true]
  split
  · simp_all
  · rename_i last
    simp only [List.getLast?_concat, Option.some.injEq] at last
    subst last
    simp

end Equations

/-- The cases of a pass: an element stays, the last one goes, or an earlier one goes
and the last one takes its place. -/
theorem scan_induction {motive : List E → σ → Prop}
    (nil : ∀ s, motive [] s)
    (stays : ∀ x rest s, (f x s).1 = false → motive rest (f x s).2 → motive (x :: rest) s)
    (last : ∀ x s, (f x s).1 = true → motive [x] s)
    (moved : ∀ x middle y s, (f x s).1 = true → motive middle (f x s).2 →
      motive (x :: (middle ++ [y])) s)
    (l : List E) (s : σ) : motive l s := by
  induction size : l.length using Nat.strong_induction_on generalizing l s with
  | _ n ih =>
      cases l with
      | nil => exact nil s
      | cons x rest =>
          cases answer : (f x s).1 with
          | false => exact stays x rest s answer (ih rest.length (by simp [← size]) rest _ rfl)
          | true =>
              obtain rfl | ⟨middle, y, rfl⟩ := List.eq_nil_or_concat rest
              · exact last x s answer
              · rw [List.concat_eq_append]
                refine moved x middle y s answer (ih middle.length ?_ middle _ rfl)
                simp only [← size, List.concat_eq_append, List.length_cons, List.length_append]
                omega

/-- What is removed is what the test answered `true` to. -/
theorem handed_eq (l : List E) (s : σ) : (scan f l s).handed = (scan f l s).refused := by
  induction l, s using scan_induction (f := f) with
  | nil s => simp [Outcome.refused]
  | stays x rest s no ih =>
      rw [scan_cons_of_false no]
      simpa [Outcome.refused] using ih
  | last x s yes =>
      rw [scan_singleton_of_true yes]
      simp [Outcome.refused]
  | moved x middle y s yes ih =>
      rw [scan_snoc_of_true yes]
      simpa [Outcome.refused] using ih

/-- No element is lost, and none is doubled. -/
theorem kept_handed_perm (l : List E) (s : σ) :
    ((scan f l s).kept ++ (scan f l s).handed).Perm l := by
  induction l, s using scan_induction (f := f) with
  | nil s => simp
  | stays x rest s no ih =>
      rw [scan_cons_of_false no]
      exact ih.cons x
  | last x s yes =>
      rw [scan_singleton_of_true yes]
      simp
  | moved x middle y s yes ih =>
      rw [scan_snoc_of_true yes]
      simp only [List.cons_append]
      refine (List.perm_middle.cons y).trans ((List.Perm.swap x y _).trans (.cons x ?_))
      exact (ih.cons y).trans (List.perm_append_singleton y middle).symm

/-- The answers split the elements that were asked. -/
theorem accepted_refused_perm (o : Outcome E σ) : (o.accepted ++ o.refused).Perm o.asked := by
  have split := (List.filter_append_perm (fun c : E × Bool => c.2) o.calls).map Prod.fst
  rw [List.map_append] at split
  exact List.perm_append_comm.trans split

theorem length_asked_le (l : List E) (s : σ) : (scan f l s).asked.length ≤ l.length := by
  induction l, s using scan_induction (f := f) with
  | nil s => simp [Outcome.asked]
  | stays x rest s no ih =>
      rw [scan_cons_of_false no]
      simpa [Outcome.asked] using ih
  | last x s yes =>
      rw [scan_singleton_of_true yes]
      simp [Outcome.asked]
  | moved x middle y s yes ih =>
      rw [scan_snoc_of_true yes]
      simp only [Outcome.asked, List.length_map, List.length_cons, List.length_append] at ih ⊢
      omega

/-- A pass that removes nothing keeps the list. -/
theorem kept_eq_of_quiet (quiet : Quiet f l s) : (scan f l s).kept = l := by
  induction l generalizing s with
  | nil => simp
  | cons x rest ih =>
      obtain ⟨no, others⟩ := quiet
      rw [scan_cons_of_false no]
      exact congrArg (x :: ·) (ih others)

/-- A pass that removes at most the last element asks every one, in order. -/
theorem asked_eq_of_quiet (quiet : Quiet f l.dropLast s) :
    (scan f l s).asked = l ∧ (scan f l s).state = after f l s := by
  induction l generalizing s with
  | nil => simp [Outcome.asked, after]
  | cons x rest ih =>
      cases answer : (f x s).1 with
      | false =>
          have quietRest : Quiet f rest.dropLast (f x s).2 := by
            cases rest with
            | nil => trivial
            | cons z rest => exact quiet.2
          obtain ⟨asked, state⟩ := ih quietRest
          rw [scan_cons_of_false answer]
          exact ⟨congrArg (x :: ·) asked, state⟩
      | true =>
          cases rest with
          | nil =>
              rw [scan_singleton_of_true answer]
              exact ⟨rfl, rfl⟩
          | cons z rest =>
              have no := quiet.1
              rw [answer] at no
              cases no

/-- An element before the last one that is removed lets another one go unasked. -/
theorem length_asked_lt (loud : ¬ Quiet f l.dropLast s) :
    (scan f l s).asked.length < l.length := by
  induction l generalizing s with
  | nil => exact absurd trivial loud
  | cons x rest ih =>
      obtain rfl | ⟨middle, y, rfl⟩ := List.eq_nil_or_concat rest
      · exact absurd trivial loud
      · rw [List.concat_eq_append] at loud ih ⊢
        rw [← List.cons_append, List.dropLast_concat] at loud
        rw [List.dropLast_concat] at ih
        cases answer : (f x s).1 with
        | false =>
            rw [scan_cons_of_false answer]
            have := ih fun quiet => loud ⟨answer, quiet⟩
            simp only [Outcome.asked, List.length_map, List.length_cons] at this ⊢
            omega
        | true =>
            have bound := length_asked_le (f := f) middle (f x s).2
            rw [scan_snoc_of_true answer]
            simp only [Outcome.asked, List.length_map, List.length_cons, List.length_append,
              List.length_nil] at bound ⊢
            omega

/-- As many questions as elements are asked exactly if none but the last is removed. -/
theorem length_asked_eq_iff : (scan f l s).asked.length = l.length ↔ Quiet f l.dropLast s := by
  constructor
  · intro all
    by_contra loud
    exact absurd all (length_asked_lt loud).ne
  · intro quiet
    rw [(asked_eq_of_quiet quiet).1]

/-- Every element is asked exactly if none but the last is removed. -/
theorem asks_all_iff : (scan f l s).asked.Perm l ↔ Quiet f l.dropLast s := by
  constructor
  · intro all
    exact length_asked_eq_iff.mp all.length_eq
  · intro quiet
    rw [(asked_eq_of_quiet quiet).1]

/-- Where every element is asked, exactly the accepted ones are kept. -/
theorem kept_perm_of_asked (all : (scan f l s).asked.Perm l) :
    (scan f l s).kept.Perm (scan f l s).accepted := by
  have conserved := kept_handed_perm (f := f) l s
  have split := (accepted_refused_perm (scan f l s)).trans all
  rw [handed_eq] at conserved
  exact (List.perm_append_right_iff _).mp (conserved.trans split.symm)

section Membership

variable [DecidableEq E] {e : E}

/-- The test for one element. -/
def isElement (e x : E) (u : Unit) : Bool × Unit := (x = e, u)

theorem handed_isElement (l : List E) (u : Unit) :
    ∀ x ∈ (scan (isElement e) l u).handed, x = e := by
  induction l, u using scan_induction (f := isElement e) with
  | nil u => simp
  | stays x rest u no ih =>
      rw [scan_cons_of_false no]
      exact ih
  | last x u yes =>
      rw [scan_singleton_of_true yes]
      simpa [isElement] using yes
  | moved x middle y u yes ih =>
      rw [scan_snoc_of_true yes]
      have same : x = e := by simpa [isElement] using yes
      exact List.forall_mem_cons.mpr ⟨same, ih⟩

theorem length_handed_le (l : List E) (u : Unit) :
    (scan (isElement e) l u).handed.length ≤ l.count e := by
  have all := handed_isElement (e := e) l u
  have conserved := (kept_handed_perm (f := isElement e) l u).count_eq e
  rw [List.count_append, List.count_eq_length.mpr fun x member => (all x member).symm] at conserved
  omega

/-- Every occurrence goes exactly if none but the last lies among as many last
elements as there are other occurrences. -/
theorem handed_all_iff (l : List E) (u : Unit) :
    (scan (isElement e) l u).handed.length = l.count e ↔
      e ∉ l.drop (l.length - (l.count e - 1)) := by
  induction l, u using scan_induction (f := isElement e) with
  | nil u => simp
  | stays x rest u no ih =>
      have other : x ≠ e := by simpa [isElement] using no
      rw [scan_cons_of_false no, List.count_cons_of_ne other]
      have bound := List.count_le_length (a := e) (l := rest)
      obtain none | some := Nat.eq_zero_or_pos (rest.count e)
      · rw [none] at ih ⊢
        simpa using ih
      · have position : (x :: rest).length - (rest.count e - 1) =
            rest.length - (rest.count e - 1) + 1 := by
          simp only [List.length_cons]
          omega
        rw [position, List.drop_succ_cons]
        exact ih
  | last x u yes =>
      have same : x = e := by simpa [isElement] using yes
      rw [scan_singleton_of_true yes]
      simp [same]
  | moved x middle y u yes ih =>
      have same : x = e := by simpa [isElement] using yes
      subst same
      rw [scan_snoc_of_true yes]
      have fewer := length_handed_le (e := x) middle (isElement x x u).2
      have bound := List.count_le_length (a := x) (l := middle)
      obtain again | other := eq_or_ne y x
      · subst again
        simp only [List.length_cons, List.count_cons_self, List.count_append, List.count_nil,
          List.length_append, List.length_nil]
        constructor
        · intro equal
          omega
        · intro absent
          refine absurd ?_ absent
          rw [List.drop_cons (by omega), List.drop_append_of_le_length (by omega)]
          simp
      · simp only [List.length_cons, List.count_cons_self, List.count_append,
          List.count_singleton, List.length_append, List.length_nil]
        have unequal : (y == x) = false := by simpa using other
        rw [if_neg (by simp [unequal]), Nat.add_zero, Nat.add_left_inj]
        refine Iff.trans ih ?_
        obtain none | some := Nat.eq_zero_or_pos (middle.count x)
        · simp [none]
        · rw [List.drop_cons (by omega), List.drop_append_of_le_length (by omega)]
          have position : middle.length + (0 + 1) + 1 - (middle.count x + 1 - 1) - 1 =
              middle.length - (middle.count x - 1) := by omega
          rw [position]
          simp [other.symm]

/-- Exactly the other elements are kept, under the same condition. -/
theorem kept_perm_iff (l : List E) (u : Unit) :
    (scan (isElement e) l u).kept.Perm (l.filter fun x => x ≠ e) ↔
      e ∉ l.drop (l.length - (l.count e - 1)) := by
  rw [← handed_all_iff l u]
  have conserved := kept_handed_perm (f := isElement e) l u
  have removed : (scan (isElement e) l u).handed =
      List.replicate (scan (isElement e) l u).handed.length e :=
    List.eq_replicate_iff.mpr ⟨rfl, handed_isElement l u⟩
  have parts : (l.filter (fun x => x ≠ e) ++ List.replicate (l.count e) e).Perm l := by
    have split := List.filter_append_perm (fun x => x = e) l
    rw [List.filter_eq] at split
    exact List.perm_append_comm.trans (by simpa using split)
  constructor
  · intro kept
    have whole := conserved.length_eq.trans parts.length_eq.symm
    simp only [List.length_append, List.length_replicate, kept.length_eq] at whole
    omega
  · intro all
    rw [removed, all] at conserved
    exact (List.perm_append_right_iff _).mp (conserved.trans parts.symm)

end Membership

section Pack

/-- Fill each empty place with what stands at the back of the list. -/
def pack : List (Option E) → List E
  | [] => []
  | some x :: rest => x :: pack rest
  | none :: rest =>
      match _ : rest.getLast? with
      | none => []
      | some back => pack (back :: rest.dropLast)
termination_by l => l.length
decreasing_by
  · simp
  · rename_i last
    obtain ⟨front, rfl⟩ := List.getLast?_eq_some_iff.mp last
    simp

@[simp] theorem pack_nil : pack ([] : List (Option E)) = [] := by rw [pack]

@[simp] theorem pack_some_cons (x : E) (rest : List (Option E)) :
    pack (some x :: rest) = x :: pack rest := by rw [pack]

@[simp] theorem pack_singleton_none : pack [(none : Option E)] = [] := by
  rw [pack]
  rfl

theorem pack_none_snoc (middle : List (Option E)) (back : Option E) :
    pack (none :: (middle ++ [back])) = pack (back :: middle) := by
  rw [pack]
  split
  · rename_i last
    simp at last
  · rename_i last
    obtain rfl : back = _ := by simpa using last
    rw [List.dropLast_concat]

/-- The cases of a pass: a filled place, an empty one at the back, or one that is filled. -/
theorem pack_induction {motive : List (Option E) → Prop} (nil : motive [])
    (filled : ∀ x rest, motive rest → motive (some x :: rest)) (last : motive [none])
    (moved : ∀ middle back, motive (back :: middle) → motive (none :: (middle ++ [back])))
    (l : List (Option E)) : motive l := by
  induction size : l.length using Nat.strong_induction_on generalizing l with
  | _ n ih =>
      match l with
      | [] => exact nil
      | some x :: rest => exact filled x rest (ih rest.length (by simp [← size]) rest rfl)
      | none :: rest =>
          obtain rfl | ⟨middle, back, rfl⟩ := List.eq_nil_or_concat rest
          · exact last
          · rw [List.concat_eq_append] at size ⊢
            exact moved middle back (ih (back :: middle).length (by simp [← size]) _ rfl)

/-- The last element is taken off and put in the place of an earlier one. -/
theorem dropLast_set (front middle : List E) (x back : E) :
    ((front ++ x :: (middle ++ [back])).set front.length back).dropLast =
      front ++ back :: middle := by
  rw [List.set_append_right _ _ le_rfl, Nat.sub_self, List.set_cons_zero, ← List.cons_append,
    ← List.append_assoc, List.dropLast_concat]

/-- No element is lost, and none is doubled. -/
theorem pack_perm (l : List (Option E)) : (pack l).Perm (l.filterMap id) := by
  induction l using pack_induction with
  | nil => simp
  | filled x rest ih => simpa using ih
  | last => simp
  | moved middle back ih =>
      rw [pack_none_snoc]
      exact ih.trans ((List.perm_append_singleton back middle).symm.filterMap id)

/-- Empty places at the back only: the elements keep their positions. -/
theorem pack_of_front (front : List E) (k : ℕ) :
    pack (front.map some ++ List.replicate k none) = front := by
  induction front with
  | nil =>
      induction k with
      | zero => simp
      | succ k ih =>
          cases k with
          | zero => simp
          | succ k =>
              rw [List.map_nil, List.nil_append] at ih ⊢
              rw [List.replicate_succ, List.replicate_succ', pack_none_snoc]
              exact ih
  | cons x front ih => simpa using ih

/-- Elements in the first places, and nowhere behind them. -/
theorem exists_front {l : List (Option E)} {m : ℕ} (filled : ∀ i < m, ∃ x, l[i]? = some (some x))
    (empty : ∀ i x, l[i]? = some (some x) → i < m) :
    ∃ (front : List E) (k : ℕ),
      l = front.map some ++ List.replicate k none ∧ front.length = m := by
  induction l generalizing m with
  | nil =>
      cases m with
      | zero => exact ⟨[], 0, rfl, rfl⟩
      | succ m =>
          obtain ⟨x, found⟩ := filled 0 (Nat.zero_lt_succ m)
          cases found
  | cons head rest ih =>
      cases m with
      | zero =>
          obtain ⟨front, k, rfl, length⟩ := ih (m := 0) (fun i less => by omega)
            (fun i x found => absurd (empty (i + 1) x found) (by omega))
          obtain rfl := List.length_eq_zero_iff.mp length
          cases head with
          | none => exact ⟨[], k + 1, by simp [List.replicate_succ], rfl⟩
          | some x => exact absurd (empty 0 x rfl) (by omega)
      | succ m =>
          obtain ⟨x, found⟩ := filled 0 (Nat.zero_lt_succ m)
          obtain rfl : head = some x := by simpa using found
          obtain ⟨front, k, rfl, rfl⟩ := ih (m := m)
            (fun i less => filled (i + 1) (by omega))
            (fun i x found => by
              have := empty (i + 1) x found
              omega)
          exact ⟨x :: front, k, by simp, by simp⟩

/-- An element that is taken out of its place. -/
theorem filterMap_set_none {l : List (Option E)} {i : ℕ} {x : E}
    (found : l[i]? = some (some x)) :
    (l.filterMap id).Perm (x :: (l.set i none).filterMap id) := by
  induction l generalizing i with
  | nil => cases found
  | cons head rest ih =>
      cases i with
      | zero =>
          obtain rfl : head = some x := by simpa using found
          simp
      | succ i =>
          have later := ih (i := i) (by simpa using found)
          cases head with
          | none => simpa using later
          | some y => simpa using (later.cons y).trans (List.Perm.swap x y _)

end Pack

end Foundation.Compaction
