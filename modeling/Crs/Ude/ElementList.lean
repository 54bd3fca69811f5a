import Crs.Foundation.Compaction

/-!
# Lists of elements

The list stores pointers to elements in a vector. `remove` and `for_each` share one
loop: an element that is to go is swapped with the last one of the part that stays,
and is given to the destroyer there; at the end the vector is shrunk. The loop then
advances, so that the element that the swap brought in is passed over.

`sweep_eq_scan` describes the loop as a pass over a list. Both operations are right
exactly if no element that still has to be looked at is ever swapped in.
-/

namespace Crs.Ude

open Foundation Compaction

/-- A list of pointers; the null pointer is never stored. -/
structure ElementList (E : Type*) where
  container : Array E
  deriving DecidableEq

/-- A list after an operation, the calls of the action with their results, and the
pointers that were given to the destroyer, in order. -/
structure Visit (E σ : Type*) where
  list : ElementList E
  calls : List (E × Bool)
  handed : List E
  state : σ

namespace ElementList

variable {E σ : Type*}

def empty : ElementList E := ⟨#[]⟩

def isEmpty (l : ElementList E) : Bool := l.container.isEmpty

def add (l : ElementList E) : Option E → ElementList E
  | some element => ⟨l.container.push element⟩
  | none => l

/-- The vector and the end of its remaining part, while the loop runs. -/
structure Sweep (E σ : Type*) where
  container : Array E
  last : Nat
  calls : List (E × Bool)
  handed : List E
  state : σ

/-- The loop from the position `i` on, where `last` ends the remaining part. -/
def sweep (action : E → σ → Bool × σ) (a : Array E) (i last : Nat) (hlast : last ≤ a.size)
    (s : σ) : Sweep E σ :=
  if inside : i < last then
    have i_inside : i < a.size := Nat.lt_of_lt_of_le inside hlast
    have last_inside : last - 1 < a.size := Nat.sub_one_lt_of_le (Nat.zero_lt_of_lt inside) hlast
    let (answer, s) := action a[i] s
    if answer then
      let swapped := a.swap i (last - 1) i_inside last_inside
      have end_inside : last - 1 < swapped.size := (Array.size_swap ..).symm ▸ last_inside
      let element := swapped[last - 1]
      let rest :=
        if i = last - 1 then ⟨swapped, last - 1, [], [], s⟩
        else sweep action swapped (i + 1) (last - 1) (Nat.le_of_lt end_inside) s
      { rest with calls := (a[i], true) :: rest.calls, handed := element :: rest.handed }
    else
      let rest := sweep action a (i + 1) last hlast s
      { rest with calls := (a[i], false) :: rest.calls }
  else ⟨a, last, [], [], s⟩
termination_by last - i

/-- The loop over the whole vector, and the erasure of its tail. -/
def pass (l : ElementList E) (action : E → σ → Bool × σ) (s : σ) : Visit E σ :=
  if l.isEmpty then ⟨l, [], [], s⟩
  else
    let r := sweep action l.container 0 l.container.size (Nat.le_refl _) s
    ⟨⟨r.container.take r.last⟩, r.calls, r.handed, r.state⟩

def forEach (l : ElementList E) (action : E → σ → Bool × σ) (s : σ) : Visit E σ := l.pass action s

/-- `*i == element`; a null pointer equals no stored one. -/
def equals [DecidableEq E] (element : Option E) (stored : E) (u : Unit) : Bool × Unit :=
  (some stored = element, u)

def remove [DecidableEq E] (l : ElementList E) (element : Option E) : Visit E Unit :=
  l.pass (equals element) ()

/-- The destructor gives every pointer to the destroyer. -/
def destruct (l : ElementList E) : List E := l.container.toList

/-- What the destroyer deletes of the pointers it is given. -/
def destroyed (predicate : E → Bool) (handed : List E) : List E := handed.filter predicate

section Loop

variable {action : E → σ → Bool × σ} {a : Array E} {i last : Nat} {s : σ} {x y : E}

theorem sweep_finished (finished : last ≤ i) (hlast) :
    sweep action a i last hlast s = ⟨a, last, [], [], s⟩ := by
  rw [sweep, dif_neg (Nat.not_lt.mpr finished)]

theorem sweep_of_false (hlast : last ≤ a.size) (inside : i < last) (at_i : a[i] = x)
    (no : (action x s).1 = false) :
    sweep action a i last hlast s =
      let rest := sweep action a (i + 1) last hlast (action x s).2
      { rest with calls := (x, false) :: rest.calls } := by
  subst at_i
  rw [sweep]
  simp [inside, no]

theorem sweep_of_true (hlast : last ≤ a.size) (inside : i + 1 < last) (hi : i < a.size)
    (hj : last - 1 < a.size) (hswap : last - 1 ≤ (a.swap i (last - 1) hi hj).size)
    (at_i : a[i] = x) (yes : (action x s).1 = true) :
    sweep action a i last hlast s =
      let rest := sweep action (a.swap i (last - 1)) (i + 1) (last - 1) hswap (action x s).2
      { rest with calls := (x, true) :: rest.calls, handed := x :: rest.handed } := by
  subst at_i
  rw [sweep]
  simp [show i < last by omega, show i ≠ last - 1 by omega, yes]

theorem sweep_of_true_last (hlast : last ≤ a.size) (inside : i + 1 = last) (at_i : a[i] = x)
    (yes : (action x s).1 = true) :
    sweep action a i last hlast s = ⟨a, i, [(x, true)], [x], (action x s).2⟩ := by
  subst at_i inside
  have same : a.swap i i hlast hlast = a := by
    refine Array.ext (by simp) fun k _ _ => ?_
    rw [Array.getElem_swap]
    split <;> simp_all
  rw [sweep]
  simp [yes, same]

private theorem swap_ends (front middle back : List E) (x y : E) (hi hj) :
    (front ++ x :: (middle ++ y :: back)).toArray.swap front.length
        (front.length + (middle.length + 1)) hi hj =
      (front ++ y :: (middle ++ x :: back)).toArray := by
  apply Array.toList_inj.mp
  rw [Array.toList_swap]
  simp [List.set_append_right]

/-- The loop from one position to another is a pass over the elements between them:
the kept elements stay in front, and the others follow in reverse order. -/
theorem sweep_eq_scan (middle : List E) (s : σ) (front back : List E) {a : Array E} {i last : Nat}
    (contents : a = (front ++ (middle ++ back)).toArray) (start : i = front.length)
    (finish : last = front.length + middle.length) (hlast) :
    sweep action a i last hlast s =
      let o := scan action middle s
      ⟨(front ++ (o.kept ++ (o.handed.reverse ++ back))).toArray, front.length + o.kept.length,
        o.calls, o.handed, o.state⟩ := by
  induction middle, s using scan_induction (f := action) generalizing front back a i last with
  | nil s =>
      rw [sweep_finished (by simp [start, finish])]
      simp [contents, finish]
  | stays x rest s no ih =>
      have inside : i < last := by simp [start, finish]
      have at_i : a[i] = x := by simp [contents, start]
      rw [sweep_of_false hlast inside at_i no, scan_cons_of_false no,
        ih (front ++ [x]) back (by simp [contents]) (by simp [start])
          (by simp only [finish, List.length_append, List.length_cons, List.length_nil]; omega)]
      simp [Nat.add_assoc, Nat.add_comm 1]
  | last x s yes =>
      have inside : i + 1 = last := by simp [start, finish]
      have at_i : a[i] = x := by simp [contents, start]
      rw [sweep_of_true_last hlast inside at_i yes, scan_singleton_of_true yes]
      simp [contents, start]
  | moved x middle y s yes ih =>
      have inside : i + 1 < last := by
        simp only [start, finish, List.length_cons, List.length_append, List.length_nil]
        omega
      have at_i : a[i] = x := by simp [contents, start]
      have final : last - 1 = front.length + (middle.length + 1) := by
        simp only [finish, List.length_cons, List.length_append, List.length_nil]
        omega
      have hi : i < a.size := by omega
      have hj : last - 1 < a.size := by omega
      have swapped : a.swap i (last - 1) =
          (front ++ y :: (middle ++ x :: back)).toArray := by
        subst contents start
        simp only [final, List.cons_append, List.append_assoc]
        exact swap_ends front middle back x y _ _
      rw [sweep_of_true hlast inside hi hj (by rw [Array.size_swap]; omega) at_i yes,
        scan_snoc_of_true yes,
        ih (front ++ [y]) (x :: back) (by simp [swapped]) (by simp [start])
          (by simp only [final, List.length_append, List.length_cons, List.length_nil]; omega)]
      simp [Nat.add_assoc, Nat.add_comm 1]

/-- The whole operation as a pass over the stored pointers. -/
theorem pass_eq_scan (l : ElementList E) (action : E → σ → Bool × σ) (s : σ) :
    l.pass action s =
      let o := scan action l.container.toList s
      ⟨⟨o.kept.toArray⟩, o.calls, o.handed, o.state⟩ := by
  obtain ⟨⟨contents⟩⟩ := l
  cases contents with
  | nil => simp [pass, isEmpty]
  | cons x rest =>
      have run :
          sweep action (x :: rest).toArray 0 (x :: rest).toArray.size (Nat.le_refl _) s = _ :=
        sweep_eq_scan (x :: rest) s [] [] (by simp) rfl (by simp) (Nat.le_refl _)
      simp only [pass, isEmpty, run]
      simp

end Loop

/-- The stored pointers, each as often as it is stored. -/
def pointers (l : ElementList E) : Multiset E := l.container.toList

section Pointers

variable (l : ElementList E)

@[simp] theorem pointers_empty : (empty : ElementList E).pointers = 0 := rfl

@[simp] theorem pointers_add_some (element : E) :
    (l.add (some element)).pointers = element ::ₘ l.pointers := by
  refine Multiset.coe_eq_coe.mpr ?_
  simp [add]

/-- Each stored pointer stays or is given to the destroyer. -/
theorem pointers_pass (action : E → σ → Bool × σ) (s : σ) :
    (l.pass action s).list.pointers + (l.pass action s).handed = l.pointers := by
  rw [pass_eq_scan]
  exact Multiset.coe_eq_coe.mpr (kept_handed_perm l.container.toList s)

end Pointers

end ElementList

end Crs.Ude
