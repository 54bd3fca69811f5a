import Mathlib.Data.List.Basic

/-!
# A queue with two ends for two classes

Elements are taken from the front. An urgent element is put in front of all others, and
any other one behind them. Of what has been taken and what is left, in this order, each
class keeps the order in which it was put in, unless an urgent element passes one of its
own class.
-/

namespace Foundation.UrgentQueue

variable {E : Type*} (urgent : E → Bool) {x y : E} {gone queue posted : List E}

def insert (queue : List E) (x : E) : List E :=
  if urgent x then x :: queue else queue ++ [x]

/-- The elements of one class. -/
def ofClass (c : Bool) (l : List E) : List E := l.filter fun x => urgent x == c

/-- Nothing but urgent elements stands in front of `x`. -/
def Leads (x : E) (l : List E) : Prop :=
  ∃ before after, l = before ++ x :: after ∧ ∀ y ∈ before, urgent y = true

@[simp] theorem ofClass_nil (c : Bool) : ofClass urgent c [] = [] := rfl

@[simp] theorem ofClass_append (c : Bool) (l l' : List E) :
    ofClass urgent c (l ++ l') = ofClass urgent c l ++ ofClass urgent c l' :=
  List.filter_append l l'

variable {urgent}

@[simp] theorem mem_ofClass {c : Bool} {l : List E} :
    x ∈ ofClass urgent c l ↔ x ∈ l ∧ urgent x = c := by
  simp [ofClass]

theorem ofClass_cons_self (l : List E) :
    ofClass urgent (urgent x) (x :: l) = x :: ofClass urgent (urgent x) l :=
  List.filter_cons_of_pos (by simp)

theorem ofClass_cons_ne {c : Bool} (other : urgent x ≠ c) (l : List E) :
    ofClass urgent c (x :: l) = ofClass urgent c l :=
  List.filter_cons_of_neg (by simpa using other)

/-- At either end of a list, an element makes the same list exactly if it is there alone. -/
theorem cons_eq_concat_iff {l : List E} : x :: l = l ++ [x] ↔ ∀ y ∈ l, y = x := by
  induction l with
  | nil => simp
  | cons z l ih =>
      rw [List.cons_append, List.cons.injEq, List.forall_mem_cons, ← ih]
      constructor
      · rintro ⟨rfl, rest⟩
        exact ⟨rfl, rest⟩
      · rintro ⟨rfl, rest⟩
        exact ⟨rfl, rest⟩

/-- For the other class an insertion is always one at the back. -/
theorem ofClass_false_insert :
    ofClass urgent false (insert urgent queue x) = ofClass urgent false (queue ++ [x]) := by
  rw [insert]
  split
  · rename_i yes
    have other : urgent x ≠ false := by simp [yes]
    rw [ofClass_append, ofClass_cons_ne other, ofClass_cons_ne other, ofClass_nil, List.append_nil]
  · rfl

/-- For the urgent class it is one at the front. -/
theorem ofClass_true_insert (yes : urgent x = true) :
    ofClass urgent true (insert urgent queue x) = x :: ofClass urgent true queue := by
  rw [insert, if_pos yes, ← yes, ofClass_cons_self]

/-- An insertion keeps the order of both classes exactly if an urgent element passes no
other one of its class. -/
theorem ofClass_insert_iff
    (same : ∀ c, ofClass urgent c (gone ++ queue) = ofClass urgent c posted) :
    (∀ c, ofClass urgent c (gone ++ insert urgent queue x) =
      ofClass urgent c (posted ++ [x])) ↔
        (urgent x = true → ∀ y ∈ queue, urgent y = true → y = x) := by
  have behind : ∀ c, ofClass urgent c (posted ++ [x]) =
      ofClass urgent c gone ++ ofClass urgent c (queue ++ [x]) := by
    intro c
    rw [ofClass_append, ← same, ofClass_append, List.append_assoc, ← ofClass_append]
  have ordinary : ofClass urgent false (gone ++ insert urgent queue x) =
      ofClass urgent false (posted ++ [x]) := by
    rw [behind, ofClass_append, ofClass_false_insert]
  rw [Bool.forall_bool, and_iff_right ordinary, behind, ofClass_append,
    List.append_cancel_left_eq]
  by_cases yes : urgent x = true
  · have last : ofClass urgent true [x] = [x] := by simp [ofClass, yes]
    rw [ofClass_true_insert yes, ofClass_append, last, cons_eq_concat_iff]
    simp [yes]
  · rw [insert, if_neg yes]
    exact iff_of_true rfl fun holds => absurd holds yes

/-- An urgent element that is inserted leads the queue. -/
theorem leads_insert_self (yes : urgent x = true) : Leads urgent x (insert urgent queue x) := by
  rw [insert, if_pos yes]
  exact ⟨[], queue, rfl, by simp⟩

/-- What leads is led by urgent elements only after each insertion. -/
theorem Leads.insert (held : Leads urgent x (gone ++ queue)) (y : E) :
    Leads urgent x (gone ++ UrgentQueue.insert urgent queue y) := by
  obtain ⟨before, after, same, all⟩ := held
  rw [UrgentQueue.insert]
  split
  · rename_i yes
    obtain ⟨front, rfl, rest⟩ | ⟨back, rfl, rest⟩ := List.append_eq_append_iff.mp same
    · refine ⟨gone ++ y :: front, after, by simp [rest], fun z member => ?_⟩
      rw [List.mem_append, List.mem_cons] at member
      obtain inGone | rfl | inFront := member
      · exact all z (List.mem_append_left front inGone)
      · exact yes
      · exact all z (List.mem_append_right gone inFront)
    · cases back with
      | nil =>
          refine ⟨before ++ [y], after, by simpa using rest.symm, fun z member => ?_⟩
          rw [List.mem_append, List.mem_singleton] at member
          obtain inside | rfl := member
          · exact all z inside
          · exact yes
      | cons z back =>
          obtain ⟨rfl, -⟩ := List.cons.inj rest
          exact ⟨before, back ++ y :: queue, by simp, all⟩
  · refine ⟨before, after ++ [y], ?_, all⟩
    rw [← List.append_assoc, same, List.append_assoc, List.cons_append]

end Foundation.UrgentQueue
