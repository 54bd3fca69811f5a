import Crs.Handle.Basic
import Mathlib.Algebra.BigOperators.Group.Finset.Piecewise

/-!
# The counters of handles

Abstractly a handle is a link to an object with its counter, or nothing. `Linked` says that
the heap holds the linked objects and counters and no others, and that each counter is the
number of links. Each operation removes a link, and then may add one; `Represents` relates a
handle with its stale addresses to the link.
-/

namespace Crs.Handle

open Foundation

universe u

variable {A C H : Type u}

/-- The addresses in a handle that has this link. -/
structure CHandle.Represents (x : CHandle A C) (l : Option (A × C)) : Prop where
  object : x.object = l.map Prod.fst
  hcounter : ∀ p, l = some p → x.hcounter = some p.2

section Links

variable [Fintype H]

/-- How many handles hold an object, and how many hold a counter. -/
def holders [DecidableEq A] (link : H → Option (A × C)) (a : A) : ℕ :=
  (Finset.univ.filter fun h => (link h).map Prod.fst = some a).card

def sharers [DecidableEq C] (link : H → Option (A × C)) (c : C) : ℕ :=
  (Finset.univ.filter fun h => (link h).map Prod.snd = some c).card

variable {link : H → Option (A × C)} {loose : Option A} {m : Memory A C} {h k : H} {p : A × C}

theorem holders_pos_iff [DecidableEq A] {a : A} :
    0 < holders link a ↔ ∃ h c, link h = some (a, c) := by
  simp [holders, Finset.card_pos, Finset.Nonempty]

theorem sharers_pos_iff [DecidableEq C] {c : C} :
    0 < sharers link c ↔ ∃ h a, link h = some (a, c) := by
  simp [sharers, Finset.card_pos, Finset.Nonempty]

/-- An object is held alone exactly if no other handle has the same link to it. -/
theorem holders_eq_one_iff [DecidableEq A] (here : link h = some p) :
    holders link p.1 = 1 ↔ ∀ k, k ≠ h → (link k).map Prod.fst ≠ some p.1 := by
  have member (k : H) : k ∈ Finset.univ.filter (fun h => (link h).map Prod.fst = some p.1) ↔
      (link k).map Prod.fst = some p.1 := by simp
  rw [holders, Finset.card_eq_one]
  constructor
  · rintro ⟨j, only⟩ k other again
    have first := (member h).mpr (by simp [here])
    have second := (member k).mpr again
    rw [only, Finset.mem_singleton] at first second
    exact other (second.trans first.symm)
  · intro alone
    refine ⟨h, Finset.ext fun k => ?_⟩
    rw [member, Finset.mem_singleton]
    exact ⟨fun held => by_contra fun other => alone k other held, by rintro rfl; simp [here]⟩

/-- An object has one counter, and a counter one object. -/
def Paired (link : H → Option (A × C)) : Prop :=
  ∀ h k p q, link h = some p → link k = some q → (p.1 = q.1 ↔ p.2 = q.2)

/-- The heap belongs to the links, but for an object that is not handed over yet. -/
structure Linked [DecidableEq A] [DecidableEq C] (link : H → Option (A × C)) (loose : Option A)
    (m : Memory A C) : Prop where
  paired : Paired link
  objects : ∀ a, m.objects a = true ↔ loose = some a ∨ 0 < holders link a
  nlinks : ∀ c, m.nlinks c = if sharers link c = 0 then none else some (sharers link c : ℤ)
  free : ∀ a, loose = some a → holders link a = 0

section Fixed

variable [DecidableEq A] [DecidableEq C]

theorem Paired.holders_eq (paired : Paired link) (here : link h = some p) :
    holders link p.1 = sharers link p.2 := by
  refine congrArg Finset.card (Finset.filter_congr fun k _ => ?_)
  cases other : link k with
  | none => simp
  | some q => simpa [eq_comm] using paired h k p q here other

/-- A new object. -/
theorem Linked.newObject {a : A} (linked : Linked link none m) (unused : m.objects a = false) :
    Linked link (some a) (m.newObject a) where
  paired := linked.paired
  objects b := by
    have := linked.objects b
    obtain rfl | other := eq_or_ne b a
    · simp [Memory.newObject]
    · simpa [Memory.newObject, other, other.symm] using this
  nlinks := linked.nlinks
  free b same := by
    obtain rfl := Option.some.inj same
    have := linked.objects a
    simp only [unused, Bool.false_eq_true, reduceCtorEq, false_or, false_iff] at this
    omega

/-- The counter of a link. -/
theorem Linked.nlinks_of_link (linked : Linked link loose m) (here : link h = some p) :
    m.nlinks p.2 = some (holders link p.1 : ℤ) := by
  have held := holders_pos_iff.mpr ⟨h, p.2, here⟩
  rw [linked.paired.holders_eq here] at held ⊢
  rw [linked.nlinks, if_neg held.ne']

theorem Linked.alive (linked : Linked link loose m) (here : link h = some p) :
    m.objects p.1 = true :=
  (linked.objects p.1).mpr (.inr (holders_pos_iff.mpr ⟨h, p.2, here⟩))

/-- A counter is written, and the others keep their links. -/
theorem Linked.nlinks_update (linked : Linked link loose m) {l : H → Option (A × C)} {c : C}
    {n : Option ℤ} (written : n = if sharers l c = 0 then none else some (sharers l c : ℤ))
    (others : ∀ d, d ≠ c → sharers l d = sharers link d) (d : C) :
    Function.update m.nlinks c n d =
      if sharers l d = 0 then none else some (sharers l d : ℤ) := by
  obtain rfl | other := eq_or_ne d c
  · rw [Function.update_self, written]
  · rw [Function.update_of_ne other, linked.nlinks, others d other]

end Fixed

variable [DecidableEq H]

omit [Fintype H] in
theorem Paired.update {v : Option (A × C)} (paired : Paired link)
    (fits : ∀ p, v = some p → ∀ k q, k ≠ h → link k = some q → (p.1 = q.1 ↔ p.2 = q.2)) :
    Paired (Function.update link h v) := by
  intro i j p q first second
  obtain rfl | notI := eq_or_ne i h
  · obtain rfl | notJ := eq_or_ne j i
    · obtain rfl : p = q := Option.some.inj (first.symm.trans second)
      simp
    · rw [Function.update_self] at first
      rw [Function.update_of_ne notJ] at second
      exact fits p first j q notJ second
  · rw [Function.update_of_ne notI] at first
    obtain rfl | notJ := eq_or_ne j h
    · rw [Function.update_self] at second
      rw [eq_comm, fits q second i p notI first, eq_comm]
    · rw [Function.update_of_ne notJ] at second
      exact paired i j p q first second

/-- The entries of a value in a table after the update of one entry. -/
theorem card_entries_update {B : Type*} [DecidableEq B] (table : H → B) (h : H) (v b : B) :
    (Finset.univ.filter fun k => Function.update table h v k = b).card +
        (if table h = b then 1 else 0) =
      (Finset.univ.filter fun k => table k = b).card + (if v = b then 1 else 0) := by
  have others : ∑ k ∈ Finset.univ.erase h, (if Function.update table h v k = b then 1 else 0) =
      ∑ k ∈ Finset.univ.erase h, (if table k = b then 1 else 0) :=
    Finset.sum_congr rfl fun k other => by
      rw [Function.update_of_ne (Finset.ne_of_mem_erase other)]
  rw [Finset.card_filter, Finset.card_filter, ← Finset.add_sum_erase _ _ (Finset.mem_univ h),
    ← Finset.add_sum_erase Finset.univ (fun k => if table k = b then 1 else 0)
      (Finset.mem_univ h), others, Function.update_self]
  omega

/-- The fibres of a field of the links after the update of one link. -/
theorem card_field_update {B : Type*} [DecidableEq B] (field : A × C → B)
    (link : H → Option (A × C)) (h : H) (v : Option (A × C)) (b : B) :
    (Finset.univ.filter fun k => (Function.update link h v k).map field = some b).card +
        (if (link h).map field = some b then 1 else 0) =
      (Finset.univ.filter fun k => (link k).map field = some b).card +
        (if v.map field = some b then 1 else 0) := by
  have same : (fun k => (Function.update link h v k).map field) =
      Function.update (fun k => (link k).map field) h (v.map field) :=
    Function.comp_update (Option.map field) link h v
  have := card_entries_update (fun k => (link k).map field) h (v.map field) (some b)
  rwa [← same] at this

theorem holders_detach [DecidableEq A] (here : link h = some p) (a : A) :
    holders (Function.update link h none) a + (if p.1 = a then 1 else 0) = holders link a := by
  simpa [here, holders] using card_field_update Prod.fst link h none a

theorem sharers_detach [DecidableEq C] (here : link h = some p) (c : C) :
    sharers (Function.update link h none) c + (if p.2 = c then 1 else 0) = sharers link c := by
  simpa [here, sharers] using card_field_update Prod.snd link h none c

theorem holders_attach [DecidableEq A] (here : link h = none) (p : A × C) (a : A) :
    holders (Function.update link h (some p)) a =
      holders link a + (if p.1 = a then 1 else 0) := by
  simpa [here, holders] using card_field_update Prod.fst link h (some p) a

theorem sharers_attach [DecidableEq C] (here : link h = none) (p : A × C) (c : C) :
    sharers (Function.update link h (some p)) c =
      sharers link c + (if p.2 = c then 1 else 0) := by
  simpa [here, sharers] using card_field_update Prod.snd link h (some p) c

theorem sharers_detach_of_ne [DecidableEq C] (here : link h = some p) (d : C) (other : d ≠ p.2) :
    sharers (Function.update link h none) d = sharers link d := by
  rw [← sharers_detach here d, if_neg other.symm, add_zero]

theorem sharers_attach_of_ne [DecidableEq C] (empty : link h = none) (p : A × C) (d : C)
    (other : d ≠ p.2) :
    sharers (Function.update link h (some p)) d = sharers link d := by
  rw [sharers_attach empty p d, if_neg other.symm, add_zero]

namespace Linked

variable [DecidableEq A] [DecidableEq C]

/-- The object that is not handed over yet has no link after one went. -/
theorem free_detach (linked : Linked link loose m) (here : link h = some p) (a : A)
    (isLoose : loose = some a) : holders (Function.update link h none) a = 0 := by
  have fewer := holders_detach here a
  have unheld := linked.free a isLoose
  omega

/-- A link that is not the last one to its object goes. -/
theorem release (linked : Linked link loose m) (here : link h = some p)
    (others : holders link p.1 ≠ 1) :
    Linked (Function.update link h none) loose
      { m with nlinks := Function.update m.nlinks p.2 (some ((holders link p.1 : ℤ) - 1)) } := by
  have held := holders_pos_iff.mpr ⟨h, p.2, here⟩
  have equal := linked.paired.holders_eq here
  constructor
  · exact linked.paired.update (by simp)
  · intro a
    have fewer := holders_detach here a
    have before := linked.objects a
    dsimp only
    rw [before]
    split at fewer
    · rename_i same
      subst same
      simp only [held, or_true, true_iff]
      exact .inr (by omega)
    · rw [← fewer, add_zero]
  · refine linked.nlinks_update ?_ (sharers_detach_of_ne here)
    have fewer := sharers_detach here p.2
    rw [if_pos rfl] at fewer
    rw [if_neg (by omega)]
    congr 1
    omega
  · exact linked.free_detach here

/-- The last link to an object goes, and the object with its counter. -/
theorem delete (linked : Linked link loose m) (here : link h = some p)
    (alone : holders link p.1 = 1) :
    Linked (Function.update link h none) loose
      ⟨Function.update m.objects p.1 false, Function.update m.nlinks p.2 none⟩ := by
  have equal := linked.paired.holders_eq here
  have kept : loose ≠ some p.1 := fun isLoose => by
    have := linked.free p.1 isLoose
    omega
  constructor
  · exact linked.paired.update (by simp)
  · intro a
    have fewer := holders_detach here a
    have before := linked.objects a
    dsimp only
    split at fewer
    · rename_i same
      subst same
      simp only [Function.update_self, Bool.false_eq_true, kept, false_or, false_iff]
      omega
    · rename_i other
      rw [Function.update_of_ne (Ne.symm other), before, ← fewer, add_zero]
  · refine linked.nlinks_update ?_ (sharers_detach_of_ne here)
    have fewer := sharers_detach here p.2
    rw [if_pos rfl] at fewer
    rw [if_pos (by omega)]
  · exact linked.free_detach here

/-- A handle without a link gets the link of another one. -/
theorem share (linked : Linked link loose m) (empty : link h = none) (here : link k = some p) :
    Linked (Function.update link h (some p)) loose
      { m with nlinks := Function.update m.nlinks p.2 (some ((holders link p.1 : ℤ) + 1)) } := by
  have held := holders_pos_iff.mpr ⟨k, p.2, here⟩
  have equal := linked.paired.holders_eq here
  constructor
  · refine linked.paired.update fun q same j r _ there => ?_
    obtain rfl := Option.some.inj same
    exact linked.paired k j p r here there
  · intro a
    have more := holders_attach empty p a
    have before := linked.objects a
    dsimp only
    rw [before, more]
    split
    · rename_i same
      subst same
      simp [held]
    · rfl
  · refine linked.nlinks_update ?_ (sharers_attach_of_ne empty p)
    have more := sharers_attach empty p p.2
    rw [if_pos rfl] at more
    rw [if_neg (by omega)]
    congr 1
    omega
  · intro a isLoose
    have more := holders_attach empty p a
    have unheld := linked.free a isLoose
    have other : p.1 ≠ a := by
      rintro rfl
      omega
    rw [more, if_neg other, unheld]

/-- A handle without a link gets the new object and a new counter. -/
theorem own {a : A} {c : C} (linked : Linked link (some a) m) (empty : link h = none)
    (unused : m.nlinks c = none) :
    Linked (Function.update link h (some (a, c))) none
      { m with nlinks := Function.update m.nlinks c (some 1) } := by
  have unheld := linked.free a rfl
  have unshared : sharers link c = 0 := by
    by_contra shared
    rw [linked.nlinks, if_neg shared] at unused
    cases unused
  constructor
  · refine linked.paired.update fun q same j r _ there => ?_
    obtain rfl := Option.some.inj same
    have notA : a ≠ r.1 := by
      rintro rfl
      exact (holders_pos_iff.mpr ⟨j, r.2, there⟩).ne' unheld
    have notC : c ≠ r.2 := by
      rintro rfl
      exact (sharers_pos_iff.mpr ⟨j, r.1, there⟩).ne' unshared
    simp [notA, notC]
  · intro b
    have more := holders_attach empty (a, c) b
    have before := linked.objects b
    dsimp only at more ⊢
    rw [before, more]
    split
    · simp_all
    · rename_i other
      simp [other]
  · refine linked.nlinks_update ?_ (sharers_attach_of_ne empty (a, c))
    have more := sharers_attach empty (a, c) c
    rw [if_pos rfl, unshared] at more
    rw [more]
    rfl
  · simp

end Linked
end Links
end Crs.Handle
