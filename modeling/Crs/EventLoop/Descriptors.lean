import Crs.Foundation.Machine
import Mathlib.Data.List.Perm.Basic
import Mathlib.Data.List.Nodup

/-!
# The descriptors of the event loop

With epoll the loop keeps three containers beside the set in the kernel: the list of
descriptors, indexed by file descriptor, the list of those that are prepared before
each poll, and the array for the results of `epoll_wait`, of which only the size
counts. `add` resizes the list of descriptors to the number that it needs, so it
forgets what was stored above.

The control pipe is no descriptor of this model: nothing here changes its entry. An
exception of `epoll_ctl` is an outcome, with the state that it leaves behind; a null
pointer that is followed and an index past the end are steps that do not exist.
-/

namespace Crs.EventLoop

open Foundation

/-- What the loop asks a descriptor, except for `want2write`, whose answer changes. -/
class EventDescriptor (D : Type*) where
  getDescriptor : D → ℕ
  needsPrepare : D → Bool
  autoDestroy : D → Bool

open EventDescriptor

/-- `descriptors_list`, the members of `poll_records`, and the set in the kernel. -/
structure Records (D : Type*) where
  descriptorsList : List (Option D) := []
  prepareList : List D := []
  events : ℕ := 1
  epollSet : List ℕ := []

/-- How a call ended: with an exception of `epoll_ctl`, at once because the place of the
descriptor is empty, or regularly. A descriptor that was removed may have been destroyed. -/
inductive Outcome (D : Type*) where
  | thrown
  | ignored
  | added (d : D)
  | removed (d : D) (destroyed : Option D)
  | prepared (modified : List (ℕ × Bool)) (destroyed : List D)
  | handled (d : D)

variable {D : Type*} [DecidableEq D]

/-- `std::vector::resize`, with null pointers in new places. -/
def resize (list : List (Option D)) (size : ℕ) : List (Option D) :=
  list.take size ++ List.replicate (size - list.length) none

/-- Swap the first place that holds `d` with the last one, and drop the last one. -/
def swapOut (d : D) : List D → List D
  | [] => []
  | first :: rest =>
      if first = d then
        match rest.getLast? with
        | none => []
        | some back => back :: rest.dropLast
      else first :: swapOut d rest

namespace Records

variable [EventDescriptor D]

def addDescriptor (s : Records D) (d : D) : Outcome D × Records D :=
  let descriptorsList :=
    (resize s.descriptorsList (getDescriptor d + 1)).set (getDescriptor d) (some d)
  let prepareList := if needsPrepare d then s.prepareList ++ [d] else s.prepareList
  if getDescriptor d ∈ s.epollSet then
    (.thrown, { s with descriptorsList, prepareList })
  else
    (.added d,
      { descriptorsList, prepareList, events := s.events + 1
        epollSet := getDescriptor d :: s.epollSet })

def removeDescriptor (s : Records D) (d : D) : Option (Outcome D × Records D) :=
  if s.descriptorsList[getDescriptor d]? = some none then some (.ignored, s)
  else if getDescriptor d ∉ s.epollSet then some (.thrown, s)
  else
    let prepareList := if needsPrepare d then swapOut d s.prepareList else s.prepareList
    match s.descriptorsList[getDescriptor d]? with
    | none => none
    | some stored =>
        some (.removed d (if autoDestroy d then stored else none),
          { descriptorsList := s.descriptorsList.set (getDescriptor d) none, prepareList
            events := s.events - 1
            epollSet := s.epollSet.erase (getDescriptor d) })

/-- The loop of `prepare` from position `i`, with the entries that it has modified and the
descriptors that it has destroyed. -/
def prepareFrom (want2write : D → Bool) (s : Records D) (i : ℕ) (modified : List (ℕ × Bool))
    (destroyed : List D) : Option (Outcome D × Records D) :=
  if within : i < s.prepareList.length then
    let d := s.prepareList[i]
    match s.descriptorsList[getDescriptor d]? with
    | none => none
    | some none =>
        if getDescriptor d ∈ s.epollSet then
          let swapped := s.prepareList.set i (s.prepareList.getLast (List.ne_nil_of_length_pos
            (Nat.zero_lt_of_lt within)))
          prepareFrom want2write
            { s with
              prepareList := swapped.dropLast
              events := s.events - 1
              epollSet := s.epollSet.erase (getDescriptor d) } i modified
            (if autoDestroy d then destroyed ++ [d] else destroyed)
        else some (.thrown, s)
    | some (some _) =>
        if getDescriptor d ∈ s.epollSet then
          prepareFrom want2write s (i + 1) (modified ++ [(getDescriptor d, want2write d)])
            destroyed
        else some (.thrown, s)
  else some (.prepared modified destroyed, s)
termination_by s.prepareList.length - i
decreasing_by
  · simp only [List.length_dropLast, List.length_set]
    omega
  · omega

def prepare (want2write : D → Bool) (s : Records D) : Option (Outcome D × Records D) :=
  s.prepareFrom want2write 0 [] []

/-- `handle_events` for one result of `epoll_wait`. A result with an error flag, and a
handler that throws, end in `handle_disconnect` and `remove_descriptor`. -/
def handleEvent (s : Records D) (fd : ℕ) (failed : Bool) : Option (Outcome D × Records D) :=
  match s.descriptorsList[fd]? with
  | some (some d) => if failed then s.removeDescriptor d else some (.handled d, s)
  | some none | none => none

end Records

/-- What is done under the lock of the list. -/
inductive Call (D : Type*) where
  | add (d : D)
  | remove (d : D)
  | prepare (want2write : D → Bool)
  | event (fd : ℕ) (failed : Bool)

/-- `epoll_wait` reports nothing about a file descriptor outside of its set. -/
def descriptors (D : Type*) [DecidableEq D] [EventDescriptor D] :
    Machine (Records D) (Call D) (Outcome D) where
  step s
    | .add d => some (s.addDescriptor d)
    | .remove d => s.removeDescriptor d
    | .prepare want2write => s.prepare want2write
    | .event fd failed => if fd ∈ s.epollSet then s.handleEvent fd failed else none

/-- How a call changes the registered descriptors. -/
def Outcome.after (o : Outcome D) (known : List D) : List D :=
  match o with
  | .added d => d :: known
  | .removed d _ => known.erase d
  | .thrown | .ignored | .prepared _ _ | .handled _ => known

/-- The descriptors that are registered when a run ends. -/
def registered (history : List (Call D × Outcome D)) : List D :=
  history.foldl (fun known event => event.2.after known) []

theorem registered_snoc (history : List (Call D × Outcome D)) (a : Call D) (o : Outcome D) :
    registered (history ++ [(a, o)]) = o.after (registered history) := by
  rw [registered, List.foldl_append]
  rfl

omit [DecidableEq D] in
theorem getElem?_resize (list : List (Option D)) (size i : ℕ) :
    (resize list size)[i]? = if i < size then some list[i]?.join else none := by
  rw [resize, List.getElem?_append, List.length_take, List.getElem?_take,
    List.getElem?_replicate]
  grind

omit [DecidableEq D] in
@[simp] theorem length_resize (list : List (Option D)) (size : ℕ) :
    (resize list size).length = size := by
  simp only [resize, List.length_append, List.length_take, List.length_replicate]
  omega

theorem swapOut_perm (d : D) (list : List D) : (swapOut d list).Perm (list.erase d) := by
  induction list with
  | nil => exact .refl _
  | cons first rest ih =>
      rw [swapOut]
      split
      · rename_i found
        subst found
        rw [List.erase_cons_head]
        cases last : rest.getLast? with
        | none =>
            rw [List.getLast?_eq_none_iff.mp last]
        | some back =>
            obtain ⟨front, rfl⟩ := List.getLast?_eq_some_iff.mp last
            rw [List.dropLast_concat]
            exact (List.perm_append_singleton back front).symm
      · rename_i other
        rw [List.erase_cons_tail (by simpa using other)]
        exact ih.cons first

variable [EventDescriptor D]

/-- The set in the kernel belongs to the registered descriptors. -/
def Tracked (known : List D) (s : Records D) : Prop :=
  known.Nodup ∧ s.epollSet.Perm (known.map getDescriptor)

/-- The containers are in step with the registered descriptors, and what epoll reports
reaches the descriptor that it is about. -/
structure InStep (known : List D) (s : Records D) : Prop where
  stored : ∀ fd d, s.descriptorsList[fd]? = some (some d) ↔ d ∈ known ∧ getDescriptor d = fd
  inside : ∀ d ∈ known, getDescriptor d < s.descriptorsList.length
  counted : s.events = 1 + known.length
  prepared : s.prepareList.Perm (known.filter needsPrepare)
  delivered : ∀ fd ∈ s.epollSet, ∃ d ∈ known, getDescriptor d = fd ∧
    ∀ failed, s.handleEvent fd failed =
      if failed then s.removeDescriptor d else some (.handled d, s)

/-- A descriptor that is added must not have a smaller file descriptor than a registered
one. One that is registered must not be added again if it needs preparation. -/
def fits (known : List D) : Call D → Prop
  | .add d => (∀ e ∈ known, getDescriptor e ≤ getDescriptor d) ∧
      (d ∈ known → needsPrepare d = false)
  | .remove _ | .prepare _ | .event _ _ => True

instance (known : List D) (a : Call D) : Decidable (fits known a) :=
  match a with
  | .add _ => inferInstanceAs (Decidable (_ ∧ _))
  | .remove _ | .prepare _ | .event _ _ => inferInstanceAs (Decidable True)

variable {known : List D} {s s' : Records D} {d : D} {o : Outcome D}

/-- The delivery follows from the rest. -/
theorem InStep.of_tracked (tracked : Tracked known s)
    (stored : ∀ fd d, s.descriptorsList[fd]? = some (some d) ↔ d ∈ known ∧ getDescriptor d = fd)
    (counted : s.events = 1 + known.length)
    (prepared : s.prepareList.Perm (known.filter needsPrepare)) : InStep known s where
  stored := stored
  inside d member := by
    obtain ⟨within, -⟩ := List.getElem?_eq_some_iff.mp ((stored _ d).mpr ⟨member, rfl⟩)
    exact within
  counted := counted
  prepared := prepared
  delivered fd reported := by
    obtain ⟨d, member, same⟩ := List.mem_map.mp (tracked.2.mem_iff.mp reported)
    refine ⟨d, member, same, fun failed => ?_⟩
    rw [Records.handleEvent, (stored fd d).mpr ⟨member, same⟩]

omit [DecidableEq D] in
theorem Tracked.mem_iff (distinct : Function.Injective (getDescriptor : D → ℕ))
    (tracked : Tracked known s) : getDescriptor d ∈ s.epollSet ↔ d ∈ known := by
  rw [tracked.2.mem_iff, List.mem_map_of_injective distinct]

omit [DecidableEq D] in
/-- A list of descriptors that is resized for a descriptor and takes it up. -/
theorem getElem?_resize_set (list : List (Option D)) (d : D) (fd : ℕ) :
    ((resize list (getDescriptor d + 1)).set (getDescriptor d) (some d))[fd]? =
      if fd = getDescriptor d then some (some d)
      else if fd < getDescriptor d then some list[fd]?.join else none := by
  rw [List.getElem?_set, length_resize, getElem?_resize]
  grind

section Add

variable (distinct : Function.Injective (getDescriptor : D → ℕ))

include distinct

omit [DecidableEq D] in
/-- An addition keeps the list of descriptors right exactly if nothing registered is above. -/
theorem stored_resize_set_iff {list : List (Option D)} {known' : List D}
    (stored : ∀ fd d, list[fd]? = some (some d) ↔ d ∈ known ∧ getDescriptor d = fd)
    (members : ∀ e, e ∈ known' ↔ e = d ∨ e ∈ known) :
    (∀ fd e, ((resize list (getDescriptor d + 1)).set (getDescriptor d) (some d))[fd]? =
      some (some e) ↔ e ∈ known' ∧ getDescriptor e = fd) ↔
        ∀ e ∈ known, getDescriptor e ≤ getDescriptor d := by
  simp only [getElem?_resize_set, members]
  constructor
  · intro kept e member
    by_contra above
    have found := (kept (getDescriptor e) e).mpr ⟨.inr member, rfl⟩
    rw [if_neg (by omega), if_neg (by omega)] at found
    cases found
  · intro below fd e
    obtain rfl | other := eq_or_ne fd (getDescriptor d)
    · rw [if_pos rfl]
      constructor
      · rintro ⟨⟩
        exact ⟨.inl rfl, rfl⟩
      · rintro ⟨-, same⟩
        rw [distinct same]
    · have apart : getDescriptor e = fd → e ≠ d := by
        rintro rfl rfl
        exact other rfl
      rw [if_neg other]
      split
      · rw [Option.some.injEq, Option.join_eq_some_iff, stored fd e]
        grind
      · have := below e
        grind

/-- A removal empties the place of the descriptor, and no other one. -/
theorem stored_set_none {list : List (Option D)} (nodup : known.Nodup)
    (stored : ∀ fd d, list[fd]? = some (some d) ↔ d ∈ known ∧ getDescriptor d = fd) (fd : ℕ)
    (e : D) : (list.set (getDescriptor d) none)[fd]? = some (some e) ↔
      e ∈ known.erase d ∧ getDescriptor e = fd := by
  rw [List.getElem?_set, nodup.mem_erase_iff]
  have here := stored fd e
  have same : getDescriptor e = getDescriptor d → e = d := fun same => distinct same
  grind

theorem stored_addDescriptor_iff (held : InStep known s) {known' : List D}
    (members : ∀ e, e ∈ known' ↔ e = d ∨ e ∈ known) :
    (∀ fd e, (s.addDescriptor d).2.descriptorsList[fd]? = some (some e) ↔
      e ∈ known' ∧ getDescriptor e = fd) ↔
        ∀ e ∈ known, getDescriptor e ≤ getDescriptor d := by
  rw [← stored_resize_set_iff distinct held.stored members]
  have list : (s.addDescriptor d).2.descriptorsList =
      (resize s.descriptorsList (getDescriptor d + 1)).set (getDescriptor d) (some d) := by
    rw [Records.addDescriptor]
    split <;> rfl
  rw [list]

/-- An addition keeps all containers in step exactly if it fits. -/
theorem add_inStep_iff (held : InStep known s) (tracked : Tracked known s) :
    Tracked ((s.addDescriptor d).1.after known) (s.addDescriptor d).2 ∧
      (InStep ((s.addDescriptor d).1.after known) (s.addDescriptor d).2 ↔ fits known (.add d)) := by
  by_cases member : d ∈ known
  · have present := (tracked.mem_iff distinct).mpr member
    have outcome : (s.addDescriptor d).1 = .thrown := by simp [Records.addDescriptor, present]
    have epollSet : (s.addDescriptor d).2.epollSet = s.epollSet := by
      simp [Records.addDescriptor, present]
    have prepareList : (s.addDescriptor d).2.prepareList =
        if needsPrepare d then s.prepareList ++ [d] else s.prepareList := by
      simp [Records.addDescriptor, present]
    have events : (s.addDescriptor d).2.events = s.events := by
      simp [Records.addDescriptor, present]
    have tracked' : Tracked known (s.addDescriptor d).2 := ⟨tracked.1, epollSet ▸ tracked.2⟩
    have stored := stored_addDescriptor_iff distinct held (d := d)
      (fun e => by grind : ∀ e, e ∈ known ↔ _)
    rw [outcome, Outcome.after]
    refine ⟨tracked', fun after => ?_, fun ⟨below, plain⟩ => ?_⟩
    · refine ⟨stored.mp after.stored, fun _ => ?_⟩
      by_contra needs
      have twice := after.prepared.length_eq
      rw [prepareList, if_pos (by simpa using needs), List.length_append,
        held.prepared.length_eq] at twice
      simp at twice
    · refine .of_tracked tracked' (stored.mpr below) (events.trans held.counted) ?_
      rw [prepareList, if_neg (by simp [plain member])]
      exact held.prepared
  · have absent := mt (tracked.mem_iff distinct).mp member
    have outcome : (s.addDescriptor d).1 = .added d := by simp [Records.addDescriptor, absent]
    have epollSet : (s.addDescriptor d).2.epollSet = getDescriptor d :: s.epollSet := by
      simp [Records.addDescriptor, absent]
    have prepareList : (s.addDescriptor d).2.prepareList =
        if needsPrepare d then s.prepareList ++ [d] else s.prepareList := by
      simp [Records.addDescriptor, absent]
    have events : (s.addDescriptor d).2.events = s.events + 1 := by
      simp [Records.addDescriptor, absent]
    have tracked' : Tracked (d :: known) (s.addDescriptor d).2 :=
      ⟨List.nodup_cons.mpr ⟨member, tracked.1⟩, epollSet ▸ tracked.2.cons _⟩
    have stored := stored_addDescriptor_iff distinct held (d := d) (fun _ => List.mem_cons)
    rw [outcome, Outcome.after]
    refine ⟨tracked', fun after => ⟨stored.mp after.stored, fun known => (member known).elim⟩,
      fun ⟨below, _⟩ => ?_⟩
    refine .of_tracked tracked' (stored.mpr below) ?_ ?_
    · rw [events, held.counted, List.length_cons]
      omega
    · rw [prepareList]
      cases needs : needsPrepare d with
      | false => simpa [needs] using held.prepared
      | true =>
          simp only [if_true, needs, List.filter_cons_of_pos]
          exact (List.perm_append_singleton d _).trans (held.prepared.cons d)

/-- A removal keeps the containers in step. -/
theorem remove_inStep (held : InStep known s) (tracked : Tracked known s)
    (step : s.removeDescriptor d = some (o, s')) :
    Tracked (o.after known) s' ∧ InStep (o.after known) s' := by
  rw [Records.removeDescriptor] at step
  split at step
  · obtain ⟨rfl, rfl⟩ := by simpa using step
    exact ⟨tracked, held⟩
  · split at step
    · obtain ⟨rfl, rfl⟩ := by simpa using step
      exact ⟨tracked, held⟩
    · rename_i present
      have member : d ∈ known := (tracked.mem_iff distinct).mp (by simpa using present)
      rw [(held.stored _ d).mpr ⟨member, rfl⟩] at step
      obtain ⟨rfl, rfl⟩ := by simpa using step
      have split := List.perm_cons_erase member
      have tracked' : (known.erase d).Nodup ∧
          (s.epollSet.erase (getDescriptor d)).Perm ((known.erase d).map getDescriptor) := by
        refine ⟨tracked.1.erase d, (tracked.2.erase _).trans ?_⟩
        simpa using (split.map getDescriptor).erase (getDescriptor d)
      refine ⟨tracked', .of_tracked tracked'
        (stored_set_none distinct tracked.1 held.stored) ?_ ?_⟩
      · have size := split.length_eq
        have counted := held.counted
        simp only [List.length_cons, Outcome.after] at size ⊢
        omega
      · have prepared := held.prepared.trans (split.filter needsPrepare)
        simp only [Outcome.after]
        cases needs : needsPrepare d with
        | false => simpa [needs] using prepared
        | true =>
            rw [List.filter_cons_of_pos needs] at prepared
            simpa using (swapOut_perm d s.prepareList).trans (by simpa using prepared.erase d)

omit distinct in
/-- In step, `prepare` modifies the entries and changes nothing else. -/
theorem prepare_inStep (held : InStep known s) (tracked : Tracked known s)
    {want2write : D → Bool} {i : ℕ} {modified : List (ℕ × Bool)} {destroyed : List D} :
    s.prepareFrom want2write i modified destroyed =
      some (.prepared (modified ++ (s.prepareList.drop i).map fun d =>
        (getDescriptor d, want2write d)) destroyed, s) := by
  generalize left : s.prepareList.length - i = n
  induction n generalizing i modified with
  | zero =>
      have past : ¬ i < s.prepareList.length := by omega
      rw [Records.prepareFrom, dif_neg past, List.drop_eq_nil_of_le (by omega)]
      simp
  | succ n ih =>
      have within : i < s.prepareList.length := by omega
      have member : s.prepareList[i] ∈ known :=
        (List.mem_filter.mp (held.prepared.mem_iff.mp (List.getElem_mem within))).1
      have listed : getDescriptor s.prepareList[i] ∈ s.epollSet :=
        tracked.2.mem_iff.mpr (List.mem_map_of_mem member)
      rw [Records.prepareFrom, dif_pos within]
      simp only [(held.stored _ _).mpr ⟨member, rfl⟩, listed, if_true]
      rw [ih (by omega), List.drop_eq_getElem_cons within]
      simp only [List.map_cons, List.append_assoc, List.cons_append, List.nil_append]

/-- One call on containers that are in step. -/
theorem step_inStep {a : Call D} (held : InStep known s) (tracked : Tracked known s)
    (step : (descriptors D).step s a = some (o, s')) :
    Tracked (o.after known) s' ∧ (InStep (o.after known) s' ↔ fits known a) := by
  cases a with
  | add d =>
      obtain ⟨rfl, rfl⟩ := by simpa [descriptors, Prod.ext_iff] using step
      exact add_inStep_iff distinct held tracked
  | remove d =>
      obtain ⟨tracked', held'⟩ := remove_inStep distinct held tracked step
      exact ⟨tracked', iff_of_true held' trivial⟩
  | prepare want2write =>
      simp only [descriptors, Records.prepare, prepare_inStep held tracked] at step
      obtain ⟨rfl, rfl⟩ := by simpa using step
      exact ⟨tracked, iff_of_true held trivial⟩
  | event fd failed =>
      simp only [descriptors] at step
      split at step
      · rename_i reported
        obtain ⟨d, member, rfl, delivered⟩ := held.delivered fd reported
        rw [delivered failed] at step
        cases failed with
        | false =>
            obtain ⟨rfl, rfl⟩ := by simpa using step
            exact ⟨tracked, iff_of_true held trivial⟩
        | true =>
            obtain ⟨tracked', held'⟩ := remove_inStep distinct held tracked (by simpa using step)
            exact ⟨tracked', iff_of_true held' trivial⟩
      · cases step

end Add

/-- A descriptor for a file descriptor. It is prepared before each poll. -/
structure Socket where
  fd : ℕ
deriving DecidableEq

instance : EventDescriptor Socket where
  getDescriptor := Socket.fd
  needsPrepare _ := true
  autoDestroy _ := false

theorem Socket.distinct : Function.Injective (getDescriptor : Socket → ℕ) := by
  rintro ⟨fd⟩ ⟨fd'⟩ same
  exact congrArg Socket.mk same

end Crs.EventLoop
