import Crs.Foundation.Marks
import Crs.Ude.ClientStub

/-!
# The order of taken packets

A packet that was taken enters the slot in its `take`, or out of the queue. The order is
between calls: one returned before the other one was called. Packets are told apart by the
numbers of their calls.
-/

namespace Crs.Ude.ClientStub

open Foundation Marks
open Transmitter (plain)

variable {T : Type*}

/-- The call of `take` that a step was the first one of. -/
def StubSeen.called? : StubSeen → Option Nat
  | .taken call _ => some call
  | .queued _ | .refilled _ | .wrote _ | .quiet => none

/-- The call that returned in a step. -/
def StubSeen.returned? : StubSeen → Option Nat
  | .taken call true | .queued call => some call
  | .taken _ false | .refilled _ | .wrote _ | .quiet => none

/-- The call whose packet went into the slot. -/
def StubSeen.entered? : StubSeen → Option Nat
  | .taken call true | .refilled call => some call
  | .taken _ false | .queued _ | .wrote _ | .quiet => none

def called (history : List (StubAction T × StubSeen)) : List Nat :=
  history.filterMap fun event => StubSeen.called? event.2

def returned (history : List (StubAction T × StubSeen)) : List Nat :=
  history.filterMap fun event => StubSeen.returned? event.2

/-- The calls in the order in which their packets went into the slot. -/
def entered (history : List (StubAction T × StubSeen)) : List Nat :=
  history.filterMap fun event => StubSeen.entered? event.2

/-- The call `p` returned before the call `q`. -/
def Before (history : List (StubAction T × StubSeen)) (p q : Nat) : Prop :=
  ∃ earlier, earlier <+: history ∧ p ∈ returned earlier ∧ q ∉ called earlier

/-- Each packet enters the slot at most once, and after the packets of all calls that had
returned before. -/
structure InOrder (history : List (StubAction T × StubSeen)) : Prop where
  once : (entered history).Nodup
  first : ∀ p q, Before history p q → Ahead p q (entered history)

/-- The numbers of the queued packets. -/
def waiting (s : ClientStub T) : List Nat := s.queue.map Prod.fst

/-- A call of `take` that finds the slot free finds the queue empty. -/
def Patient (s : ClientStub T) : StubAction T → Bool
  | .take _ _ => s.slot.outFlag || s.queue.isEmpty
  | .push _ | .lock | .handleWrite _ | .sendFront => true

/-- The packets of the calls that have returned are in the slot, have been there, or are in the
queue, and the queue is in order. -/
structure Filed (history : List (StubAction T × StubSeen)) (s : ClientStub T) : Prop where
  numbered : ∀ n ∈ called history, n < s.calls
  known : ∀ n ∈ returned history, n ∈ called history
  distinct : (returned history).Nodup
  places : (entered history ++ waiting s).Perm (returned history)
  refused : ∀ t n packet, s.taker t = .refused n packet →
    n ∈ called history ∧ n ∉ returned history
  apart : ∀ t u n packet other, s.taker t = .refused n packet → s.taker u = .refused n other →
    t = u
  queue : ∀ p q, Before history p q → p ∉ entered history → Ahead p q (waiting s)

section Steps

variable {history : List (StubAction T × StubSeen)} {s s' : ClientStub T} {a : StubAction T}
  {o : StubSeen} {p q : Nat}

@[simp] theorem called_snoc :
    called (history ++ [(a, o)]) = called history ++ (StubSeen.called? o).toList :=
  Machine.filterMap_snoc _ history (a, o)

@[simp] theorem returned_snoc :
    returned (history ++ [(a, o)]) = returned history ++ (StubSeen.returned? o).toList :=
  Machine.filterMap_snoc _ history (a, o)

@[simp] theorem entered_snoc :
    entered (history ++ [(a, o)]) = entered history ++ (StubSeen.entered? o).toList :=
  Machine.filterMap_snoc _ history (a, o)

theorem before_snoc : Before (history ++ [(a, o)]) p q ↔ Before history p q ∨
    p ∈ returned (history ++ [(a, o)]) ∧ q ∉ called (history ++ [(a, o)]) := by
  constructor
  · rintro ⟨earlier, front, back, yet⟩
    obtain rfl | front := List.prefix_concat_iff.mp front
    · exact .inr ⟨back, yet⟩
    · exact .inl ⟨earlier, front, back, yet⟩
  · rintro (⟨earlier, front, back, yet⟩ | ⟨back, yet⟩)
    · exact ⟨earlier, front.trans (List.prefix_append _ _), back, yet⟩
    · exact ⟨_, List.prefix_rfl, back, yet⟩

theorem Before.returned (before : Before history p q) : p ∈ returned history := by
  obtain ⟨earlier, front, back, -⟩ := before
  exact (front.sublist.filterMap _).subset back

theorem Filed.fresh (filed : Filed history s) : s.calls ∉ called history :=
  fun member => lt_irrefl _ (filed.numbered _ member)

theorem Filed.called_of_waiting (filed : Filed history s) {n : Nat} (member : n ∈ waiting s) :
    n ∈ called history :=
  filed.known n (filed.places.subset (List.mem_append_right _ member))

theorem Filed.called_of_entered (filed : Filed history s) {n : Nat} (member : n ∈ entered history) :
    n ∈ called history :=
  filed.known n (filed.places.subset (List.mem_append_left _ member))

/-- A call that has not begun cannot stand behind another one. -/
theorem Before.snoc {items : List Nat} (before : Before (history ++ [(a, o)]) p q)
    (known : ∀ n ∈ items, n ∈ called history) : Before history p q ∨ Ahead p q items := by
  obtain before | ⟨-, yet⟩ := before_snoc.mp before
  · exact .inl before
  · right
    apply ahead_of_notMem
    intro member
    rw [called_snoc] at yet
    exact yet (List.mem_append_left _ (known q member))

/-- A step that moves no packet. -/
theorem filed_quiet (filed : Filed history s) (noCall : StubSeen.called? o = none)
    (noReturn : StubSeen.returned? o = none) (noEntry : StubSeen.entered? o = none)
    (queue : s'.queue = s.queue) (taker : s'.taker = s.taker) (calls : s'.calls = s.calls) :
    Filed (history ++ [(a, o)]) s' := by
  have waitingEq : waiting s' = waiting s := by rw [waiting, queue, waiting]
  refine ⟨?_, ?_, ?_, ?_, ?_, ?_, fun p q before absent => ?_⟩
  · simpa [noCall, calls] using filed.numbered
  · simpa [noCall, noReturn] using filed.known
  · simpa [noReturn] using filed.distinct
  · simpa [noReturn, noEntry, waitingEq] using filed.places
  · simpa [noCall, noReturn, taker] using filed.refused
  · simpa [taker] using filed.apart
  · rw [waitingEq]
    obtain before | ahead := before.snoc fun n => filed.called_of_waiting
    · exact filed.queue p q before (by simpa [noEntry] using absent)
    · exact ahead

/-- A new call. -/
theorem numbered_snoc (filed : Filed history s) {sent : Bool} :
    ∀ n ∈ called (history ++ [(a, .taken s.calls sent)]), n < s.calls + 1 := by
  intro n member
  rw [called_snoc] at member
  obtain member | here := List.mem_append.mp member
  · exact Nat.lt_succ_of_lt (filed.numbered n member)
  · obtain rfl : n = s.calls := by simpa [StubSeen.called?] using here
    exact Nat.lt_succ_self _

theorem filed_accept (filed : Filed history s) {slot : OutSlot} :
    Filed (history ++ [(a, .taken s.calls true)]) { s with slot, calls := s.calls + 1 } := by
  have unreturned : s.calls ∉ returned history := fun member => filed.fresh (filed.known _ member)
  refine ⟨numbered_snoc filed, ?_, ?_, ?_, fun t n packet inside => ?_, filed.apart,
    fun p q before absent => ?_⟩
  · simp only [returned_snoc, called_snoc]
    exact List.append_subset.mpr ⟨fun n member => List.mem_append_left _ (filed.known n member),
      List.subset_append_right _ _⟩
  · rw [returned_snoc]
    exact filed.distinct.append (List.nodup_singleton _) (List.disjoint_singleton.mpr unreturned)
  · rw [returned_snoc, entered_snoc, List.append_assoc]
    apply List.Perm.trans _ (filed.places.append_right _)
    rw [List.append_assoc]
    exact List.perm_append_comm.append_left _
  · obtain ⟨known, inside⟩ := filed.refused t n packet inside
    rw [called_snoc, returned_snoc]
    refine ⟨List.mem_append_left _ known, fun member => ?_⟩
    obtain member | here := List.mem_append.mp member
    · exact inside member
    · obtain rfl : n = s.calls := by simpa [StubSeen.returned?] using here
      exact filed.fresh known
  · obtain before | ahead := before.snoc fun n => filed.called_of_waiting
    · exact filed.queue p q before fun member => absent (by simp [member])
    · exact ahead

/-- A packet that goes past the queue comes in front of the packets that wait there. -/
theorem inOrder_accept_iff (order : InOrder history) (filed : Filed history s) {t : T}
    {packet : TalkPacket}
    (once : (entered (history ++ [(.take t packet, .taken s.calls true)])).Nodup)
    (free : s.slot.outFlag = false) :
    InOrder (history ++ [(.take t packet, .taken s.calls true)]) ↔
      s.Patient (.take t packet) = true := by
  have enteredEq : entered (history ++ [(.take t packet, .taken s.calls true)]) =
      entered history ++ [s.calls] := by simp [StubSeen.entered?]
  simp only [Patient, free, Bool.false_or, List.isEmpty_iff]
  constructor
  · intro next
    by_contra some
    obtain ⟨⟨p, packet'⟩, rest, front⟩ := List.exists_cons_of_ne_nil some
    have queued : p ∈ waiting s := by simp [waiting, front]
    have back := filed.places.subset (List.mem_append_right _ queued)
    have before : Before (history ++ [(.take t packet, .taken s.calls true)]) p s.calls :=
      ⟨history, List.prefix_append _ _, back, filed.fresh⟩
    have inside : p ∈ entered history := next.first p s.calls before _ [] enteredEq
    have apart := List.nodup_append.mp (filed.places.nodup_iff.mpr filed.distinct)
    exact apart.2.2 p inside p queued rfl
  · intro empty
    have places := filed.places
    rw [waiting, empty, List.map_nil, List.append_nil] at places
    refine ⟨once, fun p q before => ?_⟩
    rw [enteredEq]
    obtain before | ⟨-, yet⟩ := before_snoc.mp before
    · exact (order.first p q before).snoc fun _ => places.symm.subset before.returned
    · apply ahead_of_notMem
      intro member
      rw [called_snoc] at yet
      obtain member | last := List.mem_append.mp member
      · exact yet (List.mem_append_left _ (filed.called_of_entered member))
      · exact yet (List.mem_append_right _ (by simpa [StubSeen.called?] using last))

theorem inOrder_refill (order : InOrder history) (filed : Filed history s) {call : Nat}
    {packet : TalkPacket} {rest : List (Nat × TalkPacket)}
    (once : (entered (history ++ [(a, .refilled call)])).Nodup)
    (front : s.queue = (call, packet) :: rest) :
    InOrder (history ++ [(a, .refilled call)]) := by
  have waitingEq : waiting s = call :: rest.map Prod.fst := by simp [waiting, front]
  have enteredEq : entered (history ++ [(a, .refilled call)]) = entered history ++ [call] := by
    simp [StubSeen.entered?]
  have known : ∀ n ∈ entered history ++ [call], n ∈ called history := by
    intro n member
    obtain member | last := List.mem_append.mp member
    · exact filed.called_of_entered member
    · obtain rfl := List.mem_singleton.mp last
      exact filed.called_of_waiting (by simp [waitingEq])
  refine ⟨once, fun p q before => ?_⟩
  rw [enteredEq]
  obtain earlier | ahead := before.snoc known
  · apply (order.first p q earlier).snoc
    rintro rfl
    by_contra absent
    have ahead := filed.queue p q earlier absent
    rw [waitingEq] at ahead
    exact ahead.head
  · exact ahead

variable [DecidableEq T]

theorem filed_refuse (filed : Filed history s) {t : T} {packet : TalkPacket} :
    Filed (history ++ [(a, .taken s.calls false)]) { s with
      taker := Function.update s.taker t (.refused s.calls packet)
      calls := s.calls + 1 } := by
  have unreturned : s.calls ∉ returned history := fun member => filed.fresh (filed.known _ member)
  have returnedEq : returned (history ++ [(a, .taken s.calls false)]) = returned history := by
    simp [StubSeen.returned?]
  have enteredEq : entered (history ++ [(a, .taken s.calls false)]) = entered history := by
    simp [StubSeen.entered?]
  -- the thread has a new number, and the others have old ones
  have inside_cases : ∀ u n packet',
      Function.update s.taker t (.refused s.calls packet) u = .refused n packet' →
      (u = t ∧ n = s.calls) ∨ (s.taker u = .refused n packet' ∧ n ≠ s.calls) := by
    intro u n packet' inside
    obtain rfl | other := eq_or_ne u t
    · obtain ⟨rfl, -⟩ : s.calls = n ∧ packet = packet' := by simpa using inside
      exact .inl ⟨rfl, rfl⟩
    · rw [Function.update_of_ne other] at inside
      refine .inr ⟨inside, ?_⟩
      rintro rfl
      exact filed.fresh (filed.refused u _ packet' inside).1
  refine ⟨numbered_snoc filed, ?_, ?_, ?_, fun u n packet' inside => ?_,
    fun u v n packet' packet'' first second => ?_, fun p q before absent => ?_⟩
  · rw [returnedEq, called_snoc]
    exact fun n member => List.mem_append_left _ (filed.known n member)
  · rw [returnedEq]
    exact filed.distinct
  · rw [returnedEq, enteredEq]
    exact filed.places
  · rw [returnedEq, called_snoc]
    obtain ⟨-, rfl⟩ | ⟨inside, -⟩ := inside_cases u n packet' inside
    · exact ⟨by simp [StubSeen.called?], unreturned⟩
    · obtain ⟨known, out⟩ := filed.refused u n packet' inside
      exact ⟨List.mem_append_left _ known, out⟩
  · obtain ⟨rfl, new⟩ | ⟨first, old⟩ := inside_cases u n packet' first
    · obtain ⟨rfl, -⟩ | ⟨-, old⟩ := inside_cases v n packet'' second
      · rfl
      · exact absurd new old
    · obtain ⟨-, new⟩ | ⟨second, -⟩ := inside_cases v n packet'' second
      · exact absurd new old
      · exact filed.apart u v n packet' packet'' first second
  · obtain before | ahead := before.snoc fun n => filed.called_of_waiting
    · exact filed.queue p q before (by simpa [StubSeen.entered?] using absent)
    · exact ahead

theorem filed_push (filed : Filed history s) {t : T} {call : Nat} {packet : TalkPacket}
    (inside : s.taker t = .refused call packet) :
    Filed (history ++ [(a, .queued call)]) { s with
      queue := s.queue ++ [(call, packet)]
      taker := Function.update s.taker t .idle } := by
  obtain ⟨begun, out⟩ := filed.refused t call packet inside
  have waitingEq : waiting { s with
      queue := s.queue ++ [(call, packet)]
      taker := Function.update s.taker t .idle } = waiting s ++ [call] := by
    simp [waiting]
  have enteredEq : entered (history ++ [(a, .queued call)]) = entered history := by
    simp [StubSeen.entered?]
  have calledEq : called (history ++ [(a, .queued call)]) = called history := by
    simp [StubSeen.called?]
  have still : ∀ u n packet', Function.update s.taker t .idle u = .refused n packet' →
      u ≠ t ∧ s.taker u = .refused n packet' := by
    intro u n packet' here
    obtain rfl | other := eq_or_ne u t
    · simp at here
    · rw [Function.update_of_ne other] at here
      exact ⟨other, here⟩
  have known : ∀ n ∈ waiting s ++ [call], n ∈ called history := by
    intro n member
    obtain member | same := List.mem_append.mp member
    · exact filed.called_of_waiting member
    · obtain rfl := List.mem_singleton.mp same
      exact begun
  refine ⟨?_, ?_, ?_, ?_, fun u n packet' now => ?_,
    fun u v n packet' packet'' first second => ?_, fun p q before absent => ?_⟩
  · rw [calledEq]
    exact filed.numbered
  · rw [calledEq, returned_snoc]
    exact List.append_subset.mpr ⟨filed.known, by simpa [StubSeen.returned?] using begun⟩
  · rw [returned_snoc]
    exact filed.distinct.append (List.nodup_singleton _) (List.disjoint_singleton.mpr out)
  · rw [returned_snoc, enteredEq, waitingEq, ← List.append_assoc]
    exact filed.places.append_right _
  · obtain ⟨other, here⟩ := still u n packet' now
    obtain ⟨known, absent⟩ := filed.refused u n packet' here
    rw [calledEq, returned_snoc]
    refine ⟨known, fun member => ?_⟩
    obtain member | same := List.mem_append.mp member
    · exact absent member
    · obtain rfl : n = call := by simpa [StubSeen.returned?] using same
      exact other (filed.apart u t n packet' packet here inside)
  · exact filed.apart u v n packet' packet'' (still u n packet' first).2
      (still v n packet'' second).2
  · rw [waitingEq]
    rw [enteredEq] at absent
    obtain before | ahead := before.snoc known
    · apply (filed.queue p q before absent).snoc
      intro _
      have back := filed.places.symm.subset before.returned
      exact (List.mem_append.mp back).resolve_left absent
    · exact ahead

omit [DecidableEq T] in
theorem filed_refill (filed : Filed history s) {call : Nat} {packet : TalkPacket}
    {rest : List (Nat × TalkPacket)} {slot : OutSlot} (front : s.queue = (call, packet) :: rest) :
    Filed (history ++ [(a, .refilled call)]) { s with
      slot, queue := rest, refill := .writing } := by
  have waitingEq : waiting s = call :: rest.map Prod.fst := by simp [waiting, front]
  have places := filed.places
  rw [waitingEq] at places
  refine ⟨?_, ?_, ?_, ?_, ?_, filed.apart, fun p q before absent => ?_⟩
  · simpa [StubSeen.called?] using filed.numbered
  · simpa [StubSeen.called?, StubSeen.returned?] using filed.known
  · simpa [StubSeen.returned?] using filed.distinct
  · simpa [StubSeen.returned?, StubSeen.entered?, waiting] using places
  · simpa [StubSeen.called?, StubSeen.returned?] using filed.refused
  · rw [entered_snoc] at absent
    obtain ⟨absent, other⟩ : p ∉ entered history ∧ p ≠ call := by
      simpa [StubSeen.entered?] using absent
    obtain before | ahead := before.snoc fun n => filed.called_of_waiting
    · have ahead := filed.queue p q before absent
      rw [waitingEq] at ahead
      exact ahead.tail other
    · rw [waitingEq] at ahead
      exact ahead.tail other

theorem filed_step (filed : Filed history s) (effect : Effect s a o s') :
    Filed (history ++ [(a, o)]) s' := by
  cases effect with
  | accept outside free full => exact filed_accept filed
  | refuse outside busy => exact filed_refuse filed
  | push inside unlocked => exact filed_push filed inside
  | refill turn front full => exact filed_refill filed front
  | lock | write | keep => exact filed_quiet filed rfl rfl rfl rfl rfl rfl

/-- The packets stay in order exactly if no `take` gets in front of the queue. -/
theorem inOrder_step_iff (order : InOrder history) (filed : Filed history s)
    (effect : Effect s a o s') : InOrder (history ++ [(a, o)]) ↔ s.Patient a = true := by
  have next := filed_step filed effect
  have once : (entered (history ++ [(a, o)])).Nodup :=
    (List.nodup_append.mp (next.places.nodup_iff.mpr next.distinct)).1
  have unmoved : StubSeen.entered? o = none → InOrder (history ++ [(a, o)]) := by
    intro none
    have enteredEq : entered (history ++ [(a, o)]) = entered history := by simp [none]
    refine ⟨once, fun p q before => ?_⟩
    rw [enteredEq]
    obtain before | ahead := before.snoc fun n => filed.called_of_entered
    · exact order.first p q before
    · exact ahead
  cases effect with
  | accept outside free full => exact inOrder_accept_iff order filed once free
  | refuse outside busy =>
    exact iff_of_true (unmoved rfl) (by simp [Patient, busy])
  | push inside unlocked => exact iff_of_true (unmoved rfl) rfl
  | refill turn front full => exact iff_of_true (inOrder_refill order filed once front) rfl
  | lock | write | keep => exact iff_of_true (unmoved rfl) rfl

/-- In a run, every packet enters the slot once, after the packets of the calls that had
returned before, in every state reached exactly if no `take` finds the slot free and the queue
not empty. -/
theorem run_inOrder_iff {outBuf : TalkPacket} (run : (machine T).Run (new T outBuf) history s) :
    (machine T).Throughout (new T outBuf) (fun history _ => InOrder history) history ↔
      (machine T).BeforeEach (new T outBuf) (fun _ s a => s.Patient a = true) history := by
  apply run.throughout_iff (I := Filed)
  · exact ⟨.nil, fun p q before => ahead_of_notMem (by simp [entered])⟩
  · exact ⟨nofun, nofun, .nil, .refl _, nofun, nofun,
      fun p q _ _ => ahead_of_notMem (by simp [waiting, new])⟩
  · intro history t a o u _ filed step
    exact filed_step filed (effect_of_step step)
  · intro history t a o u order filed step
    exact inOrder_step_iff order filed (effect_of_step step)

/-- A packet goes through the queue, and the next one comes behind it. -/
theorem run_inOrder_iff_three : ∃ history s,
    (machine (Fin 2)).Run (new (Fin 2) (plain 0)) history s ∧ entered history = [0, 1, 2] ∧
      ((machine (Fin 2)).Throughout (new (Fin 2) (plain 0))
          (fun history _ => InOrder history) history ↔
        (machine (Fin 2)).BeforeEach (new (Fin 2) (plain 0))
          (fun _ s a => s.Patient a = true) history) := by
  have executed : ∃ history s, (machine (Fin 2)).exec (new (Fin 2) (plain 0))
      [.take 0 (plain 1), .take 1 (plain 2), .push 1, .lock,
        .handleWrite [.sent 4, .interrupted, .sent 6], .sendFront, .handleWrite [.sent 10],
        .take 0 (plain 3)] = some (history, s) ∧ entered history = [0, 1, 2] :=
    ⟨_, _, rfl, by decide⟩
  obtain ⟨history, s, computed, slots⟩ := executed
  have run := Machine.run_of_exec computed
  exact ⟨history, s, run, slots, run_inOrder_iff run⟩

/-- Between the end of a transmission and the packet from the queue, another thread finds the
slot free. -/
theorem queue_overtaken : ∃ history s,
    (machine (Fin 2)).Run (new (Fin 2) (plain 0)) history s ∧ entered history = [0, 2] ∧
      waiting s = [1] ∧ Before history 1 2 ∧ ¬ InOrder history := by
  have executed : ∃ history s, (machine (Fin 2)).exec (new (Fin 2) (plain 0))
      [.take 0 (plain 1), .take 1 (plain 2), .push 1, .lock,
        .handleWrite [.sent 10], .take 0 (plain 3)] = some (history, s) ∧
      entered history = [0, 2] ∧ waiting s = [1] ∧ 1 ∈ returned (history.take 3) ∧
        2 ∉ called (history.take 3) := ⟨_, _, rfl, by decide⟩
  obtain ⟨history, s, computed, slots, queued, back, yet⟩ := executed
  have before : Before history 1 2 := ⟨_, List.take_prefix 3 history, back, yet⟩
  refine ⟨history, s, Machine.run_of_exec computed, slots, queued, before, fun order => ?_⟩
  have inside := order.first 1 2 before [0] [] slots
  simp at inside

end Steps

end Crs.Ude.ClientStub
