import Crs.Foundation.UrgentQueue
import Crs.Ude.Requests

/-!
# The order in which packets are sent

`_post` puts a fast packet in front of the outbox and any other one behind it, and
`proceed_request` takes packets from the front. So fast packets overtake the others, and
each other too: of two that wait at the same time, the one that was posted later is sent
first.

`_post` is called from any thread, and every `_send` succeeds. A thread that has taken a
packet out calls `_send` with it before another one takes the next packet.
-/

namespace Crs.Ude

open Foundation

namespace DeviceManager

/-- The bit idFast is set in the header. -/
def isFast (packet : TalkPacket) : Bool :=
  packet.header.any fun hdr => hdr.idCheckBits PacketHeader.idFast

/-- A packet is posted, a call of `proceed_request` begins, or its `_send` returns. -/
inductive SendAction where
  | post (packet : TalkPacket)
  | begin
  | finish (packet : TalkPacket)

/-- The outbox between the threads that post and those that send. -/
def sending : Machine Requests SendAction RequestSeen where
  step s
    | .post packet => (post s.outbox packet).map fun outbox =>
        (.posted packet, { s with outbox })
    | .begin => some (proceedRequest s)
    | .finish packet =>
        if packet ∈ s.transit then
          some (.returned packet true (!s.outbox.isEmpty),
            { s with transit := s.transit.erase packet })
        else none

/-- The packets that were posted, in this order. -/
def postedIn (history : List (SendAction × RequestSeen)) : List TalkPacket :=
  history.filterMap fun event => match event.2 with
    | .posted packet => some packet
    | .delivered | .empty | .handed _ | .returned _ _ _ => none

/-- The packets that reached `_send`, in this order. -/
def sentIn (history : List (SendAction × RequestSeen)) : List TalkPacket :=
  history.filterMap fun event => match event.2 with
    | .handed packet => some packet
    | .posted _ | .delivered | .empty | .returned _ _ _ => none

/-- Since a fast packet was posted, no ordinary one has come before it: neither among the
packets that have reached `_send` nor among those of the outbox, which reach it next. -/
def Overtakes (history : List (SendAction × RequestSeen)) (s : Requests) : Prop :=
  ∀ earlier packet o later, history = earlier ++ (.post packet, o) :: later →
    isFast packet = true → UrgentQueue.Leads isFast packet (sentIn later ++ s.outbox)

/-- The packets of one class that have reached `_send`, followed by those of the outbox, are
those that were posted, in this order. -/
def KeepsClass (fast : Bool) (history : List (SendAction × RequestSeen)) (s : Requests) : Prop :=
  UrgentQueue.ofClass isFast fast (sentIn history ++ s.outbox) =
    UrgentQueue.ofClass isFast fast (postedIn history)

/-- Each class is in the order in which it was posted, and fast packets overtake the others. -/
structure InOrder (history : List (SendAction × RequestSeen)) (s : Requests) : Prop where
  classes : ∀ fast, KeepsClass fast history s
  overtakes : Overtakes history s

/-- A fast packet is posted while no other fast packet is in the outbox. -/
def Alone (s : Requests) : SendAction → Prop
  | .post packet => isFast packet = true → ∀ other ∈ s.outbox, isFast other = true → other = packet
  | .begin | .finish _ => True

instance (s : Requests) (a : SendAction) : Decidable (Alone s a) :=
  match a with
  | .post _ => inferInstanceAs (Decidable (_ → _))
  | .begin | .finish _ => inferInstanceAs (Decidable True)

section Steps

variable {history : List (SendAction × RequestSeen)} {s s' : Requests} {a : SendAction}
  {o : RequestSeen} {packet : TalkPacket} {outbox outbox' : List TalkPacket}

theorem post_eq_insert (posted : post outbox packet = some outbox') :
    outbox' = UrgentQueue.insert isFast outbox packet := by
  simp only [post, Option.bind_eq_bind, Option.bind_eq_some_iff] at posted
  obtain ⟨hdr, header, placed⟩ := posted
  rw [UrgentQueue.insert, isFast, header, Option.any_some]
  split at placed
  · rename_i fast
    rw [if_pos fast]
    exact (Option.some.inj placed).symm
  · rename_i slow
    rw [if_neg slow]
    exact (Option.some.inj placed).symm

/-- What a step does: it posts, or the packets sent and those of the outbox stay as they are. -/
theorem sending_cases (step : sending.step s a = some (o, s')) :
    (∃ packet, a = .post packet ∧ o = .posted packet ∧
      s'.outbox = UrgentQueue.insert isFast s.outbox packet) ∨
    (∀ packet, a ≠ .post packet) ∧ postedIn [(a, o)] = [] ∧
      sentIn [(a, o)] ++ s'.outbox = s.outbox := by
  cases a with
  | post packet =>
      obtain ⟨outbox, posted, result⟩ := Option.map_eq_some_iff.mp step
      obtain ⟨rfl, rfl⟩ := Prod.mk.inj result
      exact .inl ⟨packet, rfl, rfl, post_eq_insert posted⟩
  | begin =>
      refine .inr ⟨fun _ same => (by cases same), ?_⟩
      cases first : s.outbox with
      | nil =>
          obtain ⟨rfl, rfl⟩ := by simpa [sending, proceedRequest, first] using step
          exact ⟨rfl, first⟩
      | cons packet rest =>
          obtain ⟨rfl, rfl⟩ := by simpa [sending, proceedRequest, first] using step
          exact ⟨rfl, rfl⟩
  | finish packet =>
      simp only [sending] at step
      split at step
      · obtain ⟨rfl, rfl⟩ := Prod.mk.inj (Option.some.inj step)
        exact .inr ⟨fun _ same => (by cases same), rfl, rfl⟩
      · cases step

theorem postedIn_append (history later : List (SendAction × RequestSeen)) :
    postedIn (history ++ later) = postedIn history ++ postedIn later :=
  List.filterMap_append

theorem sentIn_append (history later : List (SendAction × RequestSeen)) :
    sentIn (history ++ later) = sentIn history ++ sentIn later :=
  List.filterMap_append

/-- A history that ends in a step, split at an earlier one. -/
theorem split_snoc {earlier later : List (SendAction × RequestSeen)}
    {event last : SendAction × RequestSeen} (same : history ++ [last] = earlier ++ event :: later) :
    (earlier = history ∧ event = last ∧ later = []) ∨
      ∃ middle, later = middle ++ [last] ∧ history = earlier ++ event :: middle := by
  obtain rfl | ⟨middle, back, rfl⟩ := List.eq_nil_or_concat later
  · obtain ⟨rfl, rfl⟩ := by simpa using List.append_inj' same rfl
    exact .inl ⟨rfl, rfl, rfl⟩
  · rw [List.concat_eq_append] at same ⊢
    rw [← List.cons_append, ← List.append_assoc] at same
    obtain ⟨rfl, last⟩ := List.append_inj' same rfl
    obtain rfl : back = _ := by simpa using last.symm
    exact .inr ⟨middle, rfl, rfl⟩

/-- Fast packets overtake the others in every step. -/
theorem step_overtakes (held : Overtakes history s) (step : sending.step s a = some (o, s')) :
    Overtakes (history ++ [(a, o)]) s' := by
  intro earlier p o' later same fast
  obtain ⟨packet, rfl, rfl, outbox⟩ | ⟨none, -, moved⟩ := sending_cases step
  · obtain ⟨rfl, last, rfl⟩ | ⟨middle, rfl, before⟩ := split_snoc same
    · obtain ⟨⟨⟩, rfl⟩ := Prod.mk.inj last
      rw [outbox]
      exact UrgentQueue.leads_insert_self fast
    · have nothing : sentIn [(SendAction.post packet, RequestSeen.posted packet)] = [] := rfl
      rw [sentIn_append, nothing, List.append_nil, outbox]
      exact (held earlier p o' middle before fast).insert packet
  · obtain ⟨rfl, last, rfl⟩ | ⟨middle, rfl, before⟩ := split_snoc same
    · exact absurd (Prod.mk.inj last).1.symm (none p)
    · rw [sentIn_append, List.append_assoc, moved]
      exact held earlier p o' middle before fast

/-- What a post does to a class. -/
theorem keepsClass_post (fast : Bool) (outbox : s'.outbox =
    UrgentQueue.insert isFast s.outbox packet) :
    KeepsClass fast (history ++ [(.post packet, .posted packet)]) s' ↔
      UrgentQueue.ofClass isFast fast
          (sentIn history ++ UrgentQueue.insert isFast s.outbox packet) =
        UrgentQueue.ofClass isFast fast (postedIn history ++ [packet]) := by
  have nothing : sentIn [(SendAction.post packet, RequestSeen.posted packet)] = [] := rfl
  have itself : postedIn [(SendAction.post packet, RequestSeen.posted packet)] = [packet] := rfl
  rw [KeepsClass, sentIn_append, postedIn_append, nothing, itself, List.append_nil, outbox]

/-- Other steps leave a class as it is. -/
theorem keepsClass_moved (fast : Bool) (posted : postedIn [(a, o)] = [])
    (moved : sentIn [(a, o)] ++ s'.outbox = s.outbox) :
    KeepsClass fast (history ++ [(a, o)]) s' ↔ KeepsClass fast history s := by
  rw [KeepsClass, sentIn_append, postedIn_append, posted, List.append_nil, List.append_assoc,
    moved, KeepsClass]

/-- The ordinary packets keep their order in every step. -/
theorem step_ordinary (held : KeepsClass false history s)
    (step : sending.step s a = some (o, s')) : KeepsClass false (history ++ [(a, o)]) s' := by
  obtain ⟨packet, rfl, rfl, outbox⟩ | ⟨-, posted, moved⟩ := sending_cases step
  · rw [keepsClass_post false outbox, UrgentQueue.ofClass_append,
      UrgentQueue.ofClass_false_insert, ← UrgentQueue.ofClass_append, ← List.append_assoc,
      UrgentQueue.ofClass_append, UrgentQueue.ofClass_append _ _ (postedIn history)]
    exact congrArg (· ++ _) held
  · exact (keepsClass_moved false posted moved).mpr held

/-- A step keeps the order exactly if a fast packet that it posts is alone. -/
theorem step_inOrder_iff (held : InOrder history s) (step : sending.step s a = some (o, s')) :
    InOrder (history ++ [(a, o)]) s' ↔ Alone s a := by
  have overtakes := step_overtakes held.overtakes step
  obtain ⟨packet, rfl, rfl, outbox⟩ | ⟨none, posted, moved⟩ := sending_cases step
  · rw [Alone, ← UrgentQueue.ofClass_insert_iff held.classes]
    constructor
    · exact fun after fast => (keepsClass_post fast outbox).mp (after.classes fast)
    · exact fun classes => ⟨fun fast => (keepsClass_post fast outbox).mpr (classes fast), overtakes⟩
  · have trivially : Alone s a := by
      cases a with
      | post packet => exact absurd rfl (none packet)
      | begin | finish => trivial
    refine iff_of_true ⟨fun fast => ?_, overtakes⟩ trivially
    exact (keepsClass_moved fast posted moved).mpr (held.classes fast)

end Steps

/-- In every run the ordinary packets are sent in the order in which they were posted, and
fast packets before them. -/
theorem run_overtakes {history : List (SendAction × RequestSeen)} {s : Requests}
    (run : sending.Run {} history s) : KeepsClass false history s ∧ Overtakes history s := by
  apply run.invariant (P := fun history s => KeepsClass false history s ∧ Overtakes history s)
  · exact ⟨rfl, fun earlier packet o later same => by simp at same⟩
  · intro history t a o u _ held step
    exact ⟨step_ordinary held.1 step, step_overtakes held.2 step⟩

/-- In every state of a run, each class is sent in the order in which it was posted, and
fast packets before the others, exactly if each fast packet of the run was posted while no
other one was in the outbox. -/
theorem run_classesInOrder_iff {history : List (SendAction × RequestSeen)} {s : Requests}
    (run : sending.Run {} history s) :
    sending.Throughout {} InOrder history ↔
      sending.BeforeEach {} (fun _ s a => Alone s a) history := by
  apply run.throughout_iff (I := fun _ _ => True)
  · exact ⟨fun _ => rfl, fun earlier packet o later same => by simp at same⟩
  · trivial
  · intro history t a o u _ _ _
    trivial
  · intro history t a o u held _ step
    exact step_inOrder_iff held step

/-- A packet without contents, for the device manager of the server. -/
private def fast : TalkPacket := ⟨10, [0, 0, 0, 0, 0, 1, 8, 0x80, 0, 0]⟩

/-- The next one differs in its recepient. -/
private def nextFast : TalkPacket := ⟨10, [0, 0, 0, 0, 0, 1, 8, 0x80, 1, 0]⟩

private def ordinary : TalkPacket := ⟨10, [0, 0, 0, 0, 0, 0, 8, 0x80, 0, 0]⟩

/-- A fast packet overtakes an ordinary one, and the next one is posted when it is gone. -/
theorem run_classesInOrder_fast : ∃ (history : List (SendAction × RequestSeen)) (s : Requests),
    sending.Run {} history s ∧ sentIn history = [fast, nextFast, ordinary] ∧
      sending.Throughout {} InOrder history := by
  have executed : ∃ (history : List (SendAction × RequestSeen)) (s : Requests),
      (sending.guard Alone).exec {} [.post ordinary, .post fast, .begin, .post nextFast, .begin,
        .finish fast, .begin] = some (history, s) ∧
        sentIn history = [fast, nextFast, ordinary] :=
    ⟨_, _, rfl, rfl⟩
  obtain ⟨history, s, computed, sent⟩ := executed
  obtain ⟨run, alone⟩ := Machine.run_of_guard (Machine.run_of_exec computed)
  exact ⟨history, s, run, sent, (run_classesInOrder_iff run).mpr alone⟩

/-- Two fast packets are posted before the first one is sent. -/
theorem fast_packets_reversed :
    ¬ ∀ (history : List (SendAction × RequestSeen)) (s : Requests),
      sending.Run {} history s → InOrder history s := by
  intro always
  have executed : ∃ (history : List (SendAction × RequestSeen)) (s : Requests),
      sending.exec {} [.post fast, .post nextFast, .begin, .finish nextFast, .begin] =
        some (history, s) ∧ sentIn history = [nextFast, fast] ∧
        postedIn history = [fast, nextFast] ∧ s.outbox = [] :=
    ⟨_, _, rfl, rfl, rfl, rfl⟩
  obtain ⟨history, s, computed, sent, posted, empty⟩ := executed
  have classes := (always history s (Machine.run_of_exec computed)).classes true
  rw [KeepsClass, sent, posted, empty] at classes
  exact absurd classes (by decide)

end DeviceManager

end Crs.Ude
